import ComponentConverter.Text.Span

namespace ComponentConverter

namespace Diagnostic

inductive Code where
  | invalidDefaultExport
  | nonIdentifierKey
  | unexpectedMember
  | unknownOption
  | invalidOption
  | unexpectedProp
  | propValidatorIgnored
  | dataTooComplex
  | unsupportedComputed
  | notAFunction
  | unknownScriptNode
  | recoveredScriptError
  | htmlChildrenIgnored
  | unsupportedStyleLang
  | unparsedStyle
  deriving Repr, DecidableEq

namespace Code

def all : List Code :=
  [.invalidDefaultExport, .nonIdentifierKey, .unexpectedMember, .unknownOption, .invalidOption,
    .unexpectedProp, .propValidatorIgnored, .dataTooComplex, .unsupportedComputed, .notAFunction,
    .unknownScriptNode, .recoveredScriptError, .htmlChildrenIgnored, .unsupportedStyleLang,
    .unparsedStyle]

def name : Code → String
  | .invalidDefaultExport => "invalid-default-export"
  | .nonIdentifierKey => "non-identifier-key"
  | .unexpectedMember => "unexpected-member"
  | .unknownOption => "unknown-option"
  | .invalidOption => "invalid-option"
  | .unexpectedProp => "unexpected-prop"
  | .propValidatorIgnored => "prop-validator-ignored"
  | .dataTooComplex => "data-too-complex"
  | .unsupportedComputed => "unsupported-computed"
  | .notAFunction => "not-a-function"
  | .unknownScriptNode => "unknown-script-node"
  | .recoveredScriptError => "recovered-script-error"
  | .htmlChildrenIgnored => "html-children-ignored"
  | .unsupportedStyleLang => "unsupported-style-lang"
  | .unparsedStyle => "unparsed-style"

def ofName? (name : String) : Option Code := all.find? (·.name == name)

end Code

inductive Severity where
  | warning
  | error
  deriving Repr, DecidableEq

def Severity.name : Severity → String
  | .warning => "warning"
  | .error => "error"

end Diagnostic

structure Diagnostic where
  code : Diagnostic.Code
  severity : Diagnostic.Severity
  message : Text
  span : Option Span
  deriving Repr, DecidableEq

namespace Diagnostic

def warning (code : Code) (message : Text) (span : Option Span) : Diagnostic := ⟨code, .warning, message, span⟩

end Diagnostic

structure Noted (α : Type) where
  value : α
  notes : List Diagnostic
  deriving Repr

namespace Noted

def map {α β : Type} (f : α → β) (x : Noted α) : Noted β := ⟨f x.value, x.notes⟩

def bind {α β : Type} (x : Noted α) (f : α → Noted β) : Noted β :=
  let y := f x.value
  ⟨y.value, x.notes ++ y.notes⟩

instance : Monad Noted where
  pure a := ⟨a, []⟩
  bind := bind
  map := map

def note (d : Diagnostic) : Noted Unit := ⟨(), [d]⟩

def traverse {α β : Type} (f : α → Noted β) : List α → Noted (List β)
  | [] => pure []
  | a :: as => do return (← f a) :: (← traverse f as)

end Noted

end ComponentConverter
