import ComponentConverter.Stylesheet.Token

namespace ComponentConverter.Stylesheet

inductive Cause where
  | unexpectedToken (token : Token)
  | endOfInput
  | emptySelector
  | danglingCombinator
  | className (token : Token)
  | pseudoName (token : Token)
  | afterPseudoElement (token : Token)
  | attributeName (token : Token)
  | attributeOperator (token : Token)
  | attributeValue (token : Token)
  | lateImport
  | lateNamespace
  | invalidMediaQuery
  | invalidState
  | namespaceName (token : Token)
  | attributeBar (token : Token)
  | attributeLocalName (token : Token)
  | scrollbarState
  | stateAfterScrollbar
  | stateAfterPseudoElement
  | unknownRule (name : Text)
  | tooDeep
  | invalidValue
  | invalidDeclaration
  | invalidBody
  | invalidRule
  | missingOuter
  deriving Repr, DecidableEq

def Cause.message : Cause → String
  | .unexpectedToken t => "Unexpected token " ++ t.describe
  | .endOfInput => "Unexpected end of input"
  | .emptySelector => "Invalid empty selector"
  | .danglingCombinator => "Invalid dangling combinator in selector"
  | .className t => "Expected identifier in class selector, got " ++ t.describe
  | .pseudoName t => "Invalid token in pseudo element: " ++ t.describe
  | .afterPseudoElement t =>
    "Pseudo-elements like '::before' or '::after' can't be followed by selectors like '" ++ t.describe ++ "'"
  | .attributeName t => "No qualified name in attribute selector: " ++ t.describe ++ "."
  | .attributeOperator t => "Unexpected token in attribute selector: " ++ t.describe
  | .attributeValue t => "Invalid value in attribute selector: " ++ t.describe
  | .lateImport =>
    "@import rules must precede all rules aside from @charset and @layer statements"
  | .lateNamespace =>
    "@namespaces rules must precede all rules aside from @charset, @import, and @layer statements"
  | .invalidMediaQuery => "Invalid media query"
  | .invalidState => "Invalid state"
  | .namespaceName t => "Unexpected token in namespace selector: " ++ t.describe
  | .attributeBar t => "Expected | in attribute, got " ++ t.describe
  | .attributeLocalName t => "Invalid qualified name in attribute selector: " ++ t.describe
  | .scrollbarState => "Pseudo class must be prefixed by a ::-webkit-scrollbar pseudo element"
  | .stateAfterScrollbar => "Invalid pseudo class after ::-webkit-scrollbar pseudo element"
  | .stateAfterPseudoElement =>
    "Invalid pseudo class after pseudo element, only user action pseudo classes (e.g. :hover, :active) are allowed"
  | .unknownRule n => "Unknown at rule: @" ++ String.ofList n
  | .tooDeep => "Overflowed the maximum nesting depth"
  | .invalidValue => "Invalid value"
  | .invalidDeclaration => "Invalid declaration"
  | .invalidBody => "Invalid @ rule body"
  | .invalidRule => "Invalid qualified rule"
  | .missingOuter => "A nesting selector (&) is required in each selector of a nested rule"

structure Fault where
  cause : Cause
  place : Location
  deriving Repr, DecidableEq

def Fault.message (f : Fault) : String := s!"{f.cause.message} at component.css:{f.place.line}:{f.place.column}"

end ComponentConverter.Stylesheet
