import ComponentConverter.Diagnostic
import ComponentConverter.Script.Cut
import ComponentConverter.Text.Blank

namespace ComponentConverter.Script

structure Source where
  text : Text
  base : Nat
  deriving Repr

/-- A function in the pieces that a declaration or an arrow function is put together from. The
signature holds type parameters, parameters and result type; the body has its braces. -/
structure Callable where
  isAsync : Bool
  isGenerator : Bool
  signature : Text
  body : Text
  deriving Repr, DecidableEq

namespace Callable

def async (f : Callable) : Text := if f.isAsync then "async " else []

def declaration (f : Callable) (name : Text) : Text :=
  f.async ++ "function" ++ (if f.isGenerator then "*".toList else []) ++ " " ++ name ++ f.signature ++ " " ++ f.body

/-- There are no generators among arrow functions, so a generator stays a function. -/
def arrow (f : Callable) : Text :=
  if f.isGenerator then
    f.async ++ "function* " ++ f.signature ++ " " ++ f.body
  else f.async ++ f.signature ++ " => " ++ f.body

end Callable

namespace Source

def textOf (s : Source) (span : Span) : Text := span.slice s.text

def locate (s : Source) (span : Span) : Span := span.move s.base

def warn (s : Source) (code : Diagnostic.Code) (message : Text) (span : Span) : Noted Unit :=
  .note (.warning code message (some (s.locate span)))

def noteUnreadable (s : Source) (findings : List Finding) : Noted Unit :=
  ⟨(), (findings.filterMap Finding.unreadable?).map fun span =>
    .warning .unknownScriptNode
      ("unable to rewrite `" ++ s.textOf span ++ "`, leaving it unchanged")
      (some (s.locate span))⟩

def detached (s : Source) (n : Node) : Noted Text := do
  let found := findings n
  s.noteUnreadable found
  return dedent (without s.text n.span (found.filterMap Finding.cut?))

def headStart : Node → Nat
  | .mk (.method ..) _ (name :: _) | .mk (.functionExpression _ _ true) _ (name :: _) => name.stop
  | n => n.start

/-- Where the parameters of a function are taken to start. -/
def signatureStart (s : Source) (f body : Node) : Nat :=
  let head := s.textOf ⟨headStart f, body.start⟩
  let before := head.takeWhile fun c => c != '(' && c != '<'
  if before.length < head.length then headStart f + bytes before else headStart f

def callable (s : Source) (f body : Node) (isAsync isGenerator : Bool) : Noted Callable := do
  let found := findingsOfFunction f
  s.noteUnreadable found
  let cuts := found.filterMap Finding.cut?
  return {
    isAsync, isGenerator
    signature := trim (without s.text ⟨s.signatureStart f body, body.start⟩ cuts)
    body := dedent (without s.text body.span cuts) }

/-- A method or a function expression in pieces, freed from its instance; a function without
body has none. -/
def callable? (s : Source) (f : Node) : Noted (Option Callable) :=
  match f.body?, f.form with
  | some body, .method isAsync isGenerator
  | some body, .functionExpression isAsync isGenerator _ => (s.callable f body isAsync isGenerator).map some
  | _, _ => pure none

end Source

end ComponentConverter.Script
