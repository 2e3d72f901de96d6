import ComponentConverter.Stylesheet.Declaration
import ComponentConverter.Stylesheet.Feature

namespace ComponentConverter.Stylesheet

namespace Container

open Strict

def features : Feature.Table :=
  [("width", .length), ("height", .length), ("inline-size", .length), ("block-size", .length),
    ("aspect-ratio", .ratio), ("orientation", .word)]

def scrollFeatures : Feature.Table := [("stuck", .word), ("snapped", .word), ("scrollable", .word)]

def property : Strict Condition := do
  let n ← name
  if (← attempt (mark .colon)).isNone then return .bare (propertyName n)
  skipBlank
  let stop ← read
  let ps ← get
  let isValue (p : Piece) : Bool := !p.is (.mark '!')
  let value := ps.takeWhile isValue
  let after := ps.drop value.length
  let text ← match if after.isEmpty then typedValue? 0 n value else none with
    | some t => pure t
    | none =>
      match rawText (placeOf stop after) value with
      | .ok t => pure t
      | .error fault => throw fault
  set after
  let _ ← attempt do
    mark (.mark '!')
    word "important"
  return .bare (propertyName n ++ ": " ++ text)

def inFunction (f : String) (g : Condition.Grammar) : Strict Condition := do
  let c ← match ← attempt (Condition.read g true) with
    | some c => pure c
    | none => g.feature
  return .feature (f.toList ++ ['('] ++ c.text ++ [')'])


def scrollState : Strict Condition := do
  let c ← match ← attempt (Condition.read ⟨Feature.read scrollFeatures, fun _ => none⟩ true) with
    | some c => pure c
    | none => Feature.read scrollFeatures
  let isNeeded := match c with
    | .feature _ => false
    | _ => true
  return .feature ("scroll-state" ++ Condition.bracketed isNeeded c.text)

def grammar : Condition.Grammar :=
  ⟨Feature.read features, fun f =>
    match String.ofList f with
    | "style" => some (inFunction "style" ⟨property, fun _ => none⟩)
    | "scroll-state" => some scrollState
    | _ => none⟩

def containerName : Strict Text := expect fun p => (p.name?).filter fun n =>
  !(isReserved n || ["none", "and", "not", "or"].any (sameLetters ·.toList n))

def head : Strict Text := do
  let n ← attempt containerName
  if n.isSome && (← isDone) then return identifierText (n.getD [])
  let c ← Condition.read grammar true
  return spaced ((n.map identifierText).toList ++ [c.text])

end Container

end ComponentConverter.Stylesheet
