import ComponentConverter.Stylesheet.Property.Name
import ComponentConverter.Stylesheet.Strict

namespace ComponentConverter.Stylesheet

/-- A condition on what is supported. A declaration holds the marks of makers it is tried with. -/
inductive Support where
  | declaration (marks : List Text) (name value : Text)
  | kept (text : Text)
  | negation (s : Support)
  | all (ss : List Support)
  | any (ss : List Support)
  deriving Repr

namespace Support

def markOrder : List Text := ["-webkit-", "-moz-", "-ms-", "-o-", ""].map String.toList

def declarationText (marks : List Text) (name value : Text) : Text :=
  let each := (markOrder.filter marks.contains).map fun m => m ++ name ++ ": " ++ value
  let text := ") or (".toList.intercalate each
  if marks == [[]] then ['('] ++ text ++ [')'] else "((" ++ text ++ "))"

def joinedBy (f : List Support → Support) : List Support → Support
  | [s] => s
  | ss => f ss

def needsBrackets (isAll : Option Bool) : Support → Bool
  | .declaration .. | .kept _ => false
  | .negation _ => true
  | .all _ => isAll != some true
  | .any _ => isAll != some false

def bracketed (isNeeded : Bool) (t : Text) : Text := if isNeeded then ['('] ++ t ++ [')'] else t

mutual

def text : Support → Text
  | .declaration marks name value => declarationText marks name value
  | .kept t => t
  | .negation s => "not " ++ bracketed (s.needsBrackets none) (text s)
  | .all ss => " and ".toList.intercalate (texts true ss)
  | .any ss => " or ".toList.intercalate (texts false ss)

def texts (isAll : Bool) : List Support → List Text
  | [] => []
  | s :: ss => bracketed (s.needsBrackets (some isAll)) (text s) :: texts isAll ss

end

def append (ss : List Support) (s : Support) : List Support :=
  match s with
  | .declaration marks name value =>
    let isLike : Support → Bool
      | .declaration _ n v => n == name && v == value
      | _ => false
    if ss.any isLike then
      ss.map fun other =>
        match other with
        | .declaration ms n v =>
          if n == name && v == value then .declaration (ms ++ marks.filter (!ms.contains ·)) n v else other
        | _ => other
    else ss ++ [s]
  | s => ss ++ [s]

open Strict

def keptSource : Strict Text := do
  let ps ← get
  match firstBroken? ps with
  | some p => failAt (.unexpectedToken p.token) p.stop
  | none =>
    set ([] : List Piece)
    return sourceText ps

def supportedDeclaration : Strict Support := do
  let n ← name
  mark .colon
  skipBlank
  let value ← keptSource
  match knownName? n with
  | some (maker, rest) => return .declaration [maker] rest value
  | none => return .declaration [[]] n value

mutual

def readFrom : Nat → Strict Support
  | 0 => fail .tooDeep
  | fuel + 1 => do
    if (← attempt (word "not")).isSome then return .negation (← inBrackets fuel)
    let first ← inBrackets fuel
    match ← attempt (joined fuel "and") with
    | some second =>
      let rest ← others fuel "and" (← get).length
      return joinedBy .all ((second :: rest).foldl append [first])
    | none =>
      match ← attempt (joined fuel "or") with
      | some second =>
        let rest ← others fuel "or" (← get).length
        return joinedBy .any ((second :: rest).foldl append [first])
      | none => return first

def joined (fuel : Nat) (joiner : String) : Strict Support := do
  word joiner
  inBrackets fuel

def others (fuel : Nat) (joiner : String) : Nat → Strict (List Support)
  | 0 => return []
  | n + 1 => do
    match ← attempt (joined fuel joiner) with
    | some s => return s :: (← others fuel joiner n)
    | none => return []

def inBrackets (fuel : Nat) : Strict Support := do
  skipBlank
  let start ← place
  let p ← next
  let keep (inside : List Piece) : Strict Support := do
    match firstBroken? inside with
    | some b => failAt (.unexpectedToken b.token) b.stop
    | none => return .kept p.source
  match p with
  | .token t => failAt (.unexpectedToken t.token) start
  | .nested h inside stop _ =>
    match h.token with
    | .function f =>
      if sameLetters f "selector" && (firstBroken? inside).isNone then
        return .kept ("selector(" ++ sourceText inside ++ [')'])
      keep inside
    | .opening .round =>
      match ← attempt (within stop inside (block fuel)) with
      | some s => return s
      | none => keep inside
    | t => failAt (.unexpectedToken t) start

def block : Nat → Strict Support
  | 0 => fail .tooDeep
  | fuel + 1 => do
    match ← attempt (readFrom fuel) with
    | some s =>
      if ← isDone then return s
      fail .invalidState
    | none => supportedDeclaration

end

def read : Strict Support := readFrom depthBound

end Support

end ComponentConverter.Stylesheet
