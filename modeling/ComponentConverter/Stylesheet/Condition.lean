import ComponentConverter.Stylesheet.Strict

namespace ComponentConverter.Stylesheet

/-- A condition. What is not a feature of its own is put in brackets inside others. -/
inductive Condition where
  | feature (text : Text)
  | bare (text : Text)
  | negation (c : Condition)
  | operation (isOr : Bool) (cs : List Condition)
  deriving Repr

namespace Condition

def needsBrackets (parent : Option Bool) : Condition → Bool
  | .feature _ => false
  | .bare _ => true
  | .negation _ => true
  | .operation isOr _ => parent != some isOr

def bracketed (isNeeded : Bool) (t : Text) : Text := if isNeeded then ['('] ++ t ++ [')'] else t

mutual

def text : Condition → Text
  | .feature t | .bare t => t
  | .negation c => "not " ++ bracketed (c.needsBrackets none) (text c)
  | .operation isOr cs => (if isOr then " or " else " and ").toList.intercalate (texts isOr cs)

def texts (isOr : Bool) : List Condition → List Text
  | [] => []
  | c :: cs => bracketed (c.needsBrackets (some isOr)) (text c) :: texts isOr cs

end

open Strict

structure Grammar where
  feature : Strict Condition
  function? : Text → Option (Strict Condition)

mutual

def readFrom (g : Grammar) : Nat → Bool → Strict Condition
  | 0, _ => fail .tooDeep
  | fuel + 1, allowsOr => do
    let start ← place
    if (← attempt (word "not")).isSome then return .negation (← part g fuel)
    let first ← part g fuel
    let joiner? ← attempt (expect fun p => (p.name?.map (·.map Char.toLower)).filter fun n =>
      n == "and".toList || n == "or")
    match joiner? with
    | none => return first
    | some joiner =>
      let isOr := joiner == "or"
      if isOr && !allowsOr then failAt (.unexpectedToken (.name joiner)) start
      let second ← part g fuel
      let rest ← others g (String.ofList joiner) fuel (← get).length
      return .operation isOr (first :: second :: rest)

def others (g : Grammar) (joiner : String) : Nat → Nat → Strict (List Condition)
  | _, 0 => return []
  | fuel, n + 1 => do
    if (← attempt (word joiner)).isNone then return []
    let c ← part g fuel
    return c :: (← others g joiner fuel n)

def part (g : Grammar) : Nat → Strict Condition
  | fuel => do
    let start ← place
    let p ← next
    match p with
    | .token t => failAt (.unexpectedToken t.token) start
    | .nested head inside stop _ =>
      match head.token with
      | .opening .round => within stop inside (block g fuel)
      | .function f =>
        match g.function? (f.map Char.toLower) with
        | some r => within stop inside r
        | none => failAt (.unexpectedToken head.token) start
      | t => failAt (.unexpectedToken t) start

def block (g : Grammar) : Nat → Strict Condition
  | 0 => fail .tooDeep
  | fuel + 1 => do
    match ← attempt (readFrom g fuel true) with
    | some c => return c
    | none => g.feature

end

def read (g : Grammar) (allowsOr : Bool) : Strict Condition := readFrom g depthBound allowsOr

end Condition

end ComponentConverter.Stylesheet
