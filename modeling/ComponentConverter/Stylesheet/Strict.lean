import ComponentConverter.Stylesheet.Reader

namespace ComponentConverter.Stylesheet

abbrev Strict := ReaderT Location (StateT (List Piece) (Except Fault))

namespace Strict

variable {α : Type}

def place : Strict Location := return placeOf (← read) (← get)

def failAt (cause : Cause) (place : Location) : Strict α := throw ⟨cause, place⟩

def fail (cause : Cause) : Strict α := do failAt cause (← place)

def skipBlank : Strict Unit := modify dropBlank

def next : Strict Piece := do
  match dropBlank (← get) with
  | [] =>
    set ([] : List Piece)
    throw ⟨.endOfInput, ← read⟩
  | p :: ps =>
    set ps
    return p

def isDone : Strict Bool := return (dropBlank (← get)).isEmpty

def attempt (r : Strict α) : Strict (Option α) := (some <$> r) <|> pure none

/-- A piece that has to be of some form; what is wrong is told where the reader stood. -/
def expect (f : Piece → Option α) : Strict α := do
  let start ← place
  let p ← next
  match f p with
  | some a => return a
  | none => failAt (.unexpectedToken p.head) start

def name : Strict Text := expect Piece.name?

def word (w : String) : Strict Unit := do
  let _ ← expect fun p => (p.name?).filter (sameLetters w.toList)

def mark (t : Token) : Strict Unit := expect fun p => if p.is t then some () else none

def within (stop : Location) (ps : List Piece) (r : Strict α) : Strict α := do
  match (r.run stop).run ps with
  | .ok (a, rest) =>
    match expectEnd stop rest with
    | .ok () => return a
    | .error fault => throw fault
  | .error fault => throw fault

def value (r : Reader α) : Strict α := do
  let start ← place
  match StateT.run r (← get) with
  | some (a, rest) =>
    set rest
    return a
  | none =>
    let p ← next
    failAt (.unexpectedToken p.head) start

def run? (r : Strict α) (stop : Location) (ps : List Piece) : Except Fault α := do
  let (a, rest) ← (r.run stop).run ps
  expectEnd stop rest
  return a

end Strict

end ComponentConverter.Stylesheet
