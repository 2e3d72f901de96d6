import ComponentConverter.Stylesheet.Fault

namespace ComponentConverter.Stylesheet

/-- A token, or a function or bracket with what stands inside; `stop` is the place after that, and
`closer` the closing bracket, if there is one. -/
inductive Piece where
  | token (placed : Placed)
  | nested (head : Placed) (inside : List Piece) (stop : Location) (closer : Text)
  deriving Repr

namespace Piece

def head : Piece → Token
  | .token p | .nested p _ _ _ => p.token

def start : Piece → Location
  | .token p | .nested p _ _ _ => p.start

def stop : Piece → Location
  | .token p => p.stop
  | .nested _ _ stop closer => stop.after closer

def isBlank : Piece → Bool
  | .token p => p.token.isBlank
  | .nested .. => false

def isComment : Piece → Bool
  | .token p =>
    match p.token with
    | .comment _ => true
    | _ => false
  | .nested .. => false

def is (t : Token) : Piece → Bool
  | .token p => p.token == t
  | .nested .. => false

def name? : Piece → Option Text
  | .token p =>
    match p.token with
    | .name n => some n
    | _ => none
  | .nested .. => none

def function? : Piece → Option (Text × List Piece)
  | .nested p inside _ _ =>
    match p.token with
    | .function n => some (n, inside)
    | _ => none
  | .token _ => none

def bracket? (b : Bracket) : Piece → Option (List Piece × Location)
  | .nested p inside stop _ => if p.token == .opening b then some (inside, stop) else none
  | .token _ => none

def block? : Piece → Option (List Piece × Location) := bracket? .curly

end Piece

def closerOf : Token → Option Bracket
  | .function _ => some .round
  | .opening b => some b
  | _ => none

/-- A bracket that is open, and the pieces before it, last first. -/
structure OpenBracket where
  head : Placed
  before : List Piece

/-- Groups tokens; `inside` are the pieces since the innermost open bracket, last first. -/
def groupFrom (stop : Location) : List OpenBracket → List Piece → List Placed → List Piece
  | [], inside, [] => inside.reverse
  | frame :: frames, inside, [] =>
    groupFrom stop frames (.nested frame.head inside.reverse stop [] :: frame.before) []
  | frames, inside, p :: ps =>
    match p.token, frames with
    | .closing b, frame :: outer =>
      if closerOf frame.head.token = some b then
        groupFrom stop outer (.nested frame.head inside.reverse p.start p.source :: frame.before) ps
      else groupFrom stop frames (.token p :: inside) ps
    | _, _ =>
      if (closerOf p.token).isSome then groupFrom stop (⟨p, inside⟩ :: frames) [] ps
      else groupFrom stop frames (.token p :: inside) ps
termination_by frames _ ps => (ps.length, frames.length)

def pieces (t : Text) : List Piece × Location :=
  let (placed, stop) := tokens t
  (groupFrom stop [] [] placed, stop)

def placeOf (stop : Location) : List Piece → Location
  | [] => stop
  | p :: _ => p.start

def dropBlank (ps : List Piece) : List Piece := ps.dropWhile Piece.isBlank

def splitAtCommas (stop : Location) : List Piece → List (List Piece × Location)
  | [] => [([], stop)]
  | p :: ps =>
    if p.is .comma then ([], p.start) :: splitAtCommas stop ps
    else
      match splitAtCommas stop ps with
      | [] => [([p], stop)]
      | (part, partStop) :: parts => (p :: part, partStop) :: parts

def gather {σ α : Type} (step : σ → Except Fault (Option (α × σ))) : Nat → σ → Except Fault (List α × σ)
  | 0, s => .ok ([], s)
  | fuel + 1, s => do
    match ← step s with
    | none => return ([], s)
    | some (a, s) =>
      let (as, last) ← gather step fuel s
      return (a :: as, last)

/-- Nothing but white space may be left. What is wrong is told at the place where the rest
starts. -/
def expectEnd (stop : Location) (ps : List Piece) : Except Fault Unit :=
  match dropBlank ps with
  | [] => .ok ()
  | p :: _ => .error ⟨.unexpectedToken p.head, placeOf stop ps⟩

mutual

def Piece.text : Piece → Text
  | .token p => p.token.text
  | .nested p inside _ _ =>
    p.token.text ++ piecesText inside ++ ((closerOf p.token).map Bracket.closer).toList

def piecesText : List Piece → Text
  | [] => []
  | p :: ps => p.text ++ piecesText ps

end

mutual

def Piece.source : Piece → Text
  | .token p => p.source
  | .nested p inside _ closer => p.source ++ sourceText inside ++ closer

def sourceText : List Piece → Text
  | [] => []
  | p :: ps => p.source ++ sourceText ps

end

mutual

/-- The first token inside a piece that no value can hold. -/
def Piece.broken? : Piece → Option Placed
  | .token p => if p.token.isBroken then some p else none
  | .nested _ inside _ _ => firstBroken? inside

def firstBroken? : List Piece → Option Placed
  | [] => none
  | p :: ps => p.broken?.orElse fun _ => firstBroken? ps

end

end ComponentConverter.Stylesheet
