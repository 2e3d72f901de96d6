import ComponentConverter.Stylesheet.Piece

namespace ComponentConverter.Stylesheet

variable {α : Type}

abbrev Reader := StateT (List Piece) Option

def depthBound : Nat := 500

namespace Reader

def next : Reader Piece := do
  match dropBlank (← get) with
  | [] => failure
  | p :: ps =>
    set ps
    return p

def isDone : Reader Bool := return (dropBlank (← get)).isEmpty

def run? (r : Reader α) (ps : List Piece) : Option α := do
  let (a, rest) ← StateT.run r ps
  if (dropBlank rest).isEmpty then some a else none

def optional? (r : Reader α) : Reader (Option α) := (some <$> r) <|> pure none

def holds (r : Reader Unit) : Reader Bool := (do r; return true) <|> pure false

def ofOption : Option α → Reader α
  | some a => pure a
  | none => failure

def token : Reader Token := do
  match ← next with
  | .token p => return p.token
  | .nested .. => failure

def name : Reader Text := do
  match ← token with
  | .name n => return n
  | _ => failure

def expect (t : Token) : Reader Unit := do guard ((← token) == t)

def comma : Reader Unit := expect .comma

def slash : Reader Unit := expect (.mark '/')

def word (w : String) : Reader Unit := do guard (sameLetters (← name) w.toList)

def keyword (ws : List String) : Reader Text := do
  let n := (← name).map Char.toLower
  guard (ws.any (·.toList == n))
  return n

def oneOf (ws : String) : Reader Text := keyword (ws.splitOn " ")

def string : Reader Text := do
  match ← token with
  | .string v => return v
  | _ => failure

def bareNumber : Reader Float32 := do
  match ← token with
  | .number n => return n.value
  | _ => failure

def function : Reader (Text × List Piece) := do
  let (n, inside) ← ofOption (← next).function?
  return (n.map Char.toLower, inside)

def call (f : String) (r : Reader α) : Reader α := do
  let (n, inside) ← function
  guard (n == f.toList)
  ofOption (run? r inside)

def bracket (b : Bracket) (r : Reader α) : Reader α := do
  let (inside, _) ← ofOption ((← next).bracket? b)
  ofOption (run? r inside)

def commaList (r : Reader α) : Reader (List α) := do
  let ps ← get
  let parts ← ofOption ((splitAtCommas .start ps).mapM fun (part, _) => run? r part)
  set ([] : List Piece)
  return parts

def stepsFrom {σ : Type} (step : σ → Reader σ) : Nat → σ → Reader σ
  | 0, s => pure s
  | fuel + 1, s => do
    match ← optional? (step s) with
    | some s => stepsFrom step fuel s
    | none => pure s

def steps {σ : Type} (step : σ → Reader σ) (s : σ) : Reader σ := do
  stepsFrom step (← get).length s

def many (r : Reader α) : Reader (List α) := do
  let found ← steps (fun (as : List α) => return (← r) :: as) []
  return found.reverse

def many1 (r : Reader α) : Reader (List α) := do
  let as ← many r
  guard !as.isEmpty
  return as

def fill (place : Option α) (r : Reader α) : Reader (Option α) := do
  guard place.isNone
  return some (← r)

end Reader

/-- Words with a meaning for every property. Authors cannot choose them as names. -/
def reservedWords : List String := ["initial", "inherit", "unset", "default", "revert", "revert-layer"]

def isReserved (n : Text) : Bool := reservedWords.any (sameLetters ·.toList n)

def spaced (parts : List Text) : Text := [' '].intercalate parts

def listed (parts : List Text) : Text := ", ".toList.intercalate parts

def unlessUsual [BEq α] (usual : α) (text : α → Text) (a : α) : List Text :=
  if a == usual then [] else [text a]

end ComponentConverter.Stylesheet
