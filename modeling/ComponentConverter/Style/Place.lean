import ComponentConverter.Text.Blank

namespace ComponentConverter.Style

inductive Mode where
  | plain
  | quoted (quote : Char)
  | escaped (quote : Char)
  deriving Repr, DecidableEq

def Mode.step : Mode → Char → Mode
  | .plain, c => if c = '"' || c = '\'' then .quoted c else .plain
  | .quoted q, c => if c = '\\' then .escaped q else if c = q then .plain else .quoted q
  | .escaped q, _ => .quoted q

/-- Parentheses and brackets share one count, and one that closes nothing is passed over. -/
structure Place where
  mode : Mode
  depth : Nat
  deriving Repr, DecidableEq

namespace Place

def outside : Place := ⟨.plain, 0⟩

def step (p : Place) (c : Char) : Place :=
  let depth :=
    if p.mode = .plain then
      if c = '(' || c = '[' then p.depth + 1
      else if c = ')' || c = ']' then p.depth - 1
      else p.depth
    else p.depth
  ⟨p.mode.step c, depth⟩

end Place

/-- The text before the first character outside that is one of `stops`, and the text from it
on. -/
def takeUntil (stops : List Char) : Place → Text → Text × Text
  | _, [] => ([], [])
  | p, c :: t =>
    if p = .outside && stops.contains c then ([], c :: t)
    else let (taken, rest) := takeUntil stops (p.step c) t; (c :: taken, rest)

def splitCommas : Place → Text → List Text
  | _, [] => [[]]
  | p, c :: t =>
    if p = .outside && c = ',' then [] :: splitCommas p t
    else
      match splitCommas (p.step c) t with
      | [] => [[c]]
      | part :: parts => (c :: part) :: parts

def takeBody : Mode → Nat → Text → Text × Text
  | _, _, [] => ([], [])
  | .plain, 0, '\x7d' :: t => ([], '\x7d' :: t)
  | mode, depth, c :: t =>
    let inner :=
      if mode = .plain then
        if c = '\x7b' then depth + 1 else if c = '\x7d' then depth - 1 else depth
      else depth
    let (taken, rest) := takeBody (mode.step c) inner t
    (c :: taken, rest)

end ComponentConverter.Style
