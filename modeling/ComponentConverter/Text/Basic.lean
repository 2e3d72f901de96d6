namespace ComponentConverter

abbrev Text := List Char

instance : Coe String Text := ⟨String.toList⟩

def bytes : Text → Nat
  | [] => 0
  | c :: t => c.utf8Size + bytes t

@[simp]
theorem bytes_nil : bytes [] = 0 := rfl

@[simp]
theorem bytes_cons (c : Char) (t : Text) : bytes (c :: t) = c.utf8Size + bytes t := rfl

@[simp]
theorem bytes_append (s t : Text) : bytes (s ++ t) = bytes s + bytes t := by
  induction s with
  | nil => simp
  | cons c s ih => simp [ih, Nat.add_assoc]

/-- Splits off the first `n` bytes; there is no such split inside a character or past the end. -/
def splitBytes? : Nat → Text → Option (Text × Text)
  | 0, t => some ([], t)
  | _ + 1, [] => none
  | n + 1, c :: t =>
    if c.utf8Size ≤ n + 1 then
      (splitBytes? (n + 1 - c.utf8Size) t).map fun (s, r) => (c :: s, r)
    else none

def after? (pat t : Text) : Option Text :=
  if pat.isPrefixOf t then some (t.drop pat.length) else none

/-- The text before the first occurrence of `pat`, and the text after that occurrence. -/
def breakOn? (pat : Text) : Text → Option (Text × Text)
  | [] => if pat.isEmpty then some ([], []) else none
  | c :: t =>
    if pat.isPrefixOf (c :: t) then some ([], (c :: t).drop pat.length)
    else (breakOn? pat t).map fun (s, r) => (c :: s, r)

def breakOnLast? (x : Char) : Text → Option (Text × Text)
  | [] => none
  | c :: t =>
    match breakOnLast? x t with
    | some (s, r) => some (c :: s, r)
    | none => if c = x then some ([], t) else none

def substitute (x : Char) (by_ : Text) (t : Text) : Text := t.flatMap fun c => if c = x then by_ else [c]

/-- Letters of either case count as equal, ASCII letters only. -/
def sameLetters (s t : Text) : Bool := s.map Char.toLower = t.map Char.toLower

/-- Repeats a step until it stops, at most `fuel` times: the results, and the last state. -/
def exhaust {σ α : Type} (step : σ → Option (α × σ)) : Nat → σ → List α × σ
  | 0, s => ([], s)
  | fuel + 1, s =>
    match step s with
    | none => ([], s)
    | some (a, s') => let (as, last) := exhaust step fuel s'; (a :: as, last)

end ComponentConverter
