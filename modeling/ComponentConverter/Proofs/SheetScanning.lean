import ComponentConverter.Style.Selector

namespace ComponentConverter.Style

/-- What is told apart in a text: the mode after each character, and whether a character that is
met in a mode can be structure. -/
structure Lexis (σ : Type) where
  start : σ
  step : σ → Char → σ
  acts : σ → Char → Bool

/-- Which characters open and close brackets, and what a scan looks for. -/
structure Marks where
  opening : List Char
  closing : List Char
  stop : Text → Bool

def startsWithOne (stops : List Char) : Text → Bool
  | [] => false
  | c :: _ => stops.contains c

namespace Marks

/-- Outside parentheses and brackets, up to one of some characters. -/
def upTo (stops : List Char) : Marks := ⟨['(', '['], [')', ']'], startsWithOne stops⟩

def head : Marks := upTo ['\x7b', ';']

def selector : Marks := upTo [',']

def body : Marks := ⟨['\x7b'], ['\x7d'], startsWithOne ['\x7d']⟩

def reach : Marks := ⟨['(', '['], [')', ']'], fun t => deepCombinators.any (·.isPrefixOf t)⟩

end Marks

namespace Lexis

variable {σ : Type} (L : Lexis σ) (m : Marks)

/-- The state of a scan is a mode and the number of brackets that are open. -/
def next (s : σ × Nat) (c : Char) : σ × Nat :=
  (L.step s.1 c,
    if L.acts s.1 c then
      if m.opening.contains c then s.2 + 1 else if m.closing.contains c then s.2 - 1 else s.2
    else s.2)

def stopsAt (s : σ × Nat) : Text → Bool
  | [] => false
  | c :: t => L.acts s.1 c && s.2 == 0 && m.stop (c :: t)

/-- The text before the first place where a scan stops, and the text from there on. -/
def scan : σ × Nat → Text → Text × Text
  | _, [] => ([], [])
  | s, c :: t =>
    if L.stopsAt m s (c :: t) then ([], c :: t)
    else (c :: (scan (L.next m s c) t).1, (scan (L.next m s c) t).2)

def after (s : σ × Nat) (t : Text) : σ × Nat := t.foldl (L.next m) s

/-- A scan does not stop in a text that `r` follows. -/
def Passes : σ × Nat → Text → Text → Prop
  | _, [], _ => True
  | s, c :: t, r => L.stopsAt m s (c :: (t ++ r)) = false ∧ Passes (L.next m s c) t r

variable {L m} {s : σ × Nat} {t u v r : Text}

@[simp]
theorem after_nil : L.after m s [] = s := rfl

@[simp]
theorem after_cons {c : Char} : L.after m s (c :: t) = L.after m (L.next m s c) t := rfl

theorem after_append : L.after m s (u ++ v) = L.after m (L.after m s u) v := List.foldl_append

theorem passes_append : L.Passes m s (u ++ v) r ↔ L.Passes m s u (v ++ r) ∧ L.Passes m (L.after m s u) v r := by
  induction u generalizing s with
  | nil => simp [Passes]
  | cons c u ih => simp [Passes, ih, and_assoc]

theorem scan_passes (h : L.Passes m s u r) (hr : r ≠ [] → L.stopsAt m (L.after m s u) r = true) :
    L.scan m s (u ++ r) = (u, r) := by
  induction u generalizing s with
  | nil =>
    cases r with
    | nil => rfl
    | cons c r => exact if_pos (hr (List.cons_ne_nil _ _))
  | cons c u ih =>
    rw [List.cons_append, scan, if_neg (by simp [h.1]), ih h.2 hr]

theorem scan_spec (L : Lexis σ) (m : Marks) (s : σ × Nat) (t : Text) : t = (L.scan m s t).1 ++ (L.scan m s t).2 ∧
      L.Passes m s (L.scan m s t).1 (L.scan m s t).2 ∧
      ((L.scan m s t).2 ≠ [] → L.stopsAt m (L.after m s (L.scan m s t).1) (L.scan m s t).2 = true) := by
  induction t generalizing s with
  | nil => simp [scan, Passes]
  | cons c t ih =>
    rw [scan]
    by_cases hs : L.stopsAt m s (c :: t) = true
    · simp [hs, Passes]
    · obtain ⟨ht, hp, hstop⟩ := ih (L.next m s c)
      rw [if_neg hs]
      refine ⟨congrArg (List.cons c) ht, ⟨?_, hp⟩, hstop⟩
      rw [← ht]
      simpa using hs

theorem scan_eq_iff : L.scan m s t = (u, r) ↔
      t = u ++ r ∧ L.Passes m s u r ∧ (r ≠ [] → L.stopsAt m (L.after m s u) r = true) := by
  constructor
  · intro h
    have hspec := scan_spec L m s t
    rw [h] at hspec
    exact hspec
  · rintro ⟨rfl, hp, hr⟩
    exact scan_passes hp hr

theorem scan_append (L : Lexis σ) (m : Marks) (s : σ × Nat) (t : Text) :
    (L.scan m s t).1 ++ (L.scan m s t).2 = t := (scan_spec L m s t).1.symm

theorem scan_append_of_passes (h : L.Passes m s u v) :
    L.scan m s (u ++ v) = (u ++ (L.scan m (L.after m s u) v).1, (L.scan m (L.after m s u) v).2) := by
  induction u generalizing s with
  | nil => rfl
  | cons c u ih =>
    rw [List.cons_append, scan, if_neg (by simp [h.1]), ih h.2]
    rfl

theorem mem_of_scan_eq {stops : List Char} {c : Char} (hm : m.stop = startsWithOne stops)
    (h : L.scan m s t = (u, c :: r)) : c ∈ stops := by
  have hstop := (scan_eq_iff.mp h).2.2 (List.cons_ne_nil c r)
  rw [stopsAt, hm, Bool.and_eq_true] at hstop
  simpa [startsWithOne] using hstop.2

/-- Strings are known, escapes outside strings and comments are not. -/
def literal : Lexis Mode := ⟨.plain, Mode.step, fun mode _ => mode == .plain⟩

def outside (L : Lexis σ) : σ × Nat := (L.start, 0)

end Lexis

def Place.state (p : Place) : Mode × Nat := (p.mode, p.depth)

open Lexis

theorem next_state {m : Marks} (ho : m.opening = ['(', '[']) (hc : m.closing = [')', ']'])
    (p : Place) (c : Char) : literal.next m p.state c = (p.step c).state := by
  by_cases hp : p.mode = .plain <;> simp [next, literal, ho, hc, Place.state, Place.step, hp]

theorem stopsAt_state (m : Marks) (p : Place) (c : Char) (t : Text) :
    literal.stopsAt m p.state (c :: t) = (p = .outside && m.stop (c :: t)) := by
  obtain ⟨mode, depth⟩ := p
  by_cases hm : mode = .plain <;> by_cases hd : depth = 0 <;>
    simp [stopsAt, literal, Place.state, Place.outside, hm, hd]

theorem takeUntil_eq_scan (stops : List Char) (p : Place) (t : Text) :
    takeUntil stops p t = literal.scan (.upTo stops) p.state t := by
  induction t generalizing p with
  | nil => rfl
  | cons c t ih =>
    rw [takeUntil, scan, stopsAt_state, next_state rfl rfl, ← ih]
    rfl

theorem takeBody_eq_scan (mode : Mode) (depth : Nat) (t : Text) :
    takeBody mode depth t = literal.scan .body (mode, depth) t := by
  induction t generalizing mode depth with
  | nil => rfl
  | cons c t ih =>
    by_cases hstop : mode = .plain ∧ depth = 0 ∧ c = '\x7d'
    · obtain ⟨rfl, rfl, rfl⟩ := hstop
      rfl
    · have hs : literal.stopsAt .body (mode, depth) (c :: t) = false := by
        simpa [stopsAt, literal, Marks.body, startsWithOne, and_assoc] using hstop
      have hnext : literal.next .body (mode, depth) c = (mode.step c, if mode = .plain then
            if c = '\x7b' then depth + 1 else if c = '\x7d' then depth - 1 else depth
            else depth) := by
        simp [next, literal, Marks.body]
      rw [scan, if_neg (by simp [hs]), hnext, ← ih, takeBody]
      intro hm hd hc
      exact hstop ⟨hm, hd, hc⟩

def deepAt? (t : Text) : Option Text := deepCombinators.find? (·.isPrefixOf t)

theorem mem_of_deepAt? {t combinator : Text} (h : deepAt? t = some combinator) :
    combinator ∈ deepCombinators ∧ ∃ r, t = combinator ++ r := by
  refine ⟨List.mem_of_find?_eq_some h, ?_⟩
  have hp : combinator <+: t := by simpa using List.find?_some h
  obtain ⟨r, hr⟩ := hp
  exact ⟨r, hr.symm⟩

theorem stop_reach (t : Text) : Marks.reach.stop t = (deepAt? t).isSome := by
  rw [deepAt?, List.isSome_find?]
  rfl

theorem breakOnDeep?_eq_scan (p : Place) (t : Text) :
    breakOnDeep? p t = (deepAt? (literal.scan .reach p.state t).2).map fun combinator =>
        ((literal.scan .reach p.state t).1, (literal.scan .reach p.state t).2.drop combinator.length) := by
  induction t generalizing p with
  | nil => rfl
  | cons c t ih =>
    rw [breakOnDeep?, scan, stopsAt_state, stop_reach, next_state rfl rfl, ih]
    by_cases hp : p = .outside
    · cases hf : deepAt? (c :: t) with
      | some combinator =>
        rw [deepAt?] at hf
        simp [hp, hf, deepAt?]
      | none =>
        rw [deepAt?] at hf
        simp [hp, hf, Function.comp_def]
    · simp [hp, Function.comp_def]

end ComponentConverter.Style
