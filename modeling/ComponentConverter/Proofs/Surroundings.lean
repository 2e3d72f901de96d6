import ComponentConverter.Proofs.WrittenSheet

namespace ComponentConverter.Style

open List Lexis

/-- The last bracket that was opened comes first. -/
structure Surroundings where
  mode : Mode
  opened : List Char

namespace Surroundings

variable {c : Char} {m : Marks} {stops' : List Char}

def top : Surroundings := ⟨.plain, []⟩

def step (x : Surroundings) (c : Char) : Surroundings where
  mode := x.mode.step c
  opened :=
    if x.mode = .plain then
      if c = '(' || c = '[' then c :: x.opened
      else if c = ')' || c = ']' then x.opened.tail
      else x.opened
    else x.opened

def after (x : Surroundings) (t : Text) : Surroundings := t.foldl step x

def state (x : Surroundings) : Mode × Nat := (x.mode, x.opened.length)

variable {x y : Surroundings} {s t : Text} {stops : List Char}

@[simp]
theorem after_nil : x.after [] = x := rfl

@[simp]
theorem after_cons : x.after (c :: t) = (x.step c).after t := rfl

theorem after_append : x.after (s ++ t) = (x.after s).after t := foldl_append

theorem state_eq_top_iff : x.state = literal.outside ↔ x = top := by
  obtain ⟨mode, opened⟩ := x
  simp [state, Lexis.outside, literal, Surroundings.top]

theorem next_eq_state (ho : m.opening = ['(', '[']) (hc : m.closing = [')', ']']) (c : Char) :
    literal.next m x.state c = (x.step c).state := by
  by_cases hx : x.mode = .plain
  · by_cases h1 : c = '(' ∨ c = '[' <;> by_cases h2 : c = ')' ∨ c = ']' <;>
      simp [Lexis.next, literal, ho, hc, state, step, hx, h1, h2]
  · simp [Lexis.next, literal, state, step, hx]

theorem after_eq_state (ho : m.opening = ['(', '[']) (hc : m.closing = [')', ']']) (t : Text) :
    literal.after m x.state t = (x.after t).state := by
  induction t generalizing x with
  | nil => rfl
  | cons c t ih => rw [Lexis.after_cons, next_eq_state ho hc, ih, after_cons]

theorem eq_top_of_stopsAt (h : literal.stopsAt m x.state t = true) : x = top := by
  rw [← state_eq_top_iff]
  cases t with
  | nil => cases h
  | cons c t =>
    simp only [stopsAt, literal, Bool.and_eq_true, beq_iff_eq] at h
    exact Prod.ext h.1.1 h.1.2

def Clear (stops : List Char) (x : Surroundings) (t : Text) : Prop :=
  ∀ u c v, t = u ++ c :: v → x.after u = top → c ∉ stops

theorem clear_nil : Clear stops x [] := by
  intro u c v h
  simp at h

theorem clear_cons_iff : Clear stops x (c :: t) ↔ (x = top → c ∉ stops) ∧ Clear stops (x.step c) t := by
  constructor
  · intro h
    refine ⟨fun hx => h [] c t rfl hx, ?_⟩
    rintro u d v rfl hu
    exact h (c :: u) d v rfl hu
  · rintro ⟨hc, ht⟩ u d v h hu
    cases u with
    | nil =>
      obtain ⟨rfl, -⟩ := List.cons.inj h
      exact hc hu
    | cons e u =>
      obtain ⟨rfl, rfl⟩ := List.cons.inj h
      exact ht u d v rfl hu

theorem clear_append_iff : Clear stops x (s ++ t) ↔ Clear stops x s ∧ Clear stops (x.after s) t := by
  induction s generalizing x with
  | nil => simp [clear_nil]
  | cons c s ih => rw [cons_append, clear_cons_iff, clear_cons_iff, ih, after_cons, and_assoc]

theorem Clear.mono (h : Clear stops x t) (hs : stops' ⊆ stops) : Clear stops' x t :=
  fun u c v ht hu hc => h u c v ht hu (hs hc)

theorem Clear.append_stops (h : Clear stops x t) (h' : Clear stops' x t) : Clear (stops ++ stops') x t := by
  intro u c v ht hu hc
  rcases mem_append.mp hc with hc | hc
  · exact h u c v ht hu hc
  · exact h' u c v ht hu hc

theorem passes_upTo_iff {r : Text} : literal.Passes (.upTo stops) x.state t r ↔ Clear stops x t := by
  induction t generalizing x with
  | nil => exact iff_of_true trivial clear_nil
  | cons c t ih =>
    have hstop : literal.stopsAt (.upTo stops) x.state (c :: (t ++ r)) = false ↔ (x = top → c ∉ stops) := by
      obtain ⟨mode, opened⟩ := x
      simp [stopsAt, literal, state, Marks.upTo, startsWithOne, top]
    rw [Passes, next_eq_state rfl rfl, ih, hstop, clear_cons_iff]

theorem scan_upTo_iff {u r : Text} : literal.scan (.upTo stops) literal.outside t = (u, r) ↔
      t = u ++ r ∧ Clear stops top u ∧ (r ≠ [] → top.after u = top ∧ ∃ c ∈ stops, r.head? = some c) := by
  have hout : literal.outside = top.state := rfl
  rw [scan_eq_iff, hout, passes_upTo_iff, after_eq_state rfl rfl]
  refine and_congr_right fun _ => and_congr_right fun _ => forall_congr' fun hr => ?_
  cases r with
  | nil => exact absurd rfl hr
  | cons c r =>
    rw [← state_eq_top_iff]
    simp [stopsAt, literal, Marks.upTo, startsWithOne, Lexis.outside, Prod.ext_iff]

section Inert

theorem step_inert (hx : x.mode = .plain) (hc : c ∉ special brackets []) : x.step c = x := by
  obtain ⟨mode, opened⟩ := x
  obtain rfl : mode = .plain := hx
  have hq : ¬ (c = '"' ∨ c = '\'') ∧ ¬ (c = '(' ∨ c = '[') ∧ ¬ (c = ')' ∨ c = ']') := by
    simpa [special, quotes, brackets, not_or, and_assoc] using hc
  simp [step, Mode.step, hq]

theorem after_inert (hx : x.mode = .plain) (ht : ∀ c ∈ t, c ∉ special brackets []) : x.after t = x := by
  induction t with
  | nil => rfl
  | cons c t ih =>
    obtain ⟨hc, ht⟩ := forall_mem_cons.mp ht
    rw [after_cons, step_inert hx hc, ih ht]

theorem not_special_of_isSpace (h : isSpace c = true) : c ∉ special brackets [',', '\x7b', ';'] := by
  have hspecial : (special brackets [',', '\x7b', ';']).all (!isSpace ·) = true := rfl
  intro hmem
  simpa [h] using all_eq_true.mp hspecial c hmem

theorem inert_of_isSpace (h : isSpace c = true) : c ∉ special brackets [] := by
  intro hmem
  exact not_special_of_isSpace h (mem_append_left _ (by simpa [special] using hmem))

theorem after_blank (hx : x.mode = .plain) (ht : isBlank t = true) : x.after t = x :=
  after_inert hx fun c hc => inert_of_isSpace (all_eq_true.mp ht c hc)

def Proper (x : Surroundings) : Prop := x.mode = .plain ∨ ∃ q ∈ quotes, x.mode = .quoted q ∨ x.mode = .escaped q

theorem Proper.step (h : x.Proper) : (x.step c).Proper := by
  rcases h with h | ⟨q, hq, h | h⟩
  · rw [Proper, Surroundings.step, h, Mode.step]
    split
    next hc => exact .inr ⟨c, by simpa [quotes] using hc, .inl rfl⟩
    · exact .inl rfl
  · rw [Proper, Surroundings.step, h, Mode.step]
    split
    · exact .inr ⟨q, hq, .inr rfl⟩
    · split
      · exact .inl rfl
      · exact .inr ⟨q, hq, .inl rfl⟩
  · rw [Proper, Surroundings.step, h, Mode.step]
    exact .inr ⟨q, hq, .inl rfl⟩

theorem proper_after (t : Text) : (top.after t).Proper := by
  have hall {x : Surroundings} (hx : x.Proper) : (x.after t).Proper := by
    induction t generalizing x with
    | nil => exact hx
    | cons c t ih => exact ih hx.step
  exact hall (.inl rfl)

theorem Proper.plain_of_step (h : x.Proper) (hc : isSpace c = true)
    (hs : (x.step c).mode = .plain) : x.mode = .plain := by
  rcases h with h | ⟨q, hq, h | h⟩
  · exact h
  · have hne : c ≠ '\\' ∧ c ≠ q := by
      refine ⟨?_, ?_⟩
      · rintro rfl
        cases hc
      · rintro rfl
        exact inert_of_isSpace hc (mem_append_left _ (by simp [hq]))
    simp [Surroundings.step, h, Mode.step, hne] at hs
  · simp [Surroundings.step, h, Mode.step] at hs

theorem Proper.plain_of_blank (h : x.Proper) (ht : isBlank t = true) (hs : (x.after t).mode = .plain) :
    x.mode = .plain := by
  induction t generalizing x with
  | nil => exact hs
  | cons c t ih =>
    rw [isBlank, all_cons, Bool.and_eq_true] at ht
    exact h.plain_of_step ht.1 (ih h.step ht.2 hs)

end Inert

/-- A text that leaves nothing open, with none of the characters that end a selector or a list. -/
def Settled (t : Text) : Prop := Clear [',', '\x7b', ';'] top t ∧ top.after t = top

theorem after_trimEnd (h : top.after t = top) : top.after (trimEnd t) = top := by
  obtain ⟨b, hb, hspace⟩ := trimEnd_spec t
  have hblank : isBlank b = true := all_eq_true.mpr hspace
  rw [hb, after_append] at h
  have hplain := (proper_after (trimEnd t)).plain_of_blank hblank (by rw [h]; rfl)
  rwa [after_blank hplain hblank] at h

theorem Settled.trimEnd (h : Settled t) : Settled (trimEnd t) := by
  obtain ⟨b, hb, -⟩ := trimEnd_spec t
  obtain ⟨hclear, hafter⟩ := h
  rw [hb, clear_append_iff] at hclear
  exact ⟨hclear.1, after_trimEnd hafter⟩

theorem Settled.of_blank_append {a : Text} (ha : isBlank a = true) (h : Settled (a ++ t)) : Settled t := by
  obtain ⟨hclear, hafter⟩ := h
  have hout : top.after a = top := after_blank rfl ha
  rw [clear_append_iff, hout] at hclear
  rw [after_append, hout] at hafter
  exact ⟨hclear.2, hafter⟩

theorem Settled.trim (h : Settled t) : Settled (trim t) := by
  have hstart : t.takeWhile isSpace ++ trimStart t = t := takeWhile_append_dropWhile
  rw [← hstart] at h
  exact (h.of_blank_append all_takeWhile).trimEnd

theorem Settled.append (hs : Settled s) (ht : Settled t) : Settled (s ++ t) := by
  refine ⟨clear_append_iff.mpr ⟨hs.1, ?_⟩, ?_⟩
  · rw [hs.2]
    exact ht.1
  · rw [after_append, hs.2, ht.2]

theorem settled_of_plain (h : ∀ c ∈ t, !(special brackets [',', '\x7b', ';']).contains c) : Settled t := by
  have hne : ∀ c ∈ t, c ∉ special brackets [',', '\x7b', ';'] := fun c hc => by simpa using h c hc
  refine ⟨?_, after_inert rfl ?_⟩
  · rintro u c v rfl - hmem
    exact hne c (by simp) (mem_append_right _ hmem)
  · intro c hc hmem
    exact hne c hc (mem_append_left _ (by simpa [special] using hmem))

theorem settled_blank (h : isBlank t = true) : Settled t :=
  settled_of_plain fun c hc => by simpa using not_special_of_isSpace (all_eq_true.mp h c hc)

section Enclosed

/-- The same place, with one more parenthesis around all the others, unless that was closed. -/
def Inside (x y : Surroundings) : Prop := x.mode = y.mode ∧ (x.opened = y.opened ++ ['('] ∨ x.opened = y.opened)

theorem Inside.step (h : Inside x y) : Inside (x.step c) (y.step c) := by
  obtain ⟨mode, opened⟩ := x
  obtain ⟨mode', opened'⟩ := y
  obtain ⟨rfl, h⟩ : mode = mode' ∧ (opened = opened' ++ ['('] ∨ opened = opened') := h
  refine ⟨rfl, ?_⟩
  rcases h with rfl | rfl
  · simp only [Surroundings.step]
    split
    · split
      · exact .inl rfl
      · split
        · -- the closing bracket that finds nothing open closes the parenthesis around
          cases opened' with
          | nil => exact .inr rfl
          | cons d opened' => exact .inl rfl
        · exact .inl rfl
    · exact .inl rfl
  · exact .inr rfl

theorem Inside.after (h : Inside x y) : Inside (x.after t) (y.after t) := by
  induction t generalizing x y with
  | nil => exact h
  | cons c t ih => exact ih h.step

theorem Inside.eq_top (h : Inside x top) : x = ⟨.plain, ['(']⟩ ∨ x = top := by
  obtain ⟨mode, opened⟩ := x
  obtain ⟨rfl, h | h⟩ : mode = .plain ∧ (opened = ['('] ∨ opened = []) := h
  · exact .inl (by rw [h])
  · exact .inr (by rw [h]; rfl)

theorem Inside.clear (h : Inside x y) (ht : Clear stops y t) : Clear stops x t := by
  intro u c v hsplit hu
  have hin : Inside (x.after u) (y.after u) := h.after
  rw [hu] at hin
  obtain ⟨hmode, hopened⟩ := hin
  refine ht u c v hsplit ?_
  generalize y.after u = z at hmode hopened
  obtain ⟨mode, opened⟩ := z
  obtain rfl : Mode.plain = mode := hmode
  rcases hopened with hopened | hopened
  · exact absurd hopened.symm (append_ne_nil_of_right_ne_nil _ (cons_ne_nil _ _))
  · obtain rfl : [] = opened := hopened
    rfl

theorem Settled.global (h : Settled t) : Settled (global t) := by
  have hname : Settled [':', 'g', 'l', 'o', 'b', 'a', 'l'] := settled_of_plain (all_eq_true.mp rfl)
  have hin : Inside ⟨.plain, ['(']⟩ top := ⟨rfl, .inl rfl⟩
  rw [global_eq]
  refine hname.append ⟨?_, ?_⟩
  · rw [clear_cons_iff, clear_append_iff, clear_cons_iff]
    exact ⟨fun _ => by decide, hin.clear h.1, fun _ => by decide, clear_nil⟩
  · have hend := hin.after (t := t)
    rw [h.2] at hend
    have hclose : ((top.step '(').after t).after [')'] = top := by
      rcases hend.eq_top with hx | hx
      · exact congrArg (Surroundings.after · [')']) hx
      · exact congrArg (Surroundings.after · [')']) hx
    rw [after_cons, after_append, hclose]

end Enclosed

end Surroundings

end ComponentConverter.Style
