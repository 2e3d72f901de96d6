import ComponentConverter.Proofs.SheetReading

namespace ComponentConverter.Style

open List Lexis

variable {c q : Char} {stops' : List Char}

/-- What follows an opening quote, up to the quote that ends the string; after a backslash any
character is part of it. -/
inductive Quoted (q : Char) : Text → Prop where
  | close : Quoted q [q]
  | char {c : Char} {t : Text} (hq : c ≠ q) (hb : c ≠ '\\') (h : Quoted q t) : Quoted q (c :: t)
  | escape {c : Char} {t : Text} (h : Quoted q t) : Quoted q ('\\' :: c :: t)

def quotes : List Char := ['"', '\'']

def special (pairs : List (Char × Char)) (stops : List Char) : List Char :=
  quotes ++ pairs.map Prod.fst ++ pairs.map Prod.snd ++ stops

/-- Pairs of brackets nest, and outside all of them and outside strings there is none of `stops`. -/
inductive Balanced (pairs : List (Char × Char)) : List Char → Text → Prop where
  | nil {stops : List Char} : Balanced pairs stops []
  | char {stops : List Char} {c : Char} {t : Text} (hc : c ∉ special pairs stops)
      (h : Balanced pairs stops t) : Balanced pairs stops (c :: t)
  | string {stops : List Char} {q : Char} {s t : Text} (hq : q ∈ quotes) (hs : Quoted q s)
      (h : Balanced pairs stops t) : Balanced pairs stops (q :: (s ++ t))
  | nested {stops : List Char} {p : Char × Char} {s t : Text} (hp : p ∈ pairs)
      (hs : Balanced pairs [] s) (h : Balanced pairs stops t) :
      Balanced pairs stops (p.1 :: (s ++ p.2 :: t))

variable {pairs : List (Char × Char)} {stops : List Char} {s t : Text}

theorem not_mem_special :
    c ∉ special pairs stops ↔ c ∉ quotes ∧ c ∉ pairs.map Prod.fst ∧ c ∉ pairs.map Prod.snd ∧ c ∉ stops := by
  simp only [special, mem_append, not_or, and_assoc]

theorem Balanced.append (hs : Balanced pairs stops s) (ht : Balanced pairs stops t) :
    Balanced pairs stops (s ++ t) := by
  induction hs with
  | nil => exact ht
  | char hc h ih => exact .char hc (ih ht)
  | string hq hs h ih =>
    rw [cons_append, append_assoc]
    exact .string hq hs (ih ht)
  | nested hp hs h ihs ih =>
    rw [cons_append, append_assoc, cons_append]
    exact .nested hp hs (ih ht)

theorem Balanced.mono (h : Balanced pairs stops t) (hs : stops' ⊆ stops) : Balanced pairs stops' t := by
  induction h with
  | nil => exact .nil
  | char hc h ih =>
    rw [not_mem_special] at hc
    exact .char (not_mem_special.mpr ⟨hc.1, hc.2.1, hc.2.2.1, fun hmem => hc.2.2.2 (hs hmem)⟩) (ih hs)
  | string hq hq' h ih => exact .string hq hq' (ih hs)
  | nested hp hin h ihin ih => exact .nested hp hin (ih hs)

theorem Balanced.of_plain (h : t.all (!(special pairs stops).contains ·) = true) : Balanced pairs stops t := by
  induction t with
  | nil => exact .nil
  | cons c t ih =>
    rw [all_cons, Bool.and_eq_true] at h
    exact .char (by simpa using h.1) (ih h.2)

/-- A scan counts some pairs of brackets, and looks for some characters that open none of them. -/
structure Marks.Counts (m : Marks) (pairs : List (Char × Char)) (stops : List Char) : Prop where
  opening : m.opening = pairs.map Prod.fst
  closing : m.closing = pairs.map Prod.snd
  stop : m.stop = startsWithOne stops
  open_apart : ∀ c ∈ pairs.map Prod.fst, c ∉ stops ∧ c ∉ quotes
  close_apart : ∀ c ∈ pairs.map Prod.snd, c ∉ pairs.map Prod.fst ∧ c ∉ quotes
  unquoted : ∀ c ∈ stops, c ∉ quotes

variable {m : Marks} {d : Nat}

theorem stopsAt_false {mode : Mode} (hm : m.Counts pairs stops)
    (h : mode ≠ .plain ∨ 0 < d ∨ c ∉ stops) : literal.stopsAt m (mode, d) (c :: t) = false := by
  rw [stopsAt, hm.stop, startsWithOne]
  rcases h with h | h | h
  · simp [literal, h]
  · simp [Nat.ne_of_gt h]
  · simp [h]

theorem passes_quoted (hm : m.Counts pairs stops) (hq : q ∈ quotes) (hs : Quoted q s) (r : Text) :
    literal.Passes m (.quoted q, d) s r ∧ literal.after m (.quoted q, d) s = (.plain, d) := by
  have hback : q ≠ '\\' := by
    rintro rfl
    exact absurd hq (by decide)
  have hin {c : Char} {t : Text} : literal.stopsAt m (.quoted q, d) (c :: t) = false :=
    stopsAt_false hm (.inl (by simp))
  induction hs with
  | close => exact ⟨⟨hin, trivial⟩, by simp [Lexis.next, literal, Mode.step, hback]⟩
  | @char c t hq' hb h ih =>
    have hnext : literal.next m (.quoted q, d) c = (.quoted q, d) := by
      simp [Lexis.next, literal, Mode.step, hq', hb]
    refine ⟨⟨hin, ?_⟩, ?_⟩
    · rw [hnext]
      exact ih.1
    · rw [after_cons, hnext]
      exact ih.2
  | @escape c t h ih =>
    have hnext : literal.next m (.quoted q, d) '\\' = (.escaped q, d) := by
      simp [Lexis.next, literal, Mode.step]
    have hnext' : literal.next m (.escaped q, d) c = (.quoted q, d) := by
      simp [Lexis.next, literal, Mode.step]
    refine ⟨⟨hin, ?_⟩, ?_⟩
    · rw [hnext]
      refine ⟨stopsAt_false hm (.inl (by simp)), ?_⟩
      exact ih.1
    · rw [after_cons, hnext, after_cons, hnext']
      exact ih.2

theorem next_plain (hq : c ∉ quotes) : literal.next m (.plain, d) c =
      (.plain, if m.opening.contains c then d + 1 else if m.closing.contains c then d - 1 else d) := by
  simp only [quotes, mem_cons, not_or] at hq
  simp [Lexis.next, literal, Mode.step, hq.1, hq.2]

theorem next_quote (hm : m.Counts pairs stops) (hq : q ∈ quotes) : literal.next m (.plain, d) q = (.quoted q, d) := by
  have ho : q ∉ m.opening := by
    rw [hm.opening]
    exact fun hmem => (hm.open_apart q hmem).2 hq
  have hc : q ∉ m.closing := by
    rw [hm.closing]
    exact fun hmem => (hm.close_apart q hmem).2 hq
  have hmode : Mode.step .plain q = .quoted q := by
    have hq' : q = '"' ∨ q = '\'' := by simpa [quotes] using hq
    rcases hq' with rfl | rfl <;> rfl
  simp [Lexis.next, literal, hmode, ho, hc]

/-- A balanced text is passed, and the scan is back where it was. Inside brackets it may hold what
the scan looks for. -/
theorem Balanced.passes (h : Balanced pairs stops' t) (hm : m.Counts pairs stops)
    (hd : 0 < d ∨ ∀ c ∈ stops, c ∈ stops' ∨ c ∈ pairs.map Prod.snd) (r : Text) :
    literal.Passes m (.plain, d) t r ∧ literal.after m (.plain, d) t = (.plain, d) := by
  induction h generalizing d r with
  | nil => exact ⟨trivial, rfl⟩
  | @char stops' c t hc h ih =>
    obtain ⟨hq, ho, hcl, hs⟩ := not_mem_special.mp hc
    have hstop : 0 < d ∨ c ∉ stops := hd.imp_right fun hd hmem => (hd c hmem).elim hs hcl
    have hnext : literal.next m (.plain, d) c = (.plain, d) := by
      rw [next_plain hq, hm.opening, hm.closing, if_neg (by simpa using ho), if_neg (by simpa using hcl)]
    rw [Passes, after_cons, hnext]
    exact ⟨⟨stopsAt_false hm (.inr hstop), (ih hd r).1⟩, (ih hd r).2⟩
  | @string stops' q s t hq hs h ih =>
    have hstop : q ∉ stops := fun hmem => hm.unquoted q hmem hq
    have hstring := passes_quoted (d := d) hm hq hs (t ++ r)
    rw [Passes, after_cons, next_quote hm hq, passes_append, after_append, hstring.2]
    exact ⟨⟨stopsAt_false hm (.inr (.inr hstop)), hstring.1, (ih hd r).1⟩, (ih hd r).2⟩
  | @nested stops' p s t hp hs h ihs ih =>
    obtain ⟨hstop, hq₁⟩ := hm.open_apart p.1 (mem_map_of_mem hp)
    obtain ⟨hclose, hq₂⟩ := hm.close_apart p.2 (mem_map_of_mem hp)
    have hopen : literal.next m (.plain, d) p.1 = (.plain, d + 1) := by
      rw [next_plain hq₁, hm.opening, if_pos (by simpa using ⟨p.2, hp⟩)]
    have hback : literal.next m (.plain, d + 1) p.2 = (.plain, d) := by
      rw [next_plain hq₂, hm.opening, hm.closing, if_neg (by simpa using hclose),
        if_pos (by simpa using ⟨p.1, hp⟩), Nat.add_sub_cancel]
    have hinner := ihs (.inl d.succ_pos) (p.2 :: t ++ r)
    rw [Passes, after_cons, hopen, passes_append, after_append, hinner.2, Passes, after_cons, hback]
    exact ⟨⟨stopsAt_false hm (.inr (.inr hstop)), hinner.1,
      stopsAt_false hm (.inr (.inl d.succ_pos)), (ih hd r).1⟩, (ih hd r).2⟩

end ComponentConverter.Style
