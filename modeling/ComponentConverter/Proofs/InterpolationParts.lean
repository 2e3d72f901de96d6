import ComponentConverter.Template.Interpolation
import ComponentConverter.Proofs.Scanning
import ComponentConverter.Proofs.Trimming
import Mathlib.Data.List.Forall2

namespace ComponentConverter

open List

/-- An occurrence that comes first leaves at least as much of the text behind it as any other. -/
theorem suffix_of_breakOn? {pat t s r a b : Text} (h : breakOn? pat t = some (s, r)) (ht : t = a ++ (pat ++ b)) :
    b <:+ r := by
  induction t generalizing s a with
  | nil =>
    obtain ⟨-, hpat⟩ := append_eq_nil_iff.mp ht.symm
    rw [(append_eq_nil_iff.mp hpat).2]
    exact nil_suffix
  | cons c t ih =>
    rw [breakOn?_cons] at h
    split at h
    · obtain ⟨-, rfl⟩ := Prod.mk.inj (Option.some.inj h)
      refine suffix_of_suffix_length_le (ht ▸ (suffix_append pat b).trans (suffix_append a _)) (drop_suffix _ _) ?_
      rw [length_drop, ht, length_append, length_append]
      omega
    next hp =>
      obtain ⟨⟨s', r'⟩, hb, hs⟩ := Option.map_eq_some_iff.mp h
      obtain ⟨-, rfl⟩ := Prod.mk.inj hs
      cases a with
      | nil => exact absurd (List.isPrefixOf_iff_prefix.mpr ⟨b, ht.symm⟩) hp
      | cons d a => exact ih hb (List.cons.inj ht).2

namespace Template.Part

variable {t s e r : Text} {parts : List Part}

/-- An opening stands in a text, and a closing somewhere behind it. -/
def Interpolated (t : Text) : Prop := ∃ s inside r, t = s ++ (['{', '{'] ++ (inside ++ ['}', '}'] ++ r))

/-- How a part stands in a text. White space around an expression does not belong to it. -/
def Spelled : Part → Text → Prop
  | .literal s, t => t = s
  | .binding e, t => ∃ a b, isBlank a = true ∧ isBlank b = true ∧ t = ['{', '{'] ++ (a ++ e ++ b) ++ ['}', '}']

def Sound : Part → Prop
  | .literal s => s ≠ []
  | .binding e => trim e = e ∧ ¬ ['}', '}'] <:+: e

structure Divides (parts : List Part) (t : Text) : Prop where
  spelled : ∃ pieces, Forall₂ Spelled parts pieces ∧ t = pieces.flatten
  sound : ∀ p ∈ parts, p.Sound
  apart : ∀ s s', ¬ [literal s, literal s'] <:+: parts
  opened : ∀ s e, [literal s, binding e] <:+: parts → ¬ ['{', '{'] <:+: s
  last : ∀ s, [literal s] <:+ parts → ¬ Interpolated s

theorem isSome_first?_iff : (first? t).isSome = true ↔ Interpolated t := by
  rw [first?]
  cases hb : breakOn? ['{', '{'] t with
  | none =>
    have hnone : ¬ ['{', '{'] <:+: t := by
      rw [← isSome_breakOn?_iff, hb]
      simp
    refine iff_of_false (by simp) ?_
    rintro ⟨s, inside, r, rfl⟩
    exact hnone ⟨s, inside ++ ['}', '}'] ++ r, by simp⟩
  | some found =>
    obtain ⟨before, behind⟩ := found
    rw [Option.isSome_map, isSome_breakOn?_iff]
    constructor
    · rintro ⟨inside, r, rfl⟩
      exact ⟨before, inside, r, (eq_of_breakOn? hb).trans (append_assoc ..)⟩
    · rintro ⟨s, inside, r, ht⟩
      exact (infix_append inside ['}', '}'] r).trans (suffix_of_breakOn? hb ht).isInfix

/-- What the first interpolation of a text is: nothing opens before it, and it ends where it can. -/
theorem first?_spec (h : first? t = some ((s, e), r)) :
    (∃ w, Spelled (.binding e) w ∧ t = s ++ w ++ r) ∧ Sound (.binding e) ∧ ¬ ['{', '{'] <:+: s := by
  rw [first?] at h
  cases hb : breakOn? ['{', '{'] t with
  | none => simp [hb] at h
  | some found =>
    simp only [hb, Option.map_eq_some_iff, Prod.exists] at h
    obtain ⟨inside, r, hclose, ⟨rfl, rfl⟩, rfl⟩ := h
    obtain ⟨a, b, ha, hb', hinside⟩ := trim_spec inside
    have hin : trim inside <:+: inside := ⟨a, b, hinside.symm⟩
    refine ⟨⟨_, ⟨a, b, ha, hb', rfl⟩, ?_⟩, ⟨?_, ?_⟩, not_infix_of_breakOn? (by simp) hb⟩
    · rw [eq_of_breakOn? hb, eq_of_breakOn? hclose, ← hinside]
      simp
    · exact trim_trim inside
    · exact fun hi => not_infix_of_breakOn? (by simp) hclose (hi.trans hin)

theorem Divides.last_literal (h : ¬ Interpolated t) : Divides (ofLiteral t) t := by
  cases t with
  | nil => exact ⟨⟨[], .nil, rfl⟩, by simp [ofLiteral], by simp [ofLiteral], by simp [ofLiteral], by simp [ofLiteral]⟩
  | cons c t =>
    refine ⟨⟨[c :: t], .cons rfl .nil, by simp⟩, ?_, ?_, ?_, ?_⟩
    · rintro p hp
      rw [mem_singleton.mp hp]
      simp [Sound]
    · intro s s' hi
      simpa [ofLiteral] using hi.length_le
    · intro s e hi
      simpa [ofLiteral] using hi.length_le
    · intro s hs
      have heq := hs.eq_of_length rfl
      simp only [ofLiteral] at heq
      simp at heq
      rwa [heq]

theorem Divides.binding_cons (h : Divides parts r) {w : Text} (hw : Spelled (.binding e) w) (he : Sound (.binding e)) :
    Divides (.binding e :: parts) (w ++ r) := by
  obtain ⟨pieces, hp, rfl⟩ := h.spelled
  refine ⟨⟨w :: pieces, .cons hw hp, by simp⟩, forall_mem_cons.mpr ⟨he, h.sound⟩, ?_, ?_, ?_⟩
  · intro s s' hi
    exact h.apart s s' (by simpa [infix_cons_iff] using hi)
  · intro s e' hi
    exact h.opened s e' (by simpa [infix_cons_iff] using hi)
  · intro s hs
    exact h.last s (by simpa [suffix_cons_iff] using hs)

theorem Divides.literal_append (h : Divides (.binding e :: parts) r) (hs : ¬ ['{', '{'] <:+: s) :
    Divides (ofLiteral s ++ .binding e :: parts) (s ++ r) := by
  cases s with
  | nil => exact h
  | cons c s =>
    obtain ⟨pieces, hp, rfl⟩ := h.spelled
    refine ⟨⟨(c :: s) :: pieces, .cons rfl hp, by simp⟩, forall_mem_cons.mpr ⟨by simp [Sound], h.sound⟩, ?_, ?_, ?_⟩
    · intro u u' hi
      rcases infix_cons_iff.mp hi with hp | hi
      · simpa using (cons_prefix_cons.mp hp).2
      · exact h.apart u u' hi
    · intro u e' hi
      rcases infix_cons_iff.mp hi with hp | hi
      · obtain ⟨hu, -⟩ := cons_prefix_cons.mp hp
        rwa [literal.inj hu]
      · exact h.opened u e' hi
    · intro u hu
      rcases suffix_cons_iff.mp hu with heq | hu
      · cases heq
      · exact h.last u hu

theorem divides_of_run {found : List (Text × Text)} {last : Text} (h : Run first? t found last)
    (hlast : ¬ Interpolated last) :
    Divides (found.flatMap (fun (before, e) => ofLiteral before ++ [.binding e]) ++ ofLiteral last) t := by
  induction h with
  | done t => exact .last_literal hlast
  | @more t r last p found hstep hr ih =>
    obtain ⟨⟨w, hw, rfl⟩, he, hs⟩ := first?_spec hstep
    have hdivides := ((ih hlast).binding_cons hw he).literal_append hs
    simpa using hdivides

theorem length_lt_of_first? (t : Text) (p : Text × Text) (r : Text) (h : first? t = some (p, r)) :
    r.length < t.length := by
  obtain ⟨⟨w, ⟨a, b, -, -, rfl⟩, rfl⟩, -⟩ := first?_spec h
  simp
  omega

/-- A text has no split exactly if no interpolation stands in it. A split gives the text back part by part, and
every interpolation is found where it opens first and ends first. -/
theorem split_exact (t : Text) :
    (split? t = none ↔ ¬ Interpolated t) ∧ ∀ parts, split? t = some parts → Divides parts t := by
  have hrun : Run first? t _ _ := run_exhaust t.length t
  have hlast : ¬ Interpolated (exhaust first? t.length t).2 := by
    rw [← isSome_first?_iff, step_exhaust length_lt_of_first? (Nat.le_refl _)]
    simp
  rw [split?]
  generalize exhaust first? t.length t = result at hrun hlast ⊢
  obtain ⟨found, last⟩ := result
  cases found with
  | nil =>
    cases hrun
    exact ⟨iff_of_true rfl hlast, nofun⟩
  | cons p found =>
    have hdivides := divides_of_run hrun hlast
    refine ⟨iff_of_false (by simp) ?_, fun parts hparts => Option.some.inj hparts ▸ hdivides⟩
    cases hrun with
    | more hstep _ => exact not_not_intro (isSome_first?_iff.mp (by rw [hstep]; rfl))

end Template.Part

end ComponentConverter
