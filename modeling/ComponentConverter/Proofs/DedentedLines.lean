import ComponentConverter.Proofs.Outdenting
import Mathlib.Data.List.Forall2

namespace ComponentConverter

open List Script

variable {t l : Text} {ls : List Text} {k : Nat}

theorem not_mem_of_mem_splitLines (h : l ∈ splitLines t) : '\n' ∉ l := by
  induction t generalizing l with
  | nil =>
    obtain rfl := mem_singleton.mp h
    exact not_mem_nil
  | cons c t ih =>
    obtain ⟨first, ls, ht⟩ := exists_cons_of_ne_nil (splitLines_ne_nil t)
    rw [splitLines_cons ht] at h
    rw [ht] at ih
    split at h
    · rcases mem_cons.mp h with rfl | hl
      · exact not_mem_nil
      · exact ih hl
    next hc =>
      rcases mem_cons.mp h with rfl | hl
      · exact not_mem_cons_of_ne_of_not_mem (Ne.symm hc) (ih mem_cons_self)
      · exact ih (mem_cons_of_mem _ hl)

theorem splitLines_joinLines (first : Text) (h : ∀ l ∈ first :: ls, '\n' ∉ l) :
    splitLines (joinLines (first :: ls)) = first :: ls := by
  have hfirst : splitLines first = [first] := by
    simpa using splitLines_of_not_mem (h first mem_cons_self) (y := []) rfl
  induction ls generalizing first with
  | nil => exact hfirst
  | cons l ls ih =>
    have hrest := fun l' hl' => h l' (mem_cons_of_mem first hl')
    have hl : splitLines l = [l] := by simpa using splitLines_of_not_mem (hrest l mem_cons_self) (y := []) rfl
    have happend := splitLines_append first (ih l hrest hl)
    rwa [hfirst] at happend

theorem outdent_spec (n : Nat) (l : Text) :
    ∃ w, isBlank w = true ∧ w.length = min n (indentation l) ∧ l = w ++ outdent n l := by
  fun_induction outdent n l with
  | case1 n c l hc ih =>
    obtain ⟨w, hw, hlength, hl⟩ := ih
    refine ⟨c :: w, by rw [isBlank, all_cons, hc]; exact hw, ?_, congrArg (c :: ·) hl⟩
    rw [length_cons, hlength, indentation, indentation, takeWhile_cons_of_pos hc, length_cons]
    omega
  | case2 n c l hc =>
    refine ⟨[], rfl, ?_, rfl⟩
    rw [indentation, takeWhile_cons_of_neg hc]
    simp
  | case3 n l hne =>
    refine ⟨[], rfl, ?_, rfl⟩
    cases n with
    | zero => simp
    | succ n =>
      cases l with
      | nil => simp [indentation]
      | cons c l => exact (hne n c l rfl rfl).elim

theorem indents_map_outdent (k : Nat) (ls : List Text) : indents (ls.map (outdent k)) = (indents ls).map (· - k) := by
  induction ls with
  | nil => rfl
  | cons l ls ih =>
    obtain ⟨w, hw, hlength, hl⟩ := outdent_spec k l
    have hblank := congrArg isBlank hl
    rw [isBlank_append, hw, Bool.true_and] at hblank
    have hindent := congrArg indentation hl
    rw [indentation_append hw, hlength] at hindent
    rw [map_cons, indents_cons, indents_cons, ih, hblank]
    split
    · rfl
    · rw [map_cons, show indentation (outdent k l) = indentation l - k by omega]

theorem splitLines_dedent (h : '\x60' ∉ t) {first : Text} (ht : splitLines t = first :: ls) :
    splitLines (dedent t) = first :: ls.map (outdent (sharedIndentation t)) := by
  have hline : ∀ l ∈ first :: ls.map (outdent (sharedIndentation t)), '\n' ∉ l := by
    intro l hl
    rcases mem_cons.mp hl with rfl | hl
    · exact not_mem_of_mem_splitLines (ht ▸ mem_cons_self)
    · obtain ⟨m, hm, rfl⟩ := mem_map.mp hl
      obtain ⟨w, -, -, hw⟩ := outdent_spec (sharedIndentation t) m
      have hnot := not_mem_of_mem_splitLines (ht ▸ mem_cons_of_mem first hm)
      rw [hw] at hnot
      exact fun hmem => hnot (mem_append_right w hmem)
  rw [dedent, if_neg (by simpa using h), ht]
  exact splitLines_joinLines first hline

theorem dedent_of_mem (h : '\x60' ∈ t) : dedent t = t := if_pos (by simpa using h)

theorem min?_map_sub {ns : List Nat} (h : ns.min? = some k) : (ns.map (· - k)).min? = some 0 := by
  refine min?_eq_some_iff.mpr ⟨mem_map.mpr ⟨k, (min?_eq_some_iff.mp h).1, Nat.sub_self k⟩, fun _ _ => Nat.zero_le _⟩

theorem sharedIndentation_dedent (h : '\x60' ∉ t) : sharedIndentation (dedent t) = 0 := by
  obtain ⟨first, ls, ht⟩ := exists_cons_of_ne_nil (splitLines_ne_nil t)
  rw [sharedIndentation_eq, splitLines_dedent h ht, tail_cons, indents_map_outdent, sharedIndentation_eq, ht, tail_cons]
  cases hmin : (indents ls).min? with
  | none => rw [min?_eq_none_iff.mp hmin]; rfl
  | some k => rw [Option.getD_some, min?_map_sub hmin]; rfl

theorem dedent_dedent (t : Text) : dedent (dedent t) = dedent t := by
  by_cases h : '\x60' ∈ dedent t
  · exact dedent_of_mem h
  · have ht : '\x60' ∉ t := fun ht => h (by rwa [dedent_of_mem ht])
    rw [dedent_eq_unindent (by simpa using h), sharedIndentation_dedent ht, unindent_zero]

/-- Lines keep their number and their first one, and the others lose white space only: those that are not blank all
lose the least indentation among them. -/
theorem dedent_keeps_layout (t : Text) : (splitLines (dedent t)).length = (splitLines t).length ∧
      (splitLines (dedent t)).head? = (splitLines t).head? ∧
      Forall₂ (fun l l' => ∃ w, isBlank w = true ∧ l = w ++ l') (splitLines t).tail (splitLines (dedent t)).tail ∧
      ('\x60' ∉ t → ∀ k, (indents (splitLines t).tail).min? = some k → Forall₂ (fun l l' => isBlank l = false →
          (∃ w, isBlank w = true ∧ w.length = k ∧ l = w ++ l') ∧ indentation l = k + indentation l')
          (splitLines t).tail (splitLines (dedent t)).tail ∧
        0 ∈ indents (splitLines (dedent t)).tail) ∧
      ('\x60' ∈ t → dedent t = t) ∧ dedent (dedent t) = dedent t := by
  by_cases h : '\x60' ∈ t
  · rw [dedent_of_mem h]
    exact ⟨rfl, rfl, forall₂_same.mpr fun l _ => ⟨[], rfl, rfl⟩, fun hn => absurd h hn, fun _ => rfl, dedent_of_mem h⟩
  · obtain ⟨first, ls, ht⟩ := exists_cons_of_ne_nil (splitLines_ne_nil t)
    rw [splitLines_dedent h ht, ht, tail_cons, tail_cons]
    have hshared : ∀ k, (indents ls).min? = some k → sharedIndentation t = k := by
      intro k hk
      rw [sharedIndentation_eq, ht, tail_cons, hk, Option.getD_some]
    refine ⟨by simp, rfl, ?_, fun _ k hk => ⟨?_, ?_⟩, fun hm => absurd hm h, dedent_dedent t⟩
    · rw [forall₂_map_right_iff, forall₂_same]
      intro l _
      obtain ⟨w, hw, -, hl⟩ := outdent_spec (sharedIndentation t) l
      exact ⟨w, hw, hl⟩
    · rw [hshared k hk, forall₂_map_right_iff, forall₂_same]
      intro l hmem hblank
      obtain ⟨w, hw, hlength, hl⟩ := outdent_spec k l
      have hle : k ≤ indentation l := hshared k hk ▸ sharedIndentation_le (ht ▸ hmem) hblank
      have hk' : w.length = k := hlength.trans (Nat.min_eq_left hle)
      refine ⟨⟨w, hw, hk', hl⟩, ?_⟩
      rw [← hk', ← indentation_append hw, hk', ← hl]
    · rw [hshared k hk, indents_map_outdent]
      exact (min?_eq_some_iff.mp (min?_map_sub hk)).1

end ComponentConverter
