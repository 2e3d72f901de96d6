import ComponentConverter.Text.Position
import ComponentConverter.Proofs.Cutting
import Mathlib.Data.List.DropRight
import Mathlib.Data.Prod.Lex

namespace ComponentConverter.Position

open List

variable {u v : Text} {base n : Nat}

theorem lineStartsAfter_append (base : Nat) (u v : Text) :
    lineStartsAfter base (u ++ v) = lineStartsAfter base u ++ lineStartsAfter (base + bytes u) v := by
  induction u generalizing base with
  | nil => rfl
  | cons c u ih =>
    rw [cons_append, lineStartsAfter, lineStartsAfter, bytes_cons, ← Nat.add_assoc]
    split
    · rw [ih, cons_append]
    · exact ih _

theorem length_lineStartsAfter (base : Nat) (u : Text) : (lineStartsAfter base u).length = u.count '\n' := by
  induction u generalizing base with
  | nil => rfl
  | cons c u ih =>
    rw [lineStartsAfter]
    split
    next hc => rw [length_cons, ih, hc, count_cons_self]
    next hc => rw [ih, count_cons_of_ne hc]

theorem bounds_of_mem_lineStartsAfter (h : n ∈ lineStartsAfter base u) : base < n ∧ n ≤ base + bytes u := by
  induction u generalizing base with
  | nil => cases h
  | cons c u ih =>
    have hc := c.utf8Size_pos
    have hrest : n ∈ lineStartsAfter (base + c.utf8Size) u → base < n ∧ n ≤ base + bytes (c :: u) := by
      intro hn
      have hbounds := ih hn
      rw [bytes_cons]
      omega
    rw [lineStartsAfter] at h
    split at h
    · rcases mem_cons.mp h with rfl | hn
      · rw [bytes_cons]
        omega
      · exact hrest hn
    · exact hrest h

/-- The lines that have begun up to a place are those of the text before it. -/
theorem takeWhile_lineStarts (u v : Text) : (lineStarts (u ++ v)).takeWhile (· ≤ bytes u) = lineStarts u := by
  have hbefore : ∀ n ∈ lineStarts u, decide (n ≤ bytes u) = true := by
    intro n hn
    rcases mem_cons.mp hn with rfl | hn
    · simp
    · simpa using (bounds_of_mem_lineStartsAfter hn).2
  have hbehind : (lineStartsAfter (0 + bytes u) v).takeWhile (· ≤ bytes u) = [] := by
    cases hv : lineStartsAfter (0 + bytes u) v with
    | nil => rfl
    | cons n ns =>
      have hn := (bounds_of_mem_lineStartsAfter (hv ▸ mem_cons_self)).1
      exact takeWhile_cons_of_neg (by simpa using hn)
  rw [lineStarts, lineStartsAfter_append, ← cons_append, ← lineStarts, takeWhile_append_of_pos hbefore, hbehind,
    append_nil]

theorem getLast?_lineStarts (u : Text) : (lineStarts u).getLast? = some (bytes (u.rdropWhile (· != '\n'))) := by
  induction u using reverseRecOn with
  | nil => rfl
  | append_singleton u c ih =>
    rw [lineStarts, lineStartsAfter_append, ← cons_append, ← lineStarts, lineStartsAfter]
    split
    next hc =>
      rw [lineStartsAfter, getLast?_concat, rdropWhile_concat_neg _ _ _ (by simp [hc])]
      simp
    next hc => rw [lineStartsAfter, append_nil, ih, rdropWhile_concat_pos _ _ _ (by simp [hc])]

/-- The place of an offset between two characters is told by the text before it. -/
theorem ofOffset_append (u v : Text) :
    ofOffset (u ++ v) (bytes u) = ⟨u.count '\n' + 1, (u.rtakeWhile (· != '\n')).length + 1⟩ := by
  have hmin : min (bytes u) (bytes (u ++ v)) = bytes u := by
    rw [bytes_append]
    omega
  have hslice : (Span.mk (bytes (u.rdropWhile (· != '\n'))) (bytes u)).slice? (u ++ v) =
      some (u.rtakeWhile (· != '\n')) := by
    have hs := Span.slice?_append (u.rdropWhile (· != '\n')) (u.rtakeWhile (· != '\n')) v
    rwa [← append_assoc, ← bytes_append, rdropWhile_append_rtakeWhile] at hs
  rw [ofOffset, hmin, takeWhile_lineStarts, getLast?_lineStarts, Option.getD_some, hslice, lineStarts, length_cons,
    length_lineStartsAfter]
  rfl

def key (p : Position) : Nat ×ₗ Nat := toLex (p.line, p.column)

theorem key_ofOffset_lt (u : Text) {w : Text} (hw : w ≠ []) (v : Text) :
    (ofOffset (u ++ (w ++ v)) (bytes u)).key < (ofOffset (u ++ (w ++ v)) (bytes (u ++ w))).key := by
  rw [ofOffset_append, ← append_assoc, ofOffset_append, key, key, Prod.Lex.toLex_lt_toLex, count_append]
  by_cases hn : '\n' ∈ w
  · have hcount := count_pos_iff.mpr hn
    left
    dsimp only
    omega
  · have hrest : (u ++ w).rtakeWhile (· != '\n') = u.rtakeWhile (· != '\n') ++ w := by
      rw [rtakeWhile, reverse_append, takeWhile_append_of_pos, reverse_append, reverse_reverse, rtakeWhile]
      intro c hc
      simpa using ne_of_mem_of_not_mem (mem_reverse.mp hc) hn
    have hlength := length_pos_iff.mpr hw
    right
    rw [hrest, count_eq_zero.mpr hn, length_append]
    dsimp only
    omega

/-- Lines and columns of the places between characters: both are counted from one, places further on come later,
and what lies past the end counts as the end. -/
theorem positions_ordered (t : Text) : (∀ u v, t = u ++ v →
      ofOffset t (bytes u) = ⟨u.count '\n' + 1, (u.rtakeWhile (· != '\n')).length + 1⟩) ∧
      StrictMonoOn (fun offset => (ofOffset t offset).key) {offset | Border t offset} ∧
      Set.InjOn (ofOffset t) {offset | Border t offset} ∧
      ∀ offset, bytes t ≤ offset → ofOffset t offset = ofOffset t (bytes t) := by
  have hmono : StrictMonoOn (fun offset => (ofOffset t offset).key) {offset | Border t offset} := by
    rintro _ ⟨u, v, hu, rfl⟩ _ ⟨u', v', hu', rfl⟩ hlt
    obtain ⟨w, rfl⟩ : u <+: u' := by
      rcases prefix_or_prefix_of_prefix ⟨v, hu.symm⟩ ⟨v', hu'.symm⟩ with h | ⟨w, rfl⟩
      · exact h
      · rw [bytes_append] at hlt
        omega
    have hw : w ≠ [] := by
      rintro rfl
      simp at hlt
    rw [hu', append_assoc]
    exact key_ofOffset_lt u hw v'
  refine ⟨?_, hmono, ?_, ?_⟩
  · rintro u v rfl
    exact ofOffset_append u v
  · intro o ho o' ho' he
    exact hmono.injOn ho ho' (congrArg key he)
  · intro offset hle
    rw [ofOffset, ofOffset, Nat.min_eq_right hle, Nat.min_self]

end ComponentConverter.Position
