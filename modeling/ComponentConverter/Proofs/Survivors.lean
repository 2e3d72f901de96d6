import ComponentConverter.Proofs.Cutting
import ComponentConverter.Proofs.TokenEnds

namespace ComponentConverter.Script

/-- The pieces that are left, the first of all at the offset `i`. -/
def survivors (cut : Nat → Bool) : Nat → List Piece → List Piece
  | _, [] => []
  | i, p :: ps =>
    if cut i then survivors cut (i + bytes p.text) ps else p :: survivors cut (i + bytes p.text) ps

/-- The offset `n` lies inside of no piece. -/
def BetweenPieces (n : Nat) : Nat → List Piece → Prop
  | _, [] => True
  | i, p :: ps => (n ≤ i ∨ i + bytes p.text ≤ n) ∧ BetweenPieces n (i + bytes p.text) ps

def BetweenPieces.decide (n : Nat) : (i : Nat) → (ps : List Piece) → Decidable (BetweenPieces n i ps)
  | _, [] => .isTrue trivial
  | i, p :: ps =>
    have := BetweenPieces.decide n (i + bytes p.text) ps
    inferInstanceAs (Decidable ((n ≤ i ∨ i + bytes p.text ≤ n) ∧ BetweenPieces n (i + bytes p.text) ps))

instance (n i : Nat) (ps : List Piece) : Decidable (BetweenPieces n i ps) := BetweenPieces.decide n i ps

theorem join_cons (p : Piece) (ps : List Piece) : join (p :: ps) = p.text ++ join ps := rfl

theorem join_append (ps qs : List Piece) : join (ps ++ qs) = join ps ++ join qs := List.flatMap_append

theorem BetweenPieces.of_append {n i : Nat} {ps qs : List Piece} (h : BetweenPieces n i (ps ++ qs)) :
    BetweenPieces n (i + bytes (join ps)) qs := by
  induction ps generalizing i with
  | nil => exact h
  | cons p ps ih =>
    rw [join_cons, bytes_append, ← Nat.add_assoc]
    exact ih h.2

section Kept

variable {cuts : List Span} {i : Nat}

theorem covered_piece {p : Piece} {j : Nat}
    (h : ∀ c ∈ cuts, (c.start ≤ i ∨ i + bytes p.text ≤ c.start) ∧ (c.stop ≤ i ∨ i + bytes p.text ≤ c.stop))
    (hi : i ≤ j) (hj : j < i + bytes p.text) : covered cuts j = covered cuts i := by
  rw [Bool.eq_iff_iff, covered_eq_true, covered_eq_true]
  constructor
  · rintro ⟨c, hc, hs⟩
    have hb := h c hc
    exact ⟨c, hc, by omega, by omega⟩
  · rintro ⟨c, hc, hs⟩
    have hb := h c hc
    exact ⟨c, hc, by omega, by omega⟩

theorem kept_join {ps : List Piece} (h : ∀ c ∈ cuts, BetweenPieces c.start i ps ∧ BetweenPieces c.stop i ps) :
    kept (covered cuts) i (join ps) = join (survivors (covered cuts) i ps) := by
  induction ps generalizing i with
  | nil => rfl
  | cons p ps ih =>
    have hp : kept (covered cuts) i p.text = kept (fun _ => covered cuts i) i p.text :=
      kept_congr fun j hi hj => covered_piece (fun c hc => ⟨(h c hc).1.1, (h c hc).2.1⟩) hi hj
    rw [join_cons, kept_append, hp, ih fun c hc => ⟨(h c hc).1.2, (h c hc).2.2⟩, survivors]
    cases covered cuts i with
    | true => rw [kept_true, if_pos rfl, List.nil_append]
    | false => rw [kept_false, if_neg (by simp), join_cons]

end Kept

/-- Each piece that is left either has kept the characters ahead of it and what is before it, or is
read all the same. The two flags tell whether a line has ended before, as it was and as it is. -/
def Undisturbed (cut : Nat → Bool) : Nat → Bool → Bool → List Piece → Prop
  | _, _, _, [] => True
  | i, was, is, p :: ps =>
    if cut i then Undisturbed cut (i + bytes p.text) (p.leaves was) is ps
    else
      (was = is ∧ ahead 3 (join ps) = ahead 3 (join (survivors cut (i + bytes p.text) ps)) ∨
        p.Fits is (join (survivors cut (i + bytes p.text) ps))) ∧
      Undisturbed cut (i + bytes p.text) (p.leaves was) (p.leaves is) ps

def Undisturbed.decide (cut : Nat → Bool) : (i : Nat) → (was is : Bool) → (ps : List Piece) →
    Decidable (Undisturbed cut i was is ps)
  | _, _, _, [] => .isTrue trivial
  | i, was, is, p :: ps =>
    have := Undisturbed.decide cut (i + bytes p.text) (p.leaves was) is ps
    have := Undisturbed.decide cut (i + bytes p.text) (p.leaves was) (p.leaves is) ps
    inferInstanceAs (Decidable (if cut i then _ else _))

instance (cut : Nat → Bool) (i : Nat) (was is : Bool) (ps : List Piece) :
    Decidable (Undisturbed cut i was is ps) := Undisturbed.decide cut i was is ps

theorem reads_survivors_iff {cut : Nat → Bool} {i : Nat} {was is : Bool} {ps : List Piece}
    (h : Reads was ps) : Reads is (survivors cut i ps) ↔ Undisturbed cut i was is ps := by
  induction ps generalizing i was is with
  | nil => exact Iff.rfl
  | cons p ps ih =>
    obtain ⟨hp, hps⟩ := h
    rw [survivors, Undisturbed]
    split
    · exact ih hps
    · rw [Reads]
      refine and_congr ⟨Or.inr, ?_⟩ (ih hps)
      rintro (⟨rfl, ha⟩ | hf)
      · exact hp.of_alike (.of_ahead_eq ha)
      · exact hf

end ComponentConverter.Script
