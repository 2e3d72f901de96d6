import ComponentConverter.Text.Basic

namespace ComponentConverter

open List

variable {fuel : Nat} {t s : Text}

section Runs

variable {σ α : Type} {step : σ → Option (α × σ)}

/-- From one state to another by steps with the given results. -/
inductive Run (step : σ → Option (α × σ)) : σ → List α → σ → Prop
  | done (s : σ) : Run step s [] s
  | more {s s' t : σ} {a : α} {as : List α} (h : step s = some (a, s')) (hr : Run step s' as t) :
      Run step s (a :: as) t

theorem Run.single {s t : σ} {a : α} (h : step s = some (a, t)) : Run step s [a] t := .more h (.done t)

theorem Run.trans {s t u : σ} {as bs : List α} (h : Run step s as t) (h' : Run step t bs u) :
    Run step s (as ++ bs) u := by
  induction h with
  | done s => exact h'
  | more h hr ih => exact .more h (ih h')

theorem Run.last {s t : σ} {as : List α} (h : Run step s as t) :
    s = t ∨ ∃ u bs b, Run step s bs u ∧ step u = some (b, t) := by
  induction h with
  | done s => exact .inl rfl
  | @more s s' t a as h hr ih =>
    rcases ih with rfl | ⟨u, bs, b, hu, hb⟩
    · exact .inr ⟨s, [], a, .done s, h⟩
    · exact .inr ⟨u, a :: bs, b, .more h hu, hb⟩

theorem Run.mono {step' : σ → Option (α × σ)}
    (hstep : ∀ s a s', step s = some (a, s') → step' s = some (a, s')) {s t : σ} {as : List α}
    (hr : Run step s as t) : Run step' s as t := by
  induction hr with
  | done s => exact .done s
  | more h hr ih => exact .more (hstep _ _ _ h) ih

theorem Run.invariant {I : σ → Prop} {P : α → Prop}
    (hstep : ∀ s a s', I s → step s = some (a, s') → P a ∧ I s') {s t : σ} {as : List α}
    (hr : Run step s as t) (hs : I s) : (∀ a ∈ as, P a) ∧ I t := by
  induction hr with
  | done s => exact ⟨forall_mem_nil _, hs⟩
  | more h hr ih =>
    obtain ⟨ha, hs⟩ := hstep _ _ _ hs h
    exact (ih hs).imp_left fun has => forall_mem_cons.mpr ⟨ha, has⟩

theorem Run.forall_mem {P : α → Prop} (hP : ∀ s a s', step s = some (a, s') → P a) {s t : σ}
    {as : List α} (hr : Run step s as t) : ∀ a ∈ as, P a :=
  (hr.invariant (I := fun _ => True) (fun s a s' _ h => ⟨hP s a s' h, trivial⟩) trivial).1

theorem run_exhaust (fuel : Nat) (s : σ) : Run step s (exhaust step fuel s).1 (exhaust step fuel s).2 := by
  induction fuel generalizing s with
  | zero => exact .done s
  | succ fuel ih =>
    rw [exhaust]
    split
    · exact .done s
    next a s' h => exact .more h (ih s')

theorem exhaust_eq_of_run {s t : σ} {as : List α} (hr : Run step s as t) (ht : step t = none)
    (hf : as.length ≤ fuel) : exhaust step fuel s = (as, t) := by
  induction hr generalizing fuel with
  | done s => cases fuel <;> simp [exhaust, ht]
  | more h hr ih =>
    cases fuel with
    | zero => simp at hf
    | succ fuel =>
      have hi := ih ht (Nat.le_of_succ_le_succ hf)
      simp [exhaust, h, hi]

theorem Run.length_le {μ : σ → Nat} (hμ : ∀ s a s', step s = some (a, s') → μ s' < μ s)
    {s t : σ} {as : List α} (hr : Run step s as t) : as.length + μ t ≤ μ s := by
  induction hr with
  | done s => simp
  | more h hr ih =>
    have hlt := hμ _ _ _ h
    simp only [length_cons]
    omega

theorem step_exhaust {μ : σ → Nat} (hμ : ∀ s a s', step s = some (a, s') → μ s' < μ s) {s : σ}
    (hf : μ s ≤ fuel) : step (exhaust step fuel s).2 = none := by
  induction fuel generalizing s with
  | zero =>
    cases hs : step s with
    | none => simpa [exhaust] using hs
    | some p =>
      have hlt := hμ _ _ _ hs
      omega
  | succ fuel ih =>
    rw [exhaust]
    split
    next h => exact h
    next a s' h =>
      have hlt := hμ _ _ _ h
      exact ih (by omega)

end Runs

section Search

variable {pat : Text}

theorem breakOn?_nil (pat : Text) : breakOn? pat [] = if pat.isEmpty then some ([], []) else none := rfl

theorem breakOn?_cons (pat : Text) (c : Char) (t : Text) : breakOn? pat (c :: t) =
    if pat.isPrefixOf (c :: t) then some ([], (c :: t).drop pat.length)
    else (breakOn? pat t).map fun (s, r) => (c :: s, r) := rfl

theorem eq_of_breakOn? {r : Text} (h : breakOn? pat t = some (s, r)) : t = s ++ pat ++ r := by
  induction t generalizing s r with
  | nil =>
    rw [breakOn?_nil] at h
    split at h
    next he =>
      simp_all
    · simp at h
  | cons c t ih =>
    rw [breakOn?_cons] at h
    split at h
    next hp =>
      obtain ⟨u, hu⟩ := List.isPrefixOf_iff_prefix.mp hp
      obtain ⟨rfl, rfl⟩ := h
      rw [← hu]
      simp
    · simp only [Option.map_eq_some_iff, Prod.exists, Prod.mk.injEq] at h
      obtain ⟨s', r', hb, rfl, rfl⟩ := h
      rw [ih hb]
      rfl

theorem not_infix_of_breakOn? {rest : Text} (hpat : pat ≠ [])
    (h : breakOn? pat t = some (s, rest)) : ¬ pat <:+: s := by
  induction t generalizing s with
  | nil =>
    rw [breakOn?_nil, if_neg (by simpa using hpat)] at h
    simp at h
  | cons c t ih =>
    have ht := eq_of_breakOn? h
    rw [breakOn?_cons] at h
    split at h
    · obtain ⟨rfl, -⟩ := Prod.mk.inj (Option.some.inj h)
      exact fun hi => hpat (infix_nil.mp hi)
    next hp =>
      obtain ⟨⟨s', r'⟩, hb, hs⟩ := Option.map_eq_some_iff.mp h
      obtain ⟨rfl, rfl⟩ := Prod.mk.inj hs
      rw [infix_cons_iff]
      rintro (hi | hi)
      · apply hp
        rw [List.isPrefixOf_iff_prefix, ht, append_assoc]
        exact hi.trans (prefix_append _ _)
      · exact ih hb hi

theorem isSome_breakOn?_iff : (breakOn? pat t).isSome = true ↔ pat <:+: t := by
  induction t with
  | nil => simp [breakOn?_nil]
  | cons c t ih =>
    rw [breakOn?_cons, infix_cons_iff, ← List.isPrefixOf_iff_prefix]
    split
    next h => simp [h]
    next h => simp [h, ih]

theorem breakOn?_char {c : Char} (h : c ∉ s) (r : Text) : breakOn? [c] (s ++ c :: r) = some (s, r) := by
  induction s with
  | nil => simp [breakOn?_cons]
  | cons d s ih =>
    simp only [mem_cons, not_or] at h
    have hne : (c == d) = false := by simpa using h.1
    simp [breakOn?_cons, List.isPrefixOf, hne, ih h.2]

/-- A pattern whose first character does not come back in it is found right after a text without
it: an earlier occurrence could not stretch over the end of that text. -/
theorem breakOn?_headed {x : Char} {q : Text} (hx : x ∉ q) (hs : ¬ (x :: q) <:+: s) (r : Text) :
    breakOn? (x :: q) (s ++ (x :: q ++ r)) = some (s, r) := by
  induction s with
  | nil =>
    have hp : (x :: q).isPrefixOf (x :: (q ++ r)) = true := by
      rw [List.isPrefixOf_iff_prefix]
      exact prefix_append (x :: q) r
    simp [breakOn?_cons, hp]
  | cons c s ih =>
    have hp : (x :: q).isPrefixOf (c :: (s ++ (x :: q ++ r))) = false := by
      rw [Bool.eq_false_iff, ne_eq, List.isPrefixOf_iff_prefix, cons_prefix_cons]
      rintro ⟨rfl, hq⟩
      by_cases hl : q.length ≤ s.length
      · have hqs := prefix_of_prefix_length_le hq (prefix_append s _) hl
        exact hs (cons_prefix_cons.mpr ⟨rfl, hqs⟩).isInfix
      · obtain ⟨y, rfl⟩ := prefix_of_prefix_length_le (prefix_append s _) hq (by omega)
        cases y with
        | nil => simp at hl
        | cons d y =>
          obtain ⟨rfl, -⟩ := cons_prefix_cons.mp ((prefix_append_right_inj s).mp hq)
          exact hx (by simp)
    have hi := ih fun h => hs (infix_cons h)
    rw [cons_append, breakOn?_cons, hp, hi]
    rfl

theorem breakOn?_commentEnd (h : ¬ ['-', '-', '>'] <:+: s) (r : Text) :
    breakOn? ['-', '-', '>'] (s ++ '-' :: '-' :: '>' :: r) = some (s, r) := by
  induction s with
  | nil => simp [breakOn?_cons]
  | cons c s ih =>
    have hs : ¬ ['-', '-', '>'] <:+: s := fun hi => h (infix_cons hi)
    have hp : ['-', '-', '>'].isPrefixOf (c :: (s ++ '-' :: '-' :: '>' :: r)) = false := by
      -- an earlier occurrence would end in the text or stretch over its end
      cases s with
      | nil => simp [List.isPrefixOf]
      | cons d s =>
        cases s with
        | nil => simp [List.isPrefixOf]
        | cons e s =>
          rw [Bool.eq_false_iff]
          intro hp
          simp only [cons_append, List.isPrefixOf, Bool.and_true, Bool.and_eq_true, beq_iff_eq] at hp
          obtain ⟨rfl, rfl, rfl⟩ := hp
          exact h ⟨[], s, rfl⟩
    rw [cons_append, breakOn?_cons, hp]
    simp [ih hs]

end Search

end ComponentConverter
