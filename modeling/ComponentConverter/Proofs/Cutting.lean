import ComponentConverter.Script.Cut
import ComponentConverter.Proofs.Slicing

namespace ComponentConverter

open List

variable {a b c i start stop : Nat} {cut' : Nat → Bool} {cuts cuts' : List Span} {parts : List (Span × Text)}
  {s : Span} {t : Text} {cut : Nat → Bool}

/-- An offset between two characters, or at an end. -/
def Border (t : Text) (n : Nat) : Prop := ∃ u v, t = u ++ v ∧ bytes u = n

theorem border_iff {n : Nat} : Border t n ↔ (splitBytes? n t).isSome = true := by
  constructor
  · rintro ⟨u, v, rfl, rfl⟩
    rw [splitBytes?_append]
    rfl
  · intro h
    obtain ⟨⟨u, v⟩, hs⟩ := Option.isSome_iff_exists.mp h
    obtain ⟨ht, hn⟩ := splitBytes?_eq_some_iff.mp hs
    exact ⟨u, v, ht, hn.symm⟩

instance (t : Text) (n : Nat) : Decidable (Border t n) := decidable_of_iff _ border_iff.symm

namespace Span

def Apart (s t : Span) : Prop := s.stop ≤ t.start ∨ t.stop ≤ s.start

structure IsRange (s : Span) (t : Text) : Prop where
  ordered : s.start ≤ s.stop
  start : Border t s.start
  stop : Border t s.stop

instance (s t : Span) : Decidable (s.Apart t) := inferInstanceAs (Decidable (_ ∨ _))

theorem Within.refl (s : Span) : s.Within s := ⟨Nat.le_refl _, Nat.le_refl _⟩

theorem Within.trans {s t u : Span} (h : s.Within t) (h' : t.Within u) : s.Within u :=
  ⟨Nat.le_trans h'.1 h.1, Nat.le_trans h.2 h'.2⟩

theorem Apart.symm {s t : Span} (h : s.Apart t) : t.Apart s := Or.symm h

theorem Apart.of_within {s s' t t' : Span} (h : s'.Apart t') (hs : s.Within s') (ht : t.Within t') : s.Apart t := by
  rcases h with h | h
  · exact .inl (Nat.le_trans hs.2 (Nat.le_trans h ht.1))
  · exact .inr (Nat.le_trans ht.2 (Nat.le_trans h hs.1))

end Span

theorem Span.isRange_iff : s.IsRange t ↔ s.start ≤ s.stop ∧ Border t s.start ∧ Border t s.stop :=
  ⟨fun h => ⟨h.ordered, h.start, h.stop⟩, fun ⟨ho, ha, hb⟩ => ⟨ho, ha, hb⟩⟩

instance (s : Span) (t : Text) : Decidable (s.IsRange t) := decidable_of_iff _ Span.isRange_iff.symm

namespace Span

theorem IsRange.exists_append (h : s.IsRange t) :
    ∃ u v w, t = u ++ (v ++ w) ∧ s.start = bytes u ∧ s.stop = bytes u + bytes v := by
  obtain ⟨ho, ⟨u, v', ht, hu⟩, u', w, ht', hu'⟩ := h
  obtain ⟨v, rfl⟩ := append_of_bytes_le (ht.symm.trans ht') (by omega)
  refine ⟨u, v, w, by rw [ht', append_assoc], hu.symm, ?_⟩
  rw [← hu', bytes_append]

theorem slice_append (u v w : Text) : (Span.mk (bytes u) (bytes u + bytes v)).slice (u ++ (v ++ w)) = v := by
  rw [slice, slice?_append]
  rfl

theorem IsRange.bytes_slice (h : s.IsRange t) : s.start + bytes (s.slice t) = s.stop := by
  obtain ⟨u, v, w, rfl, hs, ht⟩ := h.exists_append
  obtain ⟨a, b⟩ := s
  dsimp only at hs ht
  rw [hs, ht, slice_append]

theorem slice_split (h : (Span.mk a b).IsRange t) (h' : (Span.mk b c).IsRange t) :
    (Span.mk a c).slice t = (Span.mk a b).slice t ++ (Span.mk b c).slice t := by
  obtain ⟨u, v, w, ht, hs, hv⟩ := h.exists_append
  obtain ⟨u', v', w', ht', hs', hv'⟩ := h'.exists_append
  dsimp only at hs hv hs' hv'
  rw [← append_assoc] at ht
  obtain ⟨x, hx⟩ := append_of_bytes_le (ht.symm.trans ht') (by rw [bytes_append]; omega)
  have hx' : x = [] := eq_nil_of_bytes_eq_zero (by
    rw [hx, bytes_append, bytes_append] at hs'
    omega)
  subst hx'
  rw [append_nil] at hx
  have hab : (Span.mk a b).slice t = v := by
    rw [ht, hs, hv, append_assoc, slice_append]
  have hbc : (Span.mk b c).slice t = v' := by
    rw [ht', hv', hs', slice_append]
  have hac := slice_append u (v ++ v') w'
  rw [bytes_append, ← Nat.add_assoc, ← hv, hs', ← hv', ← hs, append_assoc v, ← append_assoc u, ← hx, ← ht'] at hac
  rw [hab, hbc, hac]

end Span

/-- What is left of a text that starts at an offset, without the characters at the given
offsets. -/
def kept (cut : Nat → Bool) : Nat → Text → Text
  | _, [] => []
  | p, c :: t => if cut p then kept cut (p + c.utf8Size) t else c :: kept cut (p + c.utf8Size) t

theorem kept_append (cut : Nat → Bool) (p : Nat) (u v : Text) :
    kept cut p (u ++ v) = kept cut p u ++ kept cut (p + bytes u) v := by
  induction u generalizing p with
  | nil => simp [kept]
  | cons c u ih =>
    rw [cons_append, kept, kept, ih, bytes_cons, Nat.add_assoc]
    split
    · rfl
    · rfl

theorem kept_congr {p : Nat} (h : ∀ i, p ≤ i → i < p + bytes t → cut i = cut' i) : kept cut p t = kept cut' p t := by
  induction t generalizing p with
  | nil => rfl
  | cons c t ih =>
    have hc := c.utf8Size_pos
    rw [bytes_cons] at h
    have ht : kept cut (p + c.utf8Size) t = kept cut' (p + c.utf8Size) t :=
      ih fun i hi hi' => h i (by omega) (by omega)
    rw [kept, kept, ht, h p (by omega) (by omega)]

theorem kept_false (p : Nat) (t : Text) : kept (fun _ => false) p t = t := by
  induction t generalizing p with
  | nil => rfl
  | cons c t ih => simp [kept, ih]

theorem kept_true (p : Nat) (t : Text) : kept (fun _ => true) p t = [] := by
  induction t generalizing p with
  | nil => rfl
  | cons c t ih => simp [kept, ih]

def keptIn (text : Text) (cut : Nat → Bool) (s : Span) : Text := kept cut s.start (s.slice text)

section Ranges

variable {text : Text} {cut : Nat → Bool}

theorem keptIn_split (h : (Span.mk a b).IsRange text) (h' : (Span.mk b c).IsRange text) :
    keptIn text cut ⟨a, c⟩ = keptIn text cut ⟨a, b⟩ ++ keptIn text cut ⟨b, c⟩ := by
  have hb := h.bytes_slice
  rw [keptIn, keptIn, keptIn, Span.slice_split h h', kept_append, hb]

theorem keptIn_congr (hs : s.IsRange text)
    (h : ∀ i, s.start ≤ i → i < s.stop → cut i = cut' i) : keptIn text cut s = keptIn text cut' s := by
  apply kept_congr
  rw [hs.bytes_slice]
  exact h

theorem keptIn_eq_slice (hs : s.IsRange text)
    (h : ∀ i, s.start ≤ i → i < s.stop → cut i = false) : keptIn text cut s = s.slice text := by
  rw [keptIn_congr hs h, keptIn, kept_false]

theorem keptIn_eq_nil (hs : s.IsRange text)
    (h : ∀ i, s.start ≤ i → i < s.stop → cut i = true) : keptIn text cut s = [] := by
  rw [keptIn_congr hs h, keptIn, kept_true]

end Ranges

namespace Script

def covered (cuts : List Span) (i : Nat) : Bool := cuts.any fun c => c.start ≤ i && i < c.stop

theorem covered_eq_true : covered cuts i = true ↔ ∃ c ∈ cuts, c.start ≤ i ∧ i < c.stop := by
  simp [covered]

theorem covered_append (cuts cuts' : List Span) (i : Nat) :
    covered (cuts ++ cuts') i = (covered cuts i || covered cuts' i) := by
  simp [covered]

theorem covered_perm (h : cuts.Perm cuts') : covered cuts = covered cuts' := by
  funext i
  rw [Bool.eq_iff_iff, covered_eq_true, covered_eq_true]
  simp [h.mem_iff]

/-- Cuts inside a range of a text that are not empty and keep apart. -/
structure Tidy (text : Text) (range : Span) (cuts : List Span) : Prop where
  isRange : ∀ c ∈ cuts, c.IsRange text
  nonempty : ∀ c ∈ cuts, c.start < c.stop
  within : ∀ c ∈ cuts, c.Within range
  apart : cuts.Pairwise Span.Apart

/-- The text of a range from `start` on, with other texts in place of the given parts. -/
def spliceFrom (text : Text) (stop : Nat) : Nat → List (Span × Text) → Text
  | start, [] => (Span.mk start stop).slice text
  | start, (s, t) :: parts => (Span.mk start s.start).slice text ++ (t ++ spliceFrom text stop s.stop parts)

def comesBefore (s t : Span) : Bool := s.start < t.start || (s.start = t.start && s.stop ≤ t.stop)

/-- The text of a range with other texts in place of the given parts of it. -/
def splice (text : Text) (range : Span) (parts : List (Span × Text)) : Text :=
  spliceFrom text range.stop range.start (parts.mergeSort fun p q => comesBefore p.1 q.1)

theorem spliceFrom_eq_keptIn {text : Text} (hr : (Span.mk start stop).IsRange text)
    (hp : ∀ p ∈ parts, p.1.IsRange text ∧ p.1.Within ⟨start, stop⟩ ∧ p.2 = keptIn text cut p.1)
    (hs : parts.Pairwise fun p q => p.1.stop ≤ q.1.start)
    (hcut : ∀ i, start ≤ i → i < stop → cut i = true → ∃ p ∈ parts, p.1.start ≤ i ∧ i < p.1.stop) :
    spliceFrom text stop start parts = keptIn text cut ⟨start, stop⟩ := by
  induction parts generalizing start with
  | nil =>
    rw [spliceFrom, keptIn_eq_slice hr]
    intro i ha hb
    rw [Bool.eq_false_iff]
    intro hc
    simpa using hcut i ha hb hc
  | cons p parts ih =>
    obtain ⟨s, t⟩ := p
    obtain ⟨hsr, ⟨hw1, hw2⟩, ht⟩ := hp (s, t) (by simp)
    obtain ⟨hlt, hs'⟩ := pairwise_cons.mp hs
    dsimp only at hsr hw1 hw2 ht hlt
    have ho := hsr.ordered
    have hbefore : (Span.mk start s.start).IsRange text := ⟨hw1, hr.start, hsr.start⟩
    have hafter : (Span.mk s.stop stop).IsRange text := ⟨hw2, hsr.stop, hr.stop⟩
    have hrest : (Span.mk s.start stop).IsRange text := ⟨Nat.le_trans ho hw2, hsr.start, hr.stop⟩
    have hkeep : keptIn text cut ⟨start, s.start⟩ = (Span.mk start s.start).slice text := by
      apply keptIn_eq_slice hbefore
      intro i ha hb
      dsimp only at ha hb
      rw [Bool.eq_false_iff]
      intro hc
      obtain ⟨q, hq, hqa, hqb⟩ := hcut i ha (by omega) hc
      rcases mem_cons.mp hq with rfl | hq
      · dsimp only at hqa
        omega
      · have := hlt q hq
        omega
    have htail : spliceFrom text stop s.stop parts = keptIn text cut ⟨s.stop, stop⟩ := by
      apply ih hafter
      · intro q hq
        obtain ⟨hqr, ⟨-, hqw⟩, hqt⟩ := hp q (by simp [hq])
        exact ⟨hqr, ⟨hlt q hq, hqw⟩, hqt⟩
      · exact hs'
      · intro i ha hb hc
        obtain ⟨q, hq, hqa, hqb⟩ := hcut i (by omega) hb hc
        rcases mem_cons.mp hq with rfl | hq
        · dsimp only at hqb
          omega
        · exact ⟨q, hq, hqa, hqb⟩
    rw [spliceFrom, ht, htail, ← hkeep, ← keptIn_split hsr hafter, ← keptIn_split hbefore hrest]

theorem skipping_eq_spliceFrom (text : Text) (stop : Nat) (hc : ∀ c ∈ cuts, start ≤ c.start)
    (hs : cuts.Pairwise fun a b => a.stop ≤ b.start) :
    skipping text stop start cuts = spliceFrom text stop start (cuts.map fun c => (c, [])) := by
  induction cuts generalizing start with
  | nil => rfl
  | cons c cuts ih =>
    obtain ⟨hlt, hs⟩ := pairwise_cons.mp hs
    rw [skipping, if_neg (Nat.not_lt.mpr (hc c mem_cons_self)), ih hlt hs]
    rfl

theorem skipping_eq_keptIn {text : Text} (hr : (Span.mk start stop).IsRange text) (hc : Tidy text ⟨start, stop⟩ cuts)
    (hs : cuts.Pairwise fun a b => a.stop ≤ b.start) :
    skipping text stop start cuts = keptIn text (covered cuts) ⟨start, stop⟩ := by
  rw [skipping_eq_spliceFrom text stop (fun c hm => (hc.within c hm).1) hs]
  refine spliceFrom_eq_keptIn hr ?_ (pairwise_map.mpr hs) ?_
  · refine forall_mem_map.mpr fun c hm => ⟨hc.isRange c hm, hc.within c hm, ?_⟩
    exact (keptIn_eq_nil (hc.isRange c hm) fun i hi hi' => covered_eq_true.mpr ⟨c, hm, hi, hi'⟩).symm
  · intro i _ _ hi
    obtain ⟨c, hm, hi⟩ := covered_eq_true.mp hi
    exact ⟨(c, []), mem_map_of_mem hm, hi⟩

theorem pairwise_mergeSort_apart {α : Type} (span : α → Span) {le : α → α → Bool} {l : List α}
    (htrans : ∀ a b c, le a b = true → le b c = true → le a c = true) (htotal : ∀ a b, (le a b || le b a) = true)
    (hle : ∀ a ∈ l, ∀ b ∈ l, le a b = true → (span b).stop ≤ (span a).start → (span a).stop ≤ (span b).start)
    (ha : l.Pairwise fun a b => (span a).Apart (span b)) :
    (l.mergeSort le).Pairwise fun a b => (span a).stop ≤ (span b).start := by
  have hperm := mergeSort_perm l le
  have hsort := pairwise_mergeSort htrans htotal l
  refine (hsort.and (ha.perm hperm.symm Span.Apart.symm)).imp_of_mem ?_
  rintro a b ha hb ⟨hab, h | h⟩
  · exact h
  · exact hle a (hperm.mem_iff.mp ha) b (hperm.mem_iff.mp hb) hab h

theorem pairwise_mergeSort_start {text : Text} {range : Span} (hc : Tidy text range cuts) :
    (cuts.mergeSort fun a b => a.start ≤ b.start).Pairwise fun a b => a.stop ≤ b.start := by
  refine pairwise_mergeSort_apart id ?_ ?_ ?_ hc.apart
  · intro a b c hab hbc
    simp only [decide_eq_true_eq] at *
    omega
  · intro a b
    simp only [Bool.or_eq_true, decide_eq_true_eq]
    omega
  · intro a _ b hb hab h
    have hb := hc.nonempty b hb
    simp only [decide_eq_true_eq, id] at *
    omega

theorem pairwise_mergeSort_parts {text : Text} (hr : ∀ p ∈ parts, p.1.IsRange text)
    (ha : parts.Pairwise fun p q => p.1.Apart q.1) :
    (parts.mergeSort fun p q => comesBefore p.1 q.1).Pairwise fun p q => p.1.stop ≤ q.1.start := by
  refine pairwise_mergeSort_apart Prod.fst ?_ ?_ ?_ ha
  · intro p q r hpq hqr
    simp only [comesBefore, Bool.or_eq_true, Bool.and_eq_true, decide_eq_true_eq] at *
    omega
  · intro p q
    simp only [comesBefore, Bool.or_eq_true, Bool.and_eq_true, decide_eq_true_eq]
    omega
  · intro p _ q hq hpq h
    have hq := (hr q hq).ordered
    simp only [comesBefore, Bool.or_eq_true, Bool.and_eq_true, decide_eq_true_eq] at hpq
    omega

theorem Tidy.perm {text : Text} {range : Span} (h : Tidy text range cuts)
    (hp : cuts.Perm cuts') : Tidy text range cuts' :=
  ⟨fun c hc => h.isRange c (hp.mem_iff.mpr hc), fun c hc => h.nonempty c (hp.mem_iff.mpr hc),
    fun c hc => h.within c (hp.mem_iff.mpr hc), h.apart.perm hp Span.Apart.symm⟩

theorem without_eq_keptIn {text : Text} {range : Span} (hr : range.IsRange text)
    (hc : Tidy text range (cuts.filter (·.Within range))) :
    without text range cuts = keptIn text (covered (cuts.filter (·.Within range))) range := by
  have hperm := mergeSort_perm (cuts.filter (·.Within range)) fun a b => a.start ≤ b.start
  rw [without, skipping_eq_keptIn hr (hc.perm hperm.symm) (pairwise_mergeSort_start hc), covered_perm hperm]

theorem Tidy.without_eq {text : Text} {range : Span} (hc : Tidy text range cuts)
    (hr : range.IsRange text) : without text range cuts = keptIn text (covered cuts) range := by
  have hall : cuts.filter (·.Within range) = cuts := filter_eq_self.mpr fun c hm => by simpa using hc.within c hm
  rw [without_eq_keptIn hr (hall.symm ▸ hc), hall]

def cutsBetween (start stop : Nat) : List Span := if start < stop then [⟨start, stop⟩] else []

theorem filterMap_cutBetween (start stop : Nat) :
    (cutBetween start stop).filterMap Finding.cut? = cutsBetween start stop := by
  rw [cutBetween, cutsBetween]
  split
  · rfl
  · rfl

theorem mem_cutsBetween {c : Span} : c ∈ cutsBetween start stop ↔ start < stop ∧ c = ⟨start, stop⟩ := by
  rw [cutsBetween]
  split
  next h => simp [h]
  next h => simp [h]

section Enclosing

variable {text : Text} {range inner : Span} {cs : List Span}

theorem Tidy.enclosing (hr : range.IsRange text) (hi : inner.IsRange text) (hw : inner.Within range)
    (h : Tidy text inner cs) : Tidy text range
      (cutsBetween range.start inner.start ++ (cutsBetween inner.stop range.stop ++ cs)) := by
  have hcases : ∀ c ∈ cutsBetween range.start inner.start ++ (cutsBetween inner.stop range.stop ++ cs),
      (range.start < inner.start ∧ c = ⟨range.start, inner.start⟩) ∨
        (inner.stop < range.stop ∧ c = ⟨inner.stop, range.stop⟩) ∨ c ∈ cs := by
    intro c hc
    simpa [mem_cutsBetween] using hc
  have ho := hi.ordered
  obtain ⟨hw1, hw2⟩ := hw
  refine ⟨?_, ?_, ?_, ?_⟩
  · intro c hc
    rcases hcases c hc with ⟨hlt, rfl⟩ | ⟨hlt, rfl⟩ | hc
    · exact ⟨Nat.le_of_lt hlt, hr.start, hi.start⟩
    · exact ⟨Nat.le_of_lt hlt, hi.stop, hr.stop⟩
    · exact h.isRange c hc
  · intro c hc
    rcases hcases c hc with ⟨hlt, rfl⟩ | ⟨hlt, rfl⟩ | hc
    · exact hlt
    · exact hlt
    · exact h.nonempty c hc
  · intro c hc
    rcases hcases c hc with ⟨hlt, rfl⟩ | ⟨hlt, rfl⟩ | hc
    · exact ⟨Nat.le_refl _, Nat.le_trans ho hw2⟩
    · exact ⟨Nat.le_trans hw1 ho, Nat.le_refl _⟩
    · exact (h.within c hc).trans ⟨hw1, hw2⟩
  · have hone : ∀ a b, (cutsBetween a b).Pairwise Span.Apart := by
      intro a b
      rw [cutsBetween]
      split
      · simp
      · simp
    simp only [pairwise_append, mem_append, mem_cutsBetween]
    refine ⟨hone _ _, ⟨hone _ _, h.apart, ?_⟩, ?_⟩
    · rintro _ ⟨-, rfl⟩ c hc
      exact .inr (h.within c hc).2
    · rintro _ ⟨-, rfl⟩ c (⟨-, rfl⟩ | hc)
      · exact .inl ho
      · exact .inl (h.within c hc).1

theorem apart_enclosing (hs : s.Within inner) (h : ∀ c ∈ cs, c.Apart s) :
    ∀ c ∈ cutsBetween range.start inner.start ++ (cutsBetween inner.stop range.stop ++ cs), c.Apart s := by
  intro c hc
  simp only [mem_append, mem_cutsBetween] at hc
  rcases hc with ⟨-, rfl⟩ | ⟨-, rfl⟩ | hc
  · exact .inl hs.1
  · exact .inr hs.2
  · exact h c hc

theorem keptIn_enclosing (hr : range.IsRange text) (hi : inner.IsRange text) (hw : inner.Within range) :
    keptIn text (covered
      (cutsBetween range.start inner.start ++ (cutsBetween inner.stop range.stop ++ cs))) range =
      keptIn text (covered cs) inner := by
  obtain ⟨hw1, hw2⟩ := hw
  have hbefore : (Span.mk range.start inner.start).IsRange text := ⟨hw1, hr.start, hi.start⟩
  have hafter : (Span.mk inner.stop range.stop).IsRange text := ⟨hw2, hi.stop, hr.stop⟩
  have hrest : (Span.mk inner.start range.stop).IsRange text := ⟨Nat.le_trans hi.ordered hw2, hi.start, hr.stop⟩
  obtain ⟨cut, hcut⟩ : ∃ cut, cut = covered
      (cutsBetween range.start inner.start ++ (cutsBetween inner.stop range.stop ++ cs)) := ⟨_, rfl⟩
  have hcov : ∀ i, cut i = true ↔ (range.start ≤ i ∧ i < inner.start) ∨
      (inner.stop ≤ i ∧ i < range.stop) ∨ covered cs i = true := by
    intro i
    rw [hcut, covered_append, covered_append, Bool.or_eq_true, Bool.or_eq_true]
    simp only [covered_eq_true, mem_cutsBetween]
    constructor
    · rintro (⟨c, ⟨-, rfl⟩, hc⟩ | ⟨c, ⟨-, rfl⟩, hc⟩ | hc)
      · exact .inl hc
      · exact .inr (.inl hc)
      · exact .inr (.inr hc)
    · rintro (⟨ha, hb⟩ | ⟨ha, hb⟩ | hc)
      · exact .inl ⟨_, ⟨by omega, rfl⟩, ha, hb⟩
      · exact .inr (.inl ⟨_, ⟨by omega, rfl⟩, ha, hb⟩)
      · exact .inr (.inr hc)
  have hfirst : keptIn text cut ⟨range.start, inner.start⟩ = [] :=
    keptIn_eq_nil hbefore fun i ha hb => (hcov i).mpr (.inl ⟨ha, hb⟩)
  have hlast : keptIn text cut ⟨inner.stop, range.stop⟩ = [] :=
    keptIn_eq_nil hafter fun i ha hb => (hcov i).mpr (.inr (.inl ⟨ha, hb⟩))
  have hmiddle : keptIn text cut inner = keptIn text (covered cs) inner := by
    apply keptIn_congr hi
    intro i ha hb
    rw [Bool.eq_iff_iff, hcov]
    constructor
    · rintro (hc | hc | hc)
      · omega
      · omega
      · exact hc
    · exact fun hc => .inr (.inr hc)
  rw [← hcut]
  calc keptIn text cut range
      = keptIn text cut ⟨range.start, inner.start⟩ ++
          (keptIn text cut inner ++ keptIn text cut ⟨inner.stop, range.stop⟩) := by
        rw [← keptIn_split hi hafter, ← keptIn_split hbefore hrest]
    _ = keptIn text (covered cs) inner := by rw [hfirst, hlast, hmiddle]; simp

end Enclosing

section Splicing

variable {text : Text} {cut : Nat → Bool}

theorem splice_eq_keptIn {range : Span} (hr : range.IsRange text)
    (hp : ∀ p ∈ parts, p.1.IsRange text ∧ p.1.Within range ∧ p.2 = keptIn text cut p.1)
    (ha : parts.Pairwise fun p q => p.1.Apart q.1)
    (hcut : ∀ i, cut i = true → ∃ p ∈ parts, p.1.start ≤ i ∧ i < p.1.stop) :
    splice text range parts = keptIn text cut range := by
  have hperm := mergeSort_perm parts fun p q => comesBefore p.1 q.1
  apply spliceFrom_eq_keptIn hr
  · exact fun p hm => hp p (hperm.mem_iff.mp hm)
  · exact pairwise_mergeSort_parts (fun p hm => (hp p hm).1) ha
  · intro i _ _ hc
    obtain ⟨p, hm, h⟩ := hcut i hc
    exact ⟨p, hperm.mem_iff.mpr hm, h⟩

end Splicing

section Deletion

variable {text : Text} {range : Span}

/-- Cutting a range leaves its characters that no cut inside it covers, in order. Neither the order of the cuts nor
cuts that are not inside the range matter. -/
theorem without_exact (hr : range.IsRange text) (hc : ∀ c ∈ cuts, c.IsRange text ∧ c.start < c.stop)
    (ha : (cuts.filter (·.Within range)).Pairwise Span.Apart) :
    without text range cuts = keptIn text (covered (cuts.filter (·.Within range))) range ∧
      ∀ others cuts', (∀ c ∈ others, ¬ c.Within range) → cuts'.Perm (cuts ++ others) →
        without text range cuts' = without text range cuts := by
  have htidy : Tidy text range (cuts.filter (·.Within range)) := by
    refine ⟨?_, ?_, fun c hm => of_decide_eq_true (mem_filter.mp hm).2, ha⟩
    · exact fun c hm => (hc c (mem_filter.mp hm).1).1
    · exact fun c hm => (hc c (mem_filter.mp hm).1).2
  have hkept : ∀ l : List Span, (l.filter (·.Within range)).Perm (cuts.filter (·.Within range)) →
      without text range l = keptIn text (covered (cuts.filter (·.Within range))) range := by
    intro l hl
    rw [← covered_perm hl]
    exact without_eq_keptIn hr (htidy.perm hl.symm)
  refine ⟨hkept cuts (.refl _), ?_⟩
  intro others cuts' ho hp
  have hnone : others.filter (·.Within range) = [] := filter_eq_nil_iff.mpr (by simpa using ho)
  have hperm := hp.filter (·.Within range)
  rw [filter_append, hnone, append_nil] at hperm
  rw [hkept cuts' hperm, hkept cuts (.refl _)]

theorem without_exact_adjacent : without "(this.a, this.é)" ⟨1, 16⟩ [⟨9, 14⟩, ⟨0, 6⟩, ⟨1, 6⟩, ⟨7, 9⟩] =
      keptIn "(this.a, this.é)" (covered [⟨9, 14⟩, ⟨1, 6⟩, ⟨7, 9⟩]) ⟨1, 16⟩ ∧
    keptIn "(this.a, this.é)" (covered [⟨9, 14⟩, ⟨1, 6⟩, ⟨7, 9⟩]) ⟨1, 16⟩ = "aé" :=
  ⟨(without_exact (by decide) (by decide) (by decide)).1, by decide⟩

end Deletion

end Script

end ComponentConverter
