import ComponentConverter.Proofs.Surroundings

namespace ComponentConverter.Style

open List Lexis

namespace Surroundings

/-- Outside strings and square brackets. -/
def Bare (x : Surroundings) : Prop := x.mode = .plain ∧ '[' ∉ x.opened

/-- A combinator that reaches deep stands after `u`, outside strings and square brackets. -/
def DeepAfter (x : Surroundings) (s u k : Text) : Prop := k ∈ deepCombinators ∧ u ++ k <+: s ∧ (x.after u).Bare

def Shows (x : Surroundings) (s : Text) : Prop := ∃ u k, DeepAfter x s u k

variable {x y : Surroundings} {s t u k : Text}

theorem bare_top : top.Bare := ⟨rfl, by simp [top]⟩

theorem ne_nil_of_mem_deep (hk : k ∈ deepCombinators) : k ≠ [] := by
  rintro rfl
  exact absurd hk (by decide)

theorem not_shows_nil : ¬ Shows x [] := by
  rintro ⟨u, k, hk, hp, -⟩
  obtain ⟨-, rfl⟩ := append_eq_nil_iff.mp (prefix_nil.mp hp)
  exact ne_nil_of_mem_deep hk rfl

theorem shows_append_cons_iff {d : Char} (hd : ∀ k ∈ deepCombinators, d ∉ k) :
    Shows x (s ++ d :: t) ↔ Shows x s ∨ Shows (x.after (s ++ [d])) t := by
  constructor
  · rintro ⟨u, k, hk, ⟨r, hr⟩, hbare⟩
    rcases append_eq_append_iff.mp hr with ⟨a, rfl, -⟩ | ⟨b, hb, hdt⟩
    · exact .inl ⟨u, k, hk, prefix_append _ _, hbare⟩
    · cases b with
      | nil =>
        rw [append_nil] at hb
        exact .inl ⟨u, k, hk, hb ▸ prefix_rfl, hbare⟩
      | cons e b =>
        obtain ⟨rfl, rfl⟩ := List.cons.inj hdt
        rcases append_eq_append_iff.mp hb with ⟨a, rfl, rfl⟩ | ⟨c, rfl, hc⟩
        · exact absurd (by simp) (hd _ hk)
        · cases c with
          | nil =>
            rw [nil_append] at hc
            exact absurd (hc ▸ mem_cons_self) (hd k hk)
          | cons e c =>
            obtain ⟨rfl, rfl⟩ := List.cons.inj hc
            refine .inr ⟨c, k, hk, by simp, ?_⟩
            rw [← after_append]
            simpa using hbare
  · rintro (⟨u, k, hk, hp, hbare⟩ | ⟨u, k, hk, hp, hbare⟩)
    · exact ⟨u, k, hk, hp.trans (prefix_append _ _), hbare⟩
    · refine ⟨s ++ d :: u, k, hk, ?_, ?_⟩
      · simpa using hp
      · rw [← after_append] at hbare
        simpa using hbare

theorem not_mem_deep_of_isSpace {d : Char} (h : isSpace d = true) : ∀ k ∈ deepCombinators, d ∉ k := by
  have hall : deepCombinators.all (·.all (!isSpace ·)) = true := by decide
  intro k hk hd
  simpa [h] using all_eq_true.mp (all_eq_true.mp hall k hk) d hd

theorem shows_append_blank_iff (ht : isBlank t = true) : Shows x (s ++ t) ↔ Shows x s := by
  induction t generalizing s with
  | nil => rw [append_nil]
  | cons c t ih =>
    rw [isBlank, all_cons, Bool.and_eq_true] at ht
    have hsplit := ih (s := s ++ [c]) ht.2
    rw [append_assoc, singleton_append] at hsplit
    rw [hsplit, shows_append_cons_iff (not_mem_deep_of_isSpace ht.1), or_iff_left not_shows_nil]

theorem shows_blank_append_iff (hx : x.mode = .plain) (hs : isBlank s = true) : Shows x (s ++ t) ↔ Shows x t := by
  induction s with
  | nil => rfl
  | cons c s ih =>
    rw [isBlank, all_cons, Bool.and_eq_true] at hs
    have hsplit := shows_append_cons_iff (x := x) (s := []) (t := s ++ t) (not_mem_deep_of_isSpace hs.1)
    have hstep : x.after ([] ++ [c]) = x := after_inert hx (by simpa using inert_of_isSpace hs.1)
    rw [hstep, or_iff_right not_shows_nil] at hsplit
    exact hsplit.trans (ih hs.2)

theorem shows_trimEnd_iff : Shows x (trimEnd s) ↔ Shows x s := by
  obtain ⟨b, hb, hspace⟩ := trimEnd_spec s
  have hsame := shows_append_blank_iff (x := x) (s := trimEnd s) (all_eq_true.mpr hspace)
  rw [← hb] at hsame
  exact hsame.symm

theorem shows_trim_iff (hx : x.mode = .plain) : Shows x (trim s) ↔ Shows x s := by
  have hstart : s.takeWhile isSpace ++ trimStart s = s := takeWhile_append_dropWhile
  have hsame := shows_blank_append_iff (t := trimStart s) hx
    (all_takeWhile : isBlank (s.takeWhile isSpace) = true)
  rw [hstart] at hsame
  rw [trim, shows_trimEnd_iff, hsame]

theorem Inside.shows_iff (h : Inside x y) : Shows x s ↔ Shows y s := by
  have hbare (u : Text) : (x.after u).Bare ↔ (y.after u).Bare := by
    obtain ⟨hmode, hopened⟩ := h.after (t := u)
    rw [Bare, Bare, hmode]
    rcases hopened with hopened | hopened
    · simp [hopened]
    · rw [hopened]
  simp only [Shows, DeepAfter, hbare]

theorem shows_global_iff (hx : x = top) : Shows x (global t) ↔ Shows top t := by
  subst hx
  have hname : ¬ Shows top [':', 'g', 'l', 'o', 'b', 'a', 'l'] := by
    rintro ⟨u, k, hk, hp, -⟩
    have hin : k <:+: [':', 'g', 'l', 'o', 'b', 'a', 'l'] := (suffix_append u k).isInfix.trans hp.isInfix
    have hnone : ∀ k ∈ deepCombinators, ¬ k <:+: [':', 'g', 'l', 'o', 'b', 'a', 'l'] := by decide
    exact hnone k hk hin
  have hopen : ∀ k ∈ deepCombinators, '(' ∉ k := by decide
  have hclose : ∀ k ∈ deepCombinators, ')' ∉ k := by decide
  have hin : Inside (top.after ([':', 'g', 'l', 'o', 'b', 'a', 'l'] ++ ['('])) top := ⟨rfl, .inl rfl⟩
  rw [global_eq, shows_append_cons_iff hopen, or_iff_right hname, shows_append_cons_iff hclose,
    or_iff_left not_shows_nil, hin.shows_iff]

end Surroundings

open Surroundings

/-- The first combinator of a selector that stands outside all brackets, and what it divides. -/
structure FirstDeep (s before k rest : Text) : Prop where
  split : s = before ++ (k ++ rest)
  mem : k ∈ deepCombinators
  outside : top.after before = top
  first : ∀ u j, j ∈ deepCombinators → u ++ j <+: s → top.after u = top → before.length ≤ u.length

def reachInto (before rest : Text) : Text :=
  if (trim rest).isEmpty then trimEnd before
  else if (trimEnd before).isEmpty then global (trim rest)
  else trimEnd before ++ " " ++ global (trim rest)

section Opening

variable {s before k rest : Text} {u j : Text}

theorem after_ne_top_of_passes {u w r j : Text} (h : literal.Passes .reach literal.outside u r)
    (hj : j ∈ deepCombinators) (hp : w ++ j <+: u ++ r) (hw : w.length < u.length) : top.after w ≠ top := by
  intro hout
  obtain ⟨v, rfl⟩ : w <+: u :=
    prefix_of_prefix_length_le ((prefix_append w j).trans hp) (prefix_append u r) (by omega)
  obtain ⟨c, v, rfl⟩ : ∃ c v', v = c :: v' := by
    cases v with
    | nil => simp at hw
    | cons c v => exact ⟨c, v, rfl⟩
  have hstate : literal.after .reach literal.outside w = literal.outside :=
    (after_eq_state rfl rfl w).trans (congrArg state hout)
  have hstop := (passes_append.mp h).2.1
  rw [hstate] at hstop
  have hj' : j <+: c :: (v ++ r) := by
    rw [append_assoc, prefix_append_right_inj] at hp
    exact hp
  have hreach : Marks.reach.stop (c :: (v ++ r)) = true := any_eq_true.mpr ⟨j, hj, List.isPrefixOf_iff_prefix.mpr hj'⟩
  simp [stopsAt, literal, Lexis.outside, hreach] at hstop

/-- A selector is opened at its first combinator outside all brackets, if it has one. -/
theorem openDeep_cases (s : Text) : (openDeep s = s ∧ ∀ u k, k ∈ deepCombinators → u ++ k <+: s → top.after u ≠ top) ∨
      ∃ before k rest, FirstDeep s before k rest ∧ openDeep s = reachInto before rest := by
  obtain ⟨u, r, hscan⟩ : ∃ u r, literal.scan .reach Place.outside.state s = (u, r) := ⟨_, _, rfl⟩
  obtain ⟨hs, hpass, hstop⟩ := scan_eq_iff.mp hscan
  have hopen : openDeep s = match (deepAt? r).map fun k => (u, r.drop k.length) with
      | none => s
      | some (before, rest) => reachInto before rest := by
    rw [openDeep, breakOnDeep?_eq_scan, hscan]
    rfl
  cases hdeep : deepAt? r with
  | none =>
    obtain rfl : r = [] := by
      cases r with
      | nil => rfl
      | cons c r =>
        have hfound := hstop (cons_ne_nil c r)
        rw [stopsAt, stop_reach, hdeep] at hfound
        simp at hfound
    refine .inl ⟨hopen, ?_⟩
    intro w k hk hp
    rw [hs] at hp
    apply after_ne_top_of_passes hpass hk hp
    have hlen := hp.length_le
    have hpos := length_pos_iff.mpr (ne_nil_of_mem_deep hk)
    simp only [length_append, length_nil] at hlen
    omega
  | some k =>
    obtain ⟨hk, rest, rfl⟩ := mem_of_deepAt? hdeep
    rw [hdeep, Option.map_some, drop_left] at hopen
    refine .inr ⟨u, k, rest, ⟨hs, hk, ?_, ?_⟩, hopen⟩
    · have hfound := hstop (by simp [ne_nil_of_mem_deep hk])
      have hstate : literal.after .reach Place.outside.state u = (top.after u).state :=
        after_eq_state (x := top) rfl rfl u
      rw [hstate] at hfound
      exact eq_top_of_stopsAt hfound
    · intro w j hj hp hout
      rw [hs] at hp
      apply Nat.le_of_not_lt
      intro hlt
      exact after_ne_top_of_passes hpass hj hp hlt hout

theorem FirstDeep.deepAfter (h : FirstDeep s before k rest) : DeepAfter top s before k := by
  refine ⟨h.mem, ⟨rest, by rw [h.split, append_assoc]⟩, ?_⟩
  rw [h.outside]
  exact bare_top

theorem inert_of_mem_deep (hk : k ∈ deepCombinators) : ∀ c ∈ k, c ∉ special brackets [] := by
  have hall : deepCombinators.all (·.all (!(special brackets []).contains ·)) = true := by decide
  intro c hc
  simpa using all_eq_true.mp (all_eq_true.mp hall k hk) c hc

theorem FirstDeep.after_combinator (h : FirstDeep s before k rest) : top.after (before ++ k) = top := by
  rw [Surroundings.after_append, h.outside]
  exact after_inert rfl (inert_of_mem_deep h.mem)

/-- What shows after opening: what showed on either side. -/
theorem FirstDeep.shows_reachInto_iff (h : FirstDeep s before k rest) :
    Shows top (reachInto before rest) ↔ Shows top before ∨ Shows top rest := by
  have hhead : Shows top (trimEnd before) ↔ Shows top before := shows_trimEnd_iff
  have htail : Shows top (trim rest) ↔ Shows top rest := shows_trim_iff rfl
  rw [← hhead, ← htail, reachInto]
  split
  next hnil =>
    rw [List.isEmpty_iff.mp hnil, or_iff_left not_shows_nil]
  · split
    next hnil =>
      rw [List.isEmpty_iff.mp hnil, or_iff_right not_shows_nil, shows_global_iff rfl]
    · have hspace : " " ++ global (trim rest) = ' ' :: global (trim rest) := rfl
      have hout : top.after (trimEnd before ++ [' ']) = top := by
        rw [Surroundings.after_append, after_trimEnd h.outside]
        rfl
      rw [append_assoc, hspace, shows_append_cons_iff (not_mem_deep_of_isSpace rfl), hout,
        shows_global_iff rfl]

/-- Every combinator of a selector that shows stands outside parentheses, and none starts at the end
of another or after it. -/
def DeepOnce (s : Text) : Prop :=
  ∀ u k, DeepAfter top s u k → top.after u = top ∧ ∀ u' k', DeepAfter top s u' k' → u'.length < (u ++ k).length

theorem eq_of_infix_deep {j : Text} (hj : j ∈ deepCombinators) (hk : k ∈ deepCombinators) (h : j <:+: k) : j = k := by
  have hall : ∀ j ∈ deepCombinators, ∀ k ∈ deepCombinators, j <:+: k → j = k := by decide +kernel
  exact hall j hj k hk h

theorem FirstDeep.overlap (h : FirstDeep s before k rest) (hb : ¬ Shows top before)
    (hr : ¬ Shows top rest) (hu : DeepAfter top s u j) :
    before.length < (u ++ j).length ∧ u.length < (before ++ k).length := by
  obtain ⟨hj, hp, hbare⟩ := hu
  have hfirst : before ++ k <+: s := ⟨rest, by rw [h.split, append_assoc]⟩
  constructor
  · apply Nat.lt_of_not_le
    intro hle
    exact hb ⟨u, j, hj, prefix_of_prefix_length_le hp ((prefix_append _ _).trans hfirst) hle, hbare⟩
  · apply Nat.lt_of_not_le
    intro hle
    obtain ⟨w, rfl⟩ := prefix_of_prefix_length_le hfirst ((prefix_append u j).trans hp) hle
    refine hr ⟨w, j, hj, ?_, ?_⟩
    · rw [h.split, ← append_assoc, append_assoc (before ++ k), prefix_append_right_inj] at hp
      exact hp
    · rwa [Surroundings.after_append, h.after_combinator] at hbare

theorem FirstDeep.after_eq_top (h : FirstDeep s before k rest) (hu : DeepAfter top s u j)
    (hleft : before.length < (u ++ j).length) (hright : u.length < (before ++ k).length) :
    top.after u = top := by
  obtain ⟨hj, hp, hbare⟩ := hu
  have hfirst : before ++ k <+: s := ⟨rest, by rw [h.split, append_assoc]⟩
  have hbefore := (prefix_append before k).trans hfirst
  have hprefix := (prefix_append u j).trans hp
  rcases Nat.le_total u.length before.length with hle | hle
  · obtain ⟨z, rfl⟩ := prefix_of_prefix_length_le hprefix hbefore hle
    have hz : z <+: j := by
      have hz := prefix_of_prefix_length_le hbefore hp (Nat.le_of_lt hleft)
      rwa [prefix_append_right_inj] at hz
    have hout := h.outside
    rwa [Surroundings.after_append, after_inert hbare.1 fun c hc => inert_of_mem_deep hj c (hz.subset hc)] at hout
  · obtain ⟨z, rfl⟩ := prefix_of_prefix_length_le hbefore hprefix hle
    have hz : z <+: k := by
      have hz := prefix_of_prefix_length_le hprefix hfirst (Nat.le_of_lt hright)
      rwa [prefix_append_right_inj] at hz
    rw [Surroundings.after_append, h.outside]
    exact after_inert rfl fun c hc => inert_of_mem_deep h.mem c (hz.subset hc)

/-- It ends no earlier than the first one does, since no combinator is part of another. -/
theorem FirstDeep.length_le (h : FirstDeep s before k rest) (hu : DeepAfter top s u j)
    (hle : before.length ≤ u.length) : (before ++ k).length ≤ (u ++ j).length := by
  obtain ⟨hj, hp, -⟩ := hu
  have hfirst : before ++ k <+: s := ⟨rest, by rw [h.split, append_assoc]⟩
  apply Nat.le_of_not_lt
  intro hlt
  obtain ⟨z, rfl⟩ := prefix_of_prefix_length_le ((prefix_append before k).trans hfirst)
    ((prefix_append u j).trans hp) hle
  have hpart : z ++ j <+: k := by
    have hpart := prefix_of_prefix_length_le hp hfirst (Nat.le_of_lt hlt)
    rwa [append_assoc, prefix_append_right_inj] at hpart
  obtain rfl := eq_of_infix_deep hj h.mem ((suffix_append z j).isInfix.trans hpart.isInfix)
  simp only [length_append] at hlt
  omega

theorem not_shows_openDeep_iff (s : Text) : ¬ Shows top (openDeep s) ↔ DeepOnce s := by
  rcases openDeep_cases s with ⟨hopen, hnone⟩ | ⟨before, k, rest, h, hopen⟩
  · rw [hopen]
    constructor
    · intro hshow u k hu
      exact absurd ⟨u, k, hu⟩ hshow
    · rintro honce ⟨u, k, hu⟩
      exact hnone u k hu.1 hu.2.1 (honce u k hu).1
  · rw [hopen, h.shows_reachInto_iff, not_or]
    constructor
    · rintro ⟨hb, hr⟩ u j hu
      obtain ⟨hleft, hright⟩ := h.overlap hb hr hu
      have hout := h.after_eq_top hu hleft hright
      refine ⟨hout, ?_⟩
      intro u' j' hu'
      exact Nat.lt_of_lt_of_le (h.overlap hb hr hu').2 (h.length_le hu (h.first u j hu.1 hu.2.1 hout))
    · intro honce
      constructor
      · rintro ⟨u, j, hj, hp, hbare⟩
        have hs : before <+: s := ⟨k ++ rest, h.split.symm⟩
        have hout := (honce u j ⟨hj, hp.trans hs, hbare⟩).1
        have hle := h.first u j hj (hp.trans hs) hout
        have hlen := hp.length_le
        have hpos := length_pos_iff.mpr (ne_nil_of_mem_deep hj)
        rw [length_append] at hlen
        omega
      · rintro ⟨u, j, hj, hp, hbare⟩
        have hafter : DeepAfter top s (before ++ k ++ u) j := by
          refine ⟨hj, ?_, ?_⟩
          · rw [h.split, ← append_assoc, append_assoc (before ++ k), prefix_append_right_inj]
            exact hp
          · rwa [Surroundings.after_append, h.after_combinator]
        have hlt := (honce before k h.deepAfter).2 _ j hafter
        rw [length_append] at hlt
        omega

theorem openDeep_of_not_shows (h : ¬ Shows top s) : openDeep s = s := by
  rcases openDeep_cases s with ⟨hopen, -⟩ | ⟨before, k, rest, hfirst, -⟩
  · exact hopen
  · exact absurd ⟨before, k, hfirst.deepAfter⟩ h

end Opening

end ComponentConverter.Style
