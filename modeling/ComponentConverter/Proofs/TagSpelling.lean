import ComponentConverter.Proofs.Placement
import ComponentConverter.Proofs.TokenEnds
import ComponentConverter.Proofs.Trimming
import Mathlib.Algebra.GroupWithZero.Nat

namespace ComponentConverter.Markup

open List

variable {value rest : Text} {z quote : Char} {opened : Token} {item : TagItem} {items : List TagItem}
  {found : Option (Text × Text)}

/-- How a value is spelled: between two quotes that it does not hold, or bare. -/
inductive ValueSpelled (value : Text) : Text → Prop
  | quoted {q : Char} (hq : q = '"' ∨ q = '\'') (hv : q ∉ value) : ValueSpelled value (q :: (value ++ [q]))
  | bare (hv : ∀ c ∈ value, isSpace c = false ∧ c ≠ '>')
      (hq : ∀ c ∈ value.head?, c ≠ '"' ∧ c ≠ '\'') : ValueSpelled value value

/-- How an attribute is spelled: its name, or its name and its value. -/
inductive AttributeSpelled : Attribute → Text → Prop
  | named {g name : Text} (hg : isBlank g = true) (hn : isName name = true) : AttributeSpelled ⟨name, []⟩ (g ++ name)
  | valued {g name s s' value w : Text} (hg : isBlank g = true) (hn : isName name = true)
      (hs : isBlank s = true) (hs' : isBlank s' = true) (hw : ValueSpelled value w) :
      AttributeSpelled ⟨name, value⟩ (g ++ (name ++ (s ++ '=' :: (s' ++ w))))

/-- Attributes one after the other, with white space only around their parts. -/
inductive Spelled : List Attribute → Text → Prop
  | done {g : Text} (hg : isBlank g = true) : Spelled [] g
  | next {a : Attribute} {as : List Attribute} {w t : Text} (ha : AttributeSpelled a w)
      (h : Spelled as t) : Spelled (a :: as) (w ++ t)

/-- What the last token of a bare value takes along of the text after the value: the slash of `/>`
after a `<`, or the rest of a run of plain characters. -/
def overrun (value rest : Text) : Text :=
  if value.getLast? = some '<' && ['/', '>'].isPrefixOf rest then ['/']
  else if value.getLast?.any isPlain then rest.takeWhile isPlain
  else []

theorem isSpace_of_isGap {c : Char} (h : isGap c = true) : isSpace c = true := by
  simp only [isGap, Bool.or_eq_true, beq_iff_eq, or_assoc] at h
  rcases h with rfl | rfl | rfl | rfl | rfl <;> rfl

theorem isBlank_of_gaps {g : Text} (h : ∀ c ∈ g, isGap c = true) : isBlank g = true :=
  all_eq_true.mpr fun c hc => isSpace_of_isGap (h c hc)

section Spelling

variable {a : Attribute} {as : List Attribute} {g t w : Text}

theorem AttributeSpelled.blank_append (hg : isBlank g = true) (h : AttributeSpelled a w) :
    AttributeSpelled a (g ++ w) := by
  have hjoin {g' : Text} (hg' : isBlank g' = true) : isBlank (g ++ g') = true := by
    rw [isBlank_append, hg, hg']
    rfl
  cases h with
  | named hg' hn =>
    rw [← append_assoc]
    exact .named (hjoin hg') hn
  | valued hg' hn hs hs' hw =>
    rw [← append_assoc]
    exact .valued (hjoin hg') hn hs hs' hw

theorem Spelled.blank_append (hg : isBlank g = true) (h : Spelled as t) : Spelled as (g ++ t) := by
  cases h with
  | done ht =>
    apply Spelled.done
    rw [isBlank_append, hg, ht]
    rfl
  | next ha h =>
    rw [← append_assoc]
    exact .next (ha.blank_append hg) h

def isInk (c : Char) : Bool := !(isSpace c || c == '=' || c == '"' || c == '\'')

theorem countP_isInk_blank (h : isBlank g = true) : g.countP isInk = 0 := by
  rw [countP_eq_zero]
  intro c hc
  simp [isInk, all_eq_true.mp h c hc]

theorem ValueSpelled.countP_isInk (h : ValueSpelled value w) : w.countP isInk = value.countP isInk := by
  cases h with
  | bare hv hq => rfl
  | quoted hq hv =>
    rw [countP_cons, countP_append]
    rcases hq with rfl | rfl <;> rfl

def Attribute.ink (a : Attribute) : Nat := a.name.countP isInk + a.value.countP isInk

theorem AttributeSpelled.countP_isInk (h : AttributeSpelled a w) : w.countP isInk = a.ink := by
  cases h with
  | named hg hn =>
    rw [countP_append, countP_isInk_blank hg]
    simp [Attribute.ink]
  | valued hg hn hs hs' hw =>
    rw [countP_append, countP_append, countP_append, countP_cons_of_neg (by decide),
      countP_append, countP_isInk_blank hg, countP_isInk_blank hs, countP_isInk_blank hs',
      hw.countP_isInk]
    simp [Attribute.ink]

theorem Spelled.countP_isInk (h : Spelled as t) : t.countP isInk = (as.map Attribute.ink).sum := by
  induction h with
  | done hg => exact countP_isInk_blank hg
  | next ha h ih =>
    rw [countP_append, ha.countP_isInk, ih]
    rfl

theorem countP_isInk_overrun (v r : Text) : (overrun v r).countP isInk = 0 ↔ isBlank (overrun v r) = true := by
  have hplain : ∀ c ∈ overrun v r, isInk c = !isSpace c := by
    intro c hc
    have hne : (c == '=') = false ∧ (c == '"') = false ∧ (c == '\'') = false := by
      rw [overrun] at hc
      split at hc
      · obtain rfl := mem_singleton.mp hc
        decide
      · split at hc
        · have hp := all_eq_true.mp all_takeWhile c hc
          simp only [isPlain, Bool.not_eq_true', Bool.or_eq_false_iff] at hp
          exact ⟨hp.1.1.1.2, hp.1.1.2, hp.1.2⟩
        · cases hc
    simp [isInk, hne]
  rw [countP_eq_zero, isBlank, all_eq_true]
  constructor
  · intro h c hc
    have hc' := h c hc
    rw [hplain c hc] at hc'
    simpa using hc'
  · intro h c hc
    rw [hplain c hc, h c hc]
    decide

end Spelling

namespace Cursor

variable {c d : Cursor} {v r y : Text} {k : Kind} {known out : List Attribute}

section Values

/-- What a bare value is, and where it ends: at white space, at `>` or at `/>`. -/
structure Ends (v r : Text) : Prop where
  bare : ∀ c ∈ v, isSpace c = false ∧ c ≠ '>'
  border : ∀ c ∈ r.head?, isSpace c = true ∨ c = '>' ∨ ['/', '>'].isPrefixOf r = true
  slash : v.getLast? = some '/' → r.head? ≠ some '>'

theorem ends_bareLength (t : Text) : Ends (t.take (bareLength t)) (t.drop (bareLength t)) := by
  fun_induction bareLength t with
  | case1 => exact ⟨by simp, by simp, by simp⟩
  | case2 t => exact ⟨by simp, by simp, by simp⟩
  | case3 c t hne hend =>
    refine ⟨by simp, ?_, by simp⟩
    intro d hd
    obtain rfl : c = d := by simpa using hd
    rcases Bool.or_eq_true_iff.mp hend with h | h
    · exact .inl h
    · exact .inr (.inl (by simpa using h))
  | case4 c t hne hend ih =>
    simp only [Bool.or_eq_true, beq_iff_eq, not_or, Bool.not_eq_true] at hend
    refine ⟨by simpa using ⟨hend, ih.bare⟩, by simpa using ih.border, ?_⟩
    simp only [take_succ_cons, drop_succ_cons]
    cases hb : t.take (bareLength t) with
    | nil =>
      intro hc hhead
      obtain rfl : c = '/' := by simpa using hc
      have ht := take_append_drop (bareLength t) t
      rw [hb, nil_append] at ht
      rw [ht] at hhead
      obtain ⟨t', rfl⟩ : ∃ t', t = '>' :: t' := head?_eq_some_iff.mp hhead
      exact hne t' rfl rfl
    | cons d v =>
      rw [getLast?_cons_cons, ← hb]
      exact ih.slash

theorem overrun_of_last (hz : v.getLast? = some z) (hopen : z = '<' → ['/', '>'].isPrefixOf r = false)
    (hplain : isPlain z = true → ∀ c ∈ r.head?, isPlain c = false) : overrun v r = [] := by
  have hfirst : ¬ (v.getLast? = some '<' && ['/', '>'].isPrefixOf r) = true := by
    rw [hz]
    intro h
    simp only [Option.some.injEq, Bool.and_eq_true, decide_eq_true_eq] at h
    rw [hopen h.1] at h
    cases h.2
  rw [overrun, if_neg hfirst, hz]
  split
  next hp =>
    cases r with
    | nil => rfl
    | cons c r => rw [takeWhile_cons_of_neg (by simp [hplain hp c rfl])]
  · rfl

theorem kind_of_space {c : Char} (hp : isPlain c = true) (hs : isSpace c = true) (t : Text) (p : Nat) :
    (Cursor.mk (c :: t) p).kind = .text := by
  have hname : isName (c :: t.takeWhile isPlain) = false := by
    rw [Bool.eq_false_iff]
    intro hn
    have hstart := (Bool.and_eq_true_iff.mp hn).1
    rw [Script.not_isSpace (by decide +kernel) hstart] at hs
    cases hs
  have hread := Kind.read_plain t hp
  rw [hname] at hread
  have hsolid : Solid (c :: t) := by
    rintro d ⟨⟩
    exact isGap_eq_false_of_isPlain hp
  exact kind_of_next (next_of_read (g := []) (by simp) hsolid hread)

theorem isSpace_of_border {c : Char} (he : Ends v (c :: r)) (hc : isPlain c = true) : isSpace c = true := by
  rcases he.border c rfl with h | rfl | h
  · exact h
  · simp [isPlain, isGap] at hc
  · obtain ⟨rfl, -⟩ := cons_prefix_cons.mp (List.isPrefixOf_iff_prefix.mp h)
    simp [isPlain, isGap] at hc

theorem eq_of_append_single {a : Char} (h : v ++ [z] ++ y = [a]) : v = [] ∧ z = a ∧ y = [] := by
  rcases v with _ | ⟨_, v⟩ <;> simp_all

theorem eq_of_append_pair {a b : Char} (h : v ++ [z] ++ y = [a, b]) : v = [] ∧ z = a ∧ y = [b] ∨ z = b ∧ y = [] := by
  rcases v with _ | ⟨_, _ | ⟨_, v⟩⟩ <;> simp_all

theorem mem_of_append_cons {v y t : Text} {a c : Char} (h : v ++ [z] ++ c :: y = a :: t) : c ∈ t := by
  have ht : c ∈ (v ++ [z] ++ c :: y).tail := by cases v <;> simp
  rwa [h] at ht

/-- What the last token of a bare value takes along. After a comment mark nothing is taken of a run
of plain characters, but then white space starts that run. -/
theorem overrun_of_wins {w v y : Text} (hw : k.Wins (v ++ [z] ++ y) (v ++ [z] ++ y ++ rest))
    (he : Ends (w ++ (v ++ [z])) (y ++ rest)) :
    y = overrun (w ++ (v ++ [z])) (y ++ rest) ∨ y = [] ∧ ∃ c ∈ rest.head?, isPlain c = true ∧ isSpace c = true := by
  have hs := hw.spells
  have hz : (w ++ (v ++ [z])).getLast? = some z := by simp
  have hzb := he.bare z (by simp)
  have hplain : k = .name ∨ k = .text → y = overrun (w ++ (v ++ [z])) (y ++ rest) := by
    intro hk
    have hp := hs.plain hk
    have hzp := hp z (by simp)
    have hopen : z ≠ '<' := by
      rintro rfl
      simp [isPlain, isGap] at hzp
    rw [overrun, hz, takeWhile_isPlain (fun c hc => hp c (by simp [hc])) (hw.stops hk)]
    simp [hopen, hzp]
  have hmark {m : Char} (hm : isPlain m = false) (ho : m ≠ '<') (h : v ++ [z] ++ y = [m]) :
      y = overrun (w ++ (v ++ [z])) (y ++ rest) := by
    obtain ⟨rfl, rfl, rfl⟩ := eq_of_append_single h
    exact (overrun_of_last hz (fun h => absurd h ho) (fun h => by rw [hm] at h; cases h)).symm
  cases k with
  | name => exact .inl (hplain (.inl rfl))
  | text => exact .inl (hplain (.inr rfl))
  | endOfFile => exact hs.elim
  | slash => exact .inl (hmark rfl (by decide) hs)
  | equals => exact .inl (hmark rfl (by decide) hs)
  | doubleQuote => exact .inl (hmark rfl (by decide) hs)
  | singleQuote => exact .inl (hmark rfl (by decide) hs)
  | tagClose => exact absurd (eq_of_append_single hs).2.1 hzb.2
  | tagOpen =>
    obtain ⟨rfl, rfl, rfl⟩ := eq_of_append_single hs
    refine .inl (overrun_of_last hz (fun _ => ?_) (fun h => by simp [isPlain, isGap] at h)).symm
    rw [Bool.eq_false_iff]
    intro hp
    obtain ⟨t, rfl⟩ := List.isPrefixOf_iff_prefix.mp hp
    have hbest := hw.best .closeOpen ['<', '/'] ⟨'>' :: t, rfl⟩ rfl
    simp at hbest
  | selfClose =>
    rcases eq_of_append_pair hs with ⟨rfl, rfl, rfl⟩ | ⟨rfl, -⟩
    · exact absurd rfl (he.slash hz)
    · exact absurd rfl hzb.2
  | closeOpen =>
    rcases eq_of_append_pair hs with ⟨rfl, rfl, rfl⟩ | ⟨rfl, rfl⟩
    · have hend : ['/', '>'].isPrefixOf (['/'] ++ rest) = true := by
        rcases he.border '/' rfl with h | h | h
        · cases h
        · cases h
        · exact h
      rw [overrun, hz, hend]
      exact .inl rfl
    · refine .inl (overrun_of_last hz ?_ ?_).symm
      · intro h
        cases h
      · intro h
        cases h
  | commentOpen =>
    cases y with
    | nil =>
      obtain rfl : z = '-' := by simpa using congrArg List.getLast? hs
      by_cases hc : ∃ c ∈ rest.head?, isPlain c = true
      · obtain ⟨c, hc, hp⟩ := hc
        obtain ⟨t, rfl⟩ := head?_eq_some_iff.mp hc
        exact .inr ⟨rfl, c, rfl, hp, isSpace_of_border he hp⟩
      · refine .inl (overrun_of_last hz (fun h => by cases h) fun _ c hm => ?_).symm
        exact Bool.eq_false_iff.mpr fun hp => hc ⟨c, hm, hp⟩
    | cons c y =>
      have hm := mem_of_append_cons hs
      have hb := he.border c rfl
      simp only [mem_cons, not_mem_nil, or_false, or_self] at hm
      rcases hm with rfl | rfl <;> simp [isSpace] at hb

theorem overrun_nil (r : Text) : overrun [] r = [] := rfl

theorem bareValue_past (hsplit : c.skipGaps.rest = v ++ r)
    (hv : c.skipGaps.rest.take (bareLength c.skipGaps.rest) = v) :
    ∃ s y, isBlank s = true ∧ c.Past (s ++ (v ++ y)) c.bareValue.2 ∧
      (y = overrun v r ∨ y = [] ∧ c.bareValue.2.kind = .text) := by
  obtain ⟨rest, p⟩ := c
  obtain ⟨g, t, rfl, hg, ht⟩ := exists_gaps rest
  rw [bareValue, skipGaps_append hg ht] at *
  rw [hv]
  have he := ends_bareLength t
  have hr : t.drop (bareLength t) = r := by
    have htake := take_append_drop (bareLength t) t
    rw [hv] at htake
    exact append_cancel_left (htake.trans hsplit)
  rw [hv, hr] at he
  subst hsplit
  have hsolid : ∀ c ∈ v, isGap c = false := by
    intro c hc
    rw [Bool.eq_false_iff]
    intro hgap
    have hspace := isSpace_of_isGap hgap
    rw [(he.bare c hc).1] at hspace
    cases hspace
  rw [Nat.add_assoc, ← bytes_append, ← append_assoc]
  have hskips := advanceTo_skips (g ++ v) r p
  generalize (Cursor.mk (g ++ v ++ r) p).advanceTo (p + bytes (g ++ v)) = d at hskips ⊢
  cases hskips with
  | gaps u g' hs _ hlast hd =>
    rcases eq_nil_or_concat v with rfl | ⟨v, z, rfl⟩
    · rw [append_nil] at hs
      have hu : ∀ c ∈ u, isGap c = true := fun c hc => hg c (by simp [hs, hc])
      exact ⟨u, [], isBlank_of_gaps hu, by rw [hd]; exact ⟨by simp [hs], by simp⟩, .inl (overrun_nil r).symm⟩
    · have hgap := hsolid z (by simp)
      rw [hlast z (by simp)] at hgap
      cases hgap
  | token w v' y k hs hv' hr' hp hw =>
    -- the token starts in the value, since what comes before the value is gaps
    obtain ⟨w, rfl⟩ : ∃ w', v = w' ++ v' := by
      rcases append_eq_append_iff.mp hs with ⟨w', rfl, hw'⟩ | ⟨_ | ⟨a, g'⟩, rfl, rfl⟩
      · exact ⟨w', hw'⟩
      · exact ⟨[], rfl⟩
      · have hgap := hw.spells.isGap_eq_false a (by simp)
        rw [hg a (by simp)] at hgap
        cases hgap
    obtain ⟨v', z, rfl⟩ : ∃ u z, v' = u ++ [z] := by
      simpa using (eq_nil_or_concat v').resolve_left hv'
    rw [hr'] at he ⊢
    refine ⟨g, y, isBlank_of_gaps hg, ⟨by simp, by simpa using hp⟩, ?_⟩
    rcases overrun_of_wins hw he with hy | ⟨hy, c, hc, hplain, hspace⟩
    · exact .inl hy
    · obtain ⟨t, ht'⟩ := head?_eq_some_iff.mp hc
      refine .inr ⟨hy, ?_⟩
      obtain ⟨rest, q⟩ := d
      obtain rfl : rest = c :: t := ht'
      exact kind_of_space hplain hspace t q

end Values

section Attributes

/-- The text before and after the end of the bare value at the cursor, unless a quote stands there. -/
def bare? (c : Cursor) : Option (Text × Text) :=
  if c.kind = .doubleQuote ∨ c.kind = .singleQuote then none
  else some (c.skipGaps.rest.splitAt (bareLength c.skipGaps.rest))

/-- The same for the attribute that starts at the cursor, if it has a bare value. -/
def bareNext? (c : Cursor) : Option (Text × Text) :=
  if c.kind = .name ∧ c.advance.kind = .equals then c.advance.advance.bare? else none

/-- What is taken along of the text after a value, when the cursor then stands at `d`. -/
def Taken (found : Option (Text × Text)) (y : Text) (d : Cursor) : Prop :=
  match found with
  | none => y = []
  | some (v, r) => y = overrun v r ∨ y = [] ∧ d.kind = .text

theorem quotedValue_past (hq : quote = '"' ∨ quote = '\'') (hf : (c.quotedValue quote opened).1.2 = []) :
    c.Past ((c.quotedValue quote opened).1.1 ++ [quote]) (c.quotedValue quote opened).2 ∧
      quote ∉ (c.quotedValue quote opened).1.1 := by
  obtain ⟨rest, p⟩ := c
  rw [quotedValue] at *
  cases hb : breakOn? [quote] rest with
  | none => simp [hb] at hf
  | some vr =>
    obtain ⟨v, r⟩ := vr
    have hrest := eq_of_breakOn? hb
    have hn := not_infix_of_breakOn? (by simp) hb
    dsimp only
    rw [hrest, append_assoc, singleton_append, advanceTo_after v r p (.inr hq)]
    refine ⟨⟨by simp, ?_⟩, ?_⟩
    · rcases hq with rfl | rfl <;> simp [Nat.add_assoc] <;> rfl
    · intro hm
      obtain ⟨a, b, rfl⟩ := append_of_mem hm
      exact hn ⟨a, b, by simp⟩

theorem quotedValue_spelled (hq : quote = '"' ∨ quote = '\'')
    (hk : c.kind = k) (hne : k ≠ .endOfFile) (hs : ∀ lexeme, k.Spells lexeme → lexeme = [quote]) (hf : (c.advance.quotedValue quote opened).1.2 = []) :
    ∃ s w, isBlank s = true ∧ c.Past (s ++ (w ++ [])) (c.advance.quotedValue quote opened).2 ∧
      ValueSpelled (c.advance.quotedValue quote opened).1.1 w := by
  obtain ⟨g, hg, hp⟩ := past_mark hk hne hs
  obtain ⟨hv, hn⟩ := quotedValue_past hq hf
  refine ⟨g, _, isBlank_of_gaps hg, ?_, .quoted hq hn⟩
  have ht := hp.trans hv
  rwa [append_assoc, singleton_append, ← append_nil (quote :: _)] at ht

theorem head_bareValue (hd : c.kind ≠ .doubleQuote) (hs : c.kind ≠ .singleQuote) :
    ∀ x ∈ c.bareValue.1.head?, x ≠ '"' ∧ x ≠ '\'' := by
  obtain ⟨rest, p⟩ := c
  obtain ⟨g, t, rfl, hg, ht⟩ := exists_gaps rest
  intro x hx
  rw [bareValue, skipGaps_append hg ht] at hx
  have hhead : t.head? = some x := by
    rw [head?_take] at hx
    split at hx
    · cases hx
    · exact hx
  obtain ⟨t, rfl⟩ := head?_eq_some_iff.mp hhead
  constructor
  · rintro rfl
    exact hd (kind_of_next (next_of_read hg ht rfl))
  · rintro rfl
    exact hs (kind_of_next (next_of_read hg ht rfl))

theorem attributeValue_spelled (hf : c.attributeValue.1.2 = []) :
    ∃ s w y, isBlank s = true ∧ c.Past (s ++ (w ++ y)) c.attributeValue.2 ∧
      ValueSpelled c.attributeValue.1.1 w ∧ Taken c.bare? y c.attributeValue.2 := by
  rw [attributeValue] at hf ⊢
  split at hf
  next hk =>
    obtain ⟨s, w, hs, hp, hw⟩ := quotedValue_spelled (.inl rfl) hk (by decide) (fun _ hl => hl) hf
    rw [bare?, if_pos (.inl hk)]
    exact ⟨s, w, [], hs, hp, hw, rfl⟩
  next hk =>
    obtain ⟨s, w, hs, hp, hw⟩ := quotedValue_spelled (.inr rfl) hk (by decide) (fun _ hl => hl) hf
    rw [bare?, if_pos (.inr hk)]
    exact ⟨s, w, [], hs, hp, hw, rfl⟩
  next hd hs =>
    have hsplit := take_append_drop (bareLength c.skipGaps.rest) c.skipGaps.rest
    obtain ⟨s, y, hblank, hp, hy⟩ := bareValue_past hsplit.symm rfl
    have he := ends_bareLength c.skipGaps.rest
    rw [bare?, if_neg fun h => h.elim hd hs, splitAt_eq]
    exact ⟨s, c.bareValue.1, y, hblank, hp, .bare he.bare (head_bareValue hd hs), hy⟩

theorem tagItem_spelled {name : Text} {span : Span} (h : c.tagItem = some (.attribute name span value [], d)) :
    ∃ w y, c.Past (w ++ y) d ∧ AttributeSpelled ⟨name, value⟩ w ∧ Taken c.bareNext? y d := by
  have hstart (hk : c.kind = .name) : ∃ g, (∀ x ∈ g, isGap x = true) ∧
      c.Past (g ++ c.current.lexeme) c.advance ∧ isName c.current.lexeme = true := by
    obtain ⟨g, hg, hp, hs⟩ := past_current (c := c) (by simp [hk])
    rw [hk] at hs
    exact ⟨g, hg, hp, hs⟩
  cases nextItem_of_tagItem h with
  | valued hk he hval =>
    obtain ⟨g, hg, hp, hname⟩ := hstart hk
    obtain ⟨s, hs, hp'⟩ := past_mark he (by decide) (s := ['=']) (fun _ hl => hl)
    obtain ⟨s', w, y, hs', hv, hw, hy⟩ := attributeValue_spelled (congrArg (·.1.2) hval)
    rw [hval] at hv hw hy
    refine ⟨g ++ (c.current.lexeme ++ (s ++ '=' :: (s' ++ w))), y, ?_,
      .valued (isBlank_of_gaps hg) hname (isBlank_of_gaps hs) hs' hw, ?_⟩
    · have ht := (hp.trans hp').trans hv
      simpa using ht
    · rwa [bareNext?, if_pos ⟨hk, he⟩]
  | plain hk he =>
    obtain ⟨g, hg, hp, hname⟩ := hstart hk
    refine ⟨g ++ c.current.lexeme, [], by simpa using hp, .named (isBlank_of_gaps hg) hname, ?_⟩
    rw [bareNext?, if_neg fun h => he h.2]
    rfl

end Attributes

section Tags

/-- No bare value of the tag that is read from here takes more than white space along. -/
def Smooth (c : Cursor) : Prop :=
  ∀ items d v r, Run tagItem c items d → d.bareNext? = some (v, r) → isBlank (overrun v r) = true

theorem smooth_step (h : c.tagItem = some (item, d)) :
    c.Smooth ↔ (∀ v r, c.bareNext? = some (v, r) → isBlank (overrun v r) = true) ∧ d.Smooth := by
  constructor
  · intro hc
    exact ⟨fun v r hv => hc [] c v r (.done c) hv, fun items e v r hr hv => hc (item :: items) e v r (.more h hr) hv⟩
  · rintro ⟨hown, hd⟩ items e v r hr hv
    cases hr with
    | done => exact hown v r hv
    | more h' hr =>
      rw [h] at h'
      obtain ⟨rfl, rfl⟩ := Prod.mk.inj (Option.some.inj h')
      exact hd _ e v r hr hv

theorem smooth_end (h : c.tagItem = none) : c.Smooth := by
  intro items d v r hr hv
  cases hr with
  | more h' hr => rw [h] at h'; cases h'
  | done =>
    rw [bareNext?] at hv
    split at hv
    next hk =>
      rw [tagItem, hk.1] at h
      dsimp only at h
      split at h <;> cases h
    · cases hv

theorem collectAttributes_cons (h : collectAttributes known (item :: items) = (out, [])) :
    ∃ name span value, item = .attribute name span value [] ∧
      collectAttributes (known ++ [⟨name, value⟩]) items = (out, []) := by
  rcases item with ⟨name, span, value, own⟩ | fault
  · rw [collectAttributes] at h
    split at h
    · simp at h
    · simp only [Prod.mk.injEq, append_eq_nil_iff] at h
      obtain ⟨hout, rfl, hf⟩ := h
      exact ⟨name, span, value, rfl, Prod.ext hout hf⟩
  · simp [collectAttributes] at h

theorem kind_ne_text
    (hr : Run tagItem c items d) (hd : d.tagItem = none) (h : collectAttributes known items = (out, [])) :
    c.kind ≠ .text := by
  intro hk
  have hstray : ∃ fault, c.tagItem = some (.stray fault, c.advance) := by
    rw [tagItem, hk]
    exact ⟨_, rfl⟩
  obtain ⟨fault, hc⟩ := hstray
  cases hr with
  | done => rw [hc] at hd; cases hd
  | more h' hr =>
    rw [hc] at h'
    obtain ⟨rfl, -⟩ := Prod.mk.inj (Option.some.inj h')
    obtain ⟨_, _, _, hi, -⟩ := collectAttributes_cons h
    cases hi

/-- Where no stray characters come next, what is taken along is white space just when it is said to
be. -/
theorem Taken.countP_isInk (h : Taken found y d) (hd : d.kind ≠ .text) :
    y.countP isInk = 0 ↔ ∀ v r, found = some (v, r) → isBlank (overrun v r) = true := by
  cases found with
  | none =>
    obtain rfl : y = [] := h
    simp
  | some vr =>
    obtain ⟨v, r⟩ := vr
    obtain rfl : y = overrun v r := h.resolve_right fun h => hd h.2
    rw [countP_isInk_overrun]
    constructor
    · rintro hb v' r' ⟨⟩
      exact hb
    · intro hb
      exact hb v r rfl

theorem Taken.isBlank_of_smooth
    (h : Taken found y d) (hf : ∀ v r, found = some (v, r) → isBlank (overrun v r) = true) :
    isBlank y = true := by
  cases found with
  | none =>
    obtain rfl : y = [] := h
    rfl
  | some vr =>
    rcases h with rfl | ⟨rfl, -⟩
    · exact hf vr.1 vr.2 rfl
    · rfl

theorem run_spelled (hr : Run tagItem c items d) (hd : d.tagItem = none)
    (h : collectAttributes known items = (out, [])) :
    ∃ as t n, out = known ++ as ∧ c.Past t d ∧ (c.Smooth → ∀ g, isBlank g = true → Spelled as (t ++ g)) ∧
      t.countP isInk = (as.map Attribute.ink).sum + n ∧ (n = 0 ↔ c.Smooth) := by
  induction hr generalizing known with
  | done c =>
    obtain ⟨rfl, -⟩ := Prod.mk.inj h
    exact ⟨[], [], 0, by simp, .refl c, fun _ g hg => .done hg, rfl, iff_of_true rfl (smooth_end hd)⟩
  | @more c e d item items hc hr ih =>
    obtain ⟨name, span, value, rfl, h'⟩ := collectAttributes_cons h
    obtain ⟨as, t, n, rfl, hp, hspelled, hcount, hn⟩ := ih hd h'
    obtain ⟨w, y, hp', hw, hy⟩ := tagItem_spelled hc
    have hink := hy.countP_isInk (kind_ne_text hr hd h')
    refine ⟨⟨name, value⟩ :: as, w ++ y ++ t, y.countP isInk + n, by simp, hp'.trans hp, ?_, ?_, ?_⟩
    · intro hs g hg
      obtain ⟨hown, hs⟩ := (smooth_step hc).mp hs
      rw [append_assoc, append_assoc]
      exact .next hw (.blank_append (hy.isBlank_of_smooth hown) (hspelled hs g hg))
    · rw [countP_append, countP_append, hw.countP_isInk, hcount, map_cons, sum_cons]
      omega
    · rw [Nat.add_eq_zero_iff, hink, hn, smooth_step hc]

/-- A start tag that is not cut off: a run over its attributes, then its mark after gaps. -/
theorem startTag_run (he : c.startTag.1.tagEnd ≠ .cutOff) : ∃ items d g, Run tagItem c items d ∧ d.tagItem = none ∧
      collectAttributes [] items = (c.startTag.1.attributes, c.startTag.1.faults) ∧
      isBlank g = true ∧ d.Past (g ++ c.startTag.1.tagEnd.mark) c.startTag.2 := by
  have hrun : Run tagItem c c.tagItems.1 c.tagItems.2 := run_exhaust c.rest.length c
  rw [startTag] at he ⊢
  dsimp only at he ⊢
  split at he
  next hk =>
    obtain ⟨g, hg, hp⟩ := past_mark hk (by decide) (s := ['>']) (fun _ hl => hl)
    exact ⟨_, _, g, hrun, by rw [tagItem, hk], rfl, isBlank_of_gaps hg, hp⟩
  next hk =>
    obtain ⟨g, hg, hp⟩ := past_mark hk (by decide) (s := ['/', '>']) (fun _ hl => hl)
    exact ⟨_, _, g, hrun, by rw [tagItem, hk], rfl, isBlank_of_gaps hg, hp⟩
  · exact absurd rfl he

/-- The text of a start tag without faults, from its name to its end, spells its attributes just when
no bare value takes more than white space along. -/
theorem startTag_spelled_iff_smooth {c : Cursor} (hf : c.startTag.1.faults = [])
    (he : c.startTag.1.tagEnd ≠ .cutOff) :
    ∃ t, c.Past (t ++ c.startTag.1.tagEnd.mark) c.startTag.2 ∧ (Spelled c.startTag.1.attributes t ↔ c.Smooth) := by
  obtain ⟨items, d, g, hrun, hd, hcollect, hg, hmark⟩ := startTag_run he
  rw [hf] at hcollect
  obtain ⟨as, t, n, has, hp, hspelled, hcount, hn⟩ := run_spelled hrun hd hcollect
  rw [has, nil_append]
  refine ⟨t ++ g, ?_, ?_, fun hs => hspelled hs g hg⟩
  · rw [append_assoc]
    exact hp.trans hmark
  · intro hs
    have hink := hs.countP_isInk
    rw [countP_append, countP_isInk_blank hg, hcount] at hink
    exact hn.mp (by omega)

/-- In this tag a bare value, both kinds of quotes and a name alone stand side by side. -/
theorem startTag_spelled_mixed : (Cursor.mk " a=\"1\" b='2' c=3 d :e = \"x > y\"/>" 0).startTag.1.faults = [] ∧
    (Cursor.mk " a=\"1\" b='2' c=3 d :e = \"x > y\"/>" 0).startTag.1.tagEnd ≠ .cutOff ∧
    ∃ t, (Cursor.mk " a=\"1\" b='2' c=3 d :e = \"x > y\"/>" 0).Past
        (t ++ (Cursor.mk " a=\"1\" b='2' c=3 d :e = \"x > y\"/>" 0).startTag.1.tagEnd.mark)
        (Cursor.mk " a=\"1\" b='2' c=3 d :e = \"x > y\"/>" 0).startTag.2 ∧
      (Spelled (Cursor.mk " a=\"1\" b='2' c=3 d :e = \"x > y\"/>" 0).startTag.1.attributes t ↔
        (Cursor.mk " a=\"1\" b='2' c=3 d :e = \"x > y\"/>" 0).Smooth) := by
  have hf : (Cursor.mk " a=\"1\" b='2' c=3 d :e = \"x > y\"/>" 0).startTag.1.faults = [] := rfl
  have he : (Cursor.mk " a=\"1\" b='2' c=3 d :e = \"x > y\"/>" 0).startTag.1.tagEnd ≠ .cutOff := by
    decide
  exact ⟨hf, he, startTag_spelled_iff_smooth hf he⟩

theorem Past.text_unique {s t m : Text} (h : c.Past (s ++ m) d) (h' : c.Past (t ++ m) d) : s = t :=
  append_cancel_right (append_cancel_right (h.1.symm.trans h'.1))

/-- The `b` after a no-break space is dropped, and so is the slash of `/>` after a `<`. -/
theorem startTag_drops_text : (∃ d, (Cursor.mk " a=1\u00a0b>" 0).startTag = (⟨[⟨['a'], ['1']⟩], .opened, []⟩, d) ∧
      ∀ t, (Cursor.mk " a=1\u00a0b>" 0).Past (t ++ TagEnd.mark .opened) d → ¬ Spelled [⟨['a'], ['1']⟩] t) ∧
    ∃ d, (Cursor.mk " a=x</>" 0).startTag = (⟨[⟨['a'], ['x', '<']⟩], .opened, []⟩, d) ∧
      ∀ t, (Cursor.mk " a=x</>" 0).Past (t ++ TagEnd.mark .opened) d → ¬ Spelled [⟨['a'], ['x', '<']⟩] t := by
  constructor
  · refine ⟨⟨[], 8⟩, rfl, fun t ht hs => ?_⟩
    obtain rfl : t = " a=1\u00a0b" := ht.text_unique ⟨rfl, rfl⟩
    cases hs.countP_isInk
  · refine ⟨⟨[], 7⟩, rfl, fun t ht hs => ?_⟩
    obtain rfl : t = " a=x</" := ht.text_unique ⟨rfl, rfl⟩
    cases hs.countP_isInk

end Tags

end Cursor

end ComponentConverter.Markup
