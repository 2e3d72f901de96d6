import ComponentConverter.Proofs.ParserProgress

namespace ComponentConverter.Markup

open List

variable {k : Kind} {s t r before after g : Text} {x : Char}

/-- No run of plain characters goes over the place between two texts, unless the mark of a comment ends there. -/
def Sealed (before after : Text) : Prop := Stops before.reverse ∨ "<!--" <:+ before ∨ Stops after

theorem Sealed.gaps (h : Sealed before (g ++ t)) (hg : ∀ c ∈ g, isGap c = true) : Sealed (before ++ g) t := by
  rcases eq_nil_or_concat g with rfl | ⟨g, x, rfl⟩
  · simpa using h
  · left
    intro y hy
    obtain rfl : x = y := by simpa using hy
    rw [Bool.eq_false_iff]
    intro hplain
    have hgap := isGap_eq_false_of_isPlain hplain
    rw [hg x (by simp)] at hgap
    cases hgap

theorem Kind.Wins.sealed (h : k.Wins s (s ++ r)) (before : Text) : Sealed (before ++ s) r := by
  have hs := h.spells
  cases k with
  | name => exact .inr (.inr (h.stops (.inl rfl)))
  | text => exact .inr (.inr (h.stops (.inr rfl)))
  | endOfFile => exact hs.elim
  | commentOpen => exact .inr (.inl ⟨before, by rw [show s = _ from hs]; rfl⟩)
  | _ => exact .inl (by simp [show s = _ from hs, Stops, isPlain])

namespace Cursor

variable {source : Text} {c d : Cursor} {token : Token} {ts : List Token}

/-- A token of a source between two texts: the longest match where it starts. A name or a text is a run of plain
characters that goes on neither after it nor, the mark of a comment apart, before it, and it is a name exactly if the
whole run can be one. -/
structure Shows (source before after : Text) (t : Token) : Prop where
  place : source = before ++ (t.lexeme ++ after)
  start : t.start = bytes before
  wins : t.kind.Wins t.lexeme (t.lexeme ++ after)
  run : t.kind = .name ∨ t.kind = .text → (∀ x ∈ t.lexeme, isPlain x = true) ∧ Stops after ∧
    (Stops before.reverse ∨ "<!--" <:+ before) ∧ (t.kind = .name ↔ isName t.lexeme = true)

theorem shows_of_run (h : Run next (start source) ts d) :
    ∀ token ∈ ts, ∃ before after, Shows source before after token := by
  refine (h.invariant (I := fun c => ∃ before, source = before ++ c.rest ∧ c.pos = bytes before ∧
    Sealed before c.rest) ?_ ⟨[], rfl, rfl, .inl (by simp [Stops])⟩).1
  rintro c token d ⟨before, hsource, hpos, hedge⟩ hnext
  obtain ⟨g, hrest, hg, hstart, hstop, hspells⟩ := next_eq_some hnext
  have hwins := wins_next hnext
  rw [hrest] at hsource hedge
  refine ⟨⟨before ++ g, d.rest, by rw [hsource, append_assoc], by rw [hstart, hpos, bytes_append], hwins, ?_⟩,
    before ++ g ++ token.lexeme, by simp [hsource], by rw [hstop, hstart, hpos, bytes_append, bytes_append],
    hwins.sealed _⟩
  intro hk
  have hplain := hspells.plain hk
  refine ⟨hplain, hwins.stops hk, ?_, hwins.eq_name_iff hk⟩
  rcases hedge.gaps hg with h | h | h
  · exact .inl h
  · exact .inr h
  · obtain ⟨x, s, hs⟩ := exists_cons_of_ne_nil hspells.ne_nil
    rw [hs] at h hplain
    have hx := hplain x mem_cons_self
    rw [h x rfl] at hx
    cases hx

theorem ordered_of_run (h : Run next c ts d) :
    (∀ token ∈ ts, c.pos ≤ token.start) ∧ ts.Pairwise fun a b => a.stop ≤ b.start := by
  induction h with
  | done c => simp
  | @more c e d token ts hnext hr ih =>
    obtain ⟨hfirst, hrest⟩ := ih
    obtain ⟨g, -, -, hstart, hstop, -⟩ := next_eq_some hnext
    refine ⟨forall_mem_cons.mpr ⟨by omega, fun b hb => ?_⟩, pairwise_cons.mpr ⟨fun b hb => ?_, hrest⟩⟩
    · have hb := hfirst b hb
      omega
    · rw [Token.stop, ← hstop]
      exact hfirst b hb

theorem append_cons_split {u v : Text} (h : u ++ x :: v = s ++ t) :
    (∃ w, s = u ++ x :: w) ∨ ∃ w, u = s ++ w ∧ t = w ++ x :: v := by
  rcases append_eq_append_iff.mp h with ⟨_ | ⟨y, w⟩, hs, ht⟩ | ⟨w, hu, ht⟩
  · exact .inr ⟨[], by simpa using hs.symm, by simpa using ht.symm⟩
  · obtain ⟨rfl, -⟩ := List.cons.inj ht
    exact .inl ⟨w, hs⟩
  · exact .inr ⟨w, hu, ht⟩

/-- A character that is still to be read is a gap, or it stands in one of the tokens. -/
theorem covered_of_run (h : Run next c ts d) (hd : d.next = none) (hx : c.rest = before ++ x :: after) :
    isGap x = true ∨ ∃ token ∈ ts, ∃ l r, token.lexeme = l ++ x :: r ∧ token.start + bytes l = c.pos + bytes before := by
  induction h generalizing before with
  | done c => exact .inl (next_eq_none_iff.mp hd x (by simp [hx]))
  | @more c e d token ts hnext hr ih =>
    obtain ⟨g, hrest, hg, hstart, hstop, -⟩ := next_eq_some hnext
    rcases append_cons_split (hx.symm.trans hrest) with ⟨w, rfl⟩ | ⟨u, rfl, hu⟩
    · exact .inl (hg x (by simp))
    · rw [bytes_append]
      rcases append_cons_split hu.symm with ⟨w, hw⟩ | ⟨u', rfl, hu'⟩
      · exact .inr ⟨token, mem_cons_self, u, w, hw, by omega⟩
      · refine (ih hd hu').imp_right ?_
        rintro ⟨b, hb, l, r, hl, hpos⟩
        exact ⟨b, mem_cons_of_mem _ hb, l, r, hl, by rw [bytes_append]; omega⟩

/-- The tokens of a source, its end apart. None is empty, they come one after the other between characters of the source,
and what they leave out is gaps. Marks that open a tag or a quotation are found wherever they stand. -/
structure Tiling (source : Text) (tokens : List Token) : Prop where
  nonempty : ∀ token ∈ tokens, token.start < token.stop
  isRange : ∀ token ∈ tokens, token.span.IsRange source
  short : bytes source ≤ Span.limit → ∀ token ∈ tokens, Span.clamped token.start token.stop = token.span
  ordered : tokens.Pairwise fun a b => a.stop ≤ b.start
  gaps : ∀ before x after, source = before ++ x :: after →
    isGap x = true ∨ ∃ token ∈ tokens, token.start ≤ bytes before ∧ bytes before < token.stop
  marks : ∀ before x after, source = before ++ x :: after → x = '<' ∨ x = '"' ∨ x = '\'' →
    ∃ token ∈ tokens, token.start = bytes before
  shown : ∀ token ∈ tokens, ∃ before after, Shows source before after token

theorem tiling_of_run (h : Run next (start source) ts d) (hd : d.next = none) : Tiling source ts := by
  have hshows := shows_of_run h
  have hspells : ∀ token ∈ ts, token.kind.Spells token.lexeme := by
    intro token ht
    obtain ⟨before, after, ht⟩ := hshows token ht
    exact ht.wins.spells
  have hrange : ∀ token ∈ ts, token.span.IsRange source := by
    intro token ht
    obtain ⟨before, after, ht⟩ := hshows token ht
    refine ⟨Nat.le_add_right _ _, ⟨before, _, ht.place, ht.start.symm⟩, before ++ token.lexeme, after, ?_, ?_⟩
    · rw [ht.place, append_assoc]
    · rw [bytes_append, ← ht.start]
      rfl
  have hcovered : ∀ {before x after}, source = before ++ x :: after → isGap x = true ∨
      ∃ token ∈ ts, ∃ l r, token.lexeme = l ++ x :: r ∧ token.start + bytes l = bytes before := by
    intro before x after hx
    simpa [start] using covered_of_run h hd hx
  refine ⟨?_, hrange, ?_, (ordered_of_run h).2, ?_, ?_, hshows⟩
  · intro token ht
    have hne : bytes token.lexeme ≠ 0 := fun h0 => (hspells token ht).ne_nil (eq_nil_of_bytes_eq_zero h0)
    exact Nat.lt_add_of_pos_right (Nat.pos_of_ne_zero hne)
  · intro hlimit token ht
    exact (hrange token ht).clamped_eq hlimit
  · intro before x after hx
    refine (hcovered hx).imp_right ?_
    rintro ⟨token, ht, l, r, hl, hpos⟩
    have hsize := x.utf8Size_pos
    refine ⟨token, ht, by omega, ?_⟩
    rw [Token.stop, hl, bytes_append, bytes_cons]
    omega
  · intro before x after hx hmark
    rcases hcovered hx with hgap | ⟨token, ht, _ | ⟨y, l⟩, r, hl, hpos⟩
    · rcases hmark with rfl | rfl | rfl <;> cases hgap
    · exact ⟨token, ht, hpos⟩
    · refine absurd ?_ ((hspells token ht).not_mem_tail hmark)
      simp [hl]

/-- A source is read as tokens that tile it, and its end. -/
theorem lex_tiles (source : Text) :
    ∃ tokens, lex source = tokens ++ [⟨.endOfFile, [], bytes source⟩] ∧ Tiling source tokens := by
  have hrun : Run next (start source) _ _ := run_exhaust source.length (start source)
  have hend := step_exhaust length_lt_of_next (s := start source) (Nat.le_refl source.length)
  refine ⟨_, ?_, tiling_of_run hrun hend⟩
  rw [lex, tokens_of_end hrun hend, last, start, Nat.zero_add]

/-- Behind the mark of a comment, a name can follow on characters that could belong to it. -/
theorem not_maximal_run : ¬ ∀ source, ∀ token ∈ lex source, token.kind = .name ∨ token.kind = .text →
    ∃ before after, source = before ++ (token.lexeme ++ after) ∧ token.start = bytes before ∧
      (∀ x ∈ token.lexeme, isPlain x = true) ∧ Stops after ∧ Stops before.reverse := by
  intro h
  obtain ⟨before, after, hsource, hstart, -, -, hedge⟩ := h "<!--c" ⟨.name, ['c'], 4⟩ (by decide) (.inl rfl)
  have hsplit := splitBytes?_eq_some_iff.mpr ⟨hsource, hstart⟩
  obtain ⟨rfl, -⟩ : "<!--" = before ∧ _ := Prod.mk.inj (Option.some.inj hsplit)
  exact absurd (hedge '-' rfl) (by decide)

end Cursor

end ComponentConverter.Markup
