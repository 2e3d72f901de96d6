import ComponentConverter.Proofs.SplitBlocks

namespace ComponentConverter.Markup.Cursor

open List Template

variable {source g r : Text} {c d e : Cursor} {ts : List Token}

section Tokens

theorem Past.last_eq {s : Text} (h : c.Past s d) : c.last = d.last := by
  rw [last, last, h.1, h.2, bytes_append, Nat.add_assoc]

theorem tokens_of_end (h : Run next c ts d) (hd : d.next = none) : c.tokens = ts ++ [⟨.endOfFile, [], c.last⟩] := by
  have hle := h.length_le length_lt_of_next
  rw [tokens, exhaust_eq_of_run h hd (by omega)]

theorem tokens_of_run (h : Run next c ts d) : c.tokens = ts ++ d.tokens := by
  have hrun : Run next d _ _ := run_exhaust d.rest.length d
  have hend := step_exhaust length_lt_of_next (Nat.le_refl d.rest.length)
  obtain ⟨s, hs⟩ := Reaches.past ⟨ts, h⟩
  rw [tokens_of_end (h.trans hrun) hend, tokens_of_end hrun hend, hs.last_eq, append_assoc]

theorem tokens_congr (hn : c.next = d.next) (hl : c.last = d.last) : c.tokens = d.tokens := by
  cases h : d.next with
  | none => rw [tokens_of_end (.done c) (hn.trans h), tokens_of_end (.done d) h, hl]
  | some p => rw [tokens_of_run (.single (hn.trans h)), tokens_of_run (.single h)]

theorem kind_of_run (h : Run next c ts d) : ∀ token ∈ ts, token.kind ≠ .endOfFile := by
  refine h.forall_mem fun c token d hn hk => ?_
  have hnone := kind_eq_endOfFile_iff.mp ((kind_of_next hn).trans hk)
  rw [hn] at hnone
  cases hnone

/-- From one cursor to the other at least one token is read, and none of them is the end of the source. -/
def Consumes (c d : Cursor) : Prop :=
  ∃ read, read ≠ [] ∧ (∀ token ∈ read, token.kind ≠ .endOfFile) ∧ c.tokens = read ++ d.tokens

theorem consumes_of_advance (hk : c.kind ≠ .endOfFile) (h : c.advance.Reaches d) : c.Consumes d := by
  obtain ⟨ts, hr⟩ := h
  have hrun := Run.more (next_of_kind hk) hr
  exact ⟨c.current :: ts, cons_ne_nil _ _, kind_of_run hrun, tokens_of_run hrun⟩

theorem Reaches.consumes (h : c.Reaches d) (h' : d.Consumes e) : c.Consumes e := by
  obtain ⟨ts, hr⟩ := h
  obtain ⟨read, hne, hkind, htokens⟩ := h'
  refine ⟨ts ++ read, by simp [hne], forall_mem_append.mpr ⟨kind_of_run hr, hkind⟩, ?_⟩
  rw [tokens_of_run hr, htokens, append_assoc]

end Tokens

section Places

theorem next_of_gaps (hg : ∀ x ∈ g, isGap x = true) (hp : c.Past g d) : c.next = d.next := by
  have hskip : c.skipGaps = d.skipGaps := by
    rw [skipGaps, skipGaps, hp.1, hp.2, dropWhile_append_of_pos hg, takeWhile_append_of_pos hg, bytes_append,
      Nat.add_assoc]
  rw [next, next, hskip]

/-- A cursor stands behind some tokens of a source. Gaps may have been passed after the last of them. -/
def Tracks (source : Text) (c : Cursor) : Prop :=
  ∃ d g, (start source).Reaches d ∧ (∀ x ∈ g, isGap x = true) ∧ d.Past g c

theorem tracks_start (source : Text) : (start source).Tracks source := ⟨_, [], .refl _, by simp, .refl _⟩

theorem Tracks.inside (h : c.Tracks source) : c.In source := by
  obtain ⟨d, g, hd, -, hp⟩ := h
  exact ((in_start source).reaches hd).past hp

theorem Tracks.suffix (h : c.Tracks source) : c.tokens <:+ lex source := by
  obtain ⟨d, g, ⟨ts, hd⟩, hg, hp⟩ := h
  rw [← tokens_congr (next_of_gaps hg hp) hp.last_eq]
  exact ⟨ts, (tokens_of_run hd).symm⟩

theorem Tracks.gap (h : c.Tracks source) (hg : ∀ x ∈ g, isGap x = true) (hp : c.Past g d) : d.Tracks source := by
  obtain ⟨b, g', hb, hg', hp'⟩ := h
  exact ⟨b, g' ++ g, hb, forall_mem_append.mpr ⟨hg', hg⟩, hp'.trans hp⟩

theorem Tracks.reaches (h : c.Tracks source) (hr : c.Reaches d) : d.Tracks source := by
  obtain ⟨ts, hr⟩ := hr
  cases hr with
  | done => exact h
  | @more _ after _ token ts hn hr =>
    obtain ⟨b, g, hb, hg, hp⟩ := h
    exact ⟨d, [], hb.trans ⟨_, .more ((next_of_gaps hg hp).trans hn) hr⟩, by simp, .refl d⟩

/-- A text is read up to the next markup. Skipping to there stops before it, gaps apart. -/
theorem readText_markup (c : Cursor) :
    let place := c.pos + bytes (beforeMarkup c.rest)
    let d := (Piece.readText c (beforeMarkup c.rest)).2
    ∃ g, (∀ x ∈ g, isGap x = true) ∧ (c.advanceTo place).Past g d ∧
      (d.kind = .endOfFile ∨ startsMarkup d.rest = true ∧ d.pos = place) := by
  obtain ⟨r, hc, hr, -⟩ := beforeMarkup_spec c.rest
  have hcut : Cut (beforeMarkup c.rest) r := by
    rcases hr with rfl | hr
    · exact cut_nil _
    · obtain ⟨t, rfl⟩ := eq_cons_of_startsMarkup hr
      exact cut_of_head _ t
  generalize beforeMarkup c.rest = raw at hc hcut
  obtain ⟨u, g, rfl, hg, hto⟩ := advanceTo_of_cut (p := c.pos) hcut
  rw [← hc] at hto
  dsimp only
  rw [Piece.readText, hto]
  dsimp only [take]
  rw [hc, drop_left, take_left]
  split
  next he =>
    obtain rfl := isEmpty_iff.mp he
    exact ⟨[], by simp, .refl _, .inl (kind_eq_endOfFile_iff.mpr (next_eq_none_iff.mpr (by simpa using hg)))⟩
  next hne =>
    refine ⟨g, hg, ⟨rfl, by rw [bytes_append, Nat.add_assoc]⟩, .inr ⟨hr.resolve_left ?_, rfl⟩⟩
    rintro rfl
    exact hne rfl

theorem next_markup (h : startsMarkup r = true) (p : Nat) : ∃ k s d, (Cursor.mk r p).next = some (⟨k, s, p⟩, d) ∧
    (k = .tagOpen ∨ k = .closeOpen ∨ k = .commentOpen) := by
  rcases startsMarkup_cases h with ⟨t, rfl⟩ | ⟨x, t, rfl, hx⟩ | ⟨x, t, rfl, hx⟩
  · exact ⟨_, _, _, next_commentOpen t p, by simp⟩
  · exact ⟨_, _, _, next_closeOpen (x :: t) p, by simp⟩
  · exact ⟨_, _, _, next_mark (x :: t) p rfl rfl (Kind.read_tagOpen t hx), by simp⟩

/-- The token found by skipping to the next markup starts there, and it opens a tag, a closing tag or a comment. -/
theorem resync (c : Cursor) :
    let place := c.pos + bytes (beforeMarkup c.rest)
    (c.advanceTo place).kind = .endOfFile ∨ (c.advanceTo place).current.start = place ∧
      (c.advanceTo place).kind ∈ [Kind.tagOpen, .closeOpen, .commentOpen] := by
  obtain ⟨g, hg, hp, hmarkup⟩ := readText_markup c
  have hn := next_of_gaps hg hp
  rcases hmarkup with hk | ⟨hr, hpos⟩
  · exact .inl (kind_eq_endOfFile_iff.mpr (hn.trans (kind_eq_endOfFile_iff.mp hk)))
  · obtain ⟨k, s, e, hnext, hk⟩ := next_markup hr _
    rw [hnext] at hn
    dsimp only
    rw [kind_of_next hn, current_of_next hn]
    exact .inr ⟨hpos, by simpa using hk⟩

theorem advanceTo_stops (c : Cursor) (offset : Nat) :
    (c.advanceTo offset).kind = .endOfFile ∨ offset ≤ (c.advanceTo offset).current.start := by
  have hend := nextBefore_advanceTo c offset
  generalize c.advanceTo offset = d at hend ⊢
  cases hn : d.next with
  | none => exact .inl (kind_eq_endOfFile_iff.mpr hn)
  | some p =>
    rw [nextBefore, hn, Option.filter_eq_none_iff] at hend
    rw [current_of_next hn]
    exact .inr (by simpa using hend p rfl)

end Places

section Slices

/-- A text stands at an offset of a source: both its ends are between characters. -/
def Stands (source : Text) (start : Nat) (s : Text) : Prop := (Span.mk start (start + bytes s)).slice? source = some s

theorem In.stands (h : c.In source) {s : Text} (hs : s <+: c.rest) : Stands source c.pos s := by
  obtain ⟨r, hr⟩ := hs
  obtain ⟨u, hu, hp⟩ := h.eq_append
  rw [Stands, hu, ← hr, hp]
  exact Span.slice?_append u s r

theorem In.stands_current (h : c.In source) : Stands source c.current.start c.current.lexeme := by
  obtain ⟨g, d, e, hd, he, hstart⟩ := current_places c
  rw [← hstart]
  exact (h.past hd).stands ⟨e.rest, he.1.symm⟩

theorem In.skipGaps (h : c.In source) : c.skipGaps.In source :=
  h.past (s := c.rest.takeWhile isGap) ⟨takeWhile_append_dropWhile.symm, rfl⟩

theorem comment_starts (c : Cursor) : c.comment.1.body <+: c.advance.rest := by
  rw [comment]
  split
  next body r hb => exact ⟨_, (append_assoc ..).symm.trans (eq_of_breakOn? hb).symm⟩
  · exact prefix_rfl

theorem quotedValue_starts (c : Cursor) (quote : Char) (opened : Token) :
    (c.quotedValue quote opened).1.1 <+: c.rest := by
  rw [quotedValue]
  split
  next value r hb => exact ⟨_, (append_assoc ..).symm.trans (eq_of_breakOn? hb).symm⟩
  · exact prefix_rfl

/-- The place at which the value of an attribute starts: behind a quote, or at the next token. -/
def valueStart (c : Cursor) : Nat :=
  if c.kind = .doubleQuote ∨ c.kind = .singleQuote then c.advance.pos else c.skipGaps.pos

theorem In.stands_value (h : c.In source) : Stands source c.valueStart c.attributeValue.1.1 := by
  rw [attributeValue]
  split
  next hk =>
    rw [valueStart, if_pos (.inl hk)]
    exact h.advance.stands (quotedValue_starts _ _ _)
  next hk =>
    rw [valueStart, if_pos (.inr hk)]
    exact h.advance.stands (quotedValue_starts _ _ _)
  next hd hs =>
    rw [valueStart, if_neg (not_or_intro hd hs)]
    exact h.skipGaps.stands (List.take_prefix _ _)

end Slices

section Turns

theorem tracks_piece {p : Piece} (h : c.Tracks source) (hp : Piece.next c = some (p, d)) : d.Tracks source := by
  obtain ⟨-, ⟨-, hr⟩ | ⟨-, ht⟩⟩ := Piece.reaches_next hp
  · exact h.reaches ((reaches_advance c).trans hr)
  · obtain ⟨g, hg, hpast, -⟩ := readText_markup c
    rw [← ht] at hpast
    exact (h.reaches (reaches_advanceTo c _)).gap hg hpast

/-- Behind a text comes markup, so both together take a token. -/
theorem consumes_text {p q : Piece} (hne : beforeMarkup c.rest ≠ []) (hp : Piece.next c = some (p, d))
    (hq : Piece.next d = some (q, e)) : c.Consumes e := by
  obtain ⟨hk, hcases⟩ := Piece.reaches_next hq
  obtain ⟨g, hg, hpast, hmarkup⟩ := readText_markup c
  rw [← ((Piece.reaches_next hp).2.resolve_left fun h => hne h.1).2] at hpast hmarkup
  have hnil := beforeMarkup_of_startsMarkup (hmarkup.resolve_left hk).1
  obtain ⟨read, hread, hkind, htokens⟩ := consumes_of_advance hk (hcases.resolve_right fun h => h.1 hnil).2
  refine (reaches_advanceTo c (c.pos + bytes (beforeMarkup c.rest))).consumes ⟨read, hread, hkind, ?_⟩
  rw [tokens_congr (next_of_gaps hg hpast) hpast.last_eq, htokens]

theorem kind_of_tagItem (h : c.tagItem = none) : c.kind ∈ [Kind.tagClose, .selfClose, .endOfFile] := by
  rw [tagItem] at h
  split at h
  next hk => simp [hk]
  next hk => simp [hk]
  next hk => simp [hk]
  · dsimp only at h
    split at h <;> cases h
  · cases h

theorem kind_of_piece (h : Piece.next c = none) : c.kind = .endOfFile := by
  rw [Piece.next] at h
  split at h
  next hk => exact hk
  · split at h
    · split at h <;> cases h
    · cases h

theorem kind_of_section (h : Component.readSection c = none) : c.kind = .endOfFile := by
  rw [Component.readSection] at h
  split at h
  next hk => exact hk
  all_goals cases h

/-- What holds at a place that the parsers come to. What is cut out of the source there stands in it, every turn of a
loop takes a token, and skipping to the next markup leads to a token that opens markup. -/
structure Steady (source : Text) (c : Cursor) : Prop where
  tokens : c.tokens <:+ lex source
  token : Stands source c.current.start c.current.lexeme
  text : Stands source c.pos (beforeMarkup c.rest)
  comment : Stands source c.advance.pos c.comment.1.body
  value : Stands source c.valueStart c.attributeValue.1.1
  content : ∀ tag content, Component.content? tag c.rest = some content → Stands source c.pos content
  onward : ∀ d, c.Reaches d → d.Tracks source
  inward : ∀ items d, Run tagItem c items d → d.Tracks source
  skip : ∀ offset, (c.advanceTo offset).kind = .endOfFile ∨ offset ≤ (c.advanceTo offset).current.start
  markup : ∀ place, place = c.pos + bytes (beforeMarkup c.rest) → (c.advanceTo place).kind = .endOfFile ∨
    (c.advanceTo place).current.start = place ∧ (c.advanceTo place).kind ∈ [Kind.tagOpen, .closeOpen, .commentOpen]
  piece : beforeMarkup c.rest = [] → ∀ p d, Piece.next c = some (p, d) → c.Consumes d
  turn : beforeMarkup c.rest ≠ [] → ∀ p d q e, Piece.next c = some (p, d) → Piece.next d = some (q, e) → c.Consumes e
  item : ∀ i d, c.tagItem = some (i, d) → c.Consumes d
  items : c.tagItems.2.kind ∈ [Kind.tagClose, .selfClose, .endOfFile]
  blocks : ∀ x d, Component.readSection c = some (x, d) → c.Consumes d

theorem Tracks.steady (h : c.Tracks source) : c.Steady source where
  tokens := h.suffix
  token := h.inside.stands_current
  text := by
    obtain ⟨r, hr, -⟩ := beforeMarkup_spec c.rest
    exact h.inside.stands ⟨r, hr.symm⟩
  comment := h.inside.advance.stands (comment_starts c)
  value := h.inside.stands_value
  content := by
    intro tag content hcontent
    obtain ⟨w, hw⟩ := Component.content?_closing hcontent
    exact h.inside.stands ⟨_, hw.symm⟩
  onward := fun d => h.reaches
  inward := fun items d hr =>
    h.reaches (reaches_of_run (fun c _ _ hi => (reaches_advance c).trans (reaches_tagItem hi).2) hr)
  skip := advanceTo_stops c
  markup := by
    rintro place rfl
    exact resync c
  piece := by
    intro hnil p d hp
    obtain ⟨hk, hcases⟩ := Piece.reaches_next hp
    exact consumes_of_advance hk (hcases.resolve_right fun ht => ht.1 hnil).2
  turn := fun hne p d q e => consumes_text hne
  item := fun i d hi => consumes_of_advance (reaches_tagItem hi).1 (reaches_tagItem hi).2
  items := by
    refine kind_of_tagItem (step_exhaust (μ := fun c => c.rest.length) (fun c i d hi => ?_) (Nat.le_refl _))
    obtain ⟨s, hs, hp⟩ := past_tagItem hi
    exact hp.length_lt hs
  blocks := fun x d hx => consumes_of_advance (Component.reaches_readSection hx).1 (Component.reaches_readSection hx).2

/-- Templates and components are read to their ends. Each place on the way is one behind some tokens of the source, and
all is well there. -/
theorem parsers_progress (source : Text) : (exhaust Piece.next source.length (start source)).2.kind = .endOfFile ∧
      (exhaust Component.readSection source.length (start source)).2.kind = .endOfFile ∧
      (∀ pieces c, Run Piece.next (start source) pieces c → c.Tracks source) ∧
      (∀ sections c, Run Component.readSection (start source) sections c → c.Tracks source) ∧
      ∀ c : Cursor, c.Tracks source → c.Steady source := by
  refine ⟨?_, ?_, ?_, ?_, fun c => Tracks.steady⟩
  · exact kind_of_piece (step_exhaust Piece.length_lt_of_next (Nat.le_refl _))
  · refine kind_of_section (step_exhaust (μ := fun c => c.rest.length) (fun c x d hx => ?_) (Nat.le_refl _))
    obtain ⟨s, hs, hp⟩ := Component.past_readSection hx
    exact hp.length_lt hs
  · intro pieces c hr
    exact (hr.invariant (P := fun _ => True) (fun _ _ _ hc hp => ⟨trivial, tracks_piece hc hp⟩) (tracks_start source)).2
  · intro sections c hr
    refine (hr.invariant (P := fun _ => True) (fun c x d hc hx => ⟨trivial, ?_⟩) (tracks_start source)).2
    exact hc.reaches ((reaches_advance c).trans (Component.reaches_readSection hx).2)

end Turns

end ComponentConverter.Markup.Cursor
