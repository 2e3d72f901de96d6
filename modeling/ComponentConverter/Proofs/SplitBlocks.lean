import ComponentConverter.Proofs.ComponentRoundTrip
import ComponentConverter.Proofs.MarkupPlaces
import Mathlib.Data.List.Pairwise

namespace ComponentConverter.Component

open List Markup

variable {source : Text} {c d : Cursor}
variable {tag t content : Text} {b : Block} {xs : List Section} {bs : List (Text × Block)}

/-- All blocks that are read from a source with their tags, whether they are stored or not. -/
def readBlocks (source : Text) : List (Text × Block) :=
  (exhaust readSection source.length (.start source)).1.filterMap Section.block

/-- A block as it stands in a source: behind its content comes its closing tag, unless the block is closed
by itself. -/
def Stands (source tag : Text) (b : Block) : Prop :=
  ∃ before head closing after, source = before ++ (head ++ (b.content ++ (closing ++ after))) ∧
    b.span = ⟨bytes before, bytes before + bytes head + bytes b.content + bytes closing⟩ ∧
    b.contentSpan = ⟨bytes before + bytes head, bytes before + bytes head + bytes b.content⟩ ∧
    (∃ gap rest, head = '<' :: (gap ++ (tag ++ rest)) ∧ ∀ c ∈ gap, isGap c = true) ∧
    (b.content = [] ∧ closing = [] ∨ ['<', '/'] <+: closing ∧ '<' :: '/' :: tag <+: closing ++ after)

theorem Stands.slice? (h : Stands source tag b) :
    b.contentSpan.slice? source = some b.content ∧ b.contentSpan.Within b.span := by
  obtain ⟨before, head, closing, after, hs, hspan, hcontent, -⟩ := h
  rw [hcontent, hspan]
  refine ⟨?_, Nat.le_add_right _ _, Nat.le_add_right _ _⟩
  rw [← bytes_append, hs, ← append_assoc]
  exact Span.slice?_append (before ++ head) b.content _

section Reading

theorem templateContent?_closing {depth : Nat}
    (h : templateContent? depth t = some content) : ∃ w, t = content ++ (templateClosing ++ w) := by
  induction t generalizing depth content with
  | nil => simp [templateContent?] at h
  | cons c t ih =>
    have hmap : ∀ n, (templateContent? n t).map (c :: ·) = some content →
        ∃ w, c :: t = content ++ (templateClosing ++ w) := by
      intro n hn
      obtain ⟨inner, hi, rfl⟩ := Option.map_eq_some_iff.mp hn
      obtain ⟨w, hw⟩ := ih hi
      exact ⟨w, congrArg (c :: ·) hw⟩
    rw [templateContent?.eq_def] at h
    dsimp only at h
    split at h
    next hclosing =>
      split at h
      · obtain rfl : [] = content := Option.some.inj h
        obtain ⟨w, hw⟩ := List.isPrefixOf_iff_prefix.mp hclosing
        exact ⟨w, hw.symm⟩
      · exact hmap _ h
    · split at h
      · exact hmap _ h
      · exact hmap _ h

theorem content?_closing (h : content? tag t = some content) : ∃ w, t = content ++ ('<' :: '/' :: tag ++ w) := by
  rw [content?] at h
  split at h
  next ht => exact ht ▸ templateContent?_closing h
  · obtain ⟨⟨s, r⟩, hb, rfl⟩ := Option.map_eq_some_iff.mp h
    exact ⟨r, (eq_of_breakOn? hb).trans (append_assoc ..)⟩

theorem next_of_kind {k : Kind} (hk : c.kind = k) (hne : k ≠ .endOfFile) :
    ∃ token d, c.next = some (token, d) ∧ token.kind = k :=
  ⟨_, _, Cursor.next_of_kind (hk ▸ hne), hk⟩

/-- No token straddles the start of a closing tag, so the tag is read from there. -/
theorem past_closingTag_content (h : c.rest = content ++ '<' :: '/' :: t) :
    ∃ s, c.Past (content ++ '<' :: '/' :: s) ((c.advanceTo (c.pos + bytes content)).closingTag).2 := by
  obtain ⟨rest, pos⟩ := c
  obtain rfl : rest = _ := h
  obtain ⟨u, g, rfl, hg, hto⟩ := Cursor.advanceTo_of_cut (p := pos) (Cursor.cut_of_head content ('/' :: t))
  have hnext := Cursor.next_lexeme (g := g) (s := ['<', '/']) (r := t) (k := .closeOpen) (p := pos + bytes u) hg
    (by rintro x ⟨⟩; rfl) rfl
  obtain ⟨s, hrest, hpos⟩ := (Cursor.reaches_closingTag ⟨g ++ (['<', '/'] ++ t), pos + bytes u⟩).past
  rw [Cursor.advance_of_next hnext] at hrest hpos
  rw [hto]
  refine ⟨s, ?_, ?_⟩
  · exact (congrArg (u ++ g ++ '<' :: '/' :: ·) hrest).trans (by simp)
  · rw [show g ++ '<' :: '/' :: t = g ++ (['<', '/'] ++ t) from rfl, hpos]
    simp only [bytes_append, bytes_cons, bytes_nil]
    omega

theorem stands_of_past {gap g rest : Text} (content closing : Text) (attributes : List Attribute)
    (hc : c.In source) (hgap : ∀ x ∈ gap, isGap x = true)
    (hp : c.Past (g ++ ('<' :: (gap ++ (tag ++ rest)) ++ (content ++ closing))) d)
    (hclosing : content = [] ∧ closing = [] ∨ ['<', '/'] <+: closing ∧ '<' :: '/' :: tag <+: closing ++ d.rest) :
    Stands source tag ⟨content, ⟨c.pos + bytes g + bytes ('<' :: (gap ++ (tag ++ rest))),
        c.pos + bytes g + bytes ('<' :: (gap ++ (tag ++ rest))) + bytes content⟩,
      attributes, ⟨c.pos + bytes g, d.pos⟩⟩ := by
  obtain ⟨u, hu, hpos⟩ := hc.eq_append
  refine ⟨u ++ g, '<' :: (gap ++ (tag ++ rest)), closing, d.rest, ?_, ?_, ?_, ⟨gap, rest, rfl, hgap⟩, hclosing⟩
  · rw [hu, hp.1]
    simp
  · rw [hp.2, hpos]
    simp only [bytes_append, Span.mk.injEq, true_and]
    omega
  · rw [hpos, bytes_append]

/-- A block is read where it stands, behind the cursor, which comes out right after it. -/
theorem readBlock_stands (hc : c.In source) (hk : c.kind = .tagOpen) (h : (readBlock c).1.block = some (tag, b)) :
    Stands source tag b ∧ c.pos ≤ b.span.start ∧ b.span.stop = (readBlock c).2.pos := by
  obtain ⟨bracket, named, hn, hbracket⟩ := next_of_kind hk (by decide)
  obtain ⟨g, hr, -, hstart, hpos, hspell⟩ := Cursor.next_eq_some hn
  rw [hbracket] at hspell
  rw [readBlock, Cursor.advance_of_next hn, Cursor.current_of_next hn] at h ⊢
  by_cases hname : named.kind = .name
  · obtain ⟨word, after, hw, -⟩ := next_of_kind hname (by decide)
    obtain ⟨gap, hr', hgap, hstart', hpos', -⟩ := Cursor.next_eq_some hw
    rw [if_pos hname, Cursor.advance_of_next hw, Cursor.current_of_next hw] at h ⊢
    obtain ⟨rest, hrest⟩ := (Cursor.reaches_startTag after).past
    generalize after.startTag = opening at h hrest ⊢
    have hinside : c.Past (g ++ '<' :: (gap ++ (word.lexeme ++ rest))) opening.2 := by
      refine ⟨?_, ?_⟩
      · rw [hr, show bracket.lexeme = ['<'] from hspell, hr', hrest.1]
        simp
      · rw [hrest.2, hpos', hstart', hpos, hstart, show bracket.lexeme = ['<'] from hspell]
        simp only [bytes_append, bytes_cons, bytes_nil]
        omega
    have hat : opening.2.pos = bracket.start + bytes ('<' :: (gap ++ (word.lexeme ++ rest))) := by
      rw [hinside.2, bytes_append, hstart, Nat.add_assoc]
    have hle : c.pos ≤ bracket.start := hstart ▸ Nat.le_add_right _ _
    cases he : opening.1.tagEnd with
    | cutOff => simp [he, unclosedBlock] at h
    | selfClosed =>
      simp only [he, Option.some.injEq, Prod.mk.injEq] at h ⊢
      obtain ⟨rfl, rfl⟩ := h
      refine ⟨?_, hle, rfl⟩
      have hs := stands_of_past [] [] opening.1.attributes hc hgap (by simpa using hinside) (.inl ⟨rfl, rfl⟩)
      rwa [← hstart, ← hat] at hs
    | opened =>
      simp only [he] at h ⊢
      cases hcontent : content? word.lexeme opening.2.rest with
      | none => simp [hcontent, unclosedBlock] at h
      | some content =>
        simp only [hcontent, Option.some.injEq, Prod.mk.injEq] at h ⊢
        obtain ⟨rfl, rfl⟩ := h
        refine ⟨?_, hle, rfl⟩
        obtain ⟨w, hw⟩ := content?_closing hcontent
        obtain ⟨s, hs⟩ := past_closingTag_content (t := word.lexeme ++ w) hw
        generalize (opening.2.advanceTo (opening.2.pos + bytes content)).closingTag = closing at hs ⊢
        have hp := stands_of_past content ('<' :: '/' :: s) opening.1.attributes hc hgap
          (by simpa using hinside.trans hs) (.inr ⟨⟨s, rfl⟩, w, ?_⟩)
        · rwa [← hstart, ← hat] at hp
        · have hrest := hw.symm.trans hs.1
          rw [append_assoc] at hrest
          exact append_cancel_left hrest
  · rw [if_neg hname] at h
    cases h

theorem readBlock_own (hk : c.kind ≠ .endOfFile) (hc : c.In source) : OwnFaults source (readBlock c).1.faults := by
  have hopening := ownFaults_startTag hc.advance.advance
  have hin := hc.advance.advance.startTag
  have hle : c.current.start ≤ c.advance.advance.startTag.2.pos := by
    obtain ⟨s, hs⟩ := ((Cursor.reaches_advance c.advance).trans (Cursor.reaches_startTag _)).past
    exact Cursor.current_le_of_past hk hs
  rw [readBlock]
  dsimp only
  generalize c.advance.advance.startTag = opening at hopening hin hle ⊢
  have hcut : ∀ tag, OwnFaults source (unclosedBlock tag c.current.start opening.1.faults opening.2).1.faults := by
    intro tag
    refine hopening.append (ownFaults_singleton ?_ (by simp))
    exact ⟨Nat.le_trans hle opening.2.pos_le_current_stop, hc.border_current, hin.border_current_stop⟩
  split
  · split
    · exact hcut _
    · exact hopening
    · split
      · exact hcut _
      · exact hopening.append (ownFaults_closingTag (hin.advanceTo _))
  · exact ownFaults_nil source

theorem readSection_sound (hc : c.In source) {x : Section} (h : readSection c = some (x, d)) :
    OwnFaults source x.faults ∧ ∀ p, x.block = some p →
      Stands source p.1 p.2 ∧ c.pos ≤ p.2.span.start ∧ p.2.span.stop = d.pos := by
  have hk : c.kind ≠ .endOfFile := by
    intro hk
    simp [readSection, hk] at h
  rw [readSection] at h
  split at h
  · cases h
  · obtain ⟨rfl, -⟩ := Prod.mk.inj (Option.some.inj h)
    exact ⟨(comment_in hk hc).2, by simp⟩
  next hopen =>
    obtain ⟨rfl, rfl⟩ := Prod.ext_iff.mp (Option.some.inj h)
    exact ⟨readBlock_own hk hc, fun p => readBlock_stands hc hopen⟩
  · obtain ⟨rfl, -⟩ := Prod.mk.inj (Option.some.inj h)
    exact ⟨ownFaults_nil source, by simp⟩

/-- The blocks of a run stand one behind the other, all of them behind the place that the run starts at. -/
theorem run_sound (h : Run readSection c xs d) (hc : c.In source) : (∀ x ∈ xs, OwnFaults source x.faults) ∧
      (∀ p ∈ xs.filterMap Section.block, Stands source p.1 p.2 ∧ c.pos ≤ p.2.span.start) ∧
      (xs.filterMap Section.block).Pairwise fun p q => p.2.span.stop ≤ q.2.span.start := by
  induction h with
  | done c => simp
  | @more c d e x xs hx hr ih =>
    obtain ⟨s, -, hpast⟩ := past_readSection hx
    obtain ⟨hown, hall, hpair⟩ := ih (hc.past hpast)
    obtain ⟨hx', hblock⟩ := readSection_sound hc hx
    have hrest : ∀ p ∈ xs.filterMap Section.block, Stands source p.1 p.2 ∧ c.pos ≤ p.2.span.start := by
      intro p hp
      exact ⟨(hall p hp).1, Nat.le_trans hpast.pos_le (hall p hp).2⟩
    refine ⟨forall_mem_cons.mpr ⟨hx', hown⟩, ?_⟩
    cases hb : x.block with
    | none =>
      rw [filterMap_cons_none hb]
      exact ⟨hrest, hpair⟩
    | some p =>
      obtain ⟨hstands, hle, hstop⟩ := hblock p hb
      rw [filterMap_cons_some hb]
      refine ⟨forall_mem_cons.mpr ⟨⟨hstands, hle⟩, hrest⟩, pairwise_cons.mpr ⟨?_, hpair⟩⟩
      intro q hq
      exact hstop ▸ (hall q hq).2

end Reading

section Storing

/-- The spans at which a further block with a tag is told of. -/
def repeats (tag : Text) (faults : List Fault) : List Span :=
  (faults.filter (·.cause == .duplicateBlock tag)).map Fault.span

theorem repeats_append (tag : Text) (fs gs : List Fault) :
    repeats tag (fs ++ gs) = repeats tag fs ++ repeats tag gs := by
  simp [repeats]

theorem repeats_own {faults : List Fault} (h : OwnFaults source faults) (tag : Text) : repeats tag faults = [] := by
  rw [repeats, filter_eq_nil_iff.mpr, map_nil]
  intro f hf hcause
  exact (h f hf).2 tag (beq_iff_eq.mp hcause)

def slot (c : Component) (tag : Text) : Option Block :=
  if tag = "template" then c.template else if tag = "script" then c.script else none

theorem store_snd (c : Component) (tag : Text) (block : Block) :
    (c.store tag block).2 = if (c.slot tag).isSome then [⟨.duplicateBlock tag, block.span⟩] else [] := by
  rw [store, slot]
  by_cases h1 : tag = "template"
  · rw [if_pos h1, if_pos h1]
    split <;> rfl
  rw [if_neg h1, if_neg h1]
  by_cases h2 : tag = "script"
  · rw [if_pos h2, if_pos h2]
    split <;> rfl
  rw [if_neg h2, if_neg h2]
  split <;> rfl

theorem repeats_store (c : Component) (name : Text) (block : Block) (tag : Text) :
    repeats tag (c.store name block).2 =
      if name = tag ∧ (c.slot tag).isSome = true then [block.span] else [] := by
  rw [store_snd]
  by_cases hn : name = tag
  · subst hn
    cases c.slot name <;> simp [repeats]
  · cases c.slot name <;> simp [repeats, hn]

theorem slot_withBlocks {tag : String} (h : tag ∈ ["template", "script"]) (c : Component) (bs : List (Text × Block)) :
    (c.withBlocks bs).slot tag.toList = (c.slot tag.toList).or (tagged tag bs).head? := by
  simp only [mem_cons, not_mem_nil, or_false] at h
  rcases h with rfl | rfl <;> rfl

theorem ofSections_fst (c : Component) (xs : List Section) :
    (ofSections c xs).1 = c.withBlocks (xs.filterMap Section.block) := by
  induction xs generalizing c with
  | nil => rw [filterMap_nil, withBlocks_nil, ofSections]
  | cons x xs ih =>
    rw [ofSections]
    rw [ih]
    cases hb : x.block with
    | none => rw [filterMap_cons_none hb]
    | some p => rw [filterMap_cons_some hb, ← singleton_append, withBlocks_append, store_fst]

/-- Of the blocks that count once, all but the first are told of. -/
theorem repeats_ofSections {tag : String} (h : ∀ x ∈ xs, repeats tag.toList x.faults = [])
    (ht : tag ∈ ["template", "script"]) (c : Component) :
    repeats tag.toList (ofSections c xs).2 =
      ((c.slot tag.toList).toList ++ tagged tag (xs.filterMap Section.block)).tail.map Block.span := by
  induction xs generalizing c with
  | nil => cases hs : c.slot tag.toList <;> simp [ofSections, repeats, tagged]
  | cons x xs ih =>
    obtain ⟨hx, hxs⟩ := forall_mem_cons.mp h
    rw [ofSections]
    rw [repeats_append, repeats_append, hx, nil_append, ih hxs]
    cases hb : x.block with
    | none => rw [filterMap_cons_none hb]; rfl
    | some p =>
      obtain ⟨name, block⟩ := p
      rw [filterMap_cons_some hb, ← singleton_append, tagged_append, store_fst, slot_withBlocks ht, repeats_store]
      by_cases hn : name = tag.toList
      · cases hs : c.slot tag.toList <;> simp [hn, tagged]
      · cases hs : c.slot tag.toList <;> simp [hn, tagged]

theorem repeats_ofSections_of_many {tag : String} (h : ∀ x ∈ xs, repeats tag.toList x.faults = [])
    (ht : tag ∉ ["template", "script"]) (c : Component) : repeats tag.toList (ofSections c xs).2 = [] := by
  have hslot : ∀ c : Component, c.slot tag.toList = none := by
    intro c
    simp only [mem_cons, not_mem_nil, or_false, not_or] at ht
    rw [slot, if_neg (ht.1 ∘ String.toList_injective), if_neg (ht.2 ∘ String.toList_injective)]
  induction xs generalizing c with
  | nil => rfl
  | cons x xs ih =>
    obtain ⟨hx, hxs⟩ := forall_mem_cons.mp h
    rw [ofSections]
    rw [repeats_append, repeats_append, hx, ih hxs]
    cases hb : x.block with
    | none => rfl
    | some p => simp [repeats_store, hslot]

end Storing

section Parsing

theorem ordered_tagged (h : bs.Pairwise fun p q => p.2.span.stop ≤ q.2.span.start)
    (tag : String) : (tagged tag bs).Pairwise fun a b => a.span.stop ≤ b.span.start :=
  pairwise_map.mpr (h.filter _)

/-- Of blocks that stand one behind the other, any choice by tags is apart. -/
theorem apart_withBlocks (h : bs.Pairwise fun p q => p.2.span.stop ≤ q.2.span.start) :
    (withBlocks ⟨none, none, []⟩ bs).blocks.Pairwise fun a b => a.span.Apart b.span := by
  have : Std.Symm fun p q : Text × Block => p.2.span.Apart q.2.span := ⟨fun _ _ => Span.Apart.symm⟩
  have hapart : bs.Pairwise fun p q => p.2.span.Apart q.2.span := h.imp Or.inl
  have htags : ∀ s t : String, s ≠ t → ∀ a ∈ tagged s bs, ∀ b ∈ tagged t bs, a.span.Apart b.span := by
    intro s t hst a ha b hb
    refine hapart.forall (mem_tagged.mp ha) (mem_tagged.mp hb) fun he => hst ?_
    exact String.toList_injective (Prod.mk.inj he).1
  have hfirst : ∀ tag, ∀ a ∈ (tagged tag bs).head?.toList, a ∈ tagged tag bs := fun tag a ha =>
    mem_of_head? (Option.mem_toList.mp ha)
  have hone : ∀ o : Option Block, o.toList.Pairwise fun a b => a.span.Apart b.span := by
    intro o
    cases o <;> simp
  refine pairwise_append.mpr ⟨pairwise_append.mpr ⟨hone _, hone _, ?_⟩, ?_, ?_⟩
  · intro a ha b hb
    exact htags "template" "script" (by decide) a (hfirst _ a ha) b (hfirst _ b hb)
  · exact (ordered_tagged h "style").imp Or.inl
  · intro a ha b hb
    rcases mem_append.mp ha with ha | ha
    · exact htags "template" "style" (by decide) a (hfirst _ a ha) b hb
    · exact htags "script" "style" (by decide) a (hfirst _ a ha) b hb

theorem run_sections (source : Text) : Run readSection (.start source)
    (exhaust readSection source.length (.start source)).1 (exhaust readSection source.length (.start source)).2 :=
  run_exhaust _ _

theorem parse_fst (source : Text) : (parse source).1 = withBlocks ⟨none, none, []⟩ (readBlocks source) :=
  ofSections_fst _ _

theorem repeats_parse (source : Text) (tag : String) : repeats tag.toList (parse source).2 =
      if tag ∈ ["template", "script"] then (tagged tag (readBlocks source)).tail.map Block.span else [] := by
  have hown := fun x hx => repeats_own ((run_sound (run_sections source) (Cursor.in_start source)).1 x hx) tag.toList
  split
  next ht =>
    have hslot : slot ⟨none, none, []⟩ tag.toList = none := by
      rw [slot, ite_self, ite_self]
    rw [parse, repeats_ofSections hown ht, hslot]
    rfl
  next ht => exact repeats_ofSections_of_many hown ht _

/-- Whatever the source is, the stored blocks are where they are said to be, apart from each other. The first
template, the first script and all style blocks are stored in the order that they stand in, and each further
template or script is told of once. -/
theorem split_sound (source : Text) : (∀ b ∈ (parse source).1.blocks,
      b.contentSpan.slice? source = some b.content ∧ b.contentSpan.Within b.span) ∧
      ((parse source).1.blocks.Pairwise fun a b => a.span.Apart b.span) ∧
      ((parse source).1.styles.Pairwise fun a b => a.span.stop ≤ b.span.start) ∧
      (parse source).1.template = (tagged "template" (readBlocks source)).head? ∧
      (parse source).1.script = (tagged "script" (readBlocks source)).head? ∧
      (parse source).1.styles = tagged "style" (readBlocks source) ∧
      (∀ tag : String, repeats tag.toList (parse source).2 =
        if tag ∈ ["template", "script"] then (tagged tag (readBlocks source)).tail.map Block.span else []) ∧
      (∀ p ∈ readBlocks source, Stands source p.1 p.2) ∧
      (readBlocks source).Pairwise fun p q => p.2.span.stop ≤ q.2.span.start := by
  obtain ⟨-, hstands, hordered⟩ := run_sound (run_sections source) (Cursor.in_start source)
  rw [parse_fst]
  refine ⟨?_, apart_withBlocks hordered, ?_, rfl, rfl, rfl, repeats_parse source, fun p hp => (hstands p hp).1,
    hordered⟩
  · intro b hb
    obtain ⟨name, hm⟩ := exists_of_mem_blocks hb
    exact (hstands _ hm).1.slice?
  · exact ordered_tagged hordered "style"

end Parsing

end ComponentConverter.Component
