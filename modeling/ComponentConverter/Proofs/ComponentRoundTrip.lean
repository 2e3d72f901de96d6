import ComponentConverter.Proofs.PieceReading
import ComponentConverter.Proofs.TemplateMarks

namespace ComponentConverter.Component

open List Markup

variable {g r : Text} {c d : Cursor} {bs bs' : List (Text × Block)} {sections : List Section}

structure RawBlock where
  tag : Text
  attributes : List Attribute
  content : Text

variable {b : RawBlock}

namespace RawBlock

def write (b : RawBlock) : Text :=
  '<' :: (b.tag ++ (writtenAttributes b.attributes ++ '>' ::
    (b.content ++ '<' :: '/' :: (b.tag ++ ['>']))))

/-- The end of the block is not mentioned in its content; in a template, neither is the start of
another one. -/
structure Writable (b : RawBlock) : Prop where
  tagName : Template.TagName b.tag
  attributes : ∀ a ∈ b.attributes, a.Writable
  nodup : (b.attributes.map Attribute.name).Nodup
  closing : ¬ ('<' :: '/' :: b.tag) <:+: b.content
  opening : b.tag = "template" → ¬ templateOpening <:+: b.content

theorem Writable.content?_eq (h : b.Writable) (r : Text) :
    content? b.tag (b.content ++ '<' :: '/' :: (b.tag ++ r)) = some b.content := by
  rw [content?]
  split
  next ht =>
    have hm : ¬ Mentions b.content := by
      rintro (hm | hm)
      · exact h.opening ht hm
      · exact h.closing (by rw [ht]; exact hm)
    have hmarks : marks b.content = [] := by
      have hn := marks_append_of_not_mentions hm severs_nil
      rwa [append_nil] at hn
    rw [ht]
    apply (templateContent?_eq_some_iff b.content r 0).mpr
    rw [hmarks]
    rfl
  · have hx : '<' ∉ '/' :: b.tag := by
      intro hm
      rcases mem_cons.mp hm with hm | hm
      · simp at hm
      · exact absurd (isPlain_of_isName h.tagName.isName _ hm) (by decide)
    have hb := breakOn?_headed hx h.closing r
    simp only [cons_append] at hb
    rw [cons_append, cons_append, nil_append, hb]
    rfl

def head (b : RawBlock) : Text := '<' :: (b.tag ++ (writtenAttributes b.attributes ++ ['>']))

def placed (b : RawBlock) (start : Nat) : Block :=
  ⟨b.content, ⟨start + bytes b.head, start + bytes b.head + bytes b.content⟩, b.attributes,
    ⟨start, start + bytes b.write⟩⟩

theorem write_eq (b : RawBlock) : b.write = b.head ++ (b.content ++ '<' :: '/' :: (b.tag ++ ['>'])) := by
  simp [write, head]

/-- A block that was written is read back, with no fault, from any source in which it stands. -/
theorem readSection_written (h : b.Writable) (hg : ∀ c ∈ g, isGap c = true) (r : Text) (p : Nat) :
    readSection ⟨g ++ (b.write ++ r), p⟩ =
      some (⟨some (b.tag, b.placed (p + bytes g)), []⟩, ⟨r, p + bytes g + bytes b.write⟩) := by
  obtain ⟨inner, hinner⟩ : ∃ t, t = b.content ++ '<' :: '/' :: (b.tag ++ '>' :: r) := ⟨_, rfl⟩
  obtain ⟨rest, hrest⟩ : ∃ t, t = writtenAttributes b.attributes ++ '>' :: inner := ⟨_, rfl⟩
  have hw : b.write ++ r = ['<'] ++ (b.tag ++ rest) := by
    simp [write, hrest, hinner]
  have hstops : Stops rest := by
    rw [hrest]
    cases b.attributes with
    | nil => rintro c ⟨⟩; rfl
    | cons a as => rintro c ⟨⟩; rfl
  have hopen := Cursor.next_lexeme (s := ['<']) (r := b.tag ++ rest) (p := p) hg
    (by rintro c ⟨⟩; rfl) (h.tagName.read_tagOpen rest)
  have hname := Cursor.next_name (g := []) (p := p + bytes g + bytes ['<']) (by simp)
    h.tagName.isName hstops
  have htag := Cursor.startTag_written h.attributes h.nodup inner
    (p + bytes g + bytes ['<'] + bytes b.tag)
  have hp : p + bytes g + bytes ['<'] + bytes b.tag + bytes (writtenAttributes b.attributes) + 1 =
      p + bytes g + bytes b.head := by
    simp only [head, bytes_cons, bytes_append, show Char.utf8Size '>' = 1 from rfl]
    omega
  obtain ⟨span, hclose⟩ := Cursor.closingTag_after h.tagName.isName b.content r
    (p + bytes g + bytes b.head)
  have hstop : p + bytes g + bytes b.head + bytes b.content + bytes b.tag + 3 = p + bytes g + bytes b.write := by
    simp only [write_eq, bytes_cons, bytes_append, bytes_nil, show Char.utf8Size '>' = 1 from rfl,
      show Char.utf8Size '<' = 1 from rfl, show Char.utf8Size '/' = 1 from rfl]
    omega
  rw [hp, ← hrest] at htag
  rw [nil_append, bytes_nil, Nat.add_zero] at hname
  rw [hw, readSection, Cursor.kind_of_next hopen]
  rw [readBlock, Cursor.current_of_next hopen, Cursor.advance_of_next hopen]
  dsimp only
  rw [if_pos (Cursor.kind_of_next hname), Cursor.current_of_next hname, Cursor.advance_of_next hname, htag]
  rw [hinner, h.content?_eq]
  dsimp only
  rw [hclose, hstop]
  rfl

theorem slice?_placed (b : RawBlock) (before after : Text) :
    (b.placed (bytes before)).contentSpan.slice? (before ++ (b.write ++ after)) = some b.content := by
  have hs := Span.slice?_append (before ++ b.head) b.content
    ('<' :: '/' :: (b.tag ++ ['>']) ++ after)
  rw [write_eq]
  simpa [placed] using hs

end RawBlock

section Separators

theorem readSection_separator {c : Char} {v : Text} (hc : isGap c = false)
    (hv : '<' ∉ c :: v) (hr : Cursor.Cut (c :: v) r) (hg : ∀ d ∈ g, isGap d = true) (p : Nat) :
    ∃ u w, c :: v = u ++ w ∧ u ≠ [] ∧ readSection ⟨g ++ (c :: v ++ r), p⟩ =
      some (⟨none, []⟩, ⟨w ++ r, p + bytes g + bytes u⟩) := by
  have hsolid : Cursor.Solid (c :: v ++ r) := by rintro d ⟨⟩; exact hc
  obtain ⟨⟨k, n⟩, hread⟩ : ∃ kn, Kind.read (c :: v ++ r) = some kn := by
    apply Option.ne_none_iff_exists'.mp
    intro h
    exact absurd (Kind.read_eq_none h) (by simp)
  have hspell : k.Spells ((c :: v ++ r).take n) := Kind.spells_read hc hread
  have hnext := Cursor.next_of_read (p := p) hg hsolid hread
  have hsplit := take_append_drop n (c :: v ++ r)
  generalize (c :: v ++ r).take n = u at hspell hnext hsplit
  generalize (c :: v ++ r).drop n = rest at hnext hsplit
  obtain ⟨w, hw, rfl⟩ : ∃ w, c :: v = u ++ w ∧ rest = w ++ r := by
    rcases append_eq_append_iff.mp hsplit with hin | ⟨y, rfl, hr'⟩
    · exact hin
    · obtain rfl := hr (c :: v) y rest k suffix_rfl (cons_ne_nil c v) hr' hspell
      exact ⟨[], by simp, hr'.symm⟩
  refine ⟨u, w, hw, hspell.ne_nil, ?_⟩
  have hlt : '<' ∉ u := fun hm => hv (hw ▸ mem_append_left w hm)
  rw [readSection, Cursor.kind_of_next hnext, Cursor.advance_of_next hnext]
  cases k with
  | commentOpen | tagOpen =>
    rw [show u = _ from hspell] at hlt
    simp at hlt
  | endOfFile => exact hspell.elim
  | _ => rfl

theorem run_separator (hr : r = [] ∨ ∃ t, r = '<' :: t) (s : Text) (hs : '<' ∉ s) (p : Nat) :
    ∃ u g sections, s = u ++ g ∧ (∀ c ∈ g, isGap c = true) ∧
      Run readSection ⟨s ++ r, p⟩ sections ⟨g ++ r, p + bytes u⟩ ∧ ∀ x ∈ sections, x = ⟨none, []⟩ := by
  induction hlen : s.length using Nat.strongRecOn generalizing s p with
  | ind n ih =>
    obtain ⟨g, v, rfl, hg, hv⟩ := Cursor.exists_gaps s
    cases v with
    | nil => exact ⟨[], g, [], by simp, hg, by simpa using .done _, by simp⟩
    | cons c v =>
      have hcv : '<' ∉ c :: v := fun hm => hs (mem_append_right g hm)
      have hcut : Cursor.Cut (c :: v) r := by
        rcases hr with rfl | ⟨t, rfl⟩
        · exact Cursor.cut_nil _
        · exact Cursor.cut_of_head _ t
      obtain ⟨u, w, huw, hu, hread⟩ := readSection_separator (hv c rfl) hcv hcut hg p
      have hlt : w.length < n := by
        have hpos := length_pos_iff.mpr hu
        rw [← hlen, huw, length_append, length_append]
        omega
      have hw : '<' ∉ w := fun hm => hcv (huw ▸ mem_append_right u hm)
      obtain ⟨u', g', sections, rfl, hg', hrun, hnone⟩ :=
        ih w.length hlt w hw (p + bytes g + bytes u) rfl
      refine ⟨g ++ u ++ u', g', ⟨none, []⟩ :: sections, by simp [huw], hg', ?_, ?_⟩
      · rw [bytes_append, bytes_append, ← Nat.add_assoc, ← Nat.add_assoc, append_assoc]
        exact .more hread hrun
      · simpa using hnone

end Separators

section Blocks

/-- The blocks, each with what stands behind it. -/
def writeBlocks : List (RawBlock × Text) → Text
  | [] => []
  | (b, gap) :: rest => b.write ++ (gap ++ writeBlocks rest)

def placedBlocks : Nat → List (RawBlock × Text) → List (Text × Block)
  | _, [] => []
  | p, (b, gap) :: rest =>
    (b.tag, b.placed p) :: placedBlocks (p + bytes b.write + bytes gap) rest

theorem writeBlocks_cases (blocks : List (RawBlock × Text)) :
    writeBlocks blocks = [] ∨ ∃ t, writeBlocks blocks = '<' :: t := by
  cases blocks with
  | nil => exact .inl rfl
  | cons b rest => exact .inr ⟨_, rfl⟩

/-- Sections in which nothing is wrong, with the blocks that they hold. -/
structure Splits (sections : List Section) (blocks : List (Text × Block)) : Prop where
  faultless : ∀ x ∈ sections, x.faults = []
  blocks_eq : sections.filterMap Section.block = blocks

theorem Splits.append {ss ss' : List Section} (h : Splits ss bs)
    (h' : Splits ss' bs') : Splits (ss ++ ss') (bs ++ bs') := by
  refine ⟨?_, by rw [filterMap_append, h.blocks_eq, h'.blocks_eq]⟩
  intro x hx
  rcases mem_append.mp hx with hx | hx
  · exact h.faultless x hx
  · exact h'.faultless x hx

theorem splits_of_none (h : ∀ x ∈ sections, x = ⟨none, []⟩) : Splits sections [] := by
  refine ⟨fun x hx => by rw [h x hx], filterMap_eq_nil_iff.mpr fun x hx => by rw [h x hx]⟩

theorem run_blocks {blocks : List (RawBlock × Text)} (hb : ∀ b ∈ blocks, b.1.Writable)
    (hs : ∀ b ∈ blocks, '<' ∉ b.2) (hg : ∀ c ∈ g, isGap c = true) (p : Nat) :
    ∃ sections g' q, (∀ c ∈ g', isGap c = true) ∧ Run readSection ⟨g ++ writeBlocks blocks, p⟩ sections ⟨g', q⟩ ∧
      Splits sections (placedBlocks (p + bytes g) blocks) := by
  induction blocks generalizing g p with
  | nil =>
    refine ⟨[], g, p, hg, ?_, splits_of_none (by simp)⟩
    simpa [writeBlocks] using .done _
  | cons bs rest ih =>
    obtain ⟨b, gap⟩ := bs
    obtain ⟨hbw, hbr⟩ := forall_mem_cons.mp hb
    obtain ⟨hgap, hsr⟩ := forall_mem_cons.mp hs
    have hread := RawBlock.readSection_written hbw hg (gap ++ writeBlocks rest) p
    obtain ⟨u, g', between, rfl, hg', hrun, hnone⟩ := run_separator (writeBlocks_cases rest) gap
      hgap (p + bytes g + bytes b.write)
    obtain ⟨sections, g'', q, hg'', hrest, hsplit⟩ := ih hbr hsr hg'
      (p + bytes g + bytes b.write + bytes u)
    refine ⟨_, g'', q, hg'', .more hread (hrun.trans hrest), ?_⟩
    have hfirst : Splits [⟨some (b.tag, b.placed (p + bytes g)), []⟩]
        [(b.tag, b.placed (p + bytes g))] := ⟨by simp, rfl⟩
    rw [placedBlocks, bytes_append, ← Nat.add_assoc]
    exact hfirst.append ((splits_of_none hnone).append hsplit)

end Blocks

section Progress

theorem reaches_readBlock (c : Cursor) : c.advance.Reaches (readBlock c).2 := by
  have hinside := (Cursor.reaches_advance c.advance).trans (Cursor.reaches_startTag _)
  rw [readBlock]
  dsimp only [unclosedBlock]
  generalize c.advance.advance.startTag = opening at hinside ⊢
  have hclosing := fun offset => hinside.trans (Cursor.reaches_advanceTo opening.2 offset)
  split
  · split
    · exact hclosing _
    · exact hinside
    · split
      · exact hclosing _
      · exact (hclosing _).trans ((Cursor.reaches_advance _).trans (Cursor.reaches_closingTag _))
  · exact .refl _

theorem reaches_readSection {x : Section} (h : readSection c = some (x, d)) :
    c.kind ≠ .endOfFile ∧ c.advance.Reaches d := by
  refine ⟨fun hk => by simp [readSection, hk] at h, ?_⟩
  rw [readSection] at h
  split at h
  · simp at h
  · simp only [Option.some.injEq, Prod.mk.injEq] at h
    rw [← h.2]
    exact Cursor.reaches_comment c
  · have hr := reaches_readBlock c
    rwa [Option.some.inj h] at hr
  · simp only [Option.some.injEq, Prod.mk.injEq] at h
    rw [← h.2]
    exact .refl _

theorem past_readSection {x : Section} (h : readSection c = some (x, d)) : ∃ s, s ≠ [] ∧ c.Past s d :=
  Cursor.past_of_advance (reaches_readSection h).1 (reaches_readSection h).2

theorem length_sections_le (h : Run readSection c sections d) : sections.length ≤ c.rest.length := by
  have hlt : ∀ c x d, readSection c = some (x, d) → d.rest.length < c.rest.length := by
    intro c x d h
    obtain ⟨s, hs, hp⟩ := past_readSection h
    exact hp.length_lt hs
  have hle := h.length_le hlt
  omega

end Progress

section Storing

def tagged (tag : String) (blocks : List (Text × Block)) : List Block :=
  (blocks.filter (·.1 == tag.toList)).map Prod.snd

theorem tagged_append (tag : String) (bs bs' : List (Text × Block)) :
    tagged tag (bs ++ bs') = tagged tag bs ++ tagged tag bs' := by
  simp [tagged]

/-- What a component becomes by some blocks, of which it lacks those that count once. -/
def withBlocks (c : Component) (blocks : List (Text × Block)) : Component :=
  ⟨c.template.or (tagged "template" blocks).head?, c.script.or (tagged "script" blocks).head?,
    c.styles ++ tagged "style" blocks⟩

theorem withBlocks_nil (c : Component) : c.withBlocks [] = c := by
  simp [withBlocks, tagged]

theorem withBlocks_append (c : Component) (bs bs' : List (Text × Block)) :
    c.withBlocks (bs ++ bs') = (c.withBlocks bs).withBlocks bs' := by
  simp [withBlocks, tagged_append, Option.or_assoc]

/-- There is room for some blocks: with those stored already, at most one is a template and at
most one a script. -/
def Fits (c : Component) (blocks : List (Text × Block)) : Prop :=
  c.template.toList.length + (tagged "template" blocks).length ≤ 1 ∧
    c.script.toList.length + (tagged "script" blocks).length ≤ 1

theorem store_fst (c : Component) (tag : Text) (block : Block) :
    (c.store tag block).1 = c.withBlocks [(tag, block)] := by
  obtain ⟨template, script, styles⟩ := c
  rw [store]
  by_cases h1 : tag = "template"
  · subst h1
    cases template <;> simp [withBlocks, tagged]
  by_cases h2 : tag = "script"
  · subst h2
    cases script <;> simp [withBlocks, tagged]
  by_cases h3 : tag = "style"
  · subst h3
    simp [withBlocks, tagged]
  · have h1' : (tag == "template") = false := by simpa using h1
    have h2' : (tag == "script") = false := by simpa using h2
    have h3' : (tag == "style") = false := by simpa using h3
    simp only [if_neg h1, if_neg h2, if_neg h3, withBlocks, tagged, filter_cons, h1', h2', h3']
    simp

theorem store_eq {c : Component} {tag : Text} {block : Block} (h : Fits c [(tag, block)]) :
    c.store tag block = (c.withBlocks [(tag, block)], []) := by
  refine Prod.ext (store_fst c tag block) ?_
  obtain ⟨template, script, styles⟩ := c
  obtain ⟨ht, hs⟩ := h
  rw [store]
  split
  next h1 => cases template <;> simp_all [tagged]
  · split
    next h2 => cases script <;> simp_all [tagged]
    · split <;> rfl

theorem Fits.step {c : Component} (h : Fits c (bs ++ bs')) : Fits c bs ∧ Fits (c.withBlocks bs) bs' := by
  obtain ⟨ht, hs⟩ := h
  rw [tagged_append, length_append] at ht hs
  have hor : ∀ (o : Option Block) (l : List Block), (o.or l.head?).toList.length ≤ o.toList.length + l.length := by
    intro o l
    cases o <;> cases l <;> simp
  have ht' := hor c.template (tagged "template" bs)
  have hs' := hor c.script (tagged "script" bs)
  refine ⟨⟨by omega, by omega⟩, ?_, ?_⟩
  · rw [withBlocks]
    dsimp only
    omega
  · rw [withBlocks]
    dsimp only
    omega

/-- At most one template and one script, those already stored among them, are stored without
fault. -/
theorem ofSections_splits {blocks : List (Text × Block)}
    (h : Splits sections blocks) {c : Component} (hf : Fits c blocks) :
    ofSections c sections = (c.withBlocks blocks, []) := by
  obtain ⟨hfault, rfl⟩ := h
  induction sections generalizing c with
  | nil => rw [filterMap_nil, withBlocks_nil, ofSections]
  | cons x rest ih =>
    obtain ⟨hx, hrest⟩ := forall_mem_cons.mp hfault
    rw [ofSections, hx]
    cases hb : x.block with
    | none =>
      rw [filterMap_cons_none hb] at hf ⊢
      simp [ih hrest hf]
    | some tb =>
      rw [filterMap_cons_some hb, ← singleton_append] at hf ⊢
      obtain ⟨hone, hmore⟩ := hf.step
      rw [withBlocks_append]
      simp [store_eq hone, ih hrest hmore]

end Storing

section Written

/-- A component to be written: blocks, with what stands before the first and after each. -/
structure RawComponent where
  lead : Text
  blocks : List (RawBlock × Text)

namespace RawComponent

def write (c : RawComponent) : Text := c.lead ++ writeBlocks c.blocks

def tagged (c : RawComponent) (tag : String) : List RawBlock := (c.blocks.map Prod.fst).filter (·.tag == tag.toList)

structure Writable (c : RawComponent) : Prop where
  lead : '<' ∉ c.lead
  blocks : ∀ b ∈ c.blocks, b.1.Writable
  separators : ∀ b ∈ c.blocks, '<' ∉ b.2
  template : (c.tagged "template").length ≤ 1
  script : (c.tagged "script").length ≤ 1

end RawComponent

def parts (b : Block) : Text × List Attribute := (b.content, b.attributes)

def RawBlock.parts (b : RawBlock) : Text × List Attribute := (b.content, b.attributes)

theorem parts_tagged_placed (tag : String) (lead : Text) (blocks : List (RawBlock × Text)) (p : Nat) :
    (tagged tag (placedBlocks p blocks)).map parts =
      ((RawComponent.mk lead blocks).tagged tag).map RawBlock.parts := by
  induction blocks generalizing p with
  | nil => rfl
  | cons bs rest ih =>
    obtain ⟨b, gap⟩ := bs
    have hi := ih (p + bytes b.write + bytes gap)
    rw [placedBlocks, ← singleton_append, tagged_append, map_append, hi]
    by_cases h : b.tag = tag.toList
    · simp [tagged, RawComponent.tagged, h, parts, RawBlock.parts, RawBlock.placed]
    · simp [tagged, RawComponent.tagged, h]

theorem slice?_placedBlocks {before : Text} {blocks : List (RawBlock × Text)} {tb : Text × Block}
    (h : tb ∈ placedBlocks (bytes before) blocks) :
    tb.2.contentSpan.slice? (before ++ writeBlocks blocks) = some tb.2.content := by
  induction blocks generalizing before with
  | nil => simp [placedBlocks] at h
  | cons bs rest ih =>
    obtain ⟨b, gap⟩ := bs
    rw [placedBlocks, mem_cons] at h
    rcases h with rfl | h
    · exact RawBlock.slice?_placed b before (gap ++ writeBlocks rest)
    · have hi := @ih (before ++ (b.write ++ gap)) (by
        rwa [bytes_append, bytes_append, ← Nat.add_assoc])
      simpa [writeBlocks] using hi

def blocks (c : Component) : List Block := c.template.toList ++ c.script.toList ++ c.styles

theorem mem_tagged {tag : String} {b : Block} : b ∈ tagged tag bs ↔ (tag.toList, b) ∈ bs := by
  simp only [tagged, mem_map, mem_filter, beq_iff_eq]
  constructor
  · rintro ⟨⟨name, b'⟩, ⟨hm, rfl⟩, rfl⟩
    exact hm
  · intro h
    exact ⟨_, ⟨h, rfl⟩, rfl⟩

theorem exists_of_mem_blocks {b : Block}
    (h : b ∈ (withBlocks ⟨none, none, []⟩ bs).blocks) : ∃ name, (name, b) ∈ bs := by
  have hhead : ∀ tag, b ∈ (tagged tag bs).head?.toList → ∃ name, (name, b) ∈ bs := by
    intro tag hb
    exact ⟨_, mem_tagged.mp (mem_of_head? (Option.mem_toList.mp hb))⟩
  simp only [blocks, nil_append, mem_append] at h
  rcases h with (h | h) | h
  · exact hhead _ h
  · exact hhead _ h
  · exact ⟨_, mem_tagged.mp h⟩

theorem isScoped_eq (b : Block) : b.isScoped = b.attributes.any (·.name == "scoped") := by
  rw [Block.isScoped, attribute?, Option.isSome_map, Bool.eq_iff_iff, find?_isSome, any_eq_true]

theorem fits_placed {c : RawComponent} (h : c.Writable) (p : Nat) :
    Fits ⟨none, none, []⟩ (placedBlocks p c.blocks) := by
  have hlen : ∀ tag, (tagged tag (placedBlocks p c.blocks)).length = (c.tagged tag).length := by
    intro tag
    have hm := congrArg List.length (parts_tagged_placed tag c.lead c.blocks p)
    simpa using hm
  refine ⟨?_, ?_⟩
  · rw [hlen]
    simpa using h.template
  · rw [hlen]
    simpa using h.script

theorem parse_eq_withBlocks {c : RawComponent} (h : c.Writable) :
    parse c.write = (withBlocks ⟨none, none, []⟩ (placedBlocks (bytes c.lead) c.blocks), []) := by
  obtain ⟨u, g, between, hlead, hg, hrun, hnone⟩ := run_separator (writeBlocks_cases c.blocks)
    c.lead h.lead 0
  obtain ⟨sections, g', q, hg', hrest, hsplit⟩ := run_blocks h.blocks h.separators hg (0 + bytes u)
  have hall := hrun.trans hrest
  have hsplits := (splits_of_none hnone).append hsplit
  have hp : 0 + bytes u + bytes g = bytes c.lead := by
    rw [hlead, bytes_append, Nat.zero_add]
  have hend : readSection ⟨g', q⟩ = none := by
    rw [readSection, Cursor.kind_eq_endOfFile_iff.mpr (Cursor.next_eq_none_iff.mpr hg')]
  rw [nil_append, hp] at hsplits
  rw [parse, Cursor.start, RawComponent.write, exhaust_eq_of_run hall hend (length_sections_le hall)]
  exact ofSections_splits hsplits (fits_placed h _)

/-- Splitting a written component gives back its template, its script and its style blocks, and
the span of each content covers it in the source. Of other blocks nothing is left. -/
theorem parse_component_written {c : RawComponent} (h : c.Writable) : ∃ component, parse c.write = (component, []) ∧
      component.template.map parts = (c.tagged "template").head?.map RawBlock.parts ∧
      component.script.map parts = (c.tagged "script").head?.map RawBlock.parts ∧
      component.styles.map (fun b => (parts b, b.isScoped)) = (c.tagged "style").map
          (fun b => (b.parts, b.attributes.any (·.name == "scoped"))) ∧
      ∀ b ∈ component.blocks, b.contentSpan.slice? c.write = some b.content := by
  have hparts := fun tag => parts_tagged_placed tag c.lead c.blocks (bytes c.lead)
  refine ⟨_, parse_eq_withBlocks h, ?_, ?_, ?_, ?_⟩
  · rw [withBlocks]
    rw [Option.none_or, ← head?_map, hparts, head?_map]
  · rw [withBlocks]
    dsimp only
    rw [Option.none_or, ← head?_map, hparts, head?_map]
  · have hs := congrArg (List.map fun q : Text × List Attribute =>
      (q, q.2.any (·.name == "scoped"))) (hparts "style")
    simpa [withBlocks, isScoped_eq, Function.comp_def, parts, RawBlock.parts] using hs
  · intro b hb
    obtain ⟨name, hm⟩ := exists_of_mem_blocks hb
    exact slice?_placedBlocks hm

/-- Markup in a script, a block with another tag and separators with quotes. -/
theorem parse_component_written_scoped : ∃ component,
    parse ("\n<template><p>a</p></template> \"\n<docs><p></docs>'" ++
        "<script lang=\"ts\">x = '<div>' < 3</script><style scoped=\"\">a > b</style>").toList =
        (component, []) ∧
      component.template.map parts = some ("<p>a</p>".toList, []) ∧
      component.script.map parts = some ("x = '<div>' < 3".toList, [⟨"lang".toList, "ts".toList⟩]) ∧
      component.styles.map (fun b => (parts b, b.isScoped)) = [(("a > b".toList, [⟨"scoped".toList, []⟩]), true)] ∧
      ∀ b ∈ component.blocks, b.contentSpan.slice?
        ("\n<template><p>a</p></template> \"\n<docs><p></docs>'" ++
          "<script lang=\"ts\">x = '<div>' < 3</script><style scoped=\"\">a > b</style>").toList =
        some b.content := by
  have ht : RawBlock.Writable ⟨"template".toList, [], "<p>a</p>".toList⟩ :=
    ⟨⟨rfl, by simp⟩, by simp, by simp, by decide +kernel, by decide +kernel⟩
  have hd : RawBlock.Writable ⟨"docs".toList, [], "<p>".toList⟩ :=
    ⟨⟨rfl, by simp⟩, by simp, by simp, by decide +kernel, by decide +kernel⟩
  have hs : RawBlock.Writable
      ⟨"script".toList, [⟨"lang".toList, "ts".toList⟩], "x = '<div>' < 3".toList⟩ :=
    ⟨⟨rfl, by simp⟩, by simp [Attribute.Writable]; decide, by simp, by decide +kernel, by decide +kernel⟩
  have hy : RawBlock.Writable ⟨"style".toList, [⟨"scoped".toList, []⟩], "a > b".toList⟩ :=
    ⟨⟨rfl, by simp⟩, by simp [Attribute.Writable]; decide, by simp, by decide +kernel, by decide +kernel⟩
  obtain ⟨c, hc⟩ : ∃ c : RawComponent, c = ⟨"\n".toList,
      [(⟨"template".toList, [], "<p>a</p>".toList⟩, " \"\n".toList), (⟨"docs".toList, [], "<p>".toList⟩, "'".toList),
        (⟨"script".toList, [⟨"lang".toList, "ts".toList⟩], "x = '<div>' < 3".toList⟩, []),
        (⟨"style".toList, [⟨"scoped".toList, []⟩], "a > b".toList⟩, [])]⟩ := ⟨_, rfl⟩
  have hw : ("\n<template><p>a</p></template> \"\n<docs><p></docs>'" ++
      "<script lang=\"ts\">x = '<div>' < 3</script><style scoped=\"\">a > b</style>").toList =
      c.write := by
    rw [hc]
    decide +kernel
  have hb : ∀ b ∈ c.blocks, b.1.Writable := by
    rw [hc]
    simp only [forall_mem_cons]
    exact ⟨ht, hd, hs, hy, by simp⟩
  have hp := parse_component_written (c := c)
    ⟨by rw [hc]; decide, hb, by rw [hc]; decide, by rw [hc]; decide, by rw [hc]; decide⟩
  rw [← hw] at hp
  rwa [hc] at hp

end Written

end ComponentConverter.Component
