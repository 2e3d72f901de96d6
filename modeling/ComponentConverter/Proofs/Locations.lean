import ComponentConverter.Conversion.Convert
import ComponentConverter.Proofs.SplitBlocks
import ComponentConverter.Proofs.TreeShape

namespace ComponentConverter

open List Markup

variable {tag : Tag} {e : Element} {children before nodes : List Node} {n : Node} {piece : Piece}

namespace Component

variable {source : Text} {c d : Cursor}

/-- The places of a block: its content is a part of the source, and its span is one as well. -/
structure BlockIn (source : Text) (b : Block) : Prop where
  span : b.span.IsRange source
  content : ∃ u w, source = u ++ (b.content ++ w) ∧ b.contentSpan = ⟨bytes u, bytes u + bytes b.content⟩

theorem BlockIn.contentSpan {b : Block} (h : BlockIn source b) : b.contentSpan.IsRange source := by
  obtain ⟨u, w, hs, hc⟩ := h.content
  rw [hc, hs]
  refine ⟨Nat.le_add_right _ _, ⟨u, _, rfl, rfl⟩, u ++ b.content, w, by simp, ?_⟩
  rw [bytes_append]

theorem Stands.blockIn {tag : Text} {b : Block} (h : Stands source tag b) : BlockIn source b := by
  obtain ⟨before, head, closing, after, hs, hspan, hcontent, -⟩ := h
  refine ⟨?_, before ++ head, closing ++ after, by rw [hs, append_assoc], by rw [hcontent, bytes_append]⟩
  rw [hspan, hs]
  refine ⟨?_, ⟨before, _, rfl, rfl⟩, before ++ (head ++ (b.content ++ closing)), after, by simp, ?_⟩
  · dsimp only
    omega
  · simp only [bytes_append]
    omega

theorem forall_ofSections {P : Fault → Prop} {xs : List Section} (hown : ∀ x ∈ xs, ∀ f ∈ x.faults, P f)
    (hrepeat : ∀ p ∈ xs.filterMap Section.block, P ⟨.duplicateBlock p.1, p.2.span⟩) (component : Component) :
    ∀ f ∈ (ofSections component xs).2, P f := by
  induction xs generalizing component with
  | nil => exact forall_mem_nil _
  | cons x xs ih =>
    obtain ⟨hx, hxs⟩ := forall_mem_cons.mp hown
    rw [ofSections]
    cases hb : x.block with
    | none =>
      rw [filterMap_cons_none hb] at hrepeat
      exact forall_mem_append.mpr ⟨forall_mem_append.mpr ⟨hx, forall_mem_nil _⟩, ih hxs hrepeat _⟩
    | some p =>
      rw [filterMap_cons_some hb] at hrepeat
      obtain ⟨hp, hrepeat⟩ := forall_mem_cons.mp hrepeat
      have hstore : ∀ f ∈ (component.store p.1 p.2).2, P f := by
        rw [store_snd]
        split
        · exact forall_mem_singleton.mpr hp
        · exact forall_mem_nil _
      exact forall_mem_append.mpr ⟨forall_mem_append.mpr ⟨hx, hstore⟩, ih hxs hrepeat _⟩

theorem parse_in (source : Text) :
    (∀ b ∈ (parse source).1.blocks, BlockIn source b) ∧ FaultsIn source (parse source).2 := by
  obtain ⟨hown, hstands, -⟩ := run_sound (run_sections source) (Cursor.in_start source)
  refine ⟨?_, forall_ofSections (fun x hx => (hown x hx).faultsIn) ?_ _⟩
  · rw [parse_fst]
    intro b hb
    obtain ⟨name, hm⟩ := exists_of_mem_blocks hb
    exact (hstands _ hm).1.blockIn
  · intro p hp
    exact (hstands p hp).1.blockIn.span

end Component

namespace Template

mutual

def Element.spans : Element → List Span
  | .mk tag children branches => tag.span :: (spansOfNodes children ++ spansOfBranches branches)

def spansOfNodes : List Node → List Span
  | [] => []
  | .element e :: ns => e.spans ++ spansOfNodes ns
  | .text _ span :: ns => span :: spansOfNodes ns
  | .comment _ span :: ns => span :: spansOfNodes ns

def spansOfBranches : List Element → List Span
  | [] => []
  | e :: es => e.spans ++ spansOfBranches es

end

variable {source : Text} {c d : Cursor}

def Element.In (source : Text) (e : Element) : Prop := ∀ s ∈ e.spans, s.IsRange source

def Node.In (source : Text) : Node → Prop
  | .element e => e.In source
  | .text _ span => span.IsRange source
  | .comment _ span => span.IsRange source

theorem forall_spansOfNodes (ns : List Node) : (∀ s ∈ spansOfNodes ns, s.IsRange source) ↔ ∀ n ∈ ns, n.In source := by
  induction ns with
  | nil => simp [spansOfNodes]
  | cons n ns ih =>
    cases n with
    | element e =>
      rw [spansOfNodes, forall_mem_append, ih, forall_mem_cons]
      rfl
    | text raw span | comment body span =>
      rw [spansOfNodes, forall_mem_cons, ih, forall_mem_cons]
      rfl

theorem Element.In.span (h : e.In source) : e.span.IsRange source := by
  cases e with
  | mk tag children branches => exact h _ mem_cons_self

theorem spansOfBranches_append (es : List Element) (b : Element) :
    spansOfBranches (es ++ [b]) = spansOfBranches es ++ b.spans := by
  induction es with
  | nil => simp [spansOfBranches]
  | cons e es ih => rw [cons_append, spansOfBranches, ih, spansOfBranches, append_assoc]

theorem Element.in_mk (ht : tag.span.IsRange source)
    (hc : ∀ n ∈ children, n.In source) : (Element.mk tag children []).In source := by
  intro s hs
  rw [Element.spans, spansOfBranches, append_nil] at hs
  rcases mem_cons.mp hs with rfl | hs
  · exact ht
  · exact (forall_spansOfNodes children).mpr hc s hs

theorem Element.in_addBranch {b : Element} (he : e.In source) (hb : b.In source) : (e.addBranch b).In source := by
  cases e with
  | mk tag children branches =>
    intro s hs
    rw [Element.addBranch, Element.spans, spansOfBranches_append, ← append_assoc, ← cons_append] at hs
    rcases mem_append.mp hs with hs | hs
    · exact he s hs
    · exact hb s hs

theorem faultsIn_textBetween (h : n.In source) : FaultsIn source (textBetween n) := by
  cases n with
  | element e => exact faultsIn_nil source
  | comment body span => exact faultsIn_nil source
  | text raw span =>
    rw [textBetween]
    split
    · exact faultsIn_nil source
    · exact faultsIn_cons.mpr ⟨h, faultsIn_nil source⟩

theorem settles_in : Settles (Node.In source) (Node.In source) :=
  ⟨fun _ h _ => h, fun _ _ h => h, fun _ _ he _ hb _ => Element.in_addBranch he hb⟩

theorem faultsIn_attachBranch {b : Element} (h : ∀ n ∈ before, n.In source)
    (hb : b.In source) : FaultsIn source (attachBranch before b).2 := by
  have hf : FaultsIn source ((before.takeWhile (!·.isElement)).flatMap textBetween) := by
    intro f hf
    obtain ⟨n, hn, hf⟩ := mem_flatMap.mp hf
    exact faultsIn_textBetween (h n ((takeWhile_sublist _).subset hn)) f hf
  have hmissing : ∀ cause, FaultsIn source [⟨cause, b.span⟩] := by
    intro cause
    exact faultsIn_cons.mpr ⟨hb.span, faultsIn_nil source⟩
  rw [attachBranch]
  split
  · split
    · exact hf
    · exact faultsIn_append.mpr ⟨hf, hmissing _⟩
  · exact faultsIn_append.mpr ⟨hf, hmissing _⟩

theorem faultsIn_addSibling {node : Node} (h : ∀ n ∈ before, n.In source)
    (hn : node.In source) : FaultsIn source (addSibling before node).2 := by
  cases node with
  | element e =>
    rw [addSibling]
    split
    · exact faultsIn_attachBranch h hn
    · exact faultsIn_nil source
  | text raw span =>
    rw [addSibling]
    split <;> exact faultsIn_nil source
  | comment body span => exact faultsIn_nil source

theorem faultsIn_addSiblings (h : ∀ n ∈ before, n.In source)
    (hn : ∀ n ∈ nodes, n.In source) : FaultsIn source (addSiblings before nodes).2 := by
  induction nodes generalizing before with
  | nil => exact faultsIn_nil source
  | cons node nodes ih =>
    obtain ⟨hnode, hnodes⟩ := forall_mem_cons.mp hn
    exact faultsIn_append.mpr ⟨faultsIn_addSibling h hnode, ih (forall_addSibling settles_in h hnode) hnodes⟩

theorem chainBranches_in (h : ∀ n ∈ nodes, n.In source) :
    (∀ n ∈ (chainBranches nodes).1, n.In source) ∧ FaultsIn source (chainBranches nodes).2 :=
  ⟨forall_chainBranches settles_in h, faultsIn_addSiblings (by simp) h⟩

def Piece.In (source : Text) (d : Cursor) : Piece → Prop
  | .text _ span => span.IsRange source
  | .comment note => note.span.IsRange source ∧ FaultsIn source note.faults
  | .opening _ start tag stop =>
    stop = d.pos ∧ Border source start ∧ start ≤ d.pos ∧ FaultsIn source tag.faults
  | .closing tag stop => stop = d.pos ∧ tag.span.IsRange source ∧ FaultsIn source tag.faults
  | .nameless fault => fault.span.IsRange source

theorem Piece.next_in (hc : c.In source) (h : Piece.next c = some (piece, d)) : piece.In source d ∧ d.In source := by
  obtain ⟨s, -, hp⟩ := Piece.past_next h
  refine ⟨?_, hc.past hp⟩
  cases Piece.next_cases h with
  | @comment r p hcursor =>
    subst hcursor
    have hk := Cursor.kind_of_next (Cursor.next_commentOpen r p)
    exact (comment_in (by simp [hk]) hc).imp_right OwnFaults.faultsIn
  | @closing x r p hx hcursor =>
    subst hcursor
    have hk := Cursor.kind_of_next (Cursor.next_closeOpen (x :: r) p)
    exact ⟨rfl, closingTag_isRange (by simp [hk]) hc, (ownFaults_closingTag hc).faultsIn⟩
  | @opening name r p _ _ hn hr hcursor ht =>
    obtain ⟨rfl, rfl⟩ := Prod.ext_iff.mp ht
    subst hcursor
    exact ⟨rfl, hc.border, hp.2 ▸ Nat.le_add_right _ _,
      (ownFaults_startTag (hc.past (Piece.past_tagName r p))).faultsIn⟩
  | nameless => exact hc.advance.current_isRange
  | text hk hne hr => exact ⟨Nat.le_add_right _ _, hc.border, hc.border_add hr⟩

namespace Build

/-- The places of all that has been read up to an offset. -/
structure In (source : Text) (pos : Nat) (b : Build) : Prop where
  opened : ∀ e ∈ b.opened, Border source e.start ∧ e.start ≤ pos ∧ ∀ n ∈ e.children, n.In source
  roots : ∀ n ∈ b.roots, n.In source
  faults : FaultsIn source b.faults

variable {pos : Nat} {b : Build}

theorem In.mono {pos' : Nat} (h : b.In source pos) (hle : pos ≤ pos') : b.In source pos' := by
  refine ⟨?_, h.roots, h.faults⟩
  intro e he
  obtain ⟨hb, hp, hc⟩ := h.opened e he
  exact ⟨hb, Nat.le_trans hp hle, hc⟩

theorem In.report (h : b.In source pos) {faults : List Fault} (hf : FaultsIn source faults) :
    (b.report faults).In source pos :=
  ⟨h.opened, h.roots, faultsIn_append.mpr ⟨h.faults, hf⟩⟩

theorem In.push (h : b.In source pos) (hn : n.In source) : (b.push n).In source pos := by
  obtain ⟨ho, hr⟩ := forall_push h.opened h.roots hn fun _ he =>
    ⟨he.1, he.2.1, forall_mem_cons.mpr ⟨hn, he.2.2⟩⟩
  exact ⟨ho, hr, (faults_push b n).symm ▸ h.faults⟩

theorem In.pushElement (h : b.In source pos) (ht : tag.span.IsRange source) (hc : ∀ n ∈ children, n.In source) :
    (b.pushElement tag children).In source pos := by
  have hfault : ∀ cause, FaultsIn source [⟨cause, tag.span⟩] := by
    intro cause
    exact faultsIn_cons.mpr ⟨ht, faultsIn_nil source⟩
  rw [Build.pushElement]
  split
  · exact h.report (hfault _)
  · refine In.push ?_ (Element.in_mk ht hc)
    split
    · split
      · exact h.report (hfault _)
      · exact h
    · exact h

theorem In.close (h : b.In source pos) {e : OpenElement} {outer : List OpenElement}
    (hb : b.opened = e :: outer) {closing : List Fault} (hf : FaultsIn source closing)
    (hpos : Border source pos) : (b.close e outer closing pos).In source pos := by
  have ho := h.opened
  rw [hb] at ho
  obtain ⟨⟨hstart, hle, hchildren⟩, houter⟩ := forall_mem_cons.mp ho
  have hreversed : ∀ n ∈ e.children.reverse, n.In source := by
    intro n hn
    exact hchildren n (mem_reverse.mp hn)
  obtain ⟨hall, hchained⟩ := chainBranches_in hreversed
  have hrest : In source pos { b with opened := outer } := ⟨houter, h.roots, h.faults⟩
  exact (hrest.report (faultsIn_append.mpr ⟨hchained, hf⟩)).pushElement ⟨hle, hstart, hpos⟩ hall

theorem faultsIn_mismatch {tag : ClosingTag} (h : tag.span.IsRange source) (e : OpenElement) :
    FaultsIn source (mismatch e tag) := by
  rw [mismatch]
  split
  · exact faultsIn_nil source
  · exact faultsIn_cons.mpr ⟨h, faultsIn_nil source⟩

theorem In.step (h : b.In source c.pos) (hle : c.pos ≤ d.pos) (hd : d.In source)
    (hp : piece.In source d) (keepComments : Bool) :
    (b.step keepComments (bytes source) piece).In source d.pos := by
  replace h := h.mono hle
  cases piece with
  | text raw span => exact h.push hp
  | comment note =>
    rw [Build.step]
    split
    · exact (h.report hp.2).push hp.1
    · exact h.report hp.2
  | nameless fault => exact h.report (faultsIn_cons.mpr ⟨hp, faultsIn_nil source⟩)
  | opening name start tag stop =>
    obtain ⟨rfl, hstart, hs, hf⟩ := hp
    have hspan : (Span.mk start d.pos).IsRange source := ⟨hs, hstart, hd.border⟩
    have hlast : (Span.mk start (bytes source)).IsRange source := ⟨hstart.le, hstart, source, [], by simp, rfl⟩
    rw [Build.step]
    cases tag.tagEnd with
    | opened =>
      dsimp only
      split
      · exact (h.report hf).pushElement hspan (by simp)
      · have hr := h.report hf
        refine ⟨forall_mem_cons.mpr ⟨⟨hstart, hs, ?_⟩, hr.opened⟩, hr.roots, hr.faults⟩
        simp
    | selfClosed => exact (h.report hf).pushElement hspan (by simp)
    | cutOff =>
      have hr := (h.report hf).report
        (faultsIn_cons.mpr ⟨hlast, faultsIn_nil source⟩ : FaultsIn source [⟨.unclosedTag name, _⟩])
      exact hr.pushElement hspan (by simp)
  | closing tag stop =>
    obtain ⟨rfl, hspan, hf⟩ := hp
    rw [Build.step]
    split
    · exact h.report (faultsIn_append.mpr ⟨hf, faultsIn_cons.mpr ⟨hspan, faultsIn_nil source⟩⟩)
    next e outer heq =>
      exact h.close heq (faultsIn_append.mpr ⟨hf, faultsIn_mismatch hspan e⟩) hd.border

theorem In.foldl {pieces : List Piece} (hr : Run Piece.next c pieces d) (hc : c.In source)
    (h : b.In source c.pos) (keepComments : Bool) :
    (pieces.foldl (Build.step keepComments (bytes source)) b).In source d.pos ∧ d.In source := by
  induction hr generalizing b with
  | done c => exact ⟨h, hc⟩
  | more hnext hr ih =>
    obtain ⟨s, -, hp⟩ := Piece.past_next hnext
    obtain ⟨hpiece, hd⟩ := Piece.next_in hc hnext
    exact ih hd (h.step hp.pos_le hd hpiece keepComments)

theorem In.finish (h : b.In source pos) (hpos : Border source pos) (es : List OpenElement) :
    (b.finish (bytes source) pos es).In source pos := by
  induction es generalizing b with
  | nil => exact h
  | cons e es ih =>
    rw [Build.finish]
    split
    · exact h
    next f outer heq =>
      have ho := h.opened f (by rw [heq]; exact mem_cons_self)
      refine ih (h.close heq (faultsIn_cons.mpr ⟨?_, faultsIn_nil source⟩) hpos)
      exact ⟨ho.1.le, ho.1, source, [], by simp, rfl⟩

theorem in_ofSource (source : Text) (keepComments : Bool) : ∃ pos, (ofSource source keepComments).In source pos := by
  have hrun : Run Piece.next (.start source) _ _ := run_exhaust source.length _
  obtain ⟨hb, hd⟩ := In.foldl (b := ⟨[], [], []⟩) hrun (Cursor.in_start source)
    ⟨by simp, by simp, faultsIn_nil source⟩ keepComments
  exact ⟨_, hb.finish hd.border _⟩

end Build

theorem faultsIn_selectRoot (h : ∀ n ∈ nodes, n.In source) (root : Option Element) :
    FaultsIn source (selectRoot root nodes).2 := by
  induction nodes generalizing root with
  | nil => exact faultsIn_nil source
  | cons n nodes ih =>
    obtain ⟨hn, hnodes⟩ := forall_mem_cons.mp h
    cases n with
    | element e =>
      cases root with
      | none => exact ih hnodes (some e)
      | some first => exact faultsIn_cons.mpr ⟨hn.span, ih hnodes (some first)⟩
    | text raw span =>
      refine faultsIn_append.mpr ⟨?_, ih hnodes root⟩
      split
      · exact faultsIn_nil source
      · exact faultsIn_cons.mpr ⟨hn, faultsIn_nil source⟩
    | comment body span => exact ih hnodes root

theorem parse_in (source : Text) (keepComments : Bool) : (∀ root ∈ (parse source keepComments).1, root.In source) ∧
      FaultsIn source (parse source keepComments).2 := by
  obtain ⟨pos, hb⟩ := Build.in_ofSource source keepComments
  have hroots : ∀ n ∈ (Build.ofSource source keepComments).roots.reverse, n.In source := by
    intro n hn
    exact hb.roots n (mem_reverse.mp hn)
  obtain ⟨hall, hchained⟩ := chainBranches_in hroots
  rw [parse_eq]
  dsimp only
  split
  · refine ⟨by simp, faultsIn_cons.mpr ⟨?_, faultsIn_nil source⟩⟩
    exact ⟨Nat.zero_le _, ⟨[], source, rfl, rfl⟩, source, [], by simp, rfl⟩
  · refine ⟨?_, faultsIn_append.mpr ⟨faultsIn_append.mpr ⟨hb.faults, hchained⟩, faultsIn_selectRoot hall none⟩⟩
    intro root hroot
    rcases selectRoot_mem hroot with h | h
    · simp at h
    · exact hall _ h

end Template

theorem Span.IsRange.move {s : Span} {t : Text} (h : s.IsRange t) (u w : Text) :
    (s.move (bytes u)).IsRange (u ++ (t ++ w)) ∧ (s.move (bytes u)).Within ⟨bytes u, bytes u + bytes t⟩ := by
  have hborder : ∀ n, Border t n → Border (u ++ (t ++ w)) (n + bytes u) := by
    rintro n ⟨a, b, rfl, rfl⟩
    exact ⟨u ++ a, b ++ w, by simp, by rw [bytes_append, Nat.add_comm]⟩
  have hle := h.stop.le
  refine ⟨⟨Nat.add_le_add_right h.ordered _, hborder _ h.start, hborder _ h.stop⟩, ?_, ?_⟩
  · rw [Span.move]
    dsimp only
    omega
  · rw [Span.move]
    dsimp only
    omega

namespace Conversion

variable {failure : Failure} {p : Svelte.Preferences} {b : Block}

theorem bind_eq_error {ε α β : Type} {x : Except ε α} {f : α → Except ε β} {e : ε}
    (h : (x >>= f) = .error e) : x = .error e ∨ ∃ a, x = .ok a ∧ f a = .error e := by
  cases x with
  | error e' => exact .inl (by simpa [bind, Except.bind] using h)
  | ok a => exact .inr ⟨a, rfl, h⟩

theorem onBlock_eq_error {α : Type} {missing : α} {f : Block → Except Failure (Noted α)}
    {block : Option Block} (h : onBlock missing f block = .error failure) :
    ∃ b ∈ block, f b = .error failure := by
  cases block with
  | none => simp [onBlock] at h
  | some b => exact ⟨b, rfl, h⟩

theorem convert_eq_error {source : Text} (h : convert p source = .error failure) :
    failure = .component (Component.parse source).2 ∨
      (∃ b ∈ (Component.parse source).1.script, scripts b = .error failure) ∨
      ∃ b ∈ (Component.parse source).1.template, template p b = .error failure := by
  rw [convert] at h
  split at h
  next component heq =>
    rw [heq]
    right
    rcases bind_eq_error h with h | ⟨_, -, h⟩
    · exact .inl (onBlock_eq_error h)
    · rcases bind_eq_error h with h | ⟨_, -, h⟩
      · exact .inr (onBlock_eq_error h)
      · simp [pure, Except.pure] at h
  next faults _ heq =>
    left
    rw [heq]
    exact (Except.error.inj h).symm

theorem scripts_eq_error (h : scripts b = .error failure) :
    (∃ issue, failure = .script issue) ∨ ∃ span, failure = .multipleDefaultExports span := by
  rcases bind_eq_error h with h | ⟨tree, -, h⟩
  · cases hp : Script.parse (afterMark b.content) (isTyped b.lang) with
    | error issue =>
      rw [hp] at h
      exact .inl ⟨_, (Except.error.inj h).symm⟩
    | ok tree =>
      rw [hp] at h
      cases h
  · dsimp only at h
    split at h
    · exact .inr ⟨_, (Except.error.inj h).symm⟩
    · simp [pure, Except.pure] at h

theorem template_eq_error (h : template p b = .error failure) :
    failure = .template ((Template.parse b.content p.comments).2.map
      fun f => { f with span := f.span.move b.contentSpan.start }) := by
  rw [template] at h
  split at h
  · simp at h
  next faults _ heq =>
    rw [heq]
    exact (Except.error.inj h).symm

theorem moved_faults_in {source : Text} (hb : Component.BlockIn source b) (keepComments : Bool) :
    ∀ f ∈ (Template.parse b.content keepComments).2.map
        fun f => { f with span := f.span.move b.contentSpan.start },
      f.span.IsRange source ∧ f.span.Within b.contentSpan := by
  obtain ⟨u, w, hs, hc⟩ := hb.content
  intro f hf
  obtain ⟨g, hg, rfl⟩ := mem_map.mp hf
  have hr := (Template.parse_in b.content keepComments).2 g hg
  rw [hs, hc]
  exact hr.move u w

theorem faults_of_convert {source : Text}
    (h : convert p source = .error failure) : ∀ f ∈ failure.faults, f.span.IsRange source := by
  obtain ⟨hblocks, hfaults⟩ := Component.parse_in source
  rcases convert_eq_error h with rfl | ⟨b, -, hb⟩ | ⟨b, hb, hfail⟩
  · exact hfaults
  · rcases scripts_eq_error hb with ⟨_, rfl⟩ | ⟨_, rfl⟩ <;> simp [Failure.faults]
  · have hin := hblocks b (by simp [Component.blocks, Option.mem_def.mp hb])
    rw [template_eq_error hfail]
    intro f hf
    exact (moved_faults_in hin p.comments f hf).1

/-- No place of a source that is not too long would be cut off. -/
theorem clamped_places {source : Text} (h : bytes source ≤ Span.limit) :
    ((∀ f ∈ (Component.parse source).2, Span.clamped f.span.start f.span.stop = f.span) ∧
        ∀ b ∈ (Component.parse source).1.blocks, Span.clamped b.contentSpan.start b.contentSpan.stop = b.contentSpan) ∧
      ∀ keepComments, (∀ f ∈ (Template.parse source keepComments).2, Span.clamped f.span.start f.span.stop = f.span) ∧
          ∀ root ∈ (Template.parse source keepComments).1, ∀ s ∈ root.spans, Span.clamped s.start s.stop = s := by
  obtain ⟨hblocks, hfaults⟩ := Component.parse_in source
  refine ⟨⟨fun f hf => (hfaults f hf).clamped_eq h, fun b hb => (hblocks b hb).contentSpan.clamped_eq h⟩, ?_⟩
  intro keepComments
  obtain ⟨hroot, hf⟩ := Template.parse_in source keepComments
  exact ⟨fun f hm => (hf f hm).clamped_eq h, fun root hr s hs => (hroot root hr s hs).clamped_eq h⟩

/-- Every place that is told of a source lies in it: those of the faults and blocks of a component,
those of the faults and nodes of a template, and those of the faults for which a conversion fails. A
template's faults are then told inside the content of its block, and every fault has a length. -/
theorem places_in_source (source : Text) : ((∀ f ∈ (Component.parse source).2, f.span.IsRange source) ∧
        ∀ b ∈ (Component.parse source).1.blocks, b.span.IsRange source ∧ b.contentSpan.IsRange source) ∧
      (∀ keepComments, (∀ f ∈ (Template.parse source keepComments).2, f.span.IsRange source) ∧
          ∀ root ∈ (Template.parse source keepComments).1, ∀ s ∈ root.spans, s.IsRange source) ∧
      ∀ p failure, convert p source = .error failure →
        (∀ f ∈ failure.faults, f.span.IsRange source ∧ f.span.length?.isSome) ∧ ∀ faults, failure = .template faults →
            ∃ b ∈ (Component.parse source).1.template, ∀ f ∈ faults, f.span.Within b.contentSpan := by
  obtain ⟨hblocks, hfaults⟩ := Component.parse_in source
  refine ⟨⟨hfaults, ?_⟩, ?_, ?_⟩
  · intro b hb
    exact ⟨(hblocks b hb).span, (hblocks b hb).contentSpan⟩
  · intro keepComments
    obtain ⟨hroot, hf⟩ := Template.parse_in source keepComments
    exact ⟨hf, hroot⟩
  · intro p failure h
    refine ⟨?_, ?_⟩
    · intro f hf
      have hr := faults_of_convert h f hf
      exact ⟨hr, by simp [Span.length?, hr.ordered]⟩
    · rintro faults rfl
      rcases convert_eq_error h with hc | ⟨b, -, hb⟩ | ⟨b, hb, hfail⟩
      · simp at hc
      · rcases scripts_eq_error hb with ⟨_, hs⟩ | ⟨_, hs⟩ <;> simp at hs
      · have hin := hblocks b (by simp [Component.blocks, Option.mem_def.mp hb])
        refine ⟨b, hb, ?_⟩
        rw [Failure.template.inj (template_eq_error hfail)]
        intro f hf
        exact (moved_faults_in hin p.comments f hf).2

/-- A closing tag that does not fit, behind a character of two bytes. -/
theorem places_in_source_mismatch :
    let source := "<template>\n<p>\u00e9<b></p></template>"
    let fault : Fault := ⟨.mismatchedClosingTag "b" "p", ⟨19, 23⟩⟩
    convert .standard source = .error (.template [fault, ⟨.unclosedTag "p", ⟨11, 23⟩⟩]) ∧ fault.span.IsRange source ∧
      ∃ b ∈ (Component.parse source).1.template, fault.span.Within b.contentSpan := by
  intro source fault
  have h : convert .standard source = .error (.template [fault, ⟨.unclosedTag "p", ⟨11, 23⟩⟩]) := by
    have hfailure : (match convert .standard source with | .error e => some e | .ok _ => none) =
        some (.template [fault, ⟨.unclosedTag "p", ⟨11, 23⟩⟩]) := by decide +kernel
    split at hfailure
    next he => rw [he, Option.some.inj hfailure]
    · simp at hfailure
  obtain ⟨hf, ht⟩ := (places_in_source source).2.2 .standard _ h
  obtain ⟨b, hb, hw⟩ := ht _ rfl
  exact ⟨h, (hf fault mem_cons_self).1, b, hb, hw fault mem_cons_self⟩

end Conversion

end ComponentConverter
