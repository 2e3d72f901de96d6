import ComponentConverter.Proofs.Layout
import ComponentConverter.Proofs.TemplateEnd

namespace ComponentConverter.Markup

open List

/-- The mark at the end of a start tag. -/
def TagEnd.mark : TagEnd → Text
  | .opened => ['>']
  | .selfClosed => ['/', '>']
  | .cutOff => []

namespace Cursor

theorem startTag_past {c : Cursor} (h : c.startTag.1.tagEnd ≠ .cutOff) :
    ∃ inner, c.Past (inner ++ c.startTag.1.tagEnd.mark) c.startTag.2 := by
  obtain ⟨s, hs⟩ := (reaches_tagItems c).past
  rw [startTag] at h ⊢
  dsimp only at h ⊢
  split at h
  next hk =>
    obtain ⟨g, -, hg⟩ := past_mark hk (by decide) (s := ['>']) (fun _ hl => hl)
    refine ⟨s ++ g, ?_⟩
    rw [append_assoc]
    exact hs.trans hg
  next hk =>
    obtain ⟨g, -, hg⟩ := past_mark hk (by decide) (s := ['/', '>']) (fun _ hl => hl)
    refine ⟨s ++ g, ?_⟩
    rw [append_assoc]
    exact hs.trans hg
  · exact absurd rfl h

end Cursor

end ComponentConverter.Markup

namespace ComponentConverter.Template

open List Markup

/-- The start tag between two texts of a source: how it is written, and that it is read as these
attributes. -/
def OpenedBy (name : Text) (attributes : List Attribute) (tagEnd : TagEnd) (before head after : Text) : Prop :=
  TagName name ∧ ∃ inner, head = '<' :: (name ++ (inner ++ tagEnd.mark)) ∧
    (Markup.Cursor.mk (inner ++ (tagEnd.mark ++ after)) (bytes before + 1 + bytes name)).startTag =
      (⟨attributes, tagEnd, []⟩, ⟨after, bytes before + bytes head⟩)

def ClosedBy (name closing : Text) : Prop :=
  ∃ written gap, closing = '<' :: '/' :: (written ++ (gap ++ ['>'])) ∧
    sameLetters written name = true ∧ ∀ c ∈ gap, isGap c = true

/-- Texts and comments are as they stand in the source, white space but for its length. -/
def Node.Faithful (source : Text) : Node → Prop
  | .element _ => True
  | .text raw span => ∃ t, span.slice? source = some t ∧ raw = settled t
  | .comment body span => span.slice? source = some (commented body) ∧ ¬ ['-', '-', '>'] <:+: body

/-- The place of an element in its source. -/
inductive Element.Placed (source : Text) : Element → Prop
  | alone {tag : Tag} {branches : List Element} {tagEnd : TagEnd} {before head after : Text}
      (hsource : source = before ++ (head ++ after))
      (hopen : OpenedBy tag.name tag.attributes tagEnd before head after)
      (hend : tagEnd = .selfClosed ∨ tagEnd = .opened ∧ isVoid tag.name = true)
      (hspan : tag.span = ⟨bytes before, bytes before + bytes head⟩) :
      Placed source (.mk tag [] branches)
  | enclosing {tag : Tag} {children : List Node} {branches : List Element}
      {before head content closing after : Text}
      (hsource : source = before ++ (head ++ (content ++ (closing ++ after))))
      (hopen : OpenedBy tag.name tag.attributes .opened before head (content ++ (closing ++ after)))
      (hvoid : isVoid tag.name = false) (hclose : ClosedBy tag.name closing)
      (hspan : tag.span = ⟨bytes before, bytes before + bytes (head ++ (content ++ closing))⟩)
      (hlaid : Laid Covers (bytes before + bytes head) content (children.flatMap Node.chainSpans))
      (hfaithful : ∀ n ∈ children, n.Faithful source) :
      Placed source (.mk tag children branches)

mutual

def Element.elements : Element → List Element
  | .mk tag children branches =>
    .mk tag children branches :: (elementsOfNodes children ++ elementsOfBranches branches)

def elementsOfNodes : List Node → List Element
  | [] => []
  | .element e :: ns => e.elements ++ elementsOfNodes ns
  | .text _ _ :: ns => elementsOfNodes ns
  | .comment _ _ :: ns => elementsOfNodes ns

def elementsOfBranches : List Element → List Element
  | [] => []
  | e :: es => e.elements ++ elementsOfBranches es

end

theorem mem_elementsOfNodes {x : Element} {ns : List Node} :
    x ∈ elementsOfNodes ns ↔ ∃ e, Node.element e ∈ ns ∧ x ∈ e.elements := by
  induction ns with
  | nil => simp [elementsOfNodes]
  | cons n ns ih => cases n <;> simp [elementsOfNodes, ih, exists_or]

def Element.Sited (source : Text) (e : Element) : Prop := ∀ x ∈ e.elements, x.Placed source

def Node.Sited (source : Text) : Node → Prop
  | .element e => e.Sited source
  | _ => True

section Trees

variable {source : Text}

theorem elementsOfBranches_append (es : List Element) (b : Element) :
    elementsOfBranches (es ++ [b]) = elementsOfBranches es ++ b.elements := by
  induction es with
  | nil => simp [elementsOfBranches]
  | cons e es ih =>
    rw [cons_append, elementsOfBranches, ih, elementsOfBranches, append_assoc]

theorem Element.Placed.of_branches {tag : Tag} {children : List Node} {branches branches' : List Element}
    (h : (Element.mk tag children branches).Placed source) :
    (Element.mk tag children branches').Placed source := by
  cases h with
  | alone hsource hopen hend hspan => exact .alone hsource hopen hend hspan
  | enclosing hsource hopen hvoid hclose hspan hlaid hfaithful =>
    exact .enclosing hsource hopen hvoid hclose hspan hlaid hfaithful

theorem forall_elements_mk {P : Element → Prop} {tag : Tag} {children : List Node}
    (h : P (.mk tag children [])) (hc : ∀ e, Node.element e ∈ children → ∀ x ∈ e.elements, P x) :
    ∀ x ∈ (Element.mk tag children []).elements, P x := by
  intro x hx
  rw [Element.elements, elementsOfBranches, append_nil] at hx
  rcases mem_cons.mp hx with rfl | hx
  · exact h
  · obtain ⟨e, he, hx⟩ := mem_elementsOfNodes.mp hx
    exact hc e he x hx

theorem forall_elements_addBranch {P : Element → Prop} {e b : Element} (hp : P e → P (e.addBranch b))
    (he : ∀ x ∈ e.elements, P x) (hb : ∀ x ∈ b.elements, P x) : ∀ x ∈ (e.addBranch b).elements, P x := by
  cases e with
  | mk tag children branches =>
    intro x hx
    rw [Element.addBranch, Element.elements, elementsOfBranches_append, ← append_assoc] at hx
    rcases mem_cons.mp hx with rfl | hx
    · exact hp (he _ mem_cons_self)
    · rcases mem_append.mp hx with hx | hx
      · exact he x (mem_cons_of_mem _ hx)
      · exact hb x hx

theorem settles_sited : Settles (Node.Sited source) (Node.Sited source) where
  stay _ h _ := h
  blank _ _ _ := trivial
  addBranch e _ he _ hb _ := forall_elements_addBranch (by cases e; exact Element.Placed.of_branches) he hb

theorem faithful_of_laid {nodes : List Node} {u t w : Text} (h : Laid Node.KeptAt (bytes u) t nodes)
    (hs : source = u ++ (t ++ w)) : ∀ n ∈ nodes, n.Faithful source := by
  intro n hn
  obtain ⟨u', v, w', hs', hk⟩ := h.exists_place hs n hn
  cases n with
  | element e => trivial
  | text raw span => exact ⟨v, hk.2.slice?_eq hs', hk.1⟩
  | comment body span => exact ⟨hk.1 ▸ hk.2.2.slice?_eq hs', hk.2.1⟩

end Trees

section Pieces

/-- What a piece takes of the source between two cursors. A text at the very end may leave gaps. -/
def Piece.Takes (c d : Cursor) : Piece → Prop
  | .text raw span => Covers span c.pos raw ∧ (c.Past raw d ∨ Piece.next d = none)
  | .comment note =>
    c.Past (commented note.body) d ∧ ¬ ['-', '-', '>'] <:+: note.body ∧ note.span = ⟨c.pos, d.pos⟩
  | .opening name start tag stop =>
    start = c.pos ∧ stop = d.pos ∧ TagName name ∧ ∃ inner, c.Past ('<' :: (name ++ (inner ++ tag.tagEnd.mark))) d ∧
        (Markup.Cursor.mk (inner ++ (tag.tagEnd.mark ++ d.rest)) (c.pos + 1 + bytes name)).startTag = (tag, d)
  | .closing tag stop =>
    stop = d.pos ∧ ∃ gap, (∀ x ∈ gap, isGap x = true) ∧ c.Past ('<' :: '/' :: (tag.name ++ (gap ++ ['>']))) d
  | .nameless _ => False

variable {c d : Cursor} {x : Char} {piece : Piece}

theorem next_of_advanceTo_end (s : Text) (p : Nat) : Piece.next ((Cursor.mk s p).advanceTo (p + bytes s)) = none := by
  obtain ⟨u, g, -, hg, ha⟩ := Cursor.advanceTo_of_cut (p := p) (Cursor.cut_nil s)
  rw [append_nil] at ha
  rw [ha, append_nil, Piece.next, if_pos]
  exact Cursor.kind_eq_endOfFile_iff.mpr (Cursor.next_eq_none_iff.mpr hg)

theorem takes_readText {raw r : Text} (hne : raw ≠ []) (p : Nat) :
    (Piece.readText ⟨raw ++ r, p⟩ raw).1.Takes ⟨raw ++ r, p⟩ (Piece.readText ⟨raw ++ r, p⟩ raw).2 := by
  refine ⟨⟨hne, rfl⟩, ?_⟩
  rw [Piece.readText]
  dsimp only [Cursor.take]
  rw [drop_left, take_left]
  split
  next he =>
    obtain rfl : r = [] := isEmpty_iff.mp he
    right
    rw [append_nil]
    exact next_of_advanceTo_end raw p
  · exact .inl ⟨rfl, rfl⟩

theorem takes_comment (r : Text) (p : Nat)
    (hf : (Cursor.mk ('<' :: '!' :: '-' :: '-' :: r) p).comment.1.faults = []) :
    (Piece.comment (Cursor.mk ('<' :: '!' :: '-' :: '-' :: r) p).comment.1).Takes
      ⟨'<' :: '!' :: '-' :: '-' :: r, p⟩ (Cursor.mk ('<' :: '!' :: '-' :: '-' :: r) p).comment.2 := by
  have hopen := Cursor.next_commentOpen r p
  rw [Cursor.comment, Cursor.current_of_next hopen, Cursor.advance_of_next hopen] at hf ⊢
  cases hb : breakOn? ['-', '-', '>'] r with
  | none => simp [hb] at hf
  | some br =>
    obtain ⟨body, rest⟩ := br
    have hr := eq_of_breakOn? hb
    have hend := Cursor.advanceTo_after (body ++ ['-', '-']) rest (p + 4) (.inl rfl)
    have hp : p + 4 + bytes (body ++ ['-', '-']) + 1 = p + 4 + bytes body + 3 := by
      rw [bytes_append, show bytes ['-', '-'] = 2 from rfl]
      omega
    have ht : body ++ ['-', '-'] ++ '>' :: rest = r := by
      rw [hr]
      simp
    rw [hp, ht] at hend
    have hbytes : bytes (commented body) = bytes body + 7 := by
      rw [show commented body = ['<', '!', '-', '-'] ++ (body ++ ['-', '-', '>']) from rfl,
        bytes_append, bytes_append, show bytes ['<', '!', '-', '-'] = 4 from rfl,
        show bytes ['-', '-', '>'] = 3 from rfl]
      omega
    simp only [hend]
    refine ⟨⟨?_, ?_⟩, not_infix_of_breakOn? (by simp) hb, rfl⟩
    · simp [commented, hr]
    · dsimp only
      omega

theorem takes_closingTag (hx : x.isAlpha = true) (t : Text) (p : Nat)
    (hf : (Cursor.mk ('<' :: '/' :: x :: t) p).closingTag.1.faults = []) :
    (Piece.closing (Cursor.mk ('<' :: '/' :: x :: t) p).closingTag.1
        (Cursor.mk ('<' :: '/' :: x :: t) p).closingTag.2.pos).Takes
      ⟨'<' :: '/' :: x :: t, p⟩ (Cursor.mk ('<' :: '/' :: x :: t) p).closingTag.2 := by
  obtain ⟨l, r, hlr, -, -, hname, hk, hend⟩ := closingTag_faultless hx t p hf
  obtain ⟨g, hg, hmark⟩ := Cursor.past_mark hk (by decide) (s := ['>']) (fun _ hl => hl)
  have hl : (Cursor.mk ('<' :: '/' :: x :: t) p).Past ('<' :: '/' :: l) ⟨r, p + 2 + bytes l⟩ := by
    rw [hlr]
    refine ⟨rfl, ?_⟩
    rw [show bytes ('<' :: '/' :: l) = 1 + (1 + bytes l) from rfl]
    dsimp only
    omega
  refine ⟨rfl, g, hg, ?_⟩
  rw [hname, hend]
  exact hl.trans hmark

theorem takes_next (h : Piece.next c = some (piece, d)) (hf : piece.Faultless) : piece.Takes c d := by
  cases Piece.next_cases h with
  | comment hc =>
    subst hc
    exact takes_comment _ _ hf
  | closing hx hc =>
    subst hc
    exact takes_closingTag hx _ _ hf
  | @opening name r p _ _ hn hr hc ht =>
    obtain ⟨rfl, rfl⟩ := Prod.ext_iff.mp ht
    obtain ⟨inner, hinner⟩ := Cursor.startTag_past hf.2
    subst hc
    refine ⟨rfl, rfl, hn, inner, (Piece.past_tagName r p).trans hinner, ?_⟩
    rw [← append_assoc, ← hinner.1]
  | nameless => exact hf.elim
  | @text raw r hk hne hc hs =>
    obtain ⟨rest, p⟩ := c
    obtain rfl : rest = raw ++ r := hc
    exact takes_readText hne p

end Pieces

namespace Build

/-- The open elements of a build that has read a start of the source: each has its start tag there,
and its children so far lie in the text after it. -/
inductive Stacked (source : Text) : Text → List OpenElement → Prop
  | outside (past : Text) : Stacked source past []
  | inside {before head content after : Text} {e : OpenElement} {outer : List OpenElement}
      (houter : Stacked source before outer)
      (hsource : source = before ++ (head ++ (content ++ after)))
      (hopen : OpenedBy e.name e.attributes .opened before head (content ++ after))
      (hvoid : isVoid e.name = false) (hstart : e.start = bytes before)
      (hlaid : Laid Node.ReadAt (bytes before + bytes head) content e.children.reverse) :
      Stacked source (before ++ (head ++ content)) (e :: outer)

structure Sited (source : Text) (b : Build) : Prop where
  opened : ∀ e ∈ b.opened, ∀ n ∈ e.children, n.Sited source
  roots : ∀ n ∈ b.roots, n.Sited source

variable {source past v after : Text} {opened : List OpenElement} {b : Build} {n : Node}
  {tag : Tag} {children : List Node}

theorem Stacked.extend {e : OpenElement} {outer : List OpenElement} (h : Stacked source past (e :: outer))
    (hs : source = past ++ (v ++ after))
    (hc : ∀ p s, bytes past = p + bytes s → Laid Node.ReadAt p s e.children.reverse →
      Laid Node.ReadAt p (s ++ v) children.reverse) :
    Stacked source (past ++ v) ({ e with children } :: outer) := by
  cases h with
  | @inside before head content after' e outer houter hsource hopen hvoid hstart hlaid =>
    obtain rfl : after' = v ++ after := by
      rw [hsource] at hs
      simpa using hs
    have hin := @Stacked.inside source before head (content ++ v) after { e with children } outer houter
      (by simpa using hsource) (by simpa using hopen) hvoid hstart
      (hc _ _ (by rw [bytes_append, bytes_append, Nat.add_assoc]) hlaid)
    simpa using hin

theorem Stacked.filler (h : Stacked source past opened) (hs : source = past ++ (v ++ after))
    (hv : Filler v) : Stacked source (past ++ v) opened := by
  cases opened with
  | nil => exact .outside _
  | cons e outer => exact h.extend hs fun p s _ hlaid => hlaid.append_filler hv

theorem Stacked.push (h : Stacked source past b.opened) (hs : source = past ++ (v ++ after))
    (hn : n.ReadAt (bytes past) v) : Stacked source (past ++ v) (b.push n).opened := by
  obtain ⟨opened, roots, faults⟩ := b
  cases opened with
  | nil => exact .outside _
  | cons e outer =>
    refine h.extend hs fun p s hp hlaid => ?_
    rw [hp] at hn
    rw [reverse_cons]
    exact hlaid.concat hn

theorem Sited.push (h : b.Sited source) (hn : n.Sited source) : (b.push n).Sited source := by
  obtain ⟨ho, hr⟩ := forall_push h.opened h.roots hn fun _ he => forall_mem_cons.mpr ⟨hn, he⟩
  exact ⟨ho, hr⟩

def Reached (source : Text) (c : Cursor) (b : Build) : Prop :=
  ∃ past, source = past ++ c.rest ∧ c.pos = bytes past ∧ Stacked source past b.opened

variable {keepComments : Bool} {last : Nat} {c d : Cursor} {b' : Build}

theorem reached_of_past (hs : source = past ++ c.rest) (hpos : c.pos = bytes past) (hp : c.Past v d)
    (h : Stacked source (past ++ v) b.opened) : Reached source d b := by
  refine ⟨past ++ v, ?_, ?_, h⟩
  · rw [hs, hp.1, append_assoc]
  · rw [hp.2, hpos, bytes_append]

theorem covers_of_past (hpos : c.pos = bytes past) (hp : c.Past v d) (hne : v ≠ []) :
    Covers ⟨c.pos, d.pos⟩ (bytes past) v :=
  ⟨hne, by rw [hp.2, hpos]⟩

theorem opening_sited {name : Text} {start stop : Nat} {tag : StartTag} (h : b.Sited source)
    (hr : Reached source c b) (hf : (Piece.opening name start tag stop).Faultless)
    (ht : (Piece.opening name start tag stop).Takes c d)
    (ha : b.Advance keepComments (.opening name start tag stop) b') : b'.Sited source ∧ Reached source d b' := by
  obtain ⟨past, hs, hpos, hst⟩ := hr
  obtain ⟨rfl, rfl, hname, inner, hp, htag⟩ := ht
  have hs' := hs
  rw [hp.1] at hs'
  have hopen : OpenedBy name tag.attributes tag.tagEnd past ('<' :: (name ++ (inner ++ tag.tagEnd.mark)))
      d.rest := by
    refine ⟨hname, inner, rfl, ?_⟩
    rw [← hpos, htag, ← hp.2, ← hf.1]
  have hspan := covers_of_past hpos hp (by simp)
  cases ha with
  | childless hend =>
    have halone : tag.tagEnd = .selfClosed ∨ tag.tagEnd = .opened ∧ isVoid name = true := by
      cases htagEnd : tag.tagEnd with
      | cutOff => exact absurd htagEnd hf.2
      | selfClosed => exact .inl rfl
      | opened => exact .inr ⟨rfl, by simpa [htagEnd] using hend⟩
    exact ⟨h.push (forall_elements_mk (.alone hs' hopen halone hspan.2) (by simp)),
      reached_of_past hs hpos hp (hst.push hs' ⟨rfl, hspan⟩)⟩
  | enters hend =>
    refine ⟨⟨forall_mem_cons.mpr ⟨by simp, h.opened⟩, h.roots⟩, reached_of_past hs hpos hp ?_⟩
    rw [hend.1] at hopen
    have hin := @Stacked.inside source past _ [] d.rest ⟨name, tag.attributes, c.pos, []⟩ b.opened
      hst (by rw [hs', hend.1]; rfl) hopen hend.2 hpos (.done .nil)
    rwa [append_nil, ← hend.1] at hin

theorem closing_sited {tag : ClosingTag} {stop : Nat} (h : b.Sited source)
    (hr : Reached source c b) (ht : (Piece.closing tag stop).Takes c d)
    (ha : b.Advance keepComments (.closing tag stop) b') : b'.Sited source ∧ Reached source d b' := by
  obtain ⟨past, hs, hpos, hst⟩ := hr
  obtain ⟨rfl, gap, hgap, hp⟩ := ht
  generalize hclosing : '<' :: '/' :: (tag.name ++ (gap ++ ['>'])) = closing at hp
  cases ha with
  | @leaves _ _ e outer ho hname hchained =>
    obtain ⟨opened, roots, faults⟩ := b
    subst ho
    obtain ⟨he, hrest⟩ := forall_mem_cons.mp h.opened
    cases hst with
    | @inside before head content after _ _ houter hsource hopen hvoid hstart hlaid =>
      have hkept := laid_chainBranches hlaid hchained
      obtain rfl : after = closing ++ d.rest := by
        rw [hsource, hp.1] at hs
        simpa using hs
      have hspan : Covers ⟨e.start, d.pos⟩ (bytes before) (head ++ (content ++ closing)) := by
        refine ⟨by simp [← hclosing], ?_⟩
        rw [hstart, hp.2, hpos]
        simp only [bytes_append, Nat.add_assoc]
      have hplaced : (Element.mk ⟨e.name, e.attributes, ⟨e.start, d.pos⟩⟩
          (chainBranches e.children.reverse).1 []).Placed source := by
        refine .enclosing hsource hopen hvoid ⟨tag.name, gap, hclosing.symm, hname, hgap⟩ hspan.2 ?_ ?_
        · exact hkept.flatMap (fun n p v hk => hk.chainSpans_laid)
        · rw [← bytes_append] at hkept
          exact faithful_of_laid hkept (by rw [hsource, append_assoc])
      have hchildren : ∀ n ∈ (chainBranches e.children.reverse).1, n.Sited source := by
        apply forall_chainBranches settles_sited
        intro n hn
        exact he n (mem_reverse.mp hn)
      have hwhole : source = before ++ (head ++ (content ++ closing) ++ d.rest) := by
        rw [hsource]
        simp
      refine ⟨Sited.push ⟨hrest, h.roots⟩ (forall_elements_mk hplaced fun e he => hchildren _ he),
        reached_of_past hs hpos hp ?_⟩
      rw [append_assoc, append_assoc]
      exact Stacked.push houter hwhole ⟨rfl, hspan⟩

/-- One step: what has been read keeps its place, and so does the new piece. -/
theorem step_sited {piece : Piece} (h : b.Sited source) (hr : Reached source c b) (hf : piece.Faultless)
    (ht : piece.Takes c d) (ha : b.Advance keepComments piece b') :
    b'.Sited source ∧ (Piece.next d ≠ none → Reached source d b') := by
  cases piece with
  | text raw span =>
    obtain ⟨past, hs, hpos, hst⟩ := hr
    obtain ⟨hspan, hp⟩ := ht
    cases ha
    refine ⟨h.push trivial, fun hnext => ?_⟩
    replace hp := hp.resolve_right hnext
    rw [hpos] at hspan
    exact reached_of_past hs hpos hp (hst.push (hp.1 ▸ hs) ⟨rfl, hspan⟩)
  | comment note =>
    obtain ⟨past, hs, hpos, hst⟩ := hr
    obtain ⟨hp, hbody, hspan⟩ := ht
    cases ha with
    | kept =>
      refine ⟨h.push trivial, fun _ => reached_of_past hs hpos hp (hst.push (hp.1 ▸ hs) ⟨rfl, hbody, ?_⟩)⟩
      exact hspan ▸ covers_of_past hpos hp (by simp [commented])
    | passed => exact ⟨h, fun _ => reached_of_past hs hpos hp (hst.filler (hp.1 ▸ hs) (.of_comment hbody))⟩
  | opening name start tag stop => exact (opening_sited h hr hf ht ha).imp_right fun hreached _ => hreached
  | closing tag stop => exact (closing_sited h hr ht ha).imp_right fun hreached _ => hreached
  | nameless fault => exact ht.elim

/-- All pieces of a run. A text that does not reach its cursor is the last one. -/
theorem foldl_sited {pieces : List Piece} (hrun : Run Piece.next c pieces d) (h : b.Sited source)
    (hr : pieces ≠ [] → Reached source c b) (hf : (pieces.foldl (step keepComments last) b).faults = []) :
    (pieces.foldl (step keepComments last) b).Sited source := by
  induction hrun generalizing b with
  | done c => exact h
  | @more c d' _ piece pieces hnext hrest ih =>
    rw [foldl_cons] at hf ⊢
    obtain ⟨hstep, -⟩ := faultless_of_foldl hf
    obtain ⟨-, hpiece, ha⟩ := advance_of_step hstep
    obtain ⟨hsited, hreached⟩ := step_sited h (hr (by simp)) hpiece (takes_next hnext hpiece) ha
    apply ih hsited _ hf
    intro hne
    apply hreached
    cases hrest with
    | done => exact absurd rfl hne
    | more hmore _ => simp [hmore]

theorem ofSource_sited (h : (ofSource source keepComments).faults = []) :
    ∀ n ∈ (ofSource source keepComments).roots, n.Sited source := by
  obtain ⟨hf, ho⟩ := faultless_of_finish h
  have hempty : ((Piece.all source).1.foldl (step keepComments (bytes source)) ⟨[], [], []⟩).opened = [] :=
    or_self_iff.mp ho
  have hrun : Run Piece.next (.start source) (Piece.all source).1 _ := run_exhaust source.length _
  have hsited := foldl_sited hrun ⟨by simp, by simp⟩
    (fun _ => ⟨[], rfl, rfl, .outside []⟩) hf
  rw [ofSource, hempty]
  exact hsited.roots

end Build

theorem parse_sited {source : Text} {keepComments : Bool} {root : Element}
    (h : parse source keepComments = (some root, [])) : root.Sited source := by
  have hf : (parse source keepComments).2 = [] := congrArg Prod.snd h
  have hroots := Build.ofSource_sited (Build.ofSource_faultless hf)
  apply forall_chainBranches settles_sited _ _ (root_mem_of_parse (congrArg Prod.fst h))
  intro n hn
  exact hroots n (mem_reverse.mp hn)

/-- In a template without faults each element stands where its span says: from its start tag to
its closing tag, its children and their branches between them, with nothing but white space and
comments beside those. -/
theorem elements_placed {source : Text} {keepComments : Bool} (h : (parse source keepComments).2 = []) :
    ∃ root, parse source keepComments = (some root, []) ∧ ∀ e ∈ root.elements, e.Placed source := by
  obtain ⟨root, hroot⟩ := parse_root_of_faultless h
  exact ⟨root, hroot, parse_sited hroot⟩

/-- A chain whose branch has been moved, with white space and a comment before the branch. -/
theorem elements_placed_chain :
    let source := "<ul><li v-if='a'>x</li> <!-- or --> <li v-else><br></li></ul>"
    (parse source true).2 = [] ∧
      ∃ root, parse source true = (some root, []) ∧ ∀ e ∈ root.elements, e.Placed source := by
  intro source
  have h : (parse source true).2 = [] := by decide +kernel
  exact ⟨h, elements_placed h⟩

end ComponentConverter.Template
