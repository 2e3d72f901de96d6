import ComponentConverter.Proofs.KeptComments
import ComponentConverter.Proofs.LiteralContent
import ComponentConverter.Proofs.WordSpacing

namespace ComponentConverter.Svelte

open List Template

variable {raw : Text} {root : Element}

/-- Rows that cannot be told apart by what is around them. -/
structure Agree (s t : List Stretch) : Prop where
  spacing : ∀ apart, spacing apart s = spacing apart t
  after : ∀ apart, apartAfter apart s = apartAfter apart t

namespace Agree

variable {s t u v : List Stretch}

theorem refl (s : List Stretch) : Agree s s := ⟨fun _ => rfl, fun _ => rfl⟩

theorem symm (h : Agree s t) : Agree t s := ⟨fun a => (h.spacing a).symm, fun a => (h.after a).symm⟩

theorem trans (h : Agree s t) (k : Agree t u) : Agree s u :=
  ⟨fun a => (h.spacing a).trans (k.spacing a), fun a => (h.after a).trans (k.after a)⟩

theorem append (h : Agree s t) (k : Agree u v) : Agree (s ++ u) (t ++ v) where
  spacing a := by rw [spacing_append, spacing_append, h.spacing, h.after, k.spacing]
  after a := by rw [apartAfter_append, apartAfter_append, h.after, k.after]

end Agree

def Inkless (s : List Stretch) : Prop := s.filterMap Stretch.ink? = []

theorem Inkless.spacing {s : List Stretch} (h : Inkless s) (apart : Bool) : spacing apart s = [] := by
  rw [Inkless, ← map_fst_spacing apart] at h
  exact map_eq_nil_iff.mp h

theorem Inkless.agree_edge {s : List Stretch} (h : Inkless s) (t t' : Text) (r : List Stretch) :
    Agree (s ++ .edge t :: r) (.edge t' :: r) where
  spacing a := by
    rw [spacing_append, h.spacing]
    rfl
  after a := by
    rw [apartAfter_append]
    rfl

theorem agree_edges (r : List Stretch) : Agree (.edge [] :: .edge [] :: r) (.edge [] :: r) :=
  ⟨fun _ => rfl, fun _ => rfl⟩

section Trees

def rowOfText (raw : Text) : List Stretch := (textParts raw).flatMap Stretch.ofPart

mutual

/-- The row of a tree; content that raw content takes the place of is left out. -/
def rowOfElement : Element → List Stretch
  | .mk tag children branches =>
    .edge [] :: ((if tag.html.isSome then [] else rowOfNodes children) ++ .edge [] :: rowOfBranches branches)

def rowOfNodes : List Node → List Stretch
  | [] => []
  | .element e :: ns => rowOfElement e ++ rowOfNodes ns
  | .text raw _ :: ns => rowOfText raw ++ rowOfNodes ns
  | .comment body _ :: ns => .note body :: rowOfNodes ns

def rowOfBranches : List Element → List Stretch
  | [] => []
  | e :: es => rowOfElement e ++ rowOfBranches es

end

theorem rowOfNodes_nil : rowOfNodes [] = [] := rfl

theorem rowOfNodes_element (e : Element) (ns : List Node) :
    rowOfNodes (.element e :: ns) = rowOfElement e ++ rowOfNodes ns := rfl

theorem rowOfNodes_text (raw : Text) (span : Span) (ns : List Node) :
    rowOfNodes (.text raw span :: ns) = rowOfText raw ++ rowOfNodes ns := rfl

theorem rowOfNodes_append (ns ms : List Node) : rowOfNodes (ns ++ ms) = rowOfNodes ns ++ rowOfNodes ms := by
  induction ns with
  | nil => rfl
  | cons n ns ih => cases n <;> simp [rowOfNodes, ih]

theorem rowOfBranches_append (es : List Element) (e : Element) :
    rowOfBranches (es ++ [e]) = rowOfBranches es ++ rowOfElement e := by
  induction es with
  | nil => simp [rowOfBranches]
  | cons x es ih => simp [rowOfBranches, ih]

theorem rowOfElement_addBranch (e b : Element) : rowOfElement (e.addBranch b) = rowOfElement e ++ rowOfElement b := by
  cases e with
  | mk tag children branches => simp [Element.addBranch, rowOfElement, rowOfBranches_append]

theorem exists_rowOfElement (e : Element) : ∃ r, rowOfElement e = .edge [] :: r := by
  cases e with
  | mk tag children branches => exact ⟨_, by rw [rowOfElement]⟩

theorem rowOfText_blank (h : isBlank raw = true) : rowOfText raw = Stretch.ofPart (.literal raw) := by
  rw [rowOfText, textParts, split?_blank h]
  exact append_nil _

theorem inkless_blank (h : isBlank raw = true) : Inkless (rowOfText raw) := by
  rw [Inkless, ← map_fst_spacing true, rowOfText_blank h,
    spacing_of_blank (plain_ofPart _) (by rw [text_ofPart]; exact h)]
  rfl

theorem apartAfter_rowOfText (apart : Bool) (h : isBlank raw = true) (hne : raw ≠ []) :
    apartAfter apart (rowOfText raw) = true := by
  rw [rowOfText_blank h]
  exact (apartAfter_static apart hne).trans (endsBlank_of_isBlank h hne)

theorem agree_blank {raw' : Text} (h : isBlank raw = true) (hne : raw ≠ []) (h' : isBlank raw' = true)
    (hne' : raw' ≠ []) : Agree (rowOfText raw) (rowOfText raw') where
  spacing a := by rw [(inkless_blank h).spacing, (inkless_blank h').spacing]
  after a := by rw [apartAfter_rowOfText a h hne, apartAfter_rowOfText a h' hne']

theorem inkless_asides {ns : List Node} (h : ∀ n ∈ ns, n.isAside = true) : Inkless (rowOfNodes ns) := by
  induction ns with
  | nil => rfl
  | cons n ns ih =>
    obtain ⟨hn, hns⟩ := forall_mem_cons.mp h
    have ih := ih hns
    rw [Inkless] at ih ⊢
    cases n with
    | element e => cases hn
    | text raw span =>
      have htext : (rowOfText raw).filterMap Stretch.ink? = [] := inkless_blank hn
      rw [rowOfNodes_text, filterMap_append, htext, ih]
      rfl
    | comment body span => exact ih

end Trees

section Siblings

def Filled : Node → Prop
  | .text raw _ => raw ≠ []
  | _ => True

variable {before nodes : List Node}

theorem element_or_not (n : Node) : (∃ e, n = .element e) ∨ n.isElement = false := by
  cases n with
  | element e => exact .inl ⟨e, rfl⟩
  | text raw span | comment body span => exact .inr rfl

theorem isAside_of_textBetween {n : Node} (hn : n.isElement = false) (h : textBetween n = []) : n.isAside = true := by
  cases n with
  | element e => cases hn
  | comment body span => rfl
  | text raw span =>
    rw [textBetween] at h
    split at h
    next hb => exact hb
    · simp at h

theorem agree_attachBranch {b : Element} (h : (attachBranch before b).2 = []) :
    Agree (rowOfNodes (attachBranch before b).1.reverse) (rowOfNodes before.reverse ++ rowOfElement b) := by
  induction before with
  | nil => simp [attachBranch] at h
  | cons n before ih =>
    rcases element_or_not n with ⟨e, rfl⟩ | hn
    · simp only [attachBranch, Node.isElement, Bool.not_true, Bool.false_eq_true, not_false_eq_true,
        takeWhile_cons_of_neg, dropWhile_cons_of_neg] at h ⊢
      split at h
      next ho =>
        simp only [ho, if_true, reverse_cons, rowOfNodes_append, rowOfNodes_element,
          rowOfNodes_nil, append_nil, rowOfElement_addBranch, append_assoc]
        exact .refl _
      · simp at h
    · rw [attachBranch_cons hn] at h ⊢
      obtain ⟨htext, hrest⟩ := append_eq_nil_iff.mp h
      refine (ih hrest).trans ?_
      -- What stands between the element and its branch leaves no trace.
      obtain ⟨r, hr⟩ := exists_rowOfElement b
      have haside : Inkless (rowOfNodes [n]) :=
        inkless_asides (forall_mem_singleton.mpr (isAside_of_textBetween hn htext))
      rw [reverse_cons, rowOfNodes_append, append_assoc, hr]
      exact (Agree.refl _).append (haside.agree_edge [] [] r).symm

theorem agree_addSibling {n : Node} (hn : Filled n) (h : (addSibling before n).2 = []) :
    Agree (.edge [] :: rowOfNodes (addSibling before n).1.reverse)
      (.edge [] :: (rowOfNodes before.reverse ++ rowOfNodes [n])) := by
  cases n with
  | comment body span =>
    rw [addSibling, reverse_cons, rowOfNodes_append]
    · exact .refl _
    · simp
    · simp
  | element e =>
    rw [addSibling] at h ⊢
    apply (Agree.refl [Stretch.edge []]).append
    by_cases hb : e.tag.guard.isBranch = true
    · rw [if_pos hb] at h ⊢
      rw [rowOfNodes_element, rowOfNodes_nil, append_nil]
      exact agree_attachBranch h
    · rw [if_neg hb, reverse_cons, rowOfNodes_append]
      exact .refl _
  | text raw span =>
    rw [addSibling]
    by_cases hb : isBlank raw = true
    · rw [if_pos hb]
      cases before with
      | nil =>
        -- White space behind an edge changes nothing.
        rw [rowOfNodes_text, rowOfNodes_nil, append_nil]
        exact ⟨fun a => ((inkless_blank hb).spacing true).symm, fun a => (apartAfter_rowOfText true hb hn).symm⟩
      | cons m before =>
        have hblank : Agree (rowOfText [' ']) (rowOfText raw) := agree_blank rfl (cons_ne_nil _ _) hb hn
        simp only [isEmpty_cons, Bool.false_eq_true, if_false, reverse_cons, rowOfNodes_append,
          rowOfNodes_text, rowOfNodes_nil, append_nil]
        exact (Agree.refl (_ :: _)).append hblank
    · rw [if_neg hb, reverse_cons, rowOfNodes_append]
      exact .refl _

theorem agree_addSiblings (hn : ∀ n ∈ nodes, Filled n) (h : (addSiblings before nodes).2 = []) :
    Agree (.edge [] :: rowOfNodes (addSiblings before nodes).1.reverse)
      (.edge [] :: (rowOfNodes before.reverse ++ rowOfNodes nodes)) := by
  induction nodes generalizing before with
  | nil =>
    rw [rowOfNodes_nil, append_nil]
    exact .refl _
  | cons n nodes ih =>
    obtain ⟨hn, hnodes⟩ := forall_mem_cons.mp hn
    obtain ⟨hsibling, hrest⟩ := append_eq_nil_iff.mp h
    have hstep := (agree_addSibling hn hsibling).append (.refl (rowOfNodes nodes))
    have hcons : rowOfNodes (n :: nodes) = rowOfNodes [n] ++ rowOfNodes nodes := rowOfNodes_append [n] nodes
    refine (ih hnodes hrest).trans ?_
    rwa [cons_append, cons_append, append_assoc, ← hcons] at hstep

theorem agree_chainBranches (hn : ∀ n ∈ nodes, Filled n) (h : (chainBranches nodes).2 = []) :
    Agree (.edge [] :: (rowOfNodes (chainBranches nodes).1 ++ [.edge []]))
      (.edge [] :: (rowOfNodes nodes ++ [.edge []])) := by
  have hall := (@agree_addSiblings [] nodes hn h).append (.refl [.edge []])
  have hsplit : (addSiblings [] nodes).1.reverse = (chainBranches nodes).1 ++
      ((addSiblings [] nodes).1.takeWhile Node.isBlank).reverse := by
    rw [chainBranches, ← reverse_append, takeWhile_append_dropWhile]
  have hblank : Inkless (rowOfNodes ((addSiblings [] nodes).1.takeWhile Node.isBlank).reverse) := by
    refine inkless_asides fun n hmem => ?_
    have hn := all_eq_true.mp all_takeWhile n (mem_reverse.mp hmem)
    cases n with
    | text raw span => exact hn
    | element e | comment body span => cases hn
  rw [hsplit, rowOfNodes_append] at hall
  refine Agree.trans ?_ hall
  rw [cons_append, append_assoc]
  exact (Agree.refl (_ :: _)).append (hblank.agree_edge [] [] []).symm

end Siblings

section Pieces

/-- How many elements are open from the outermost one with raw content on, behind the start of an
element. -/
def deeper (html : Bool) (hidden : Nat) : Nat := if hidden = 0 then html.toNat else hidden + 1

theorem deeper_eq_zero_iff {html : Bool} {hidden : Nat} : deeper html hidden = 0 ↔ html = false ∧ hidden = 0 := by
  cases hidden <;> cases html <;> simp [deeper]

theorem deeper_sub_one (html : Bool) (hidden : Nat) : deeper html hidden - 1 = hidden := by
  cases hidden <;> cases html <;> rfl

def hasHtml (attributes : List Markup.Attribute) : Bool := (Markup.attribute? attributes "v-html").isSome

/-- The row of a piece. Nothing is written of the content of an element with raw content. -/
def rowOfPiece (hidden : Nat) : Piece → List Stretch
  | .text raw _ => if hidden = 0 then rowOfText raw else []
  | .comment note => if hidden = 0 then [.note note.body] else []
  | .opening _ _ _ _ | .closing _ _ => [.edge []]
  | .nameless _ => []

def hiddenAfter (hidden : Nat) : Piece → Nat
  | .opening name _ tag _ =>
    if tag.tagEnd = .opened ∧ isVoid name = false then deeper (hasHtml tag.attributes) hidden else hidden
  | .closing _ _ => hidden - 1
  | _ => hidden

def rowOfPieces : Nat → List Piece → List Stretch
  | _, [] => []
  | hidden, piece :: pieces => rowOfPiece hidden piece ++ rowOfPieces (hiddenAfter hidden piece) pieces

/-- The words of a source, with the white space between them. -/
def sourceSpacing (source : Text) : List (Template.Part × Bool) := spacing true (rowOfPieces 0 (Piece.all source).1)

theorem filled_text {c d : Markup.Cursor} {span : Span} (h : Piece.next c = some (.text raw span, d)) : raw ≠ [] := by
  obtain ⟨⟨hne, -⟩, -⟩ := takes_next h trivial
  exact hne

end Pieces

section Builds

def hiddenDepth : List OpenElement → Nat
  | [] => 0
  | e :: outer => deeper (hasHtml e.attributes) (hiddenDepth outer)

def rowOfOpened : List OpenElement → List Stretch
  | [] => []
  | e :: outer =>
    rowOfOpened outer ++ .edge [] :: (if hiddenDepth (e :: outer) = 0 then rowOfNodes e.children.reverse else [])

def rowOfBuild (b : Build) : List Stretch := rowOfNodes b.roots.reverse ++ rowOfOpened b.opened

structure AllFilled (b : Build) : Prop where
  opened : ∀ e ∈ b.opened, ∀ n ∈ e.children, Filled n
  roots : ∀ n ∈ b.roots, Filled n

variable {b b' : Build} {n : Node} {piece : Piece} {keepComments : Bool} {last : Nat}

theorem hiddenDepth_push (b : Build) (n : Node) : hiddenDepth (b.push n).opened = hiddenDepth b.opened := by
  obtain ⟨opened, roots, faults⟩ := b
  cases opened <;> rfl

theorem rowOfBuild_push (b : Build) (n : Node) :
    rowOfBuild (b.push n) = rowOfBuild b ++ (if hiddenDepth b.opened = 0 then rowOfNodes [n] else []) := by
  obtain ⟨opened, roots, faults⟩ := b
  cases opened with
  | nil => simp [Build.push, rowOfBuild, rowOfOpened, hiddenDepth, rowOfNodes_append]
  | cons e outer =>
    rw [rowOfBuild, rowOfBuild, append_assoc]
    dsimp only [Build.push]
    rw [rowOfOpened, rowOfOpened, hiddenDepth, hiddenDepth]
    split
    · rw [reverse_cons, rowOfNodes_append, append_assoc, cons_append]
    · rw [append_nil]

theorem AllFilled.push (h : AllFilled b) (hn : Filled n) : AllFilled (b.push n) := by
  obtain ⟨ho, hr⟩ := Build.forall_push h.opened h.roots hn fun _ he => forall_mem_cons.mpr ⟨hn, he⟩
  exact ⟨ho, hr⟩

theorem AllFilled.advance (h : AllFilled b) (ha : b.Advance keepComments piece b')
    (hp : ∀ raw span, piece = .text raw span → raw ≠ []) : AllFilled b' := by
  cases ha with
  | text raw span => exact h.push (hp raw span rfl)
  | kept note _ => exact h.push trivial
  | passed note _ => exact h
  | childless _ => exact h.push trivial
  | enters _ => exact ⟨forall_mem_cons.mpr ⟨by simp, h.opened⟩, h.roots⟩
  | leaves ho _ _ =>
    have houter := h.opened
    rw [ho] at houter
    exact AllFilled.push ⟨(forall_mem_cons.mp houter).2, h.roots⟩ trivial

theorem agree_hidden (h : hiddenDepth b.opened ≠ 0) : Agree (rowOfBuild b ++ [.edge []]) (rowOfBuild b) := by
  obtain ⟨opened, roots, faults⟩ := b
  cases opened with
  | nil => exact absurd rfl h
  | cons e outer =>
    rw [rowOfBuild, rowOfOpened, if_neg h, ← append_assoc, append_assoc]
    exact (Agree.refl _).append (agree_edges [])

theorem agree_leave {e : OpenElement} {outer : List OpenElement} (ho : b.opened = e :: outer)
    (hf : ∀ n ∈ e.children, Filled n) (hc : (chainBranches e.children.reverse).2 = []) (span : Span) :
    Agree (rowOfBuild (Build.push { b with opened := outer }
        (.element (.mk ⟨e.name, e.attributes, span⟩ (chainBranches e.children.reverse).1 []))))
      (rowOfBuild b ++ [.edge []]) := by
  have hrow : rowOfBuild b = rowOfBuild { b with opened := outer } ++
      .edge [] :: (if hiddenDepth (e :: outer) = 0 then rowOfNodes e.children.reverse else []) := by
    rw [rowOfBuild, ho, rowOfOpened, ← append_assoc]
    rfl
  rw [rowOfBuild_push, hrow, append_assoc]
  by_cases hz : hiddenDepth outer = 0
  · have hhtml : (Tag.html ⟨e.name, e.attributes, span⟩).isSome = hasHtml e.attributes := rfl
    rw [if_pos hz]
    apply (Agree.refl _).append
    rw [rowOfNodes_element, rowOfNodes_nil, append_nil, rowOfElement, rowOfBranches, cons_append, hhtml]
    cases hh : hasHtml e.attributes with
    | true =>
      have hdeep : hiddenDepth (e :: outer) ≠ 0 := by simp [hiddenDepth, deeper_eq_zero_iff, hh]
      rw [if_neg hdeep]
      exact .refl _
    | false =>
      have hdeep : hiddenDepth (e :: outer) = 0 := deeper_eq_zero_iff.mpr ⟨hh, hz⟩
      rw [if_pos hdeep]
      exact agree_chainBranches (fun n hn => hf n (mem_reverse.mp hn)) hc
  · have hdeep : hiddenDepth (e :: outer) ≠ 0 := by simp [hiddenDepth, deeper_eq_zero_iff, hz]
    rw [if_neg hz, if_neg hdeep, append_nil, cons_append, nil_append]
    have hedges := (Agree.refl (rowOfBuild { b with opened := outer })).append (agree_edges [])
    exact (hedges.trans (agree_hidden (b := { b with opened := outer }) hz)).symm

/-- One step: what has been read is as far apart as it is in the pieces. -/
theorem agree_advance (h : AllFilled b) (ha : b.Advance keepComments piece b') :
    Agree (rowOfBuild b') (rowOfBuild b ++ rowOfPiece (hiddenDepth b.opened) piece) ∧
      hiddenDepth b'.opened = hiddenAfter (hiddenDepth b.opened) piece := by
  cases ha with
  | text raw span =>
    refine ⟨?_, hiddenDepth_push b _⟩
    rw [rowOfBuild_push, rowOfPiece, rowOfNodes_text, rowOfNodes_nil, append_nil]
    exact .refl _
  | kept note _ =>
    refine ⟨?_, hiddenDepth_push b _⟩
    rw [rowOfBuild_push]
    exact .refl _
  | passed note _ =>
    refine ⟨?_, rfl⟩
    have hnote : Agree [] [.note note.body] := ⟨fun _ => rfl, fun _ => rfl⟩
    rw [rowOfPiece]
    split
    · have hrow := (Agree.refl (rowOfBuild b)).append hnote
      rwa [append_nil] at hrow
    · rw [append_nil]
      exact .refl _
  | @childless name start stop tag hopen =>
    refine ⟨?_, ?_⟩
    · rw [rowOfBuild_push, rowOfPiece]
      by_cases hz : hiddenDepth b.opened = 0
      · rw [if_pos hz]
        apply (Agree.refl _).append
        simp only [rowOfNodes_element, rowOfNodes_nil, rowOfElement, rowOfBranches, ite_self, nil_append, append_nil]
        exact agree_edges []
      · rw [if_neg hz, append_nil]
        exact (agree_hidden hz).symm
    · rw [hiddenDepth_push, hiddenAfter, if_neg hopen]
  | @enters name start stop tag hopen =>
    refine ⟨?_, ?_⟩
    · rw [rowOfBuild, rowOfOpened, rowOfPiece, rowOfBuild, ← append_assoc]
      simp only [reverse_nil, rowOfNodes_nil, ite_self]
      exact .refl _
    · rw [hiddenAfter, if_pos hopen]
      rfl
  | @leaves tag stop e outer ho _ hc =>
    have hf := h.opened
    rw [ho] at hf
    refine ⟨agree_leave ho (forall_mem_cons.mp hf).1 hc ⟨e.start, stop⟩, ?_⟩
    rw [hiddenDepth_push, hiddenAfter, ho, hiddenDepth, deeper_sub_one]

theorem agree_foldl {pieces : List Piece} (h : AllFilled b)
    (hp : ∀ piece ∈ pieces, ∀ raw span, piece = .text raw span → raw ≠ [])
    (hf : (pieces.foldl (Build.step keepComments last) b).faults = []) :
    Agree (rowOfBuild (pieces.foldl (Build.step keepComments last) b))
        (rowOfBuild b ++ rowOfPieces (hiddenDepth b.opened) pieces) ∧
      AllFilled (pieces.foldl (Build.step keepComments last) b) := by
  induction pieces generalizing b with
  | nil =>
    rw [rowOfPieces, append_nil]
    exact ⟨.refl _, h⟩
  | cons piece pieces ih =>
    obtain ⟨hpiece, hpieces⟩ := forall_mem_cons.mp hp
    rw [foldl_cons] at hf ⊢
    have ha := (Build.advance_of_step (Build.faultless_of_foldl hf).1).2.2
    obtain ⟨hrow, hhidden⟩ := agree_advance h ha
    obtain ⟨hrest, hfilled⟩ := ih (h.advance ha hpiece) hpieces hf
    refine ⟨hrest.trans ?_, hfilled⟩
    rw [hhidden, rowOfPieces, ← append_assoc]
    exact hrow.append (.refl _)

end Builds

section Roots

variable {nodes : List Node} {first? : Option Element} {n : Node}

theorem isAside_of_selectRoot (hn : n.isElement = false) (h : (selectRoot first? (n :: nodes)).2 = []) :
    n.isAside = true ∧ selectRoot first? (n :: nodes) = selectRoot first? nodes := by
  cases n with
  | element e => cases hn
  | comment body span => exact ⟨rfl, rfl⟩
  | text raw span =>
    cases hb : isBlank raw with
    | true => exact ⟨hb, selectRoot_blank (n := .text raw span) hb first? nodes⟩
    | false => simp [selectRoot, hb] at h

theorem selectRoot_some {first : Element} (h : selectRoot (some first) nodes = (some root, [])) :
    root = first ∧ ∀ n ∈ nodes, n.isAside = true := by
  induction nodes with
  | nil => exact ⟨(Option.some.inj (Prod.mk.inj h).1).symm, by simp⟩
  | cons n nodes ih =>
    rcases element_or_not n with ⟨e, rfl⟩ | hn
    · simp [selectRoot] at h
    · obtain ⟨haside, hrest⟩ := isAside_of_selectRoot hn (congrArg Prod.snd h)
      obtain ⟨hroot, hnodes⟩ := ih (hrest ▸ h)
      exact ⟨hroot, forall_mem_cons.mpr ⟨haside, hnodes⟩⟩

theorem selectRoot_none (h : selectRoot none nodes = (some root, [])) :
    ∃ before after, nodes = before ++ .element root :: after ∧ (∀ n ∈ before, n.isAside = true) ∧
      ∀ n ∈ after, n.isAside = true := by
  induction nodes with
  | nil => cases (Prod.mk.inj h).1
  | cons n nodes ih =>
    rcases element_or_not n with ⟨e, rfl⟩ | hn
    · have hsome : selectRoot (some e) nodes = (some root, []) := h
      obtain ⟨rfl, hafter⟩ := selectRoot_some hsome
      exact ⟨[], nodes, rfl, by simp, hafter⟩
    · obtain ⟨haside, hrest⟩ := isAside_of_selectRoot hn (congrArg Prod.snd h)
      obtain ⟨before, after, rfl, hbefore, hafter⟩ := ih (hrest ▸ h)
      exact ⟨n :: before, after, rfl, forall_mem_cons.mpr ⟨haside, hbefore⟩, hafter⟩

theorem spacing_selectRoot (h : selectRoot none nodes = (some root, [])) :
    spacing true (rowOfNodes nodes) = spacing true (rowOfElement root) := by
  obtain ⟨before, after, rfl, hbefore, hafter⟩ := selectRoot_none h
  obtain ⟨r, hr⟩ := exists_rowOfElement root
  rw [rowOfNodes_append, rowOfNodes, ← append_assoc, spacing_append, (inkless_asides hafter).spacing,
    append_nil, hr, ((inkless_asides hbefore).agree_edge [] [] r).spacing]

theorem spacing_between (apart : Bool) (t t' : Text) (s : List Stretch) :
    spacing apart (.edge t :: (s ++ [.edge t'])) = spacing true s := by
  rw [spacing, spacing_append]
  exact append_nil _

theorem spacing_parse {source : Text} {keepComments : Bool} (h : parse source keepComments = (some root, [])) :
    spacing true (rowOfElement root) = sourceSpacing source := by
  obtain ⟨hf, ho⟩ := Build.faultless_of_finish (Build.ofSource_faultless (congrArg Prod.snd h))
  rw [parse_eq, Build.ofSource, or_self_iff.mp ho, Build.finish] at h
  have hrun : Run Piece.next (.start source) (Piece.all source).1 _ := run_exhaust source.length _
  obtain ⟨hrow, hfilled⟩ := agree_foldl (b := ⟨[], [], []⟩) ⟨by simp, by simp⟩
    (hrun.forall_mem fun c piece d hnext raw span heq => filled_text (heq ▸ hnext)) hf
  rw [rowOfBuild, or_self_iff.mp ho, rowOfOpened, append_nil] at hrow
  dsimp only at h
  split at h
  · cases (Prod.mk.inj h).1
  · obtain ⟨hroot, hfaults⟩ := Prod.mk.inj h
    obtain ⟨hfaults, hpicked⟩ := append_eq_nil_iff.mp hfaults
    have hchained := (append_eq_nil_iff.mp hfaults).2
    have hbetween := (agree_chainBranches
      (fun n hn => hfilled.roots n (mem_reverse.mp hn)) hchained).spacing true
    rw [spacing_between, spacing_between] at hbetween
    rw [← spacing_selectRoot (Prod.ext hroot hpicked), hbetween, hrow.spacing]
    rfl

end Roots

section Items

theorem stretches_append (xs ys : List Item) : stretches (xs ++ ys) = stretches xs ++ stretches ys := flatMap_append

theorem inkless_heads (depth : Nat) (tag : Tag) : Inkless (stretches (heads depth tag)) := by
  rw [heads]
  cases eachHead tag <;> cases branchHead tag <;> rfl

theorem inkless_tails (inner : Nat) (tag : Tag) : Inkless (stretches (tails inner tag)) := by
  rw [tails]
  cases tag.guard.opening?.isSome <;> cases tag.loop.isSome <;> rfl

theorem apartAfter_tails (inner : Nat) (tag : Tag) : apartAfter true (stretches (tails inner tag)) = true := by
  rw [tails]
  cases tag.guard.opening?.isSome <;> cases tag.loop.isSome <;> rfl

theorem stretches_textItem (depth : Nat) (raw : Text) : (textItem depth raw).stretches = rowOfText raw := by
  rw [textItem, rowOfText, textParts]
  cases Template.Part.split? raw with
  | none => exact (append_nil _).symm
  | some parts => rfl

mutual

theorem apartAfter_rowOfElement (apart : Bool) (e : Element) : apartAfter apart (rowOfElement e) = true := by
  cases e with
  | mk tag children branches =>
    rw [rowOfElement, ← cons_append, apartAfter_append]
    exact apartAfter_rowOfBranches branches

theorem apartAfter_rowOfBranches (es : List Element) : apartAfter true (rowOfBranches es) = true := by
  match es with
  | [] => rfl
  | e :: es =>
    rw [rowOfBranches, apartAfter_append, apartAfter_rowOfElement true e]
    exact apartAfter_rowOfBranches es

end

theorem agree_bodyItems (inner : Nat) (tag : Tag) {children : List Node}
    (h : Agree (rowOfNodes children) (stretches (itemsOfNodes (inner + 1) children))) :
    Agree (.edge [] :: ((if tag.html.isSome then [] else rowOfNodes children) ++ [.edge []]))
      (.edge [] :: stretches (bodyItems inner tag children)) := by
  rw [bodyItems]
  by_cases hclosed : isClosed tag children = true
  · have hempty : children = [] := by
      rw [isClosed, Bool.and_eq_true] at hclosed
      exact List.isEmpty_iff.mp hclosed.1
    rw [if_pos hclosed, hempty, rowOfNodes, ite_self]
    exact agree_edges []
  · rw [if_neg hclosed]
    cases tag.html with
    | some x => exact ⟨fun _ => rfl, fun _ => rfl⟩
    | none =>
      rw [Option.elim_none, stretches_append]
      exact ((Agree.refl [.edge []]).append h).append (.refl [.edge []])

mutual

theorem agree_itemsOfElement (depth : Nat) (e : Element) :
    Agree (rowOfElement e) (stretches (itemsOfElement depth e)) := by
  cases e with
  | mk tag children branches =>
    have hbody := agree_bodyItems (innerDepth depth tag) tag
      (agree_itemsOfNodes (innerDepth depth tag + 1) children)
    have hbranches := agree_itemsOfBranches (innerDepth depth tag - 1) branches
    -- Behind the edge at its end, the branches and the delimiters around them add no word.
    have hrest : Agree
        (.edge [] :: stretches (bodyItems (innerDepth depth tag) tag children) ++ rowOfBranches branches)
        (.edge [] :: stretches (bodyItems (innerDepth depth tag) tag children) ++
          (stretches (itemsOfBranches (innerDepth depth tag - 1) branches) ++
            stretches (tails (innerDepth depth tag) tag))) := by
      have hafter : ∀ apart, apartAfter apart
          (.edge [] :: stretches (bodyItems (innerDepth depth tag) tag children)) = true := by
        intro apart
        rw [← hbody.after, ← cons_append, apartAfter_append]
        rfl
      have hend := apartAfter_rowOfBranches branches
      refine ⟨fun apart => ?_, fun apart => ?_⟩
      · rw [spacing_append, spacing_append, hafter, spacing_append, ← hbranches.spacing,
          (inkless_tails _ tag).spacing, append_nil]
      · rw [apartAfter_append, apartAfter_append, hafter, apartAfter_append, ← hbranches.after, hend,
          apartAfter_tails]
    rw [itemsOfElement_mk, stretches_append, stretches_append, stretches_append]
    refine Agree.trans ?_ ((inkless_heads depth tag).agree_edge [] [] _).symm
    refine Agree.trans ?_ hrest
    have hwhole := hbody.append (.refl (rowOfBranches branches))
    rwa [cons_append, append_assoc, singleton_append, ← rowOfElement] at hwhole

theorem agree_itemsOfNodes (depth : Nat) (ns : List Node) :
    Agree (rowOfNodes ns) (stretches (itemsOfNodes depth ns)) := by
  match ns with
  | [] => exact .refl _
  | .element e :: ns =>
    rw [rowOfNodes, itemsOfNodes, stretches_append]
    exact (agree_itemsOfElement depth e).append (agree_itemsOfNodes depth ns)
  | .text raw span :: ns =>
    rw [rowOfNodes, ← stretches_textItem depth]
    exact (Agree.refl _).append (agree_itemsOfNodes depth ns)
  | .comment body span :: ns =>
    exact (Agree.refl [.note body]).append (agree_itemsOfNodes depth ns)

theorem agree_itemsOfBranches (depth : Nat) (es : List Element) :
    Agree (rowOfBranches es) (stretches (itemsOfBranches depth es)) := by
  match es with
  | [] => exact .refl _
  | e :: es =>
    rw [rowOfBranches, itemsOfBranches, stretches_append]
    exact (agree_itemsOfElement depth e).append (agree_itemsOfBranches depth es)

end

end Items

/-- The words of the markup of a tree, with the white space between them. -/
def writtenSpacing (p : Preferences) (root : Element) : List (Template.Part × Bool) :=
  spacing true (writtenStretches p (itemsOfElement 0 root))

/-- The markup of a template holds the words of the template. Two words that white space keeps apart
in the template are kept apart in the markup, unless a static text and the text behind it are joined. -/
theorem words_kept_apart_iff {source : Text} {keepComments : Bool} {root : Element}
    (h : parse source keepComments = (some root, [])) (p : Preferences) :
    (writtenStretches p (itemsOfElement 0 root)).flatMap Stretch.text = markup p root ∧
      (writtenSpacing p root).map Prod.fst = (sourceSpacing source).map Prod.fst ∧
      (KeepsApart (sourceSpacing source) (writtenSpacing p root) ↔ ¬ ∃ before t between x after,
          itemsOfElement 0 root = before ++ .static t :: (between ++ x :: after) ∧ Joined p t between x) := by
  have hsource : sourceSpacing source = spacing true (stretches (itemsOfElement 0 root)) := by
    rw [← spacing_parse h, (agree_itemsOfElement 0 root).spacing]
  rw [hsource]
  exact ⟨text_writtenStretches p _, map_fst_written p _ true true, keepsApart_written_iff p _⟩

/-- Texts around an interpolation, a comment and an element. -/
theorem words_kept_apart_around :
    let source := "<p>a \x7b\x7b x \x7d\x7d<!-- c --> b <i>d</i> e</p>".toList
    ∃ root, parse source false = (some root, []) ∧ ∀ p : Preferences,
      (writtenStretches p (itemsOfElement 0 root)).flatMap Stretch.text = markup p root ∧
        (writtenSpacing p root).map Prod.fst = (sourceSpacing source).map Prod.fst ∧
        (KeepsApart (sourceSpacing source) (writtenSpacing p root) ↔ ¬ ∃ before t between x after,
            itemsOfElement 0 root = before ++ .static t :: (between ++ x :: after) ∧ Joined p t between x) := by
  intro source
  have h : (parse source false).2 = [] := by decide +kernel
  obtain ⟨root, hroot⟩ := parse_root_of_faultless h
  exact ⟨root, hroot, words_kept_apart_iff hroot⟩

/-- Two words with white space and a comment between them become one, however lines are indented, and
so do a word and an interpolation where lines are not indented. -/
theorem words_joined :
    (∃ root, parse "<p>a <!-- c --> b</p>" false = (some root, []) ∧
      markup .standard root = "<p>\nab</p>\n" ∧ ∀ p : Preferences,
        ¬ KeepsApart (sourceSpacing "<p>a <!-- c --> b</p>") (writtenSpacing p root)) ∧
    ∃ root, parse "<p>a <!-- c --> \x7b\x7bx\x7d\x7d</p>" false = (some root, []) ∧
      markup ⟨[], true, true, false⟩ root = "<p>\na\x7bx\x7d\n</p>\n" ∧
        ¬ KeepsApart (sourceSpacing "<p>a <!-- c --> \x7b\x7bx\x7d\x7d</p>")
          (writtenSpacing ⟨[], true, true, false⟩ root) := by
  constructor
  · refine ⟨.mk ⟨['p'], [], ⟨0, 21⟩⟩ [.text ['a', ' '] ⟨3, 5⟩, .text [' ', 'b'] ⟨15, 17⟩] [], rfl, ?_, ?_⟩
    · decide +kernel
    · intro p h
      cases h 1 (.literal ['b']) (by decide +kernel)
  · refine ⟨.mk ⟨['p'], [], ⟨0, 25⟩⟩ [.text ['a', ' '] ⟨3, 5⟩, .text " \x7b\x7bx\x7d\x7d" ⟨15, 21⟩] [], rfl, ?_, ?_⟩
    · decide +kernel
    · intro h
      exact absurd (h 1 (.binding ['x']) (by decide +kernel)) (by decide +kernel)

end ComponentConverter.Svelte
