import ComponentConverter.Proofs.TreeShape

namespace ComponentConverter.Template

open List Markup

def trimmedEnd (ns : List Node) : List Node := (ns.reverse.dropWhile Node.isBlank).reverse

def trimmed (ns : List Node) : List Node := trimmedEnd (ns.dropWhile Node.isBlank)

mutual

def Element.bare : Element → Element
  | .mk tag children branches => .mk tag (trimmed (bareNodes children)) (bareBranches branches)

def bareNodes : List Node → List Node
  | [] => []
  | .element e :: ns => .element e.bare :: bareNodes ns
  | .text raw span :: ns => .text raw span :: bareNodes ns
  | .comment _ _ :: ns => bareNodes ns

def bareBranches : List Element → List Element
  | [] => []
  | e :: es => e.bare :: bareBranches es

end

section Trimming

variable {n : Node} {ns : List Node}

theorem trimmedEnd_cons (n : Node) (ns : List Node) : trimmedEnd (n :: ns) =
      if trimmedEnd ns = [] then (if n.isBlank then [] else [n]) else n :: trimmedEnd ns := by
  rw [trimmedEnd, reverse_cons, dropWhile_append]
  simp only [trimmedEnd, reverse_eq_nil_iff, List.isEmpty_iff]
  split
  · cases h : n.isBlank <;> simp [h]
  · simp

theorem trimmedEnd_cons_of_not (h : n.isBlank = false) (ns : List Node) :
    trimmedEnd (n :: ns) = n :: trimmedEnd ns := by
  rw [trimmedEnd_cons]
  split
  next hnil => simp [h, hnil]
  · rfl

theorem trimmedEnd_cons_of_blank (h : n.isBlank = true) (ns : List Node) :
    trimmedEnd (n :: ns) = if (trimmedEnd ns).isEmpty then [] else n :: trimmedEnd ns := by
  rw [trimmedEnd_cons]
  simp [h]

theorem dropWhile_trimmedEnd (ns : List Node) :
    (trimmedEnd ns).dropWhile Node.isBlank = trimmedEnd (ns.dropWhile Node.isBlank) := by
  induction ns with
  | nil => rfl
  | cons n ns ih =>
    cases h : n.isBlank with
    | true =>
      rw [trimmedEnd_cons_of_blank h, dropWhile_cons_of_pos h, ← ih]
      split
      next hnil => rw [List.isEmpty_iff.mp hnil]
      · rw [dropWhile_cons_of_pos h]
    | false =>
      have hn : ¬ n.isBlank = true := by simp [h]
      rw [trimmedEnd_cons_of_not h, dropWhile_cons_of_neg hn, dropWhile_cons_of_neg hn, trimmedEnd_cons_of_not h]

theorem trimmed_reverse (ns : List Node) :
    trimmed ns.reverse = ((trimmedEnd ns).dropWhile Node.isBlank).reverse := rfl

theorem apply_trimmed {β : Type} {F : List Node → β} (hblank : ∀ n ns, n.isBlank = true → F (n :: ns) = F ns)
    (hcons : ∀ n ms ns, F ms = F ns → F (n :: ms) = F (n :: ns)) (ns : List Node) : F (trimmed ns) = F ns := by
  have hstart : ∀ ns, F (ns.dropWhile Node.isBlank) = F ns := by
    intro ns
    induction ns with
    | nil => rfl
    | cons n ns ih =>
      rw [dropWhile_cons]
      split
      next h => rw [ih, hblank n ns h]
      · rfl
  have hend : ∀ ns, F (trimmedEnd ns) = F ns := by
    intro ns
    induction ns with
    | nil => rfl
    | cons n ns ih =>
      cases h : n.isBlank with
      | true =>
        rw [trimmedEnd_cons_of_blank h, hblank n ns h, ← ih]
        split
        next hnil => rw [List.isEmpty_iff.mp hnil]
        · rw [hblank n _ h]
      | false => rw [trimmedEnd_cons_of_not h, hcons n _ _ ih]
  rw [trimmed, hend, hstart]

theorem flatMap_trimmed {α : Type} {f : Node → List α} (hf : ∀ n, n.isBlank = true → f n = [])
    (ns : List Node) : (trimmed ns).flatMap f = ns.flatMap f := by
  apply apply_trimmed (F := fun ns => ns.flatMap f)
  · intro n ns hn
    rw [flatMap_cons, hf n hn, nil_append]
  · intro n ms ns h
    rw [flatMap_cons, flatMap_cons, h]

theorem trimmed_eq_nil_iff (ns : List Node) : trimmed ns = [] ↔ ∀ n ∈ ns, n.isBlank = true := by
  constructor
  · intro h
    have hkept := flatMap_trimmed (f := fun n => if n.isBlank then [] else [n])
      (fun n hn => if_pos hn) ns
    rw [h, flatMap_nil, eq_comm, flatMap_eq_nil_iff] at hkept
    intro n hn
    simpa using hkept n hn
  · intro h
    have hdrop := @List.dropWhile_append_of_pos _ _ ns [] h
    rw [append_nil] at hdrop
    rw [trimmed, hdrop]
    rfl

end Trimming

section Nodes

/-- A node without its comments, unless it is one itself. -/
def Node.bare? : Node → Option Node
  | .element e => some (.element e.bare)
  | .text raw span => some (.text raw span)
  | .comment _ _ => none

theorem bareNodes_eq (ns : List Node) : bareNodes ns = ns.filterMap Node.bare? := by
  induction ns with
  | nil => rfl
  | cons n ns ih =>
    cases n with
    | element e | text raw span | comment body span => rw [bareNodes, ih]; rfl

theorem bareNodes_reverse (ns : List Node) : bareNodes ns.reverse = (bareNodes ns).reverse := by
  simp only [bareNodes_eq, filterMap_reverse]

theorem bareBranches_eq (es : List Element) : bareBranches es = es.map Element.bare := by
  induction es with
  | nil => rfl
  | cons e es ih => rw [bareBranches, ih, map_cons]

theorem dropWhile_bareNodes (ns : List Node) :
    (bareNodes (ns.dropWhile Node.isBlank)).dropWhile Node.isBlank = (bareNodes ns).dropWhile Node.isBlank := by
  induction ns with
  | nil => rfl
  | cons n ns ih =>
    rw [dropWhile_cons]
    split
    next h =>
      cases n with
      | text raw span => rw [ih, bareNodes, dropWhile_cons_of_pos h]
      | element e | comment body span => simp [Node.isBlank] at h
    · rfl

@[simp]
theorem Element.tag_bare (e : Element) : e.bare.tag = e.tag := by
  cases e
  rfl

theorem Element.bare_addBranch (e b : Element) : (e.addBranch b).bare = e.bare.addBranch b.bare := by
  cases e with
  | mk tag children branches =>
    simp [Element.addBranch, Element.bare, bareBranches_eq]

theorem textBetween_of_blank {n : Node} (h : n.isBlank = true) : textBetween n = [] := by
  cases n with
  | element e | comment body span => rfl
  | text raw span => exact if_pos h

/-- Comments and white space, which leave nothing when comments are passed over. -/
def Node.isAside : Node → Bool
  | .element _ => false
  | .text raw _ => ComponentConverter.isBlank raw
  | .comment _ _ => true

theorem forall_bareNodes_blank (ns : List Node) :
    (∀ n ∈ bareNodes ns, n.isBlank = true) ↔ ns.all Node.isAside = true := by
  induction ns with
  | nil => simp [bareNodes]
  | cons n ns ih => cases n <;> simp_all [bareNodes, Node.isAside, Node.isBlank]

theorem trimmed_bareNodes_isEmpty (ns : List Node) : (trimmed (bareNodes ns)).isEmpty = ns.all Node.isAside := by
  rw [Bool.eq_iff_iff, List.isEmpty_iff, trimmed_eq_nil_iff, forall_bareNodes_blank]

end Nodes

section Siblings

/-- The siblings kept so far, last first, when comments are passed over: white space that stands
before all others is then not kept. -/
def bareBefore (before : List Node) : List Node := trimmedEnd (bareNodes before)

theorem bareBefore_element (e : Element) (rest : List Node) :
    bareBefore (.element e :: rest) = .element e.bare :: bareBefore rest :=
  trimmedEnd_cons_of_not rfl _

theorem bareBefore_text {raw : Text} (h : isBlank raw = false) (span : Span) (rest : List Node) :
    bareBefore (.text raw span :: rest) = .text raw span :: bareBefore rest :=
  trimmedEnd_cons_of_not (n := .text raw span) h _

theorem bareBefore_blank {raw : Text} (h : isBlank raw = true) (span : Span) (rest : List Node) :
    bareBefore (.text raw span :: rest) =
      if (bareBefore rest).isEmpty then [] else .text raw span :: bareBefore rest :=
  trimmedEnd_cons_of_blank (n := .text raw span) h _

theorem attachBranch_cons {n : Node} (h : n.isElement = false) (before : List Node) (b : Element) :
    attachBranch (n :: before) b = ((attachBranch before b).1, textBetween n ++ (attachBranch before b).2) := by
  rw [attachBranch, attachBranch, takeWhile_cons_of_pos (by simp [h]), dropWhile_cons_of_pos (by simp [h])]
  split
  · split <;> simp
  · simp

theorem attachBranch_element (e b : Element) (before : List Node) :
    attachBranch (bareBefore (.element e :: before)) b.bare =
      (bareBefore (attachBranch (.element e :: before) b).1, (attachBranch (.element e :: before) b).2) := by
  rw [bareBefore_element]
  simp only [attachBranch, Node.isElement, Bool.not_true, Bool.false_eq_true, not_false_eq_true,
    takeWhile_cons_of_neg, dropWhile_cons_of_neg, Element.tag_bare, Element.span]
  split
  · rw [bareBefore_element, Element.bare_addBranch]
  · rw [bareBefore_element]

theorem attachBranch_bare (before : List Node) (b : Element) : attachBranch (bareBefore before) b.bare =
      (bareBefore (attachBranch before b).1, (attachBranch before b).2) := by
  induction before with
  | nil => simp [attachBranch, bareBefore, bareNodes, trimmedEnd, Element.span]
  | cons n before ih =>
    cases n with
    | element e => exact attachBranch_element e b before
    | text raw span =>
      rw [attachBranch_cons rfl]
      cases hb : isBlank raw with
      | true =>
        rw [bareBefore_blank hb, textBetween_of_blank (n := .text raw span) hb, nil_append, ← ih]
        split
        next hnil => rw [List.isEmpty_iff.mp hnil]
        · rw [attachBranch_cons rfl, textBetween_of_blank (n := .text raw span) hb, nil_append]
      | false => rw [bareBefore_text hb, attachBranch_cons rfl, ih]
    | comment body span => rw [attachBranch_cons rfl]; exact ih

/-- Each sibling but a comment is added alike, with the comments before it and without. -/
theorem addSibling_bare {n m : Node} (h : n.bare? = some m) (before : List Node) :
    addSibling (bareBefore before) m = (bareBefore (addSibling before n).1, (addSibling before n).2) := by
  cases n with
  | element e =>
    cases h
    rw [addSibling, addSibling, Element.tag_bare]
    split
    · exact attachBranch_bare before e
    · rw [bareBefore_element]
  | text raw span =>
    cases h
    rw [addSibling, addSibling]
    cases hb : isBlank raw with
    | true =>
      cases before with
      | nil => rfl
      | cons n before =>
        simp only [isEmpty_cons, if_true, Bool.false_eq_true, if_false]
        rw [bareBefore_blank rfl]
    | false =>
      simp only [Bool.false_eq_true, if_false]
      rw [bareBefore_text hb]
  | comment body span => cases h

theorem addSiblings_bare (before nodes : List Node) : addSiblings (bareBefore before) (bareNodes nodes) =
      (bareBefore (addSiblings before nodes).1, (addSiblings before nodes).2) := by
  induction nodes generalizing before with
  | nil => rfl
  | cons n nodes ih =>
    rw [addSiblings_cons]
    cases n with
    | element e => rw [bareNodes, addSiblings_cons, addSibling_bare (n := .element e) rfl, ih]
    | text raw span =>
      rw [bareNodes, addSiblings_cons, addSibling_bare (n := .text raw span) rfl, ih]
    | comment body span => exact ih (.comment body span :: before)

theorem chainBranches_bare (nodes : List Node) : chainBranches (bareNodes nodes) =
      (trimmed (bareNodes (chainBranches nodes).1), (chainBranches nodes).2) := by
  have hrun := addSiblings_bare [] nodes
  rw [show bareBefore [] = [] from rfl] at hrun
  rw [chainBranches, hrun, chainBranches]
  dsimp only
  rw [bareNodes_reverse, trimmed_reverse, bareBefore, dropWhile_trimmedEnd, dropWhile_trimmedEnd, dropWhile_bareNodes]

end Siblings

section Reading

/-- An open element without its comments; its children are not trimmed before it is closed. -/
def OpenElement.bare (e : OpenElement) : OpenElement := { e with children := bareNodes e.children }

def Build.bare (b : Build) : Build := ⟨b.opened.map OpenElement.bare, bareNodes b.roots, b.faults⟩

namespace Build

theorem bare_push (b : Build) (n : Node) : (b.push n).bare = (n.bare?.elim b.bare b.bare.push) := by
  rcases b with ⟨_ | ⟨e, outer⟩, roots, faults⟩ <;> cases n <;> rfl

theorem bare_pushElement (b : Build) (tag : Tag) (children : List Node) :
    (b.pushElement tag children).bare = b.bare.pushElement tag (trimmed (bareNodes children)) := by
  rw [pushElement, pushElement]
  split
  · rfl
  · dsimp only
    rw [bare_push]
    cases tag.attribute? "v-for" with
    | none => rfl
    | some expression => dsimp only; split <;> rfl

theorem bare_close (b : Build) (e : OpenElement) (outer : List OpenElement) (closing : List Fault) (stop : Nat) :
    (b.close e outer closing stop).bare = b.bare.close e.bare (outer.map OpenElement.bare) closing stop := by
  rw [close, close, bare_pushElement, OpenElement.bare, ← bareNodes_reverse, chainBranches_bare]
  rfl

theorem bare_step (last : Nat) (b : Build) (p : Piece) : (b.step true last p).bare = b.bare.step false last p := by
  cases p with
  | text raw span => exact bare_push b (.text raw span)
  | comment comment => exact bare_push (b.report comment.faults) (.comment _ _)
  | nameless fault => rfl
  | opening name start tag stop =>
    rw [step, step]
    cases tag.tagEnd with
    | opened =>
      dsimp only
      split
      · exact bare_pushElement _ _ []
      · rfl
    | selfClosed => exact bare_pushElement _ _ []
    | cutOff => exact bare_pushElement _ _ []
  | closing tag stop =>
    rcases b with ⟨_ | ⟨e, outer⟩, roots, faults⟩
    · rfl
    · exact bare_close _ e outer _ stop

theorem bare_foldl (last : Nat) (pieces : List Piece) (b : Build) :
    (pieces.foldl (step true last) b).bare = pieces.foldl (step false last) b.bare := by
  induction pieces generalizing b with
  | nil => rfl
  | cons p pieces ih => rw [foldl_cons, foldl_cons, ih, bare_step]

theorem bare_finish (last stop : Nat) (opened : List OpenElement) (b : Build) :
    (b.finish last stop opened).bare = b.bare.finish last stop (opened.map OpenElement.bare) := by
  induction opened generalizing b with
  | nil => rfl
  | cons _ deeper ih =>
    rcases b with ⟨_ | ⟨e, outer⟩, roots, faults⟩
    · rfl
    · exact (ih _).trans (congrArg (finish last stop _) (bare_close _ e outer _ stop))

theorem bare_ofSource (source : Text) : (ofSource source true).bare = ofSource source false := by
  have hrun := bare_foldl (bytes source) (Piece.all source).1 ⟨[], [], []⟩
  rw [ofSource, bare_finish, hrun]
  exact congrArg (fun b : Build => finish _ _ b.opened _) hrun

end Build

theorem selectRoot_blank {n : Node} (h : n.isBlank = true) (root : Option Element) (ns : List Node) :
    selectRoot root (n :: ns) = selectRoot root ns := by
  cases n with
  | text raw span =>
    have hb : isBlank raw = true := h
    simp only [selectRoot, hb, if_true, nil_append]
  | element e | comment body span => cases h

theorem selectRoot_trimmed (root : Option Element) (ns : List Node) :
    selectRoot root (trimmed ns) = selectRoot root ns := by
  have h := apply_trimmed (F := fun ns root => selectRoot root ns) ?_ ?_ ns
  · exact congrFun h root
  · intro n ns hn
    funext root
    exact selectRoot_blank hn root ns
  · intro n ms ns h
    funext root
    have hrest : ∀ root, selectRoot root ms = selectRoot root ns := congrFun h
    cases n <;> cases root <;> simp [selectRoot, hrest]

theorem selectRoot_bare (root : Option Element) (ns : List Node) : selectRoot (root.map Element.bare) (bareNodes ns) =
      ((selectRoot root ns).1.map Element.bare, (selectRoot root ns).2) := by
  induction ns generalizing root with
  | nil => rfl
  | cons n ns ih =>
    cases n with
    | element e =>
      cases root with
      | none => exact congrArg (fun r => (r.1, [] ++ r.2)) (ih (some e))
      | some first =>
        have hrest := ih (some first)
        rw [Option.map_some] at hrest ⊢
        simp only [bareNodes, selectRoot, hrest, Element.span, Element.tag_bare]
    | text raw span => simp only [bareNodes, selectRoot, ih]
    | comment body span => rw [bareNodes, ih]; rfl

/-- Reading without comments gives the same tree less its comments, and the same faults. -/
theorem parse_bare (source : Text) :
    parse source false = ((parse source true).1.map Element.bare, (parse source true).2) := by
  have hroots : (Build.ofSource source false).roots = bareNodes (Build.ofSource source true).roots := by
    rw [← Build.bare_ofSource]; rfl
  have hfaults : (Build.ofSource source false).faults = (Build.ofSource source true).faults := by
    rw [← Build.bare_ofSource]; rfl
  rw [parse_eq, parse_eq]
  dsimp only
  rw [hroots, hfaults, ← bareNodes_reverse, chainBranches_bare]
  rw [selectRoot_trimmed, ← Option.map_none (f := Element.bare), selectRoot_bare, Option.map_none]
  rw [Option.isNone_map]
  split <;> rfl

end Reading

end ComponentConverter.Template
