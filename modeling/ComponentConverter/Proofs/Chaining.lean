import ComponentConverter.Proofs.Emission

namespace ComponentConverter.Template

open List Markup

variable {n : Node} {b : Element}

def Node.element? : Node → Option Element
  | .element e => some e
  | _ => none

def siblingElements (nodes : List Node) : List Element := nodes.filterMap Node.element?

namespace Element

def isBranch (e : Element) : Bool := e.tag.guard.isBranch

def opens (e : Element) : Bool := e.tag.guard.opening?.isSome

end Element

open Element (isBranch opens)

/-- Each element that is no branch, together with the branches that follow it before the next such
element if it opens a chain. -/
def gathered : List Element → List Element
  | [] => []
  | e :: es =>
    if e.isBranch then gathered es
    else
      .mk e.tag e.children (e.branches ++ if e.opens then es.takeWhile isBranch else []) ::
        gathered es

/-- An element of a chain and its branches, one after the other. -/
def unchained (e : Element) : List Element := .mk e.tag e.children [] :: e.branches

/-- The members of a list, each with what stands before it and what stands after it. -/
def places {α : Type} (before : List α) : List α → List (List α × α × List α)
  | [] => []
  | a :: as => (before, a, as) :: places (before ++ [a]) as

/-- The nearest element that is no branch, before a place. -/
def nearestHead (before : List Node) : Option Element := (siblingElements before).reverse.find? (!·.isBranch)

/-- A branch is stray unless the nearest element before it that is no branch opens a chain. -/
def strayBranch (before : List Node) : Node → List Fault
  | .element b =>
    if b.isBranch && !(nearestHead before).any opens then
      [⟨.elseWithoutIf (if b.tag.has "v-else-if" then "v-else-if" else "v-else") b.tag.name, b.span⟩]
    else []
  | _ => []

/-- A text that is not blank is stray if the next element after it is a branch. -/
def strayText (after : List Node) : Node → List Fault
  | .text raw span =>
    if !isBlank raw && (siblingElements after).head?.any isBranch then
      [⟨.textBetweenBranches (trim raw), span⟩]
    else []
  | _ => []

/-- What is to be reported of siblings, place by place. -/
def siblingFaults (nodes : List Node) : List Fault :=
  (places [] nodes).flatMap fun (before, n, after) => strayBranch before n ++ strayText after n

section Elements

theorem siblingElements_append (ns ms : List Node) :
    siblingElements (ns ++ ms) = siblingElements ns ++ siblingElements ms :=
  filterMap_append

theorem siblingElements_reverse (ns : List Node) : siblingElements ns.reverse = (siblingElements ns).reverse :=
  filterMap_reverse

theorem siblingElements_dropWhile {p : Node → Bool} (hp : ∀ n, p n = true → n.element? = none)
    (ns : List Node) : siblingElements (ns.dropWhile p) = siblingElements ns := by
  induction ns with
  | nil => rfl
  | cons n ns ih =>
    rw [dropWhile_cons]
    split
    next h => rw [ih, siblingElements, siblingElements, filterMap_cons, hp n h]
    · rfl

theorem siblingElements_cons (h : n.isElement = false) (ns : List Node) :
    siblingElements (n :: ns) = siblingElements ns := by
  cases n with
  | element e => simp [Node.isElement] at h
  | text raw span | comment body span => rfl

theorem element?_eq_none (h : (!n.isElement) = true) : n.element? = none := by
  cases n <;> simp_all [Node.isElement, Node.element?]

theorem dropWhile_cases (ns : List Node) : (ns.dropWhile (!·.isElement) = [] ∧ siblingElements ns = []) ∨
      ∃ e rest, ns.dropWhile (!·.isElement) = .element e :: rest ∧
        siblingElements ns = e :: siblingElements rest := by
  have hs := siblingElements_dropWhile (fun _ h => element?_eq_none h) ns
  cases hd : ns.dropWhile (!·.isElement) with
  | nil =>
    rw [hd] at hs
    exact .inl ⟨rfl, hs.symm⟩
  | cons n rest =>
    have hhead := head?_dropWhile_not (!·.isElement) ns
    rw [hd] at hs hhead
    cases n with
    | element e => exact .inr ⟨e, rest, rfl, hs.symm⟩
    | text raw span | comment body span => simp [Node.isElement] at hhead

end Elements

section Gathering

variable {es : List Element} {e b : Element}

theorem gathered_cons_of_branch (h : e.isBranch = true) : gathered (e :: es) = gathered es := by
  rw [gathered, if_pos h]

theorem gathered_cons (h : e.isBranch = false) : gathered (e :: es) =
      .mk e.tag e.children (e.branches ++ if e.opens then es.takeWhile isBranch else []) ::
        gathered es := by
  rw [gathered, if_neg (by simp [h])]

theorem gathered_eq_nil_iff : gathered es = [] ↔ ∀ x ∈ es, x.isBranch = true := by
  induction es with
  | nil => simp [gathered]
  | cons e es ih =>
    cases h : e.isBranch with
    | true => simp [gathered_cons_of_branch h, ih, h]
    | false => simp [gathered_cons h, h]

theorem takeWhile_append_of_branches (h : ∀ x ∈ es, x.isBranch = true) (fs : List Element) :
    (es ++ fs).takeWhile isBranch = es ++ fs.takeWhile isBranch :=
  takeWhile_append_of_pos h

theorem takeWhile_of_branches (h : ∀ x ∈ es, x.isBranch = true) : es.takeWhile isBranch = es := by
  simpa using takeWhile_append_of_branches h []

theorem takeWhile_concat_of_not (h : ¬ ∀ x ∈ es, x.isBranch = true) (y : Element) :
    (es ++ [y]).takeWhile isBranch = es.takeWhile isBranch := by
  induction es with
  | nil => simp at h
  | cons x es ih =>
    rw [cons_append, takeWhile_cons, takeWhile_cons]
    split
    next hx =>
      rw [ih]
      intro hall
      exact h (forall_mem_cons.mpr ⟨hx, hall⟩)
    · rfl

theorem gathered_concat (h : e.isBranch = false) : gathered (es ++ [e]) = gathered es ++ [e] := by
  induction es with
  | nil =>
    cases e
    rw [nil_append, gathered_cons h]
    simp [gathered, Element.tag, Element.children, Element.branches]
  | cons x es ih =>
    have htake : (es ++ [e]).takeWhile isBranch = es.takeWhile isBranch := by
      by_cases hall : ∀ y ∈ es, y.isBranch = true
      · rw [takeWhile_append_of_branches hall, takeWhile_cons_of_neg (by simp [h]),
          append_nil, takeWhile_of_branches hall]
      · exact takeWhile_concat_of_not hall e
    cases hx : x.isBranch with
    | true => rw [cons_append, gathered_cons_of_branch hx, gathered_cons_of_branch hx, ih]
    | false => rw [cons_append, gathered_cons hx, gathered_cons hx, ih, htake, cons_append]

/-- Adds a branch to the first of some elements, if that opens a chain. -/
def addToFirst (b : Element) : List Element → List Element
  | [] => []
  | e :: es => (if e.opens then e.addBranch b else e) :: es

theorem addToFirst_append {es : List Element} (h : es ≠ []) (b : Element) (fs : List Element) :
    addToFirst b (es ++ fs) = addToFirst b es ++ fs := by
  cases es with
  | nil => exact absurd rfl h
  | cons e es => rfl

theorem gathered_concat_of_branch (h : b.isBranch = true) :
    (gathered (es ++ [b])).reverse = addToFirst b (gathered es).reverse := by
  induction es with
  | nil =>
    rw [nil_append, gathered_cons_of_branch h]
    rfl
  | cons x es ih =>
    rw [cons_append]
    cases hx : x.isBranch with
    | true => rw [gathered_cons_of_branch hx, gathered_cons_of_branch hx, ih]
    | false =>
      rw [gathered_cons hx, gathered_cons hx, reverse_cons, reverse_cons, ih]
      by_cases hall : ∀ y ∈ es, y.isBranch = true
      · rw [gathered_eq_nil_iff.mpr hall, takeWhile_append_of_branches hall,
          takeWhile_of_branches hall, takeWhile_cons_of_pos h]
        have hopens : ∀ bs, (Element.mk x.tag x.children bs).opens = x.opens := fun _ => rfl
        cases ho : x.opens <;> simp [addToFirst, hopens, ho, Element.addBranch]
      · have hne : (gathered es).reverse ≠ [] := by
          simpa [gathered_eq_nil_iff] using hall
        rw [takeWhile_concat_of_not hall, addToFirst_append hne]

theorem head?_gathered_opens (es : List Element) :
    (gathered es).reverse.head?.any opens = (es.reverse.find? (!·.isBranch)).any opens := by
  have htags : (gathered es).map Element.tag = (es.filter (!·.isBranch)).map Element.tag := by
    induction es with
    | nil => rfl
    | cons e es ih =>
      cases h : e.isBranch with
      | true => simp [gathered_cons_of_branch h, h, ih]
      | false => simp [gathered_cons h, h, ih, Element.tag]
  have hopens : ∀ o : Option Element, o.any opens = (o.map Element.tag).any (·.guard.opening?.isSome) := by
    intro o
    cases o <;> rfl
  rw [hopens, hopens, ← head?_map, map_reverse, htags, ← head?_filter, filter_reverse, ← head?_map, map_reverse]

end Gathering

section Steps

variable {read before : List Node}

def textsSince (before : List Node) : List Fault := (before.takeWhile (!·.isElement)).flatMap textBetween

theorem siblingElements_attachBranch (before : List Node) (b : Element) :
    siblingElements (attachBranch before b).1 = addToFirst b (siblingElements before) := by
  rw [attachBranch]
  obtain ⟨hd, hs⟩ | ⟨e, rest, hd, hs⟩ := dropWhile_cases before
  · rw [hd, hs]
    rfl
  · rw [hd, hs, addToFirst, opens]
    dsimp only
    split <;> rfl

theorem textsSince_attachBranch (before : List Node) (b : Element) : textsSince (attachBranch before b).1 = [] := by
  rw [attachBranch]
  obtain ⟨hd, -⟩ | ⟨e, rest, hd, -⟩ := dropWhile_cases before
  · rw [hd]
    rfl
  · rw [hd]
    dsimp only
    split <;> rfl

theorem faults_attachBranch (h : siblingElements before = (gathered (siblingElements read)).reverse)
    (hb : b.isBranch = true) :
    (attachBranch before b).2 = textsSince before ++ strayBranch read (.element b) := by
  have hhead : (siblingElements before).head?.any opens = (nearestHead read).any opens := by
    rw [h, head?_gathered_opens, nearestHead]
  have hcondition : b.tag.guard.branchCondition.isSome = b.tag.has "v-else-if" := by
    rw [Svelte.branchCondition_of_branch hb, Tag.has]
  rw [attachBranch, strayBranch, ← hhead, hb, hcondition, textsSince]
  obtain ⟨hd, hs⟩ | ⟨e, rest, hd, hs⟩ := dropWhile_cases before
  · rw [hd, hs]
    rfl
  · rw [hd, hs]
    dsimp only [head?_cons, Option.any_some, opens]
    by_cases ho : e.tag.guard.opening?.isSome = true <;> simp [ho]

/-- The siblings kept so far, last first, against the siblings read so far. -/
structure Reflects (read before : List Node) : Prop where
  elements : siblingElements before = (gathered (siblingElements read)).reverse
  texts : textsSince before = textsSince read.reverse

theorem textsSince_concat (read : List Node) (h : n.isElement = false) :
    textsSince (read ++ [n]).reverse = textBetween n ++ textsSince read.reverse := by
  rw [textsSince, reverse_concat, takeWhile_cons_of_pos (by simp [h]), flatMap_cons]
  rfl

theorem Reflects.of_element {e : Element} (h : Reflects read before) (he : e.isBranch = false) :
    Reflects (read ++ [.element e]) (.element e :: before) := by
  refine ⟨?_, ?_⟩
  · rw [siblingElements_append]
    change e :: siblingElements before = (gathered (siblingElements read ++ [e])).reverse
    rw [h.elements, gathered_concat he, reverse_concat]
  · rw [textsSince, textsSince, reverse_concat]
    rfl

theorem Reflects.of_branch (h : Reflects read before) (hb : b.isBranch = true) :
    Reflects (read ++ [.element b]) (attachBranch before b).1 := by
  refine ⟨?_, ?_⟩
  · rw [siblingElements_attachBranch, siblingElements_append]
    change addToFirst b (siblingElements before) = (gathered (siblingElements read ++ [b])).reverse
    rw [h.elements, gathered_concat_of_branch hb]
  · rw [textsSince_attachBranch, textsSince, reverse_concat]
    rfl

theorem Reflects.skip (h : Reflects read before) (hn : n.isElement = false)
    (ht : textBetween n = []) : Reflects (read ++ [n]) before := by
  refine ⟨?_, ?_⟩
  · rw [siblingElements_append, siblingElements_cons hn, h.elements]
    simp [siblingElements]
  · rw [textsSince_concat read hn, ht, h.texts, nil_append]

theorem Reflects.of_other {m : Node} (h : Reflects read before) (hn : n.isElement = false)
    (hm : m.isElement = false) (ht : textBetween m = textBetween n) : Reflects (read ++ [n]) (m :: before) := by
  refine ⟨?_, ?_⟩
  · rw [siblingElements_append, siblingElements_cons hn, siblingElements_cons hm, h.elements]
    simp [siblingElements]
  · rw [textsSince_concat read hn, ← h.texts, textsSince, takeWhile_cons_of_pos (by simp [hm]), flatMap_cons, ht]
    rfl

theorem Reflects.addSibling (h : Reflects read before) (n : Node) :
    Reflects (read ++ [n]) (addSibling before n).1 := by
  cases n with
  | element e =>
    rw [Template.addSibling]
    split
    next hb => exact h.of_branch hb
    next hb => exact h.of_element (by simpa [isBranch] using hb)
  | comment body span => exact h.of_other rfl rfl rfl
  | text raw span =>
    rw [Template.addSibling]
    split
    next hblank =>
      have ht : textBetween (.text raw span) = [] := by rw [textBetween, if_pos hblank]
      split
      next hempty =>
        obtain rfl : before = [] := by simpa using hempty
        exact h.skip rfl ht
      · exact h.of_other rfl rfl ht.symm
    · exact h.of_other rfl rfl rfl

theorem faults_addSibling (h : Reflects read before) (n : Node) : (addSibling before n).2 =
      if n.element?.any isBranch then textsSince read.reverse ++ strayBranch read n else [] := by
  cases n with
  | element e =>
    rw [addSibling]
    split
    next hb =>
      rw [faults_attachBranch h.elements hb, h.texts]
      exact (if_pos hb).symm
    next hb => exact (if_neg hb).symm
  | text raw span =>
    rw [addSibling]
    split <;> rfl
  | comment body span => rfl

end Steps

section Runs

variable {read before : List Node}

theorem Reflects.addSiblings (h : Reflects read before) (nodes : List Node) :
    Reflects (read ++ nodes) (addSiblings before nodes).1 := by
  induction nodes generalizing read before with
  | nil =>
    rw [append_nil]
    exact h
  | cons n nodes ih =>
    have hrest := ih (h.addSibling n)
    rwa [append_assoc, singleton_append] at hrest

theorem strayText_eq (after : List Node) (n : Node) :
    strayText after n = if (siblingElements after).head?.any isBranch then textBetween n else [] := by
  cases n with
  | element e | comment body span => simp [strayText, textBetween]
  | text raw span =>
    rw [strayText, textBetween]
    cases isBlank raw <;> simp

theorem textsSince_element (read : List Node) (e : Element) : textsSince (read ++ [Node.element e]).reverse = [] := by
  rw [textsSince, reverse_concat]
  rfl

/-- The texts since the last element are reported at the next one, if that is a branch. -/
theorem faults_addSiblings (h : Reflects read before) (nodes : List Node) : (addSiblings before nodes).2.Perm
      ((if (siblingElements nodes).head?.any isBranch then textsSince read.reverse else []) ++
        (places read nodes).flatMap fun (before, n, after) => strayBranch before n ++ strayText after n) := by
  induction nodes generalizing read before with
  | nil => exact .refl _
  | cons n nodes ih =>
    have hrest := ih (h.addSibling n)
    rw [addSiblings_cons, places, flatMap_cons]
    dsimp only
    rw [faults_addSibling h n]
    cases hn : n.isElement with
    | true =>
      obtain ⟨e, rfl⟩ : ∃ e, n = .element e := by
        cases n with
        | element e => exact ⟨e, rfl⟩
        | text raw span | comment body span => simp [Node.isElement] at hn
      have hnode : (Node.element e).element?.any isBranch = e.isBranch := rfl
      have hfirst : (siblingElements (.element e :: nodes)).head?.any isBranch = e.isBranch := rfl
      rw [textsSince_element, ite_self, nil_append] at hrest
      rw [hnode, hfirst]
      cases hb : e.isBranch with
      | true =>
        have hmore := (hrest.append_left (strayBranch read (.element e))).append_left
          (textsSince read.reverse)
        simpa [strayText] using hmore
      | false => simpa [strayBranch, strayText, hb] using hrest
    | false =>
      have hnode : n.element? = none := element?_eq_none (by simp [hn])
      have hstray : strayBranch read n = [] := by
        cases n with
        | element e => simp [Node.isElement] at hn
        | text raw span | comment body span => rfl
      rw [textsSince_concat read hn] at hrest
      rw [siblingElements_cons hn, hnode, hstray, strayText_eq]
      -- The text itself is reported with those before it, which are then told one place later.
      cases hb : (siblingElements nodes).head?.any isBranch with
      | false => simpa [hb] using hrest
      | true =>
        rw [hb, if_pos rfl, append_assoc] at hrest
        simpa using hrest.trans (perm_append_comm_assoc _ _ _)

theorem opens_of_attachBranch (h : (attachBranch before b).2 = []) :
    ∃ e es, siblingElements before = e :: es ∧ e.opens = true := by
  rw [attachBranch] at h
  obtain ⟨hd, -⟩ | ⟨e, rest, hd, hs⟩ := dropWhile_cases before
  · rw [hd] at h
    simp at h
  · rw [hd] at h
    dsimp only at h
    split at h
    next ho => exact ⟨e, _, hs, ho⟩
    · simp at h

theorem unchained_addBranch (e b : Element) : unchained (e.addBranch b) = unchained e ++ [b] := by
  cases e
  rfl

theorem unchained_addSibling (hfresh : ∀ e ∈ n.element?, e.branches = []) (h : (addSibling before n).2 = []) :
    (siblingElements (addSibling before n).1).reverse.flatMap unchained =
      (siblingElements before).reverse.flatMap unchained ++ n.element?.toList := by
  cases n with
  | element e =>
    rw [addSibling] at h ⊢
    split at h
    next hb =>
      obtain ⟨f, es, hs, ho⟩ := opens_of_attachBranch h
      rw [if_pos hb, siblingElements_attachBranch, hs, addToFirst, if_pos ho]
      simp [unchained_addBranch, Node.element?]
    next hb =>
      have hb' : e.branches = [] := hfresh e rfl
      have he : unchained e = [e] := by
        cases e
        simp_all [unchained, Element.branches, Element.tag, Element.children]
      rw [if_neg hb]
      change ((e :: siblingElements before).reverse).flatMap unchained = _
      simp [he, Node.element?]
  | text raw span =>
    have hcons : ∀ t, siblingElements (.text t span :: before) = siblingElements before := by
      intro t
      rfl
    rw [addSibling]
    split
    · dsimp only
      split
      next hempty =>
        obtain rfl : before = [] := by simpa using hempty
        rfl
      · simp [hcons, Node.element?]
    · simp [hcons, Node.element?]
  | comment body span =>
    have hcons : siblingElements (.comment body span :: before) = siblingElements before := rfl
    simp [addSibling, hcons, Node.element?]

/-- Where nothing is reported, a chain holds its branches in the order in which they were read. -/
theorem unchained_addSiblings {nodes : List Node} (hfresh : ∀ e ∈ siblingElements nodes, e.branches = [])
    (h : (addSiblings before nodes).2 = []) :
    (siblingElements (addSiblings before nodes).1).reverse.flatMap unchained =
      (siblingElements before).reverse.flatMap unchained ++ siblingElements nodes := by
  induction nodes generalizing before with
  | nil => simp [addSiblings, siblingElements]
  | cons n nodes ih =>
    have hcons : siblingElements (n :: nodes) = n.element?.toList ++ siblingElements nodes := by
      cases n <;> rfl
    rw [hcons] at hfresh
    obtain ⟨hn, hnodes⟩ := forall_mem_append.mp hfresh
    rw [addSiblings_cons] at h ⊢
    obtain ⟨hstep, hrest⟩ := append_eq_nil_iff.mp h
    have hn' : ∀ e ∈ n.element?, e.branches = [] := by simpa using hn
    rw [ih hnodes hrest, unchained_addSibling hn' hstep, append_assoc, ← hcons]

end Runs

/-- The elements that are no branches are kept in their order, each with the branches that follow it
if it opens a chain. Reported are, each once, the branches that belong to no chain and the texts
before branches. If nothing is reported, no element is lost, doubled or moved. -/
theorem siblings_chained_exactly (nodes : List Node) :
    siblingElements (chainBranches nodes).1 = gathered (siblingElements nodes) ∧
      (chainBranches nodes).2.Perm (siblingFaults nodes) ∧
      ((∀ e ∈ siblingElements nodes, e.branches = []) → (chainBranches nodes).2 = [] →
        (siblingElements (chainBranches nodes).1).flatMap unchained = siblingElements nodes) := by
  have hstart : Reflects [] [] := ⟨rfl, rfl⟩
  have hblank : ∀ n : Node, n.isBlank = true → n.element? = none := by
    intro n hn
    cases n <;> simp_all [Node.isBlank, Node.element?]
  have helements : siblingElements (chainBranches nodes).1 = (siblingElements (addSiblings [] nodes).1).reverse := by
    rw [chainBranches]
    rw [siblingElements_reverse, siblingElements_dropWhile hblank]
  have hfaults : (chainBranches nodes).2 = (addSiblings [] nodes).2 := rfl
  refine ⟨?_, ?_, ?_⟩
  · rw [helements, (hstart.addSiblings nodes).elements, reverse_reverse, nil_append]
  · have hrun := faults_addSiblings hstart nodes
    rw [hfaults, siblingFaults]
    simpa [textsSince] using hrun
  · intro hfresh hnone
    rw [helements, unchained_addSiblings hfresh (hfaults ▸ hnone)]
    rfl

/-- A chain of three with white space and a comment between its branches, and an element after it. -/
theorem siblings_chained_exactly_three :
    let element (name : String) : Node :=
      .element (.mk ⟨['p'], [⟨name.toList, ['a']⟩], ⟨0, 0⟩⟩ [] [])
    let nodes := [element "v-if", .text ['\n'] ⟨0, 1⟩, element "v-else-if", .comment [] ⟨1, 8⟩,
      element "v-else", element "id"]
    ((∀ e ∈ siblingElements nodes, e.branches = []) ∧ (chainBranches nodes).2 = []) ∧
      (siblingElements (chainBranches nodes).1).flatMap unchained = siblingElements nodes := by
  intro element nodes
  have hfresh : ∀ e ∈ siblingElements nodes, e.branches = [] := by decide
  have hnone : (chainBranches nodes).2 = [] := by decide +kernel
  exact ⟨⟨hfresh, hnone⟩, (siblings_chained_exactly nodes).2.2 hfresh hnone⟩

end ComponentConverter.Template
