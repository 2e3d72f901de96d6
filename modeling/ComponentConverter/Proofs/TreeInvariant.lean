import ComponentConverter.Proofs.Emission
import ComponentConverter.Proofs.Placement

namespace ComponentConverter.Template

open List Markup

namespace Tag

def loopSource (tag : Tag) : Option Text := tag.loop.map Loop.source

def loopItem (tag : Tag) : Option Text := tag.loop.map Loop.item

/-- The names after the item of a loop, from zero. -/
def iterator (tag : Tag) (n : Nat) : Option Text := tag.loop.bind (·.iterators[n]?)

/-- A loop has both a source and an item, and its further names, two at most, follow each other. -/
structure LoopWhole (tag : Tag) : Prop where
  parts : (tag.loopSource = none ∧ tag.loopItem = none) ∨
    ∃ source item, tag.loopSource = some source ∧ tag.loopItem = some item ∧ source ≠ [] ∧ item ≠ []
  first : (tag.iterator 0).isSome = true → tag.loopItem.isSome = true
  second : (tag.iterator 1).isSome = true → (tag.iterator 0).isSome = true
  others : ∀ n, 2 ≤ n → tag.iterator n = none

end Tag

/-- What an element of a tree keeps to, whatever the source was. -/
structure Element.WellFormed (e : Element) : Prop where
  children : ∀ c, Node.element c ∈ e.children → c.tag.guard.isBranch = false
  opens : e.branches ≠ [] → e.tag.guard.opening?.isSome = true
  branches : ∀ b ∈ e.branches, b.tag.guard.isBranch = true ∧ b.tag.guard.opening? = none ∧
    b.branches = [] ∧ b.tag.guard.branchCondition = b.tag.attribute? "v-else-if"
  loop : e.tag.LoopWhole
  void : isVoid e.tag.name = true → e.children = []
  first : ∀ n ∈ e.children.head?, n.isBlank = false
  last : ∀ n ∈ e.children.getLast?, n.isBlank = false
  names : (e.tag.attributes.map Attribute.name).Nodup

section Loops

theorem Loop.length_splitIterators (names : Text) : (Loop.splitIterators names).2.length ≤ 2 := by
  rw [Loop.splitIterators]
  split
  · simp
  · split
    · split
      · split <;> simp
      · simp
    · simp

theorem Loop.parse?_eq_some {expression : Text} {l : Loop} (h : Loop.parse? expression = some l) :
    l.source ≠ [] ∧ l.item ≠ [] ∧ l.iterators.length ≤ 2 := by
  rw [Loop.parse?] at h
  split at h
  · simp at h
  next names source heq =>
    dsimp only at h
    split at h
    · simp at h
    next hne =>
      simp only [Bool.or_eq_true, List.isEmpty_iff, not_or] at hne
      obtain rfl := Option.some.inj h
      refine ⟨hne.2, hne.1, ?_⟩
      rw [length_map]
      exact Loop.length_splitIterators _

theorem Tag.loopWhole (tag : Tag) : tag.LoopWhole := by
  cases hl : tag.loop with
  | none =>
    exact ⟨.inl (by simp [loopSource, loopItem, hl]), by simp [iterator, hl], by simp [iterator, hl],
      by simp [iterator, hl]⟩
  | some l =>
    obtain ⟨expression, -, hp⟩ := Option.bind_eq_some_iff.mp hl
    obtain ⟨hs, hi, hn⟩ := Loop.parse?_eq_some hp
    refine ⟨.inr ⟨l.source, l.item, by simp [loopSource, hl], by simp [loopItem, hl], hs, hi⟩,
      by simp [loopItem, hl], ?_, ?_⟩
    · simp only [iterator, hl, Option.bind_some, isSome_getElem?]
      omega
    · intro n hle
      simp only [iterator, hl, Option.bind_some, getElem?_eq_none_iff]
      omega

end Loops

section Attributes

theorem nodup_collectAttributes {known : List Attribute} (h : (known.map Attribute.name).Nodup)
    (items : List TagItem) : ((collectAttributes known items).1.map Attribute.name).Nodup := by
  induction items generalizing known with
  | nil => exact h
  | cons item items ih =>
    rcases item with ⟨name, nameSpan, value, own⟩ | fault
    · rw [collectAttributes]
      split
      · exact ih h
      next hnew =>
        apply ih
        rw [map_append, nodup_append]
        refine ⟨h, by simp, ?_⟩
        simpa using hnew
    · exact ih h

theorem Cursor.nodup_startTag (c : Cursor) : (c.startTag.1.attributes.map Attribute.name).Nodup := by
  have hn : ((collectAttributes [] c.tagItems.1).1.map Attribute.name).Nodup := nodup_collectAttributes (by simp) _
  rw [Cursor.startTag]
  dsimp only
  split <;> exact hn

def Named (_ : Text) (attributes : List Attribute) : Prop := (attributes.map Attribute.name).Nodup

theorem opens_named (source : Text) : ∀ p ∈ (Piece.all source).1, p.Opens Named := by
  have hrun : Run Piece.next (.start source) (Piece.all source).1 _ := run_exhaust source.length _
  refine hrun.forall_mem ?_
  rintro c p d hnext name start tag stop rfl
  cases Piece.next_cases hnext with
  | opening _ _ _ ht =>
    obtain ⟨rfl, -⟩ := Prod.ext_iff.mp ht
    exact Cursor.nodup_startTag _

end Attributes

section Edges

variable {before nodes : List Node}

/-- No white space stands before all other siblings, the siblings being given last first. -/
def Headed (before : List Node) : Prop := ∀ n ∈ before.getLast?, n.isBlank = false

theorem Headed.cons {n : Node} (h : Headed before) (hn : n.isBlank = false ∨ before ≠ []) : Headed (n :: before) := by
  intro m hm
  cases before with
  | nil =>
    obtain rfl := Option.some.inj hm
    exact hn.resolve_right (by simp)
  | cons n' before =>
    exact h m hm

theorem Headed.tail {n : Node} (h : Headed (n :: before)) : Headed before := by
  cases before with
  | nil => simp [Headed]
  | cons n' before =>
    intro m hm
    apply h m
    rwa [getLast?_cons_cons]

theorem Headed.dropWhile (h : Headed before) (p : Node → Bool) : Headed (before.dropWhile p) := by
  induction before with
  | nil => exact h
  | cons n before ih =>
    rw [dropWhile_cons]
    split
    · exact ih h.tail
    · exact h

theorem headed_attachBranch (h : Headed before) (b : Element) : Headed (attachBranch before b).1 := by
  have hd := h.dropWhile (!·.isElement)
  rw [attachBranch]
  split
  next e rest heq =>
    rw [heq] at hd
    split
    · exact hd.tail.cons (.inl rfl)
    · exact hd
  · exact hd

theorem headed_addSibling (h : Headed before) (node : Node) : Headed (addSibling before node).1 := by
  cases node with
  | element e =>
    rw [addSibling]
    split
    · exact headed_attachBranch h e
    · exact h.cons (.inl rfl)
  | text raw span =>
    rw [addSibling]
    split
    · dsimp only
      split
      · simp [Headed]
      next hne => exact h.cons (.inr (by simpa using hne))
    next hraw => exact h.cons (.inl (by simpa [Node.isBlank] using hraw))
  | comment body span => exact h.cons (.inl rfl)

theorem headed_addSiblings (h : Headed before) (nodes : List Node) : Headed (addSiblings before nodes).1 := by
  induction nodes generalizing before with
  | nil => exact h
  | cons node nodes ih => exact ih (headed_addSibling h node)

theorem edges_chainBranches (nodes : List Node) : (∀ n ∈ (chainBranches nodes).1.head?, n.isBlank = false) ∧
      ∀ n ∈ (chainBranches nodes).1.getLast?, n.isBlank = false := by
  have hh : Headed (addSiblings [] nodes).1 := headed_addSiblings (by simp [Headed]) nodes
  rw [chainBranches]
  rw [head?_reverse, getLast?_reverse]
  refine ⟨hh.dropWhile _, ?_⟩
  intro n hn
  have hhead := head?_dropWhile_not Node.isBlank (addSiblings [] nodes).1
  rw [Option.mem_def.mp hn] at hhead
  exact hhead

end Edges

section Trees

/-- What an element keeps to by its tag and its children alone. -/
structure Element.Proper (e : Element) : Prop where
  void : isVoid e.tag.name = true → e.children = []
  first : ∀ n ∈ e.children.head?, n.isBlank = false
  last : ∀ n ∈ e.children.getLast?, n.isBlank = false
  names : (e.tag.attributes.map Attribute.name).Nodup

def Node.Proper : Node → Prop
  | .element e => ∀ x ∈ e.elements, x.Proper
  | _ => True

theorem settles_proper : Settles Node.Proper Node.Proper where
  stay _ h _ := h
  blank _ _ _ := trivial
  addBranch e b he _ hb _ := by
    refine forall_elements_addBranch (fun h => ?_) he hb
    cases e
    exact ⟨h.void, h.first, h.last, h.names⟩

theorem gathers_proper : Gathers Named Node.Proper where
  text _ _ := trivial
  comment _ _ := trivial
  childless tag hq :=
    forall_elements_mk ⟨fun _ => rfl, by simp [Element.children], by simp [Element.children], hq⟩ (by simp)
  enclosing tag nodes hq hv hn := by
    obtain ⟨hfirst, hlast⟩ := edges_chainBranches nodes
    refine forall_elements_mk ⟨?_, hfirst, hlast, hq⟩ fun e he => forall_chainBranches settles_proper hn _ he
    intro ht
    rw [Element.tag, hv] at ht
    simp at ht

theorem parse_proper {source : Text} {keepComments : Bool} {root : Element}
    (h : (parse source keepComments).1 = some root) : ∀ e ∈ root.elements, e.Proper := by
  have hb := Build.keeps_ofSource gathers_proper source keepComments (opens_named source)
  apply forall_chainBranches settles_proper _ _ (root_mem_of_parse h)
  intro n hn
  exact hb.roots n (mem_reverse.mp hn)

mutual

theorem Element.shaped_of_mem : ∀ (e : Element), e.Shaped → ∀ x ∈ e.elements, x.Shaped
  | .mk tag children branches, h, x, hx => by
    rw [Element.elements] at hx
    rcases mem_cons.mp hx with rfl | hx
    · exact h
    · rcases mem_append.mp hx with hx | hx
      · exact shaped_of_mem_nodes children h.2.1 x hx
      · exact shaped_of_mem_branches branches h.2.2 x hx

theorem shaped_of_mem_nodes : ∀ (ns : List Node), NodesShaped ns → ∀ x ∈ elementsOfNodes ns, x.Shaped
  | [], _, _, hx => by simp [elementsOfNodes] at hx
  | .element e :: ns, h, x, hx => by
    rw [elementsOfNodes] at hx
    rcases mem_append.mp hx with hx | hx
    · exact Element.shaped_of_mem e h.1.2 x hx
    · exact shaped_of_mem_nodes ns h.2 x hx
  | .text _ _ :: ns, h, x, hx => shaped_of_mem_nodes ns h x hx
  | .comment _ _ :: ns, h, x, hx => shaped_of_mem_nodes ns h x hx

theorem shaped_of_mem_branches : ∀ (bs : List Element), BranchesShaped bs → ∀ x ∈ elementsOfBranches bs, x.Shaped
  | [], _, _, hx => by simp [elementsOfBranches] at hx
  | b :: bs, h, x, hx => by
    rw [elementsOfBranches] at hx
    rcases mem_append.mp hx with hx | hx
    · exact Element.shaped_of_mem b h.1.2.2 x hx
    · exact shaped_of_mem_branches bs h.2 x hx

end

theorem branchesShaped_iff (bs : List Element) :
    BranchesShaped bs ↔ ∀ b ∈ bs, b.tag.guard.isBranch = true ∧ b.branches = [] ∧ b.Shaped := by
  induction bs with
  | nil => simp [BranchesShaped]
  | cons b bs ih => simp [BranchesShaped, ih]

theorem Element.wellFormed {e : Element} (hs : e.Shaped) (hp : e.Proper) : e.WellFormed := by
  cases e with
  | mk tag children branches =>
    obtain ⟨ho, hc, hb⟩ := hs
    refine ⟨?_, ho, ?_, tag.loopWhole, hp.void, hp.first, hp.last, hp.names⟩
    · intro c hmem
      exact ((nodesShaped_iff children).mp hc _ hmem).1
    · intro b hmem
      obtain ⟨hbranch, hnone, -⟩ := (branchesShaped_iff branches).mp hb b hmem
      exact ⟨hbranch, Svelte.opening_none_of_branch hbranch, hnone, Svelte.branchCondition_of_branch hbranch⟩

end Trees

/-- Whatever the source, the root of the tree read from it is no branch and all elements of the tree
are well formed. -/
theorem parse_wellFormed {source : Text} {keepComments : Bool} {root : Element}
    (h : (parse source keepComments).1 = some root) :
    root.tag.guard.isBranch = false ∧ ∀ e ∈ root.elements, e.WellFormed := by
  obtain ⟨hb, hs⟩ := parse_shaped h
  refine ⟨hb, ?_⟩
  intro e he
  exact Element.wellFormed (Element.shaped_of_mem root hs e he) (parse_proper h e he)

/-- A source with a stray branch, a doubled attribute, an unfit loop, and elements left open. -/
theorem parse_wellFormed_broken : ∃ root,
    (parse "<ul a a='1'> <li v-else>x</li> <br> <p v-if='c' v-for='(x, y) in z'/> <b v-else v-for='x'>"
      true).1 = some root ∧
    (parse "<ul a a='1'> <li v-else>x</li> <br> <p v-if='c' v-for='(x, y) in z'/> <b v-else v-for='x'>"
      true).2.length = 5 ∧
    root.tag.guard.isBranch = false ∧ ∀ e ∈ root.elements, e.WellFormed := by
  obtain ⟨hsome, hlength⟩ :
      (parse "<ul a a='1'> <li v-else>x</li> <br> <p v-if='c' v-for='(x, y) in z'/> <b v-else v-for='x'>"
        true).1.isSome = true ∧
      (parse "<ul a a='1'> <li v-else>x</li> <br> <p v-if='c' v-for='(x, y) in z'/> <b v-else v-for='x'>"
        true).2.length = 5 := by decide +kernel
  obtain ⟨root, h⟩ := Option.isSome_iff_exists.mp hsome
  exact ⟨root, h, hlength, parse_wellFormed h⟩

end ComponentConverter.Template

namespace ComponentConverter.Svelte

open List Template

mutual

theorem mem_elements_of_emitted (e : Element) {x : Element} (h : x ∈ emitted e) : x ∈ e.elements := by
  cases e with
  | mk tag children branches =>
    rcases mem_cons.mp h with rfl | h
    · exact mem_cons_self
    · rcases mem_append.mp h with h | h
      · split at h
        · cases h
        · exact mem_cons_of_mem _ (mem_append_left _ (mem_elements_of_emittedInNodes children h))
      · exact mem_cons_of_mem _ (mem_append_right _ (mem_elements_of_emittedInBranches branches h))

theorem mem_elements_of_emittedInNodes (ns : List Node) {x : Element} (h : x ∈ emittedInNodes ns) :
    x ∈ elementsOfNodes ns := by
  match ns with
  | [] => cases h
  | .element e :: ns =>
    rcases mem_append.mp h with h | h
    · exact mem_append_left _ (mem_elements_of_emitted e h)
    · exact mem_append_right _ (mem_elements_of_emittedInNodes ns h)
  | .text raw span :: ns => exact mem_elements_of_emittedInNodes ns h
  | .comment body span :: ns => exact mem_elements_of_emittedInNodes ns h

theorem mem_elements_of_emittedInBranches (es : List Element) {x : Element}
    (h : x ∈ emittedInBranches es) : x ∈ elementsOfBranches es := by
  match es with
  | [] => cases h
  | e :: es =>
    rcases mem_append.mp h with h | h
    · exact mem_append_left _ (mem_elements_of_emitted e h)
    · exact mem_append_right _ (mem_elements_of_emittedInBranches es h)

end

theorem shaped_of_emitted {root : Element} (h : root.Shaped) : ∀ e ∈ emitted root, e.Shaped := by
  intro e he
  exact Element.shaped_of_mem root h e (mem_elements_of_emitted root he)

end ComponentConverter.Svelte
