import ComponentConverter.Proofs.TreeShape
import ComponentConverter.Svelte.Item

namespace ComponentConverter.Svelte

open List Template

mutual

/-- The elements that are written: the children of an element with raw content are not. -/
def emitted : Element → List Element
  | .mk tag children branches =>
    .mk tag children branches ::
      ((if tag.html.isSome then [] else emittedInNodes children) ++ emittedInBranches branches)

def emittedInNodes : List Node → List Element
  | [] => []
  | .element e :: ns => emitted e ++ emittedInNodes ns
  | .text _ _ :: ns => emittedInNodes ns
  | .comment _ _ :: ns => emittedInNodes ns

def emittedInBranches : List Element → List Element
  | [] => []
  | e :: es => emitted e ++ emittedInBranches es

end

def isClosed (tag : Tag) (children : List Node) : Bool := children.isEmpty && (tag.html.isSome || isVoid tag.name)

def bodyItems (inner : Nat) (tag : Tag) (children : List Node) : List Item :=
  if isClosed tag children then []
  else
    (tag.html.elim (itemsOfNodes (inner + 1) children) fun x => [.html (inner + 1) x]) ++ [.closeTag inner tag.name]

theorem itemsOfElement_mk (depth : Nat) (tag : Tag) (children : List Node) (branches : List Element) :
    itemsOfElement depth (.mk tag children branches) = heads depth tag ++
        ((.openTag (innerDepth depth tag) tag.name (tag.attributes.filterMap Attribute.ofTemplate?)
            (isClosed tag children) :: bodyItems (innerDepth depth tag) tag children) ++
          (itemsOfBranches (innerDepth depth tag - 1) branches ++ tails (innerDepth depth tag) tag)) := by
  rw [itemsOfElement, bodyItems, isClosed]
  cases tag.html <;> simp

def textItem (depth : Nat) (raw : Text) : Item :=
  match Template.Part.split? raw with
  | some parts => .dynamic depth parts
  | none => .static raw

def nodeItem? (depth : Nat) : Node → Option Item
  | .element _ => none
  | .text raw _ => some (textItem depth raw)
  | .comment body _ => some (.comment depth body)

def contentItems (inner : Nat) (tag : Tag) (children : List Node) : List Item :=
  if isClosed tag children then []
  else
    (tag.html.elim (children.filterMap (nodeItem? (inner + 1))) fun x => [.html (inner + 1) x]) ++
      [.closeTag inner tag.name]

/-- What is written for an element, without the elements below it. -/
def ownItems (depth : Nat) : Element → List Item
  | .mk tag children _ =>
    heads depth tag ++ ((.openTag (innerDepth depth tag) tag.name (tag.attributes.filterMap Attribute.ofTemplate?)
          (isClosed tag children) :: contentItems (innerDepth depth tag) tag children) ++
        tails (innerDepth depth tag) tag)

/-- Elements at their depths, and all that is written for them. -/
def itemsAt (placed : List (Nat × Element)) : List Item := placed.flatMap fun p => ownItems p.1 p.2

theorem perm_bodyItems {inner : Nat} {tag : Tag} {children : List Node} {placed : List (Nat × Element)}
    (hp : placed.map Prod.snd = emittedInNodes children)
    (h : (itemsOfNodes (inner + 1) children).Perm (children.filterMap (nodeItem? (inner + 1)) ++ itemsAt placed)) :
    (bodyItems inner tag children).Perm
      (contentItems inner tag children ++ itemsAt (if tag.html.isSome then [] else placed)) := by
  rw [bodyItems, contentItems]
  cases tag.html with
  | some x => exact .of_eq (append_nil _).symm
  | none =>
    split
    next hclosed =>
      obtain rfl : children = [] := by
        rw [isClosed, Bool.and_eq_true_iff] at hclosed
        exact List.isEmpty_iff.mp hclosed.1
      obtain rfl := map_eq_nil_iff.mp hp
      exact .refl _
    · refine (h.append_right _).trans ?_
      rw [append_assoc, append_assoc]
      exact perm_append_comm.append_left _

mutual

/-- What is written for a tree is what is written for each of its elements. -/
theorem exists_itemsAt (depth : Nat) (e : Element) :
    ∃ placed, placed.map Prod.snd = emitted e ∧ (itemsOfElement depth e).Perm (itemsAt placed) := by
  cases e with
  | mk tag children branches =>
    obtain ⟨below, hbelow, hc⟩ := exists_itemsAt_nodes (innerDepth depth tag + 1) children
    obtain ⟨beside, hbeside, hb⟩ := exists_itemsAt_branches (innerDepth depth tag - 1) branches
    refine ⟨(depth, .mk tag children branches) :: ((if tag.html.isSome then [] else below) ++ beside), ?_, ?_⟩
    · rw [emitted, ← hbelow, ← hbeside, map_cons, map_append]
      split <;> rfl
    · rw [itemsOfElement_mk, itemsAt, flatMap_cons, flatMap_append, ownItems, append_assoc, append_assoc]
      -- The ends come behind content and branches.
      refine List.Perm.append_left _ ((((perm_bodyItems hbelow hc).cons _).append (hb.append_right _)).trans ?_)
      rw [← cons_append, append_assoc]
      refine List.Perm.append_left _ ?_
      rw [← append_assoc]
      exact perm_append_comm

theorem exists_itemsAt_nodes (depth : Nat) (ns : List Node) : ∃ placed, placed.map Prod.snd = emittedInNodes ns ∧
      (itemsOfNodes depth ns).Perm (ns.filterMap (nodeItem? depth) ++ itemsAt placed) := by
  match ns with
  | [] => exact ⟨[], rfl, .refl _⟩
  | .element e :: ns =>
    obtain ⟨here, hhere, he⟩ := exists_itemsAt depth e
    obtain ⟨there, hthere, hn⟩ := exists_itemsAt_nodes depth ns
    refine ⟨here ++ there, by rw [map_append, hhere, hthere, emittedInNodes], ?_⟩
    rw [itemsOfNodes, itemsAt, flatMap_append]
    exact (he.append hn).trans (perm_append_comm_assoc _ _ _)
  | .text raw span :: ns | .comment body span :: ns =>
    obtain ⟨placed, hplaced, hn⟩ := exists_itemsAt_nodes depth ns
    exact ⟨placed, hplaced, hn.cons _⟩

theorem exists_itemsAt_branches (depth : Nat) (es : List Element) :
    ∃ placed, placed.map Prod.snd = emittedInBranches es ∧ (itemsOfBranches depth es).Perm (itemsAt placed) := by
  match es with
  | [] => exact ⟨[], rfl, .refl _⟩
  | e :: es =>
    obtain ⟨here, hhere, he⟩ := exists_itemsAt depth e
    obtain ⟨there, hthere, hes⟩ := exists_itemsAt_branches depth es
    refine ⟨here ++ there, by rw [map_append, hhere, hthere, emittedInBranches], ?_⟩
    rw [itemsOfBranches, itemsAt, flatMap_append]
    exact he.append hes

end

/-- No branch repeats, and only the last one is a last resort. -/
def ChainInOrder (branches : List Element) : Prop :=
  (∀ b ∈ branches, b.tag.loop = none) ∧ ∀ b ∈ branches.dropLast, b.tag.has "v-else" = false

instance : DecidablePred ChainInOrder := fun _ => inferInstanceAs (Decidable (_ ∧ _))

theorem chainInOrder_nil : ChainInOrder [] := ⟨by simp, by simp⟩

theorem chainInOrder_cons (b : Element) (bs : List Element) :
    ChainInOrder (b :: bs) ↔ b.tag.loop = none ∧ (b.tag.has "v-else" = true → bs = []) ∧ ChainInOrder bs := by
  cases bs with
  | nil => simp [ChainInOrder]
  | cons c cs =>
    simp only [ChainInOrder, mem_cons, forall_eq_or_imp, dropLast_cons_cons, reduceCtorEq,
      imp_false, Bool.not_eq_true]
    constructor
    · rintro ⟨⟨hb, hc, hcs⟩, he, hd⟩
      exact ⟨hb, he, ⟨hc, hcs⟩, hd⟩
    · rintro ⟨hb, he, ⟨hc, hcs⟩, hd⟩
      exact ⟨⟨hb, hc, hcs⟩, he, hd⟩

theorem forall_emitted_mk (P : Element → Prop) (tag : Tag) (children : List Node) (branches : List Element) :
    (∀ x ∈ emitted (.mk tag children branches), P x) ↔
      P (.mk tag children branches) ∧ (tag.html.isSome = false → ∀ x ∈ emittedInNodes children, P x) ∧
        ∀ x ∈ emittedInBranches branches, P x := by
  rw [emitted, forall_mem_cons]
  cases tag.html.isSome <;> simp [or_imp, forall_and]

def Orderly (e : Element) : Prop := ∀ x ∈ emitted e, ChainInOrder x.branches

theorem orderly_mk (tag : Tag) (children : List Node) (branches : List Element) :
    Orderly (.mk tag children branches) ↔ ChainInOrder branches ∧
        (tag.html.isSome = false → ∀ x ∈ emittedInNodes children, ChainInOrder x.branches) ∧
        ∀ x ∈ emittedInBranches branches, ChainInOrder x.branches :=
  forall_emitted_mk (fun x => ChainInOrder x.branches) tag children branches

theorem branchHead_of_branch {tag : Tag} (h : tag.guard.isBranch = true) :
    (tag.has "v-else" = true ∧ branchHead tag = some .otherwise) ∨ (tag.has "v-else" = false ∧
        ∃ c, tag.guard.branchCondition = some c ∧ branchHead tag = some (.elseIf c)) := by
  rw [branchHead]
  cases hg : tag.guard with
  | unguarded => simp [hg, Guard.isBranch] at h
  | opens c => simp [hg, Guard.isBranch] at h
  | continues condition =>
    cases condition with
    | none =>
      left
      refine ⟨?_, rfl⟩
      rw [Tag.guard] at hg
      split at hg <;> simp_all
    | some c => cases tag.has "v-else" <;> simp [Guard.branchCondition]

theorem branchCondition_of_branch {tag : Tag} (h : tag.guard.isBranch = true) :
    tag.guard.branchCondition = tag.attribute? "v-else-if" := by
  revert h
  rw [Tag.guard]
  split
  · simp [Guard.isBranch]
  next hc => simp [Guard.branchCondition, hc]
  next hc => split <;> simp [Guard.branchCondition, hc]

theorem opening_none_of_branch {g : Guard} (h : g.isBranch = true) : g.opening? = none := by
  cases g <;> simp_all [Guard.isBranch, Guard.opening?]

end ComponentConverter.Svelte
