import ComponentConverter.Proofs.Emission
import ComponentConverter.Svelte.Markup

namespace ComponentConverter.Svelte

open List Template

variable {tag : Tag} {children : List Node} {branches : List Element}

inductive Turn where
  | child (index : Nat)
  | branch (index : Nat)
  deriving Repr, DecidableEq

/-- The place of an element in a tree, the last step first. -/
abbrev Place := List Turn

/-- A delimiter as it is written, and the place of the element that opened its block or, for a
branch, of the element that opened its chain. -/
structure Line where
  block : Place
  depth : Nat
  delimiter : Delimiter
  deriving Repr, DecidableEq

def Delimiter.isLoop : Delimiter → Bool
  | .each _ _ _ => true
  | .endEach => true
  | _ => false

/-- The line of an item of an element that stands at a place and belongs to a chain. -/
def Item.line? (place chain : Place) : Item → Option Line
  | .delimiter depth d => some ⟨if d.isLoop then place else chain, depth, d⟩
  | _ => none

def Item.delimiter? : Item → Option (Nat × Delimiter)
  | .delimiter depth d => some (depth, d)
  | _ => none

def Line.written (l : Line) : Nat × Delimiter := (l.depth, l.delimiter)

mutual

def linesOfElement (place chain : Place) (depth : Nat) : Element → List Line
  | .mk tag children branches =>
    let inner := innerDepth depth tag
    (heads depth tag).filterMap (Item.line? place chain) ++
      ((if tag.html.isSome then [] else linesOfNodes place 0 (inner + 1) children) ++
        (linesOfBranches place 0 (inner - 1) branches ++ (tails inner tag).filterMap (Item.line? place chain)))

def linesOfNodes (parent : Place) (index depth : Nat) : List Node → List Line
  | [] => []
  | .element e :: ns =>
    linesOfElement (.child index :: parent) (.child index :: parent) depth e ++
      linesOfNodes parent (index + 1) depth ns
  | .text _ _ :: ns => linesOfNodes parent (index + 1) depth ns
  | .comment _ _ :: ns => linesOfNodes parent (index + 1) depth ns

def linesOfBranches (chain : Place) (index depth : Nat) : List Element → List Line
  | [] => []
  | e :: es =>
    linesOfElement (.branch index :: chain) chain depth e ++ linesOfBranches chain (index + 1) depth es

end

def delimiterLines (root : Element) : List Line := linesOfElement [] [] 0 root

theorem written_filterMap_line (place chain : Place) (items : List Item) :
    (items.filterMap (Item.line? place chain)).map Line.written = items.filterMap Item.delimiter? := by
  induction items with
  | nil => rfl
  | cons i items ih =>
    cases i <;> simp [filterMap_cons, Item.line?, Item.delimiter?, Line.written, ih]

mutual

theorem written_linesOfElement (place chain : Place) (depth : Nat) (e : Element) :
    (linesOfElement place chain depth e).map Line.written = (itemsOfElement depth e).filterMap Item.delimiter? := by
  cases e with
  | mk tag children branches =>
    have hc := written_linesOfNodes place 0 (innerDepth depth tag + 1) children
    have hb := written_linesOfBranches place 0 (innerDepth depth tag - 1) branches
    have hbody : (if tag.html.isSome = true then []
        else linesOfNodes place 0 (innerDepth depth tag + 1) children).map Line.written =
        (bodyItems (innerDepth depth tag) tag children).filterMap Item.delimiter? := by
      rw [bodyItems, isClosed]
      cases tag.html with
      | some expression => cases children <;> simp [Item.delimiter?]
      | none =>
        cases children with
        | nil => cases hv : isVoid tag.name <;> simp [linesOfNodes, itemsOfNodes, Item.delimiter?]
        | cons n ns => simp [hc, Item.delimiter?]
    rw [linesOfElement, itemsOfElement_mk]
    simp only [map_append, filterMap_append, filterMap_cons, Item.delimiter?, written_filterMap_line, hbody, hb]

theorem written_linesOfNodes (parent : Place) (index depth : Nat) (ns : List Node) :
    (linesOfNodes parent index depth ns).map Line.written = (itemsOfNodes depth ns).filterMap Item.delimiter? := by
  match ns with
  | [] => rfl
  | .element e :: ns =>
    simp only [linesOfNodes, itemsOfNodes, map_append, filterMap_append,
      written_linesOfElement _ _ depth e, written_linesOfNodes parent (index + 1) depth ns]
  | .text raw span :: ns =>
    have hn := written_linesOfNodes parent (index + 1) depth ns
    rw [linesOfNodes, itemsOfNodes, hn]
    split <;> rfl
  | .comment body span :: ns =>
    exact written_linesOfNodes parent (index + 1) depth ns

theorem written_linesOfBranches (chain : Place) (index depth : Nat) (es : List Element) :
    (linesOfBranches chain index depth es).map Line.written =
      (itemsOfBranches depth es).filterMap Item.delimiter? := by
  match es with
  | [] => rfl
  | e :: es =>
    simp only [linesOfBranches, itemsOfBranches, map_append, filterMap_append,
      written_linesOfElement _ chain depth e, written_linesOfBranches chain (index + 1) depth es]

end

/-- A block that has been opened and not closed. A choice is settled after its last resort. -/
inductive OpenBlock where
  | loop (owner : Place) (depth : Nat)
  | choice (owner : Place) (depth : Nat) (settled : Bool)
  deriving Repr, DecidableEq

namespace OpenBlock

/-- Reads one delimiter, given the open blocks, innermost first. A delimiter that continues or ends
a block finds that very block innermost, and stands at its depth. -/
def step : List OpenBlock → Line → Option (List OpenBlock)
  | open_, ⟨block, depth, .each _ _ _⟩ => some (.loop block depth :: open_)
  | open_, ⟨block, depth, .ifTrue _⟩ => some (.choice block depth false :: open_)
  | .choice owner at_ false :: open_, ⟨block, depth, .elseIf _⟩ =>
    if block = owner ∧ depth = at_ then some (.choice owner at_ false :: open_) else none
  | .choice owner at_ false :: open_, ⟨block, depth, .otherwise⟩ =>
    if block = owner ∧ depth = at_ then some (.choice owner at_ true :: open_) else none
  | .choice owner at_ _ :: open_, ⟨block, depth, .endIf⟩ =>
    if block = owner ∧ depth = at_ then some open_ else none
  | .loop owner at_ :: open_, ⟨block, depth, .endEach⟩ =>
    if block = owner ∧ depth = at_ then some open_ else none
  | _, _ => none

def run (open_ : List OpenBlock) (lines : List Line) : Option (List OpenBlock) := lines.foldlM step open_

@[simp]
theorem run_nil (open_ : List OpenBlock) : run open_ [] = some open_ := rfl

@[simp]
theorem run_cons (open_ : List OpenBlock) (l : Line) (ls : List Line) :
    run open_ (l :: ls) = (step open_ l).bind (run · ls) := rfl

theorem run_append_eq_some {open_ after : List OpenBlock} {ls ms : List Line} :
    run open_ (ls ++ ms) = some after ↔ ∃ mid, run open_ ls = some mid ∧ run mid ms = some after := by
  simp [run, Option.bind_eq_some_iff]

end OpenBlock

/-- Each delimiter finds its own block innermost, and no block is left open. -/
def WellNested (lines : List Line) : Prop := OpenBlock.run [] lines = some []

instance : DecidablePred WellNested := fun _ => inferInstanceAs (Decidable (_ = _))

theorem run_heads_branch (h : tag.guard.isBranch = true) (place chain : Place)
    (depth : Nat) (owner : Place) (at_ : Nat) (settled : Bool) (open_ after : List OpenBlock) :
    OpenBlock.run (.choice owner at_ settled :: open_)
        ((heads depth tag).filterMap (Item.line? place chain)) = some after ↔
      (tag.loop = none ∧ settled = false ∧ chain = owner ∧ depth = at_) ∧
        after = .choice owner at_ (tag.has "v-else") :: open_ := by
  rw [heads, eachHead]
  obtain ⟨he, hh⟩ | ⟨he, c, -, hh⟩ := branchHead_of_branch h
  all_goals
    cases hl : tag.loop with
    | some l => simp [hh, Item.line?, OpenBlock.step]
    | none =>
      cases settled with
      | true => simp [hh, Item.line?, OpenBlock.step]
      | false =>
        by_cases ho : chain = owner ∧ depth = at_
        · obtain ⟨rfl, rfl⟩ := ho
          simpa [hh, he, Item.line?, OpenBlock.step, Delimiter.isLoop] using eq_comm
        · simp [hh, Item.line?, OpenBlock.step, Delimiter.isLoop, ho]

/-- The blocks that an element opens, innermost first. -/
def blocksOf (place : Place) (depth : Nat) (tag : Tag) (settled : Bool) : List OpenBlock :=
  (if tag.guard.opening?.isSome then
    [.choice place (if tag.loop.isSome then depth + 1 else depth) settled] else []) ++
    (if tag.loop.isSome then [.loop place depth] else [])

theorem run_heads (h : tag.guard.isBranch = false) (place : Place) (depth : Nat) (open_ : List OpenBlock) :
    OpenBlock.run open_ ((heads depth tag).filterMap (Item.line? place place)) =
      some (blocksOf place depth tag false ++ open_) := by
  rw [heads, eachHead, branchHead, blocksOf]
  cases hg : tag.guard with
  | continues c => simp [hg, Guard.isBranch] at h
  | unguarded | opens c =>
    cases tag.loop <;>
      simp [Item.line?, OpenBlock.step, Guard.opening?]

theorem run_tails (h : tag.guard.isBranch = false) (place : Place) (depth : Nat)
    (settled : Bool) (open_ : List OpenBlock) :
    OpenBlock.run (blocksOf place depth tag settled ++ open_)
      ((tails (innerDepth depth tag) tag).filterMap (Item.line? place place)) = some open_ := by
  rw [tails, innerDepth, branchHead, blocksOf]
  cases hg : tag.guard with
  | continues c => simp [hg, Guard.isBranch] at h
  | unguarded | opens c =>
    cases tag.loop <;>
      simp [Item.line?, OpenBlock.step, Guard.opening?]

theorem innerDepth_of_opening (h : tag.guard.opening?.isSome = true) (depth : Nat) :
    innerDepth depth tag - 1 = if tag.loop.isSome then depth + 1 else depth := by
  rw [innerDepth, branchHead]
  cases hg : tag.guard with
  | opens c => cases tag.loop <;> simp
  | unguarded | continues c => simp [hg, Guard.opening?] at h

/-- The lines of an element can be read exactly if the chains in it are in order, and then leave
the open blocks as they were. -/
def ElementNests (e : Element) : Prop :=
  ∀ (place : Place) (depth : Nat) (open_ after : List OpenBlock),
    OpenBlock.run open_ (linesOfElement place place depth e) = some after ↔ after = open_ ∧ Orderly e

def NodesNest (ns : List Node) : Prop :=
  ∀ (parent : Place) (index depth : Nat) (open_ after : List OpenBlock),
    OpenBlock.run open_ (linesOfNodes parent index depth ns) = some after ↔
      after = open_ ∧ ∀ x ∈ emittedInNodes ns, ChainInOrder x.branches

def BranchNests (e : Element) : Prop :=
  ∀ (place chain : Place) (depth : Nat) (settled : Bool) (open_ after : List OpenBlock),
    OpenBlock.run (.choice chain depth settled :: open_) (linesOfElement place chain depth e) = some after ↔
      (e.tag.loop = none ∧ settled = false ∧ Orderly e) ∧ after = .choice chain depth (e.tag.has "v-else") :: open_

def BranchesNest (bs : List Element) : Prop :=
  ∀ (chain : Place) (index depth : Nat) (settled : Bool) (open_ after : List OpenBlock),
    OpenBlock.run (.choice chain depth settled :: open_) (linesOfBranches chain index depth bs) = some after ↔
      ((settled = true → bs = []) ∧ ChainInOrder bs ∧ ∀ x ∈ emittedInBranches bs, ChainInOrder x.branches) ∧
        after = .choice chain depth (settled || bs.any (·.tag.has "v-else")) :: open_

theorem run_content (h : NodesNest children) (tag : Tag) (place : Place)
    (depth : Nat) (open_ after : List OpenBlock) :
    OpenBlock.run open_ (if tag.html.isSome then [] else linesOfNodes place 0 depth children) = some after ↔
      after = open_ ∧ (tag.html.isSome = false → ∀ x ∈ emittedInNodes children, ChainInOrder x.branches) := by
  cases tag.html.isSome with
  | true => simp [eq_comm]
  | false => simpa using h place 0 depth open_ after

theorem run_chain (ho : branches ≠ [] → tag.guard.opening?.isSome = true) (h : BranchesNest branches)
    (place : Place) (depth : Nat) (open_ after : List OpenBlock) :
    OpenBlock.run (blocksOf place depth tag false ++ open_)
        (linesOfBranches place 0 (innerDepth depth tag - 1) branches) = some after ↔
      (ChainInOrder branches ∧ ∀ x ∈ emittedInBranches branches, ChainInOrder x.branches) ∧
        after = blocksOf place depth tag (branches.any (·.tag.has "v-else")) ++ open_ := by
  cases hg : tag.guard.opening?.isSome with
  | false =>
    obtain rfl : branches = [] := by
      cases branches with
      | nil => rfl
      | cons b bs => simp [hg] at ho
    simp only [linesOfBranches, OpenBlock.run_nil, emittedInBranches, chainInOrder_nil, Option.some.injEq, not_mem_nil, false_implies, implies_true, true_and]
    exact eq_comm
  | true =>
    have hr := h place 0 (if tag.loop.isSome then depth + 1 else depth) false
      ((if tag.loop.isSome then [.loop place depth] else []) ++ open_) after
    simp only [blocksOf, hg, innerDepth_of_opening hg, if_true, cons_append,
      nil_append, hr, Bool.false_or, Bool.false_eq_true, false_implies, true_and]

theorem elementNests_mk (hb : tag.guard.isBranch = false) (ho : branches ≠ [] → tag.guard.opening?.isSome = true)
    (hc : NodesNest children) (hbs : BranchesNest branches) : ElementNests (.mk tag children branches) := by
  intro place depth open_ after
  rw [linesOfElement, orderly_mk]
  simp only [OpenBlock.run_append_eq_some, run_heads hb, Option.some.injEq, exists_eq_left', run_content hc]
  constructor
  · rintro ⟨mid, ⟨rfl, hcs⟩, mid', hm, ht⟩
    obtain ⟨⟨hi, hes⟩, rfl⟩ := (run_chain ho hbs _ _ _ _).mp hm
    rw [run_tails hb] at ht
    exact ⟨(Option.some.inj ht).symm, hi, hcs, hes⟩
  · rintro ⟨rfl, hi, hcs, hes⟩
    exact ⟨_, ⟨rfl, hcs⟩, _, (run_chain ho hbs _ _ _ _).mpr ⟨⟨hi, hes⟩, rfl⟩, run_tails hb _ _ _ _⟩

theorem branchNests_mk (hb : tag.guard.isBranch = true)
    (hc : NodesNest children) : BranchNests (.mk tag children []) := by
  intro place chain depth settled open_ after
  rw [linesOfElement, orderly_mk, tails]
  simp only [Element.tag, OpenBlock.run_append_eq_some, run_heads_branch hb, run_content hc, opening_none_of_branch hb, emittedInBranches]
  cases hl : tag.loop with
  | some l => simp
  | none =>
    constructor
    · rintro ⟨mid, ⟨⟨-, hset, -, -⟩, rfl⟩, mid', ⟨rfl, hcs⟩, mid'', hm, ht⟩
      obtain rfl := Option.some.inj hm
      obtain rfl := Option.some.inj ht
      exact ⟨⟨rfl, hset, chainInOrder_nil, hcs, by simp⟩, rfl⟩
    · rintro ⟨⟨-, hset, -, hcs, -⟩, rfl⟩
      exact ⟨_, ⟨⟨rfl, hset, trivial, trivial⟩, rfl⟩, _, ⟨rfl, hcs⟩, _, rfl, rfl⟩

theorem nodesNest_element {e : Element} {ns : List Node} (he : ElementNests e)
    (hns : NodesNest ns) : NodesNest (.element e :: ns) := by
  intro parent index depth open_ after
  simp only [linesOfNodes, OpenBlock.run_append_eq_some, he (.child index :: parent) depth,
    hns parent (index + 1) depth, emittedInNodes, mem_append, or_imp, forall_and]
  constructor
  · rintro ⟨mid, ⟨rfl, h⟩, rfl, h'⟩
    exact ⟨rfl, h, h'⟩
  · rintro ⟨rfl, h, h'⟩
    exact ⟨_, ⟨rfl, h⟩, rfl, h'⟩

theorem branchesNest_cons {b : Element} {bs : List Element} (hb : BranchNests b)
    (hbs : BranchesNest bs) : BranchesNest (b :: bs) := by
  intro chain index depth settled open_ after
  simp only [linesOfBranches, OpenBlock.run_append_eq_some, hb (.branch index :: chain) chain depth,
    chainInOrder_cons, emittedInBranches, mem_append, or_imp, forall_and]
  constructor
  · rintro ⟨mid, ⟨⟨hl, rfl, ho⟩, rfl⟩, hr⟩
    obtain ⟨⟨hlast, hi, hes⟩, rfl⟩ := (hbs _ _ _ _ _ _).mp hr
    exact ⟨⟨by simp, ⟨hl, hlast, hi⟩, ho, hes⟩, by simp⟩
  · rintro ⟨⟨hset, ⟨hl, hlast, hi⟩, ho, hes⟩, rfl⟩
    obtain rfl : settled = false := by simpa using hset
    exact ⟨_, ⟨⟨hl, rfl, ho⟩, rfl⟩, (hbs _ _ _ _ _ _).mpr ⟨⟨hlast, hi, hes⟩, by simp⟩⟩

mutual

theorem elementNests : ∀ (e : Element), e.Shaped → e.tag.guard.isBranch = false → ElementNests e
  | .mk _ children branches, ⟨ho, hc, hbs⟩, hb =>
    elementNests_mk hb ho (nodesNest children hc) (branchesNest branches hbs)

theorem branchNests : ∀ (e : Element), e.Shaped → e.tag.guard.isBranch = true → e.branches = [] → BranchNests e
  | .mk _ children [], ⟨_, hc, _⟩, hb, _ => branchNests_mk hb (nodesNest children hc)

theorem nodesNest : ∀ (ns : List Node), NodesShaped ns → NodesNest ns
  | [], _ => fun _ _ _ _ _ => by simp [linesOfNodes, emittedInNodes, eq_comm]
  | .element e :: ns, ⟨⟨hb, he⟩, hns⟩ =>
    nodesNest_element (elementNests e he hb) (nodesNest ns hns)
  | .text _ _ :: ns, hns => fun parent index => nodesNest ns hns parent (index + 1)
  | .comment _ _ :: ns, hns => fun parent index => nodesNest ns hns parent (index + 1)

theorem branchesNest : ∀ (bs : List Element), BranchesShaped bs → BranchesNest bs
  | [], _ => fun _ _ _ _ _ _ => by
    simp [linesOfBranches, emittedInBranches, chainInOrder_nil, eq_comm]
  | b :: bs, ⟨⟨hb, hn, he⟩, hbs⟩ => branchesNest_cons (branchNests b he hb hn) (branchesNest bs hbs)

end

/-- The blocks of a template nest, each delimiter at the depth of the block that it continues or
ends, exactly if no branch that is written repeats and none but the last of a chain is a last
resort. This is so whatever the preferences. -/
theorem wellNested_iff_orderly {p : Preferences} {source : Text} {root : Element}
    (h : Template.parse source p.comments = (some root, [])) :
    (delimiterLines root).map Line.written = (itemsOfElement 0 root).filterMap Item.delimiter? ∧
      (WellNested (delimiterLines root) ↔ ∀ e ∈ emitted root, ChainInOrder e.branches) := by
  obtain ⟨hb, hs⟩ := parse_shaped (congrArg Prod.fst h)
  refine ⟨written_linesOfElement [] [] 0 root, ?_⟩
  rw [WellNested, delimiterLines, elementNests root hs hb]
  simp [Orderly]

/-- A chain inside a loop, with a condition and a last resort. -/
theorem wellNested_chain_in_loop : ∃ root,
    Template.parse "<ul><li v-for='x in y' v-if='a'/><b v-else-if='b'/><i v-else/></ul>"
      Preferences.standard.comments = (some root, []) ∧ WellNested (delimiterLines root) := by
  obtain ⟨root, h, ho⟩ : ∃ root, Template.parse "<ul><li v-for='x in y' v-if='a'/><b v-else-if='b'/><i v-else/></ul>"
        Preferences.standard.comments = (some root, []) ∧
      ∀ e ∈ emitted root, ChainInOrder e.branches :=
    parse_root_of_forall (by decide +kernel)
  exact ⟨root, h, (wellNested_iff_orderly h).2.mpr ho⟩

/-- The loop of a branch opens inside the branch before it, and a last resort can be followed by
other branches. -/
theorem not_wellNested_branches : (∃ root, Template.parse "<div><p v-if='a'></p><p v-else v-for='x in xs'></p></div>"
      Preferences.standard.comments = (some root, []) ∧ ¬ WellNested (delimiterLines root)) ∧
    ∃ root, Template.parse "<div><p v-if='a'></p><p v-else></p><p v-else-if='b'></p></div>"
      Preferences.standard.comments = (some root, []) ∧ ¬ WellNested (delimiterLines root) :=
  ⟨parse_root_of_forall (by decide +kernel), parse_root_of_forall (by decide +kernel)⟩

end ComponentConverter.Svelte
