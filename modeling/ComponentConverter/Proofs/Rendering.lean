import ComponentConverter.Proofs.Emission

namespace ComponentConverter.Svelte

open List Template

variable {tag : Tag} {e : Element}

inductive Shown where
  | node (name : Text) (children : List Shown)
  deriving Repr

variable {ss ts : List Shown}

/-- Which conditions hold, and how often the loop over a source goes round. -/
structure Valuation where
  holds : Text → Bool
  rounds : Text → Nat

namespace Valuation

variable (v : Valuation)

/-- A loop shows its body once per round; what is no loop is shown once. -/
def repeated (loop : Option Loop) (body : List Shown) : List Shown :=
  match loop with
  | none => body
  | some l => (List.replicate (v.rounds l.source) body).flatten

/-- Whether a branch applies once no branch before it did. -/
def applies (tag : Tag) : Bool := tag.guard.branchCondition.all v.holds

/-- The same, if a last resort applies whatever else it says. -/
def appliesWritten (tag : Tag) : Bool := tag.has "v-else" || v.applies tag

variable (branch : Tag → Bool)

mutual

/-- What an element shows: its loop is outermost, then the first condition of its chain that holds
decides. Raw content takes the place of children. -/
def shownBy : Element → List Shown
  | .mk tag children branches =>
    v.repeated tag.loop
      (if tag.guard.opening?.all v.holds then
        [.node tag.name (if tag.html.isSome then [] else shownNodesBy children)]
      else chosenBy branches)

def shownNodesBy : List Node → List Shown
  | [] => []
  | .element e :: ns => shownBy e ++ shownNodesBy ns
  | .text _ _ :: ns => shownNodesBy ns
  | .comment _ _ :: ns => shownNodesBy ns

def chosenBy : List Element → List Shown
  | [] => []
  | b :: bs => if branch b.tag then shownBy b else chosenBy bs

end

def shown (e : Element) : List Shown := v.shownBy v.applies e

end Valuation

open Valuation (appliesWritten chosenBy repeated shownBy shownNodesBy)

/-- A construct that items stand in. A choice knows whether the condition of the branch being read
holds, what an earlier branch shows, and whether the last resort has been reached. -/
inductive Frame where
  | tag (name : Text)
  | loop (source : Text)
  | choice (holds : Bool) (earlier : Option (List Shown)) (settled : Bool)

/-- What is shown so far inside the innermost construct, and the constructs, innermost first, each
with what is shown before it. -/
structure Scene where
  out : List Shown
  frames : List (Frame × List Shown)

/-- What a choice shows after one more branch: the first branch whose condition holds. -/
def firstOf (earlier : Option (List Shown)) (holds : Bool) (out : List Shown) : Option (List Shown) :=
  earlier.or (if holds then some out else none)

namespace Scene

variable (v : Valuation)

def step : Scene → Item → Option Scene
  | ⟨out, fs⟩, .openTag _ name _ true => some ⟨out ++ [.node name []], fs⟩
  | ⟨out, fs⟩, .openTag _ name _ false => some ⟨[], (.tag name, out) :: fs⟩
  | ⟨out, (.tag opened, before) :: fs⟩, .closeTag _ name =>
    if name = opened then some ⟨before ++ [.node name out], fs⟩ else none
  | ⟨out, fs⟩, .delimiter _ (.each source _ _) => some ⟨[], (.loop source, out) :: fs⟩
  | ⟨out, (.loop source, before) :: fs⟩, .delimiter _ .endEach =>
    some ⟨before ++ (List.replicate (v.rounds source) out).flatten, fs⟩
  | ⟨out, fs⟩, .delimiter _ (.ifTrue c) => some ⟨[], (.choice (v.holds c) none false, out) :: fs⟩
  | ⟨out, (.choice holds earlier false, before) :: fs⟩, .delimiter _ (.elseIf c) =>
    some ⟨[], (.choice (v.holds c) (firstOf earlier holds out) false, before) :: fs⟩
  | ⟨out, (.choice holds earlier false, before) :: fs⟩, .delimiter _ .otherwise =>
    some ⟨[], (.choice true (firstOf earlier holds out) true, before) :: fs⟩
  | ⟨out, (.choice holds earlier _, before) :: fs⟩, .delimiter _ .endIf =>
    some ⟨before ++ (firstOf earlier holds out).getD [], fs⟩
  | s, .html _ _ => some s
  | s, .dynamic _ _ => some s
  | s, .static _ => some s
  | s, .comment _ _ => some s
  | _, _ => none

def run (s : Scene) (items : List Item) : Option Scene := items.foldlM (step v) s

@[simp]
theorem run_nil (s : Scene) : run v s [] = some s := rfl

@[simp]
theorem run_cons (s : Scene) (i : Item) (items : List Item) :
    run v s (i :: items) = (step v s i).bind (run v · items) := rfl

theorem run_append (s : Scene) (is js : List Item) : run v s (is ++ js) = (run v s is).bind (run v · js) := by
  simp [run, foldlM_append]

end Scene

/-- What items show, unless their blocks and tags do not nest. -/
def rendered (v : Valuation) (items : List Item) : Option (List Shown) :=
  match Scene.run v ⟨[], []⟩ items with
  | some ⟨out, []⟩ => some out
  | _ => none

section Reading

variable (v : Valuation)

/-- What the items of an element show: the element read so that a last resort always applies. -/
def written (e : Element) : List Shown := v.shownBy v.appliesWritten e

theorem run_heads_of_branch (h : tag.guard.isBranch = true) (hl : tag.loop = none)
    (depth : Nat) (out before : List Shown) (holds : Bool) (earlier : Option (List Shown))
    (fs : List (Frame × List Shown)) :
    Scene.run v ⟨out, (.choice holds earlier false, before) :: fs⟩ (heads depth tag) =
      some ⟨[], (.choice (v.appliesWritten tag) (firstOf earlier holds out) (tag.has "v-else"), before) :: fs⟩ := by
  rw [heads, eachHead, hl]
  obtain ⟨he, hh⟩ | ⟨he, c, hc, hh⟩ := branchHead_of_branch h
  · simp [hh, he, Scene.step, appliesWritten]
  · simp [hh, he, hc, Scene.step, appliesWritten, Valuation.applies]

theorem run_body (tag : Tag) {children : List Node} {inner : Nat} {kids : List Shown}
    (hn : tag.html.isSome = false → ∀ out fs,
      Scene.run v ⟨out, fs⟩ (itemsOfNodes (inner + 1) children) = some ⟨out ++ kids, fs⟩)
    (depth : Nat) (attributes : List Attribute) (out : List Shown) (fs : List (Frame × List Shown)) :
    Scene.run v ⟨out, fs⟩ (.openTag depth tag.name attributes (isClosed tag children) ::
        bodyItems inner tag children) =
      some ⟨out ++ [.node tag.name (if tag.html.isSome then [] else kids)], fs⟩ := by
  rw [bodyItems, Scene.run_cons]
  cases hc : isClosed tag children with
  | true =>
    have hkids : (if tag.html.isSome = true then [] else kids) = [] := by
      cases hh : tag.html.isSome with
      | true => rfl
      | false =>
        have hnil : children = [] := by simpa [isClosed] using (Bool.and_eq_true_iff.mp hc).1
        have hr := hn hh [] []
        simp only [hnil, itemsOfNodes, Scene.run_nil, nil_append, Option.some.injEq, Scene.mk.injEq, and_true] at hr
        simpa using hr.symm
    simp [Scene.step, hkids]
  | false =>
    cases hh : tag.html with
    | some x => simp [Scene.step]
    | none => simp [Scene.step, Scene.run_append, hn (by simp [hh])]

theorem firstOf_getD (earlier : Option (List Shown)) (holds : Bool) (out rest : List Shown) :
    (firstOf earlier holds out).getD rest = earlier.getD (if holds then out else rest) := by
  cases earlier <;> cases holds <;> rfl

theorem shownBy_of_branch {b : Element} (h : b.tag.guard.isBranch = true)
    (hl : b.tag.loop = none) (branch : Tag → Bool) :
    v.shownBy branch b = [.node b.tag.name
      (if b.tag.html.isSome then [] else v.shownNodesBy branch b.children)] := by
  cases b with
  | mk tag children branches =>
    simp only [Element.tag] at h hl
    rw [shownBy, hl, opening_none_of_branch h]
    rfl

mutual

theorem run_itemsOfElement {e : Element} (hs : e.Shaped) (hb : e.tag.guard.isBranch = false)
    (ho : Orderly e) (depth : Nat) (out : List Shown) (fs : List (Frame × List Shown)) :
    Scene.run v ⟨out, fs⟩ (itemsOfElement depth e) = some ⟨out ++ written v e, fs⟩ := by
  cases e with
  | mk tag children branches =>
    obtain ⟨hopen, hc, hbs⟩ := hs
    obtain ⟨hi, hcs, hes⟩ := (orderly_mk tag children branches).mp ho
    have hbody := run_body v tag (fun hh => run_itemsOfNodes hc (hcs hh)
      (innerDepth depth tag + 1)) (innerDepth depth tag)
      (tag.attributes.filterMap Attribute.ofTemplate?)
    simp only [itemsOfElement_mk, Scene.run_append]
    cases hg : tag.guard with
    | continues c => simp [hg, Guard.isBranch, Element.tag] at hb
    | unguarded =>
      obtain rfl : branches = [] := by
        cases branches with
        | nil => rfl
        | cons b bs => simp [hg, Guard.opening?] at hopen
      cases hl : tag.loop with
      | none => simp [heads, eachHead, branchHead, tails, written, shownBy,
          repeated, itemsOfBranches, hg, hl, hbody, Guard.opening?]
      | some l => simp [heads, eachHead, branchHead, tails, written, shownBy,
          repeated, itemsOfBranches, hg, hl, hbody, Guard.opening?, Scene.step]
    | opens c =>
      have hchain := fun before => run_itemsOfBranches hbs hi hes (innerDepth depth tag - 1)
        [.node tag.name (if tag.html.isSome then []
          else v.shownNodesBy v.appliesWritten children)] before (v.holds c) none false (by simp)
      simp only [firstOf_getD, Option.getD_none] at hchain
      cases hl : tag.loop with
      | none =>
        obtain ⟨out', holds', earlier', settled', hr, hf⟩ := hchain out fs
        simp [heads, eachHead, branchHead, tails, written, shownBy,
          repeated, hg, hl, hbody, Guard.opening?, Scene.step, hr, hf, firstOf_getD]
      | some l =>
        obtain ⟨out', holds', earlier', settled', hr, hf⟩ := hchain [] ((.loop l.source, out) :: fs)
        simp [heads, eachHead, branchHead, tails, written, shownBy,
          repeated, hg, hl, hbody, Guard.opening?, Scene.step, hr, hf, firstOf_getD]

theorem run_itemsOfNodes {ns : List Node} (hs : NodesShaped ns)
    (ho : ∀ x ∈ emittedInNodes ns, ChainInOrder x.branches) (depth : Nat) (out : List Shown)
    (fs : List (Frame × List Shown)) :
    Scene.run v ⟨out, fs⟩ (itemsOfNodes depth ns) = some ⟨out ++ v.shownNodesBy v.appliesWritten ns, fs⟩ := by
  match ns with
  | [] => simp [itemsOfNodes, shownNodesBy]
  | .element e :: ns =>
    obtain ⟨⟨hb, he⟩, hns⟩ := hs
    simp only [emittedInNodes, mem_append, or_imp, forall_and] at ho
    rw [itemsOfNodes, Scene.run_append, run_itemsOfElement he hb ho.1, Option.bind_some,
      run_itemsOfNodes hns ho.2, shownNodesBy, written, append_assoc]
  | .text raw span :: ns =>
    have hns : NodesShaped ns := hs
    have hn := run_itemsOfNodes hns ho depth out fs
    rw [itemsOfNodes, Scene.run_cons]
    split <;> exact hn
  | .comment body span :: ns =>
    have hns : NodesShaped ns := hs
    have hr := run_itemsOfNodes hns ho depth out fs
    exact hr

/-- The branches of a chain leave its choice with what it shows: what an earlier branch shows, or
else the first branch that applies. -/
theorem run_itemsOfBranches {bs : List Element} (hs : BranchesShaped bs) (hi : ChainInOrder bs)
    (ho : ∀ x ∈ emittedInBranches bs, ChainInOrder x.branches) (depth : Nat)
    (out before : List Shown) (holds : Bool) (earlier : Option (List Shown)) (settled : Bool)
    (hlast : settled = true → bs = []) (fs : List (Frame × List Shown)) :
    ∃ out' holds' earlier' settled',
      Scene.run v ⟨out, (.choice holds earlier settled, before) :: fs⟩ (itemsOfBranches depth bs) =
        some ⟨out', (.choice holds' earlier' settled', before) :: fs⟩ ∧ (firstOf earlier' holds' out').getD [] =
        (firstOf earlier holds out).getD (v.chosenBy v.appliesWritten bs) := by
  match bs with
  | [] => exact ⟨out, holds, earlier, settled, by simp [itemsOfBranches], by simp [chosenBy]⟩
  | .mk tag children branches :: bs =>
    obtain ⟨⟨hb, hn, hc⟩, hbs⟩ := hs
    obtain ⟨hl, he, hrest⟩ := (chainInOrder_cons _ _).mp hi
    simp only [emittedInBranches, mem_append, or_imp, forall_and] at ho
    obtain rfl : settled = false := by simpa using hlast
    obtain rfl : branches = [] := hn
    obtain ⟨-, hcs, -⟩ := (orderly_mk tag children []).mp ho.1
    have hbody := run_body v tag (fun hh => run_itemsOfNodes hc.2.1 (hcs hh)
      (innerDepth depth tag + 1)) (innerDepth depth tag)
      (tag.attributes.filterMap Attribute.ofTemplate?)
    obtain ⟨out', holds', earlier', settled', hr, hf⟩ := run_itemsOfBranches hbs hrest ho.2 depth
      (written v (.mk tag children [])) before (v.appliesWritten tag) (firstOf earlier holds out)
      (tag.has "v-else") he fs
    refine ⟨out', holds', earlier', settled', ?_, ?_⟩
    · rw [written, shownBy_of_branch v hb hl] at hr
      change tag.guard.isBranch = true at hb
      change tag.loop = none at hl
      simp only [itemsOfBranches, itemsOfElement_mk, Scene.run_append,
        run_heads_of_branch v hb hl, Option.bind_some, hbody, tails, opening_none_of_branch hb, hl]
      exact hr
    · rw [hf, firstOf_getD, firstOf_getD, firstOf_getD]
      rfl

end

theorem rendered_items (hs : e.Shaped) (hb : e.tag.guard.isBranch = false)
    (ho : Orderly e) : rendered v (itemsOfElement 0 e) = some (written v e) := by
  rw [rendered, run_itemsOfElement v hs hb ho]
  rfl

end Reading

section Comparison

variable (v : Valuation)

mutual

/-- Somewhere in what is shown no condition of a chain holds, and yet its last branch, which has a
condition, is written as a last resort. -/
def overruns : Element → Bool
  | .mk tag children branches =>
    tag.loop.all (fun l => 0 < v.rounds l.source) &&
      if tag.guard.opening?.all v.holds then !tag.html.isSome && overrunsInNodes children
      else overrunsInChain branches

def overrunsInNodes : List Node → Bool
  | [] => false
  | .element e :: ns => overruns e || overrunsInNodes ns
  | .text _ _ :: ns => overrunsInNodes ns
  | .comment _ _ :: ns => overrunsInNodes ns

def overrunsInChain : List Element → Bool
  | [] => false
  | b :: bs => if v.applies b.tag then overruns b else b.tag.has "v-else" || overrunsInChain bs

end

mutual

def Shown.size : Shown → Nat
  | .node _ children => 1 + Shown.sizes children

def Shown.sizes : List Shown → Nat
  | [] => 0
  | s :: ss => s.size + Shown.sizes ss

end

open Shown (size sizes)

theorem Shown.size_pos (s : Shown) : 0 < s.size := by
  cases s
  rw [size]
  omega

theorem Shown.sizes_append (ss ts : List Shown) : sizes (ss ++ ts) = sizes ss + sizes ts := by
  induction ss with
  | nil => simp [sizes]
  | cons s ss ih => simp [sizes, ih, Nat.add_assoc]

theorem Shown.sizes_replicate (n : Nat) (ss : List Shown) : sizes (List.replicate n ss).flatten = n * sizes ss := by
  induction n with
  | zero => simp [sizes]
  | succ n ih => simp [replicate_succ, Shown.sizes_append, ih, Nat.succ_mul, Nat.add_comm]

theorem repeated_congr (loop : Option Loop) (h : loop.all (fun l => 0 < v.rounds l.source) = true → ss = ts) :
    v.repeated loop ss = v.repeated loop ts := by
  cases loop with
  | none => exact h rfl
  | some l =>
    simp only [Option.all_some, decide_eq_true_eq] at h
    rcases Nat.eq_zero_or_pos (v.rounds l.source) with hz | hp
    · simp [repeated, hz]
    · rw [h hp]

theorem sizes_repeated_le (loop : Option Loop) (h : sizes ss ≤ sizes ts) :
    sizes (v.repeated loop ss) ≤ sizes (v.repeated loop ts) := by
  cases loop with
  | none => exact h
  | some l =>
    simp only [repeated, Shown.sizes_replicate]
    exact Nat.mul_le_mul_left _ h

theorem sizes_repeated_lt (loop : Option Loop)
    (hl : loop.all (fun l => 0 < v.rounds l.source) = true) (h : sizes ss < sizes ts) :
    sizes (v.repeated loop ss) < sizes (v.repeated loop ts) := by
  cases loop with
  | none => exact h
  | some l =>
    simp only [Option.all_some, decide_eq_true_eq] at hl
    simp only [repeated, Shown.sizes_replicate]
    exact Nat.mul_lt_mul_of_pos_left h hl

mutual

theorem written_eq_shown (e : Element) (h : overruns v e = false) :
    v.shownBy v.appliesWritten e = v.shownBy v.applies e := by
  cases e with
  | mk tag children branches =>
    refine repeated_congr v tag.loop fun hl => ?_
    simp only [overruns, hl, Bool.true_and] at h
    split
    next hc =>
      rw [if_pos hc] at h
      cases hh : tag.html.isSome with
      | true => rfl
      | false =>
        simp only [hh, Bool.not_false, Bool.true_and] at h
        simp [written_eq_shown_nodes children h]
    next hc =>
      rw [if_neg hc] at h
      exact written_eq_shown_chain branches h

theorem written_eq_shown_nodes (ns : List Node) (h : overrunsInNodes v ns = false) :
    v.shownNodesBy v.appliesWritten ns = v.shownNodesBy v.applies ns := by
  match ns with
  | [] => rfl
  | .element e :: ns =>
    simp only [overrunsInNodes, Bool.or_eq_false_iff] at h
    rw [shownNodesBy, shownNodesBy, written_eq_shown e h.1, written_eq_shown_nodes ns h.2]
  | .text raw span :: ns => exact written_eq_shown_nodes ns h
  | .comment body span :: ns => exact written_eq_shown_nodes ns h

theorem written_eq_shown_chain (bs : List Element) (h : overrunsInChain v bs = false) :
    v.chosenBy v.appliesWritten bs = v.chosenBy v.applies bs := by
  match bs with
  | [] => rfl
  | b :: bs =>
    rw [overrunsInChain] at h
    rw [chosenBy, chosenBy, appliesWritten]
    cases hb : v.applies b.tag with
    | true =>
      rw [if_pos hb] at h
      simp [written_eq_shown b h]
    | false =>
      simp only [hb, Bool.false_eq_true, if_false, Bool.or_eq_false_iff] at h
      simp [h.1, written_eq_shown_chain bs h.2]

end

mutual

theorem sizes_shown_le {e : Element} (hs : e.Shaped) (ho : Orderly e) :
    sizes (v.shownBy v.applies e) ≤ sizes (v.shownBy v.appliesWritten e) ∧ (overruns v e = true →
        sizes (v.shownBy v.applies e) < sizes (v.shownBy v.appliesWritten e)) := by
  cases e with
  | mk tag children branches =>
    obtain ⟨hopen, hc, hbs⟩ := hs
    obtain ⟨hi, hcs, hes⟩ := (orderly_mk tag children branches).mp ho
    rw [shownBy, shownBy, overruns, Bool.and_eq_true]
    cases hg : tag.guard.opening?.all v.holds with
    | true =>
      cases hh : tag.html.isSome with
      | true => simp
      | false =>
        obtain ⟨hle, hlt⟩ := sizes_shown_le_nodes hc (hcs hh)
        refine ⟨sizes_repeated_le v tag.loop ?_, ?_⟩
        · simpa [sizes, size] using hle
        · rintro ⟨hl, h⟩
          refine sizes_repeated_lt v tag.loop hl ?_
          simpa [sizes, size] using hlt h
    | false =>
      obtain ⟨hle, hlt⟩ := sizes_shown_le_chain hbs hi hes
      exact ⟨sizes_repeated_le v tag.loop hle, fun ⟨hl, h⟩ => sizes_repeated_lt v tag.loop hl (hlt h)⟩

theorem sizes_shown_le_nodes {ns : List Node} (hs : NodesShaped ns)
    (ho : ∀ x ∈ emittedInNodes ns, ChainInOrder x.branches) :
    sizes (v.shownNodesBy v.applies ns) ≤ sizes (v.shownNodesBy v.appliesWritten ns) ∧
      (overrunsInNodes v ns = true → sizes (v.shownNodesBy v.applies ns) <
        sizes (v.shownNodesBy v.appliesWritten ns)) := by
  match ns with
  | [] => simp [overrunsInNodes, shownNodesBy]
  | .element e :: ns =>
    obtain ⟨⟨-, he⟩, hns⟩ := hs
    simp only [emittedInNodes, mem_append, or_imp, forall_and] at ho
    obtain ⟨hle, hlt⟩ := sizes_shown_le he ho.1
    obtain ⟨hle', hlt'⟩ := sizes_shown_le_nodes hns ho.2
    simp only [shownNodesBy, Shown.sizes_append, overrunsInNodes, Bool.or_eq_true]
    refine ⟨Nat.add_le_add hle hle', ?_⟩
    rintro (h | h)
    · exact Nat.add_lt_add_of_lt_of_le (hlt h) hle'
    · exact Nat.add_lt_add_of_le_of_lt hle (hlt' h)
  | .text raw span :: ns | .comment body span :: ns =>
    have hns : NodesShaped ns := hs
    have hr := sizes_shown_le_nodes hns ho
    exact hr

theorem sizes_shown_le_chain {bs : List Element} (hs : BranchesShaped bs) (hi : ChainInOrder bs)
    (ho : ∀ x ∈ emittedInBranches bs, ChainInOrder x.branches) :
    sizes (v.chosenBy v.applies bs) ≤ sizes (v.chosenBy v.appliesWritten bs) ∧ (overrunsInChain v bs = true →
        sizes (v.chosenBy v.applies bs) < sizes (v.chosenBy v.appliesWritten bs)) := by
  match bs with
  | [] => simp [overrunsInChain, chosenBy]
  | b :: bs =>
    obtain ⟨⟨hb, hn, hc⟩, hbs⟩ := hs
    obtain ⟨hl, he, hrest⟩ := (chainInOrder_cons _ _).mp hi
    simp only [emittedInBranches, mem_append, or_imp, forall_and] at ho
    rw [chosenBy, chosenBy, overrunsInChain, appliesWritten]
    cases ha : v.applies b.tag with
    | true =>
      obtain ⟨hle, hlt⟩ := sizes_shown_le hc ho.1
      simpa using ⟨hle, hlt⟩
    | false =>
      cases hv : b.tag.has "v-else" with
      | true =>
        obtain rfl := he hv
        have hpos : 0 < sizes (v.shownBy v.appliesWritten b) := by
          rw [shownBy_of_branch v hb hl]
          exact Nat.add_pos_left (Shown.size_pos _) _
        simp [chosenBy, sizes, hpos]
      | false =>
        obtain ⟨hle, hlt⟩ := sizes_shown_le_chain hbs hrest ho.2
        simpa using ⟨hle, hlt⟩

end

/-- What the markup of a template shows is what the template shows, unless it overruns. -/
theorem written_eq_shown_iff (hs : e.Shaped) (ho : Orderly e) : written v e = v.shown e ↔ overruns v e = false := by
  constructor
  · intro h
    cases hv : overruns v e with
    | false => rfl
    | true =>
      have hlt := (sizes_shown_le v hs ho).2 hv
      rw [written, Valuation.shown] at h
      rw [h] at hlt
      exact absurd hlt (Nat.lt_irrefl _)
  · exact written_eq_shown v e

theorem applies_without_condition (h : tag.guard.isBranch = true)
    (hc : tag.has "v-else-if" = false) : v.applies tag = true := by
  have hn : tag.attribute? "v-else-if" = none := by simpa [Tag.has] using hc
  rw [Valuation.applies, branchCondition_of_branch h, hn]
  rfl

/-- A last resort has no condition. -/
def LastResortsPlain (branches : List Element) : Prop :=
  ∀ b ∈ branches, b.tag.has "v-else" = true → b.tag.has "v-else-if" = false

instance : DecidablePred LastResortsPlain := fun _ => List.decidableBAll _ _

mutual

theorem overruns_eq_false {e : Element} (hs : e.Shaped)
    (h : ∀ x ∈ emitted e, LastResortsPlain x.branches) : overruns v e = false := by
  cases e with
  | mk tag children branches =>
    obtain ⟨-, hc, hbs⟩ := hs
    obtain ⟨hp, hcs, hes⟩ :=
      (forall_emitted_mk (fun x => LastResortsPlain x.branches) tag children branches).mp h
    rw [overruns, overrunsInChain_eq_false hbs hp hes]
    cases hh : tag.html.isSome with
    | true => simp
    | false => simp [overrunsInNodes_eq_false hc (hcs hh)]

theorem overrunsInNodes_eq_false {ns : List Node} (hs : NodesShaped ns)
    (h : ∀ x ∈ emittedInNodes ns, LastResortsPlain x.branches) : overrunsInNodes v ns = false := by
  match ns with
  | [] => rfl
  | .element e :: ns =>
    obtain ⟨⟨-, he⟩, hns⟩ := hs
    simp only [emittedInNodes, mem_append, or_imp, forall_and] at h
    rw [overrunsInNodes, overruns_eq_false he h.1, overrunsInNodes_eq_false hns h.2]
    rfl
  | .text raw span :: ns | .comment body span :: ns =>
    have hns : NodesShaped ns := hs
    have hr := overrunsInNodes_eq_false hns h
    exact hr

theorem overrunsInChain_eq_false {bs : List Element} (hs : BranchesShaped bs)
    (hp : LastResortsPlain bs) (h : ∀ x ∈ emittedInBranches bs, LastResortsPlain x.branches) :
    overrunsInChain v bs = false := by
  match bs with
  | [] => rfl
  | b :: bs =>
    obtain ⟨⟨hb, -, he⟩, hbs⟩ := hs
    simp only [emittedInBranches, mem_append, or_imp, forall_and] at h
    obtain ⟨hbp, hbsp⟩ := forall_mem_cons.mp hp
    rw [overrunsInChain, overruns_eq_false he h.1, overrunsInChain_eq_false hbs hbsp h.2]
    cases hv : b.tag.has "v-else" with
    | true => simp [applies_without_condition v hb (hbp hv)]
    | false => simp

end

end Comparison

/-- In a template whose chains are in order, the markup shows what the template shows under a
valuation exactly if it does not overrun there. It never overruns if no last resort has a
condition. -/
theorem rendered_eq_shown_iff {source : Text} {keepComments : Bool} {root : Element}
    (h : Template.parse source keepComments = (some root, []))
    (ho : ∀ e ∈ emitted root, ChainInOrder e.branches) :
    (∀ v, rendered v (itemsOfElement 0 root) = some (v.shown root) ↔ overruns v root = false) ∧
      ((∀ e ∈ emitted root, LastResortsPlain e.branches) →
        ∀ v, rendered v (itemsOfElement 0 root) = some (v.shown root)) := by
  obtain ⟨hb, hs⟩ := parse_shaped (congrArg Prod.fst h)
  have hiff : ∀ v, rendered v (itemsOfElement 0 root) = some (v.shown root) ↔ overruns v root = false := by
    intro v
    rw [rendered_items v hs hb ho, Option.some.injEq]
    exact written_eq_shown_iff v hs ho
  exact ⟨hiff, fun hp v => (hiff v).mpr (overruns_eq_false v hs hp)⟩

/-- A chain inside a loop, with a condition and a last resort. -/
theorem rendered_chain_in_loop : ∃ root,
    Template.parse "<ul><li v-for='x in y' v-if='a'/><b v-else-if='b'/><i v-else/></ul>"
      false = (some root, []) ∧
    ∀ v, rendered v (itemsOfElement 0 root) = some (v.shown root) := by
  obtain ⟨root, h, ho, hp⟩ : ∃ root,
      Template.parse "<ul><li v-for='x in y' v-if='a'/><b v-else-if='b'/><i v-else/></ul>"
        false = (some root, []) ∧
      (∀ e ∈ emitted root, ChainInOrder e.branches) ∧
      ∀ e ∈ emitted root, LastResortsPlain e.branches :=
    parse_root_of_forall (by decide +kernel)
  exact ⟨root, h, (rendered_eq_shown_iff h ho).2 hp⟩

/-- A branch with a condition that is a last resort as well is shown though its condition fails. -/
theorem rendered_ne_shown_of_both : ∃ root,
    Template.parse "<div><p v-if='a'></p><b v-else-if='c' v-else></b></div>" false = (some root, []) ∧
    (∀ e ∈ emitted root, ChainInOrder e.branches) ∧
    rendered ⟨fun _ => false, fun _ => 0⟩ (itemsOfElement 0 root) ≠
      some (Valuation.shown ⟨fun _ => false, fun _ => 0⟩ root) := by
  obtain ⟨root, h, ho, hv⟩ : ∃ root,
      Template.parse "<div><p v-if='a'></p><b v-else-if='c' v-else></b></div>" false = (some root, []) ∧
      (∀ e ∈ emitted root, ChainInOrder e.branches) ∧
      overruns ⟨fun _ => false, fun _ => 0⟩ root = true :=
    parse_root_of_forall (by decide +kernel)
  obtain ⟨hb, hs⟩ := parse_shaped (congrArg Prod.fst h)
  refine ⟨root, h, ho, ?_⟩
  rw [rendered_items _ hs hb ho, ne_eq, Option.some.injEq, written_eq_shown_iff _ hs ho, hv]
  simp

end ComponentConverter.Svelte
