import ComponentConverter.Proofs.BlockNesting
import ComponentConverter.Proofs.TreeInvariant

namespace ComponentConverter.Svelte

open List Template

def delimitersOf (items : List Item) : List Delimiter := items.filterMap fun i => i.delimiter?.map Prod.snd

def writtenDelimiters (root : Element) : List Delimiter := delimitersOf (itemsOfElement 0 root)

def Delimiter.startsWith (mark : String) (d : Delimiter) : Bool := mark.toList.isPrefixOf d.text

/-- The number of delimiters whose text starts with a mark. -/
def delimiterCount (mark : String) (root : Element) : Nat :=
  (writtenDelimiters root).countP (Delimiter.startsWith mark)

def ends (tag : Tag) : List Delimiter :=
  (if tag.guard.opening?.isSome then [.endIf] else []) ++ (if tag.loop.isSome then [.endEach] else [])

def ownDelimiters (tag : Tag) : List Delimiter := (eachHead tag).toList ++ (branchHead tag).toList ++ ends tag

section Written

theorem delimitersOf_append (items more : List Item) :
    delimitersOf (items ++ more) = delimitersOf items ++ delimitersOf more :=
  filterMap_append

theorem delimitersOf_heads (depth : Nat) (tag : Tag) :
    delimitersOf (heads depth tag) = (eachHead tag).toList ++ (branchHead tag).toList := by
  rw [heads]
  cases eachHead tag <;> cases branchHead tag <;> rfl

theorem delimitersOf_tails (inner : Nat) (tag : Tag) : delimitersOf (tails inner tag) = ends tag := by
  rw [tails, ends]
  cases tag.guard.opening?.isSome <;> cases tag.loop.isSome <;> rfl

theorem delimitersOf_content (inner : Nat) (tag : Tag) (children : List Node) :
    delimitersOf (contentItems inner tag children) = [] := by
  have hnode (depth : Nat) : ∀ n item, nodeItem? depth n = some item → item.delimiter? = none := by
    rintro (e | ⟨raw, span⟩ | ⟨body, span⟩) item h
    · cases h
    · obtain rfl := Option.some.inj h
      unfold textItem
      split <;> rfl
    · obtain rfl := Option.some.inj h
      rfl
  rw [contentItems]
  split
  · rfl
  · cases tag.html with
    | some expression => rfl
    | none =>
      rw [Option.elim_none, delimitersOf_append, delimitersOf, filterMap_filterMap]
      refine (append_nil _).trans (filterMap_eq_nil_iff.mpr fun n _ => ?_)
      simp only [Option.bind_eq_none_iff, Option.map_eq_none_iff]
      exact hnode _ n

theorem delimitersOf_ownItems (depth : Nat) (e : Element) :
    delimitersOf (ownItems depth e) = ownDelimiters e.tag := by
  cases e with
  | mk tag children branches =>
    rw [ownItems, delimitersOf_append, delimitersOf_append, delimitersOf_heads, delimitersOf_tails]
    change _ ++ (delimitersOf (contentItems _ tag children) ++ _) = _
    rw [delimitersOf_content]
    rfl

theorem perm_delimitersOf (depth : Nat) (e : Element) :
    (delimitersOf (itemsOfElement depth e)).Perm ((emitted e).flatMap fun x => ownDelimiters x.tag) := by
  obtain ⟨placed, hplaced, hperm⟩ := exists_itemsAt depth e
  refine (hperm.filterMap _).trans (.of_eq ?_)
  rw [itemsAt, filterMap_flatMap, ← hplaced, flatMap_map]
  exact congrArg (List.flatMap · placed) (funext fun p => delimitersOf_ownItems p.1 p.2)

end Written

section Counts

/-- A kind of delimiter that an element brings along exactly if it has a property is written once
for each element with that property. -/
theorem delimiterCount_eq {mark : String} {has : Tag → Bool}
    (h : ∀ tag, (ownDelimiters tag).countP (Delimiter.startsWith mark) = if has tag then 1 else 0)
    (root : Element) : delimiterCount mark root = (emitted root).countP fun e => has e.tag := by
  rw [delimiterCount, writtenDelimiters, (perm_delimitersOf 0 root).countP_eq]
  induction emitted root with
  | nil => rfl
  | cons e es ih => rw [flatMap_cons, countP_append, h, ih, countP_cons, Nat.add_comm]

theorem countP_ownDelimiters (tag : Tag) :
    (ownDelimiters tag).countP (Delimiter.startsWith "\x7b#each ") = (if tag.loop.isSome then 1 else 0) ∧
      (ownDelimiters tag).countP (Delimiter.startsWith "\x7b/each\x7d") = (if tag.loop.isSome then 1 else 0) ∧
      (ownDelimiters tag).countP (Delimiter.startsWith "\x7b#if ") = (if tag.guard.opening?.isSome then 1 else 0) ∧
      (ownDelimiters tag).countP (Delimiter.startsWith "\x7b/if\x7d") = (if tag.guard.opening?.isSome then 1 else 0) ∧
      (ownDelimiters tag).countP (Delimiter.startsWith "\x7b:else") = if tag.guard.isBranch then 1 else 0 := by
  rw [ownDelimiters, eachHead, branchHead, ends]
  cases tag.loop <;> rcases tag.guard with _ | c | _ | c <;> cases tag.has "v-else" <;>
    exact ⟨rfl, rfl, rfl, rfl, rfl⟩

theorem ownDelimiters_eq_nil {tag : Tag} (hl : tag.loop = none) (ho : tag.guard.opening? = none)
    (hb : tag.guard.isBranch = false) : ownDelimiters tag = [] := by
  rw [ownDelimiters, eachHead, branchHead, ends, hl, ho]
  cases hg : tag.guard with
  | unguarded => rfl
  | opens c => simp [hg, Guard.opening?] at ho
  | continues c => simp [hg, Guard.isBranch] at hb

end Counts

section Branches

-- An element that stands among children is no branch, one that stands in a chain is.
mutual

theorem countP_branches : ∀ e : Element, e.Shaped → (emitted e).countP (·.tag.guard.isBranch) =
      (if e.tag.guard.isBranch then 1 else 0) + ((emitted e).flatMap Element.branches).length
  | .mk tag children branches, ⟨_, hc, hb⟩ => by
    have hchildren : (if tag.html.isSome then [] else emittedInNodes children).countP
        (·.tag.guard.isBranch) =
        ((if tag.html.isSome then [] else emittedInNodes children).flatMap Element.branches).length := by
      cases tag.html.isSome with
      | true => rfl
      | false => exact countP_branches_nodes children hc
    have hbranches := countP_branches_chain branches hb
    rw [emitted, countP_cons, countP_append, flatMap_cons, flatMap_append,
      length_append, length_append, hchildren, hbranches]
    simp only [Element.branches]
    omega

theorem countP_branches_nodes : ∀ ns : List Node, NodesShaped ns → (emittedInNodes ns).countP (·.tag.guard.isBranch) =
      ((emittedInNodes ns).flatMap Element.branches).length
  | [], _ => rfl
  | .element e :: ns, ⟨⟨hb, he⟩, hns⟩ => by
    rw [emittedInNodes, countP_append, flatMap_append, length_append,
      countP_branches e he, countP_branches_nodes ns hns, hb]
    simp
  | .text _ _ :: ns, hns => countP_branches_nodes ns hns
  | .comment _ _ :: ns, hns => countP_branches_nodes ns hns

theorem countP_branches_chain : ∀ bs : List Element, BranchesShaped bs →
    (emittedInBranches bs).countP (·.tag.guard.isBranch) =
      bs.length + ((emittedInBranches bs).flatMap Element.branches).length
  | [], _ => rfl
  | b :: bs, ⟨⟨hb, _, he⟩, hbs⟩ => by
    rw [emittedInBranches, countP_append, flatMap_append, length_append,
      countP_branches b he, countP_branches_chain bs hbs, hb, length_cons, if_pos rfl]
    omega

end

theorem opens_of_branches {e : Element} (h : e.Shaped) (hb : e.branches ≠ []) :
    e.tag.guard.opening?.isSome = true := by
  cases e with
  | mk tag children branches => exact h.1 hb

end Branches

theorem text_of_delimiter? {i : Item} {d : Nat × Delimiter} (h : i.delimiter? = some d) (p : Preferences) :
    i.text p = p.indentation d.1 ++ d.2.text ++ ['\n'] := by
  cases i with
  | delimiter depth delimiter => cases h; rfl
  | _ => cases h

/-- Whatever the preferences, the markup is made of items of which each delimiter has a line of its own. A loop is opened
and closed once for each element that is written and repeats, a choice once for each that opens a chain, and each branch
that is written has one head. Without loops and conditions there are no delimiters. -/
theorem delimiters_counted {p : Preferences} {source : Text} {root : Element}
    (h : Template.parse source p.comments = (some root, [])) :
    (markup p root = (itemsOfElement 0 root).flatMap (·.text p) ∧
        ∀ i ∈ itemsOfElement 0 root, ∀ d ∈ i.delimiter?, i.text p = p.indentation d.1 ++ d.2.text ++ ['\n']) ∧
      (delimiterCount "\x7b#each " root = (emitted root).countP (·.tag.loop.isSome) ∧
        delimiterCount "\x7b/each\x7d" root = (emitted root).countP (·.tag.loop.isSome)) ∧
      (delimiterCount "\x7b#if " root = (emitted root).countP (·.tag.guard.opening?.isSome) ∧
        delimiterCount "\x7b/if\x7d" root = (emitted root).countP (·.tag.guard.opening?.isSome)) ∧
      delimiterCount "\x7b:else" root = ((emitted root).flatMap Element.branches).length ∧
      ((∀ e ∈ emitted root, e.tag.loop = none ∧ e.tag.guard.opening? = none) → writtenDelimiters root = []) := by
  obtain ⟨hb, hs⟩ := parse_shaped (congrArg Prod.fst h)
  have hbranches := countP_branches root hs
  rw [hb, if_neg (by simp), Nat.zero_add] at hbranches
  refine ⟨⟨rfl, fun i _ d hd => text_of_delimiter? hd p⟩, ⟨?_, ?_⟩, ⟨?_, ?_⟩, ?_, ?_⟩
  · exact delimiterCount_eq (fun tag => (countP_ownDelimiters tag).1) root
  · exact delimiterCount_eq (fun tag => (countP_ownDelimiters tag).2.1) root
  · exact delimiterCount_eq (fun tag => (countP_ownDelimiters tag).2.2.1) root
  · exact delimiterCount_eq (fun tag => (countP_ownDelimiters tag).2.2.2.1) root
  · rw [← hbranches]
    exact delimiterCount_eq (fun tag => (countP_ownDelimiters tag).2.2.2.2) root
  · intro hplain
    have hnone : (emitted root).flatMap Element.branches = [] := by
      rw [flatMap_eq_nil_iff]
      intro e he
      cases hbs : e.branches with
      | nil => rfl
      | cons b bs =>
        have ho := opens_of_branches (shaped_of_emitted hs e he) (by simp [hbs])
        simp [(hplain e he).2] at ho
    rw [hnone, length_nil, countP_eq_zero] at hbranches
    apply List.Perm.eq_nil
    refine (perm_delimitersOf 0 root).trans (.of_eq ?_)
    rw [flatMap_eq_nil_iff]
    intro e he
    exact ownDelimiters_eq_nil (hplain e he).1 (hplain e he).2 (by simpa using hbranches e he)

/-- A chain that repeats, beside an element whose raw content takes the place of a condition. -/
theorem delimiters_counted_chain : ∃ root,
    Template.parse "<ul><li v-for='x in y' v-if='a'/><b v-else/><p v-html='d'><q v-if='e'/></p></ul>"
      Preferences.standard.comments = (some root, []) ∧
    (delimiterCount "\x7b#each " root = 1 ∧ delimiterCount "\x7b/each\x7d" root = 1) ∧
    (delimiterCount "\x7b#if " root = 1 ∧ delimiterCount "\x7b/if\x7d" root = 1) ∧
    delimiterCount "\x7b:else" root = 1 := by
  obtain ⟨root, h, hl, ho, hb⟩ : ∃ root,
      Template.parse "<ul><li v-for='x in y' v-if='a'/><b v-else/><p v-html='d'><q v-if='e'/></p></ul>"
        Preferences.standard.comments = (some root, []) ∧
      (emitted root).countP (·.tag.loop.isSome) = 1 ∧
      (emitted root).countP (·.tag.guard.opening?.isSome) = 1 ∧
      ((emitted root).flatMap Element.branches).length = 1 :=
    parse_root_of_forall (by decide +kernel)
  obtain ⟨-, ⟨he, hee⟩, ⟨hi, hie⟩, hbr, -⟩ := delimiters_counted h
  exact ⟨root, h, ⟨he.trans hl, hee.trans hl⟩, ⟨hi.trans ho, hie.trans ho⟩, hbr.trans hb⟩

end ComponentConverter.Svelte
