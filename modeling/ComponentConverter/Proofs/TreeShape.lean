import ComponentConverter.Template.Parse

namespace ComponentConverter.Template

open List Markup

variable {e b : Element} {before nodes : List Node} {keepComments : Bool}
variable {root : Element} {source : Text}

mutual

/-- An element has branches only if it opens a chain. Branches stand below their chain and
nowhere else, and have no branches of their own. -/
def Element.Shaped : Element → Prop
  | .mk tag children branches =>
    (branches ≠ [] → tag.guard.opening?.isSome = true) ∧ NodesShaped children ∧ BranchesShaped branches

def NodesShaped : List Node → Prop
  | [] => True
  | .element e :: ns => (e.tag.guard.isBranch = false ∧ e.Shaped) ∧ NodesShaped ns
  | .text _ _ :: ns => NodesShaped ns
  | .comment _ _ :: ns => NodesShaped ns

def BranchesShaped : List Element → Prop
  | [] => True
  | b :: bs => (b.tag.guard.isBranch = true ∧ b.branches = [] ∧ b.Shaped) ∧ BranchesShaped bs

end

def Node.Standing : Node → Prop
  | .element e => e.tag.guard.isBranch = false ∧ e.Shaped
  | _ => True

def Node.Loose : Node → Prop
  | .element e => e.branches = [] ∧ NodesShaped e.children
  | _ => True

theorem nodesShaped_iff (ns : List Node) : NodesShaped ns ↔ ∀ n ∈ ns, n.Standing := by
  induction ns with
  | nil => simp [NodesShaped]
  | cons n ns ih => cases n <;> simp [NodesShaped, Node.Standing, ih]

theorem branchesShaped_append (bs : List Element) (b : Element) : BranchesShaped (bs ++ [b]) ↔
      BranchesShaped bs ∧ b.tag.guard.isBranch = true ∧ b.branches = [] ∧ b.Shaped := by
  induction bs with
  | nil => simp [BranchesShaped]
  | cons c bs ih => simp [BranchesShaped, ih, and_assoc]

theorem Element.shaped_of_loose (h : (Node.element e).Loose) : e.Shaped := by
  cases e with
  | mk tag children branches =>
    obtain ⟨hb, hc⟩ := h
    subst hb
    exact ⟨fun hne => absurd rfl hne, hc, trivial⟩

@[simp]
theorem Element.tag_addBranch (e b : Element) : (e.addBranch b).tag = e.tag := by
  cases e; rfl

theorem Element.shaped_addBranch (he : e.Shaped)
    (ho : e.tag.guard.opening?.isSome = true) (hb : b.tag.guard.isBranch = true)
    (hl : (Node.element b).Loose) : (e.addBranch b).Shaped := by
  cases e with
  | mk tag children branches =>
    obtain ⟨-, hc, hbs⟩ := he
    exact ⟨fun _ => ho, hc, (branchesShaped_append branches b).mpr
      ⟨hbs, hb, hl.1, Element.shaped_of_loose hl⟩⟩

theorem addSiblings_cons (before : List Node) (n : Node) (nodes : List Node) :
    addSiblings before (n :: nodes) = ((addSiblings (addSibling before n).1 nodes).1,
        (addSibling before n).2 ++ (addSiblings (addSibling before n).1 nodes).2) := rfl

section Siblings

/-- Nodes with `L` have `S` once they stand among their siblings. -/
structure Settles (L S : Node → Prop) : Prop where
  stay : ∀ n, L n → (∀ e, n = .element e → e.tag.guard.isBranch = false) → S n
  blank : ∀ raw span, L (.text raw span) → S (.text [' '] span)
  addBranch : ∀ e b : Element, S (.element e) → e.tag.guard.opening?.isSome = true → L (.element b) →
    b.tag.guard.isBranch = true → S (.element (e.addBranch b))

variable {L S : Node → Prop}

theorem forall_attachBranch (hs : Settles L S) (h : ∀ n ∈ before, S n) (hl : L (.element b))
    (hb : b.tag.guard.isBranch = true) : ∀ n ∈ (attachBranch before b).1, S n := by
  have hd : ∀ n ∈ before.dropWhile (!·.isElement), S n := by
    intro n hn
    exact h n ((dropWhile_sublist _).subset hn)
  rw [attachBranch]
  split
  next e rest heq =>
    rw [heq] at hd
    obtain ⟨he, hrest⟩ := forall_mem_cons.mp hd
    split
    next ho => exact forall_mem_cons.mpr ⟨hs.addBranch e b he ho hl hb, hrest⟩
    · exact hd
  · exact hd

theorem forall_addSibling (hs : Settles L S) {node : Node} (h : ∀ n ∈ before, S n) (hl : L node) :
    ∀ n ∈ (addSibling before node).1, S n := by
  have hcons : ∀ node, S node → ∀ n ∈ node :: before, S n := by
    intro node hn
    exact forall_mem_cons.mpr ⟨hn, h⟩
  cases node with
  | element e =>
    rw [addSibling]
    split
    next hb => exact forall_attachBranch hs h hl hb
    next hb =>
      refine hcons _ (hs.stay _ hl ?_)
      rintro e ⟨⟩
      simpa using hb
  | text raw span =>
    rw [addSibling]
    split
    · dsimp only
      split
      · simp
      · exact hcons _ (hs.blank raw span hl)
    · exact hcons _ (hs.stay _ hl nofun)
  | comment body span => exact hcons _ (hs.stay _ hl nofun)

theorem forall_addSiblings (hs : Settles L S) (h : ∀ n ∈ before, S n) (hl : ∀ n ∈ nodes, L n) :
    ∀ n ∈ (addSiblings before nodes).1, S n := by
  induction nodes generalizing before with
  | nil => exact h
  | cons node nodes ih =>
    obtain ⟨hnode, hnodes⟩ := forall_mem_cons.mp hl
    exact ih (forall_addSibling hs h hnode) hnodes

theorem forall_chainBranches (hs : Settles L S) (hl : ∀ n ∈ nodes, L n) : ∀ n ∈ (chainBranches nodes).1, S n := by
  intro n hn
  have hmem := (dropWhile_sublist _).subset (mem_reverse.mp hn)
  exact forall_addSiblings hs (by simp) hl n hmem

theorem settles_standing : Settles Node.Loose Node.Standing where
  stay n hl hb := by
    cases n with
    | element e => exact ⟨hb e rfl, Element.shaped_of_loose hl⟩
    | _ => trivial
  blank _ _ _ := trivial
  addBranch e b he ho hl hb :=
    ⟨by rw [Element.tag_addBranch]; exact he.1, Element.shaped_addBranch he.2 ho hb hl⟩

theorem chainBranches_shaped (hl : ∀ n ∈ nodes, n.Loose) : NodesShaped (chainBranches nodes).1 :=
  (nodesShaped_iff _).mpr (forall_chainBranches settles_standing hl)

end Siblings

/-- A property of all nodes that are gathered from a source of which the start tags are known to
have `Q`: it holds of texts, of comments and of elements, once it holds of what stands in them. -/
structure Gathers (Q : Text → List Attribute → Prop) (P : Node → Prop) : Prop where
  text : ∀ raw span, P (.text raw span)
  comment : ∀ body span, P (.comment body span)
  childless : ∀ tag : Tag, Q tag.name tag.attributes → P (.element (.mk tag [] []))
  enclosing : ∀ (tag : Tag) (nodes : List Node), Q tag.name tag.attributes →
    isVoid tag.name = false → (∀ n ∈ nodes, P n) → P (.element (.mk tag (chainBranches nodes).1 []))

def Piece.Opens (Q : Text → List Attribute → Prop) (p : Piece) : Prop :=
  ∀ name start tag stop, p = .opening name start tag stop → Q name tag.attributes

namespace Build

@[simp]
theorem report_nil (b : Build) : b.report [] = b := by
  rw [report, append_nil]

/-- All nodes gathered so far have `P`. Only elements that are not void have been opened. -/
structure Keeps (Q : Text → List Attribute → Prop) (P : Node → Prop) (b : Build) : Prop where
  opened : ∀ e ∈ b.opened, (Q e.name e.attributes ∧ isVoid e.name = false) ∧ ∀ n ∈ e.children, P n
  roots : ∀ n ∈ b.roots, P n

variable {Q : Text → List Attribute → Prop} {P : Node → Prop} {b : Build}

theorem Keeps.report (h : b.Keeps Q P) (faults : List Fault) : (b.report faults).Keeps Q P := ⟨h.opened, h.roots⟩

theorem faults_push (b : Build) (n : Node) : (b.push n).faults = b.faults := by
  rw [push]
  split <;> rfl

theorem forall_push {R : OpenElement → Prop} {n : Node} (ho : ∀ e ∈ b.opened, R e)
    (hr : ∀ m ∈ b.roots, P m) (hn : P n) (hadd : ∀ e, R e → R { e with children := n :: e.children }) :
    (∀ e ∈ (b.push n).opened, R e) ∧ ∀ m ∈ (b.push n).roots, P m := by
  obtain ⟨opened, roots, faults⟩ := b
  cases opened with
  | nil => exact ⟨ho, forall_mem_cons.mpr ⟨hn, hr⟩⟩
  | cons e outer =>
    obtain ⟨he, houter⟩ := forall_mem_cons.mp ho
    exact ⟨forall_mem_cons.mpr ⟨hadd e he, houter⟩, hr⟩

theorem Keeps.push (h : b.Keeps Q P) {n : Node} (hn : P n) : (b.push n).Keeps Q P := by
  obtain ⟨ho, hr⟩ := forall_push h.opened h.roots hn fun _ he =>
    ⟨he.1, forall_mem_cons.mpr ⟨hn, he.2⟩⟩
  exact ⟨ho, hr⟩

theorem Keeps.pushElement (h : b.Keeps Q P) {tag : Tag} {children : List Node}
    (hn : P (.element (.mk tag children []))) : (b.pushElement tag children).Keeps Q P := by
  rw [Build.pushElement]
  split
  · exact h.report _
  · refine Keeps.push ?_ hn
    split
    · split
      · exact h.report _
      · exact h
    · exact h

theorem Keeps.close (hP : Gathers Q P) (h : b.Keeps Q P) {e : OpenElement} {outer : List OpenElement}
    (hb : b.opened = e :: outer) (closing : List Fault) (stop : Nat) :
    (b.close e outer closing stop).Keeps Q P := by
  have ho := h.opened
  rw [hb] at ho
  obtain ⟨⟨⟨hq, hv⟩, hc⟩, houter⟩ := forall_mem_cons.mp ho
  have hl : Keeps Q P { b with opened := outer } := ⟨houter, h.roots⟩
  have hn : ∀ n ∈ e.children.reverse, P n := by
    intro n hn
    exact hc n (mem_reverse.mp hn)
  exact (hl.report _).pushElement (hP.enclosing _ _ hq hv hn)

theorem Keeps.step (hP : Gathers Q P) (h : b.Keeps Q P) (keepComments : Bool) (last : Nat)
    {p : Piece} (hp : p.Opens Q) : (b.step keepComments last p).Keeps Q P := by
  cases p with
  | text raw span => exact h.push (hP.text raw span)
  | comment comment =>
    rw [Build.step]
    split
    · exact (h.report _).push (hP.comment _ _)
    · exact h.report _
  | nameless fault => exact h.report _
  | opening name start tag stop =>
    have hq : Q name tag.attributes := hp name start tag stop rfl
    rw [Build.step]
    cases tag.tagEnd with
    | opened =>
      dsimp only
      split
      · exact (h.report _).pushElement (hP.childless _ hq)
      next hv =>
        refine ⟨forall_mem_cons.mpr ⟨⟨⟨hq, ?_⟩, by simp⟩, h.opened⟩, h.roots⟩
        simpa using hv
    | selfClosed => exact (h.report _).pushElement (hP.childless _ hq)
    | cutOff => exact ((h.report _).report _).pushElement (hP.childless _ hq)
  | closing tag stop =>
    rw [Build.step]
    split
    · exact h.report _
    next e outer heq => exact h.close hP heq _ _

theorem Keeps.foldl (hP : Gathers Q P) (h : b.Keeps Q P) (keepComments : Bool) (last : Nat)
    {ps : List Piece} (hp : ∀ p ∈ ps, p.Opens Q) : (ps.foldl (Build.step keepComments last) b).Keeps Q P := by
  induction ps generalizing b with
  | nil => exact h
  | cons p ps ih =>
    obtain ⟨hp, hps⟩ := forall_mem_cons.mp hp
    exact ih (h.step hP keepComments last hp) hps

theorem Keeps.finish (hP : Gathers Q P) (h : b.Keeps Q P) (last stop : Nat)
    (es : List OpenElement) : (b.finish last stop es).Keeps Q P := by
  induction es generalizing b with
  | nil => exact h
  | cons e es ih =>
    rw [Build.finish]
    split
    · exact h
    next f outer heq => exact ih (h.close hP heq _ _)

end Build

theorem selectRoot_mem {root : Option Element}
    (h : (selectRoot root nodes).1 = some e) : root = some e ∨ Node.element e ∈ nodes := by
  induction nodes generalizing root with
  | nil => exact .inl h
  | cons n nodes ih =>
    cases n with
    | element f =>
      cases root with
      | none =>
        rcases ih h with hf | hm
        · obtain rfl : f = e := by simpa using hf
          exact .inr mem_cons_self
        · exact .inr (mem_cons_of_mem _ hm)
      | some r => exact (ih h).imp id (mem_cons_of_mem _)
    | text raw span => exact (ih h).imp id (mem_cons_of_mem _)
    | comment body span => exact (ih h).imp id (mem_cons_of_mem _)

/-- The state after the last piece of a source, nothing left open. -/
def Build.ofSource (source : Text) (keepComments : Bool) : Build :=
  let b := (Piece.all source).1.foldl (Build.step keepComments (bytes source)) ⟨[], [], []⟩
  b.finish (bytes source) (Piece.all source).2 b.opened

theorem Build.keeps_ofSource {Q : Text → List Attribute → Prop} {P : Node → Prop}
    (hP : Gathers Q P) (source : Text) (keepComments : Bool) (hQ : ∀ p ∈ (Piece.all source).1, p.Opens Q) :
    (Build.ofSource source keepComments).Keeps Q P :=
  (Keeps.foldl hP ⟨by simp, by simp⟩ keepComments _ hQ).finish hP _ _ _

theorem gathers_loose : Gathers (fun _ _ => True) Node.Loose where
  text _ _ := trivial
  comment _ _ := trivial
  childless _ _ := ⟨rfl, trivial⟩
  enclosing _ _ _ _ hn := ⟨rfl, chainBranches_shaped hn⟩

theorem parse_eq (source : Text) (keepComments : Bool) : parse source keepComments =
      let b := Build.ofSource source keepComments
      let siblings := chainBranches b.roots.reverse
      let picked := selectRoot none siblings.1
      let faults := b.faults ++ siblings.2 ++ picked.2
      if picked.1.isNone && faults.isEmpty then (none, [⟨.emptyTemplate, ⟨0, bytes source⟩⟩])
      else (picked.1, faults) := rfl

theorem root_mem_of_parse (h : (parse source keepComments).1 = some root) :
    Node.element root ∈ (chainBranches (Build.ofSource source keepComments).roots.reverse).1 := by
  rw [parse_eq] at h
  dsimp only at h
  split at h
  · simp at h
  · rcases selectRoot_mem h with hn | hm
    · simp at hn
    · exact hm

/-- The root of every tree that is read is no branch, and the whole tree is in shape. -/
theorem parse_shaped (h : (parse source keepComments).1 = some root) :
    root.tag.guard.isBranch = false ∧ root.Shaped := by
  have hl : ∀ n ∈ (Build.ofSource source keepComments).roots.reverse, n.Loose := by
    intro n hn
    have hb := Build.keeps_ofSource gathers_loose source keepComments (fun _ _ _ _ _ _ _ => trivial)
    exact hb.roots n (mem_reverse.mp hn)
  exact (nodesShaped_iff _).mp (chainBranches_shaped hl) _ (root_mem_of_parse h)

theorem parse_root_of_faultless (h : (parse source keepComments).2 = []) :
    ∃ root, parse source keepComments = (some root, []) := by
  cases hp : parse source keepComments with
  | mk root faults =>
    rw [hp] at h
    obtain rfl : faults = [] := h
    cases root with
    | some root => exact ⟨root, rfl⟩
    | none =>
      rw [parse_eq] at hp
      dsimp only at hp
      split at hp
      · simp at hp
      next hne =>
        obtain ⟨hr, hf⟩ := Prod.mk.inj hp
        simp [hr, hf] at hne

theorem parse_root_of_forall {P : Element → Prop}
    (h : (parse source keepComments).2 = [] ∧ ∀ root ∈ (parse source keepComments).1, P root) :
    ∃ root, parse source keepComments = (some root, []) ∧ P root := by
  obtain ⟨root, hr⟩ := parse_root_of_faultless h.1
  exact ⟨root, hr, h.2 root (by rw [hr]; rfl)⟩

end ComponentConverter.Template
