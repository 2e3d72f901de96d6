import ComponentConverter.Proofs.MemberAccounts

namespace ComponentConverter

variable {n body : Node} {code : Text} {s : Source} {m : Member}

namespace Script

/-- Whether a form returns by itself, or holds nothing that returns from the function it stands in. -/
def Form.returns? : Form → Option Bool
  | .returnStatement => some true
  | .functionExpression .. | .functionDeclaration | .arrow _ | .method .. | .accessor | .classExpression
  | .typeArguments | .this | .property _ => some false
  | _ => none

mutual

/-- Whether a return statement stands in a node, at any depth but in no function of its own. -/
def Node.returns : Node → Bool
  | .mk form _ children => form.returns?.getD (returnAmong children)

def returnAmong : List Node → Bool
  | [] => false
  | n :: ns => n.returns || returnAmong ns

end

section Returns

theorem returns_of_closed (h : n.form.returns? = some false) : n.returns = false := by
  obtain ⟨form, span, children⟩ := n
  rw [Node.returns, show form.returns? = some false from h, Option.getD_some]

theorem returns_bare (n : Node) : n.bare.returns = n.returns := by
  fun_induction Node.bare n with
  | case1 span inner ih => simp [ih, Node.returns, returnAmong, Form.returns?]
  | case2 n => rfl

theorem returns_of_this (h : n.bare.form = .this) : n.returns = false := by
  rw [← returns_bare]
  exact returns_of_closed (by rw [h]; rfl)

theorem returnAmong_plainArguments (arguments : List Node) :
    returnAmong (plainArguments arguments) = returnAmong arguments := by
  unfold plainArguments
  split
  · rw [returnAmong, returns_of_closed rfl, Bool.false_or]
  · rfl

/-- A function that is bound to its instance holds its returns, before and after. -/
theorem returns_bound {callee f : Node} {arguments : List Node} (h : boundFunction? callee arguments = some f) :
    (freedWithin callee).returns = false ∧ callee.returns = false ∧ returnAmong arguments = false := by
  obtain ⟨span, receiver, place, parts, hc, hr, hf, ha⟩ := boundFunction?_eq_some h
  have hclosed : f.form.returns? = some false := by
    cases hform : f.form with
    | functionExpression => rfl
    | _ => simp [hform, Form.isFunction] at hf
  refine ⟨?_, ?_, ?_⟩
  · rw [freedWithin_of_bound h]
    exact returns_of_closed hclosed
  · rw [← returns_bare, hc]
    simp [Node.returns, returnAmong, Form.returns?, ← returns_bare receiver, hr, returns_of_closed hclosed]
  · obtain ⟨this, hthis, hform⟩ := List.map_eq_singleton_iff.mp ha
    rw [← returnAmong_plainArguments, hthis, returnAmong, returns_of_closed (by rw [hform]; rfl)]
    rfl

/-- What is freed from its instance returns as it did. -/
theorem returns_freed : (∀ n, (freed n).returns = n.returns) ∧
    (∀ ns, returnAmong (freedAmong ns) = returnAmong ns) ∧ ∀ _ : Node, True := by
  refine @freed.mutual_induct _ _ _ ?_ ?_ ?_ ?_ ?_ ?_ ?_ ?_ ?_ ?_ ?_ ?_ ?_ ?_
  · intro isAsync isGenerator isNamed span children
    rw [freed]
  · intro span children
    rw [freed]
  · intro span receiver name place parts hr
    simp [freed, hr, returns_of_this hr, Node.leaf, Node.returns, returnAmong, Form.returns?]
  · intro span receiver name place parts hr ih
    simp [freed, hr, ih, Node.returns, returnAmong]
  · intro span receiver place index hr ih
    simp [freed, hr, returns_of_this hr, ih, Node.returns, returnAmong, Form.returns?]
  · intro span receiver place index hr ih ih'
    simp [freed, hr, ih, ih', Node.returns, returnAmong]
  · intro span callee arguments f hf _
    obtain ⟨hwithin, hcallee, harguments⟩ := returns_bound hf
    simp [freed, hf, hwithin, hcallee, harguments, Node.returns, returnAmong, Form.returns?]
  · intro span callee arguments hf ih ih'
    simp [freed, hf, ih, ih', Node.returns, returnAmong]
  · intro form span children hfunction hdeclaration hproperty hcomputed hcall ih
    rw [freed.eq_6 _ _ _ hfunction hdeclaration hproperty hcomputed hcall, Node.returns, Node.returns, ih]
  · exact fun _ _ _ => trivial
  · exact fun _ _ _ _ => trivial
  · exact fun _ _ _ _ _ _ => trivial
  · rfl
  · intro n ns ih ih'
    rw [freedAmong, returnAmong, returnAmong, ih, ih']

mutual

theorem returns_of_alike : ∀ n m : Node, n.alike m = true → n.returns = m.returns
  | .mk form _ children, .mk form' _ children', h => by
    obtain ⟨hform, hchildren⟩ := Bool.and_eq_true_iff.mp h
    rw [Node.returns, Node.returns, beq_iff_eq.mp hform, returnAmong_of_alike children children' hchildren]

theorem returnAmong_of_alike : ∀ ns ms : List Node, allAlike ns ms = true → returnAmong ns = returnAmong ms
  | [], [], _ => rfl
  | n :: ns, m :: ms, h => by
    obtain ⟨hn, hns⟩ := Bool.and_eq_true_iff.mp h
    rw [returnAmong, returnAmong, returns_of_alike n m hn, returnAmong_of_alike ns ms hns]

end

end Returns

/-- Whether a return statement that belongs to no function is read in a script. -/
def returnsIn (typed : Bool) (code : Text) : Bool :=
  match parse code typed with
  | .ok script => returnAmong script.items
  | .error _ => false

/-- Whether a script is read as the given statements, freed from their instance. -/
def readsAsFreed (typed : Bool) (code : Text) (statements : List Node) : Bool :=
  match parse code typed with
  | .ok script => allAlike script.items (freedAmong statements)
  | .error _ => false

theorem returnsIn_of_readsAsFreed {typed : Bool} {statements : List Node}
    (h : readsAsFreed typed code statements = true) : returnsIn typed code = returnAmong statements := by
  unfold readsAsFreed at h
  unfold returnsIn
  split at h
  · exact (returnAmong_of_alike _ _ h).trans (returns_freed.2.1 statements)
  · cases h

end Script

namespace Options

open Script

theorem notes_detached (s : Source) (n : Node) :
    (s.detached n).notes = [] ↔ (findings n).filterMap Finding.unreadable? = [] := by
  simp [Source.detached, Source.noteUnreadable]

theorem notes_creationCode (h : m.function?.bind Node.body? = some body) :
    (creationCode s m).notes = [] ↔ ∀ n ∈ body.children, (findings n).filterMap Finding.unreadable? = [] := by
  obtain ⟨f, hf, hb⟩ := Option.bind_eq_some_iff.mp h
  simp [creationCode, hookFunction, hf, hb, Noted.notes_traverse, notes_detached]

theorem value_creationCode (h : m.function?.bind Node.body? = some body) (hc : (creationCode s m).value = some code) :
    code = joinLines (body.children.map fun n => (s.detached n).value) := by
  obtain ⟨f, hf, hb⟩ := Option.bind_eq_some_iff.mp h
  simp only [creationCode, hookFunction, hf, hb, Noted.value_bind, Noted.value_pure, Option.bind_some,
    Noted.value_traverse] at hc
  split at hc
  · cases hc
  · exact (Option.some.inj hc).symm

/-- The code at creation is made of the statements of a function, freed from their instance: the trees and the texts
that are left of them are left by the same cuts. If it is read as these statements, no return statement stands outside
its functions, or something is told, exactly if no such statement stood in the function, or a part of it cannot be
read. -/
theorem creation_code_contained_iff {s : Source} {m : Member} {body : Node} {code : Text}
    (hb : m.function?.bind Node.body? = some body) (hc : (creationCode s m).value = some code) :
    code = joinLines (body.children.map fun n => (s.detached n).value) ∧
      (∀ n ∈ body.children, Nested s.text n → ∃ t, Spells s.text n (freed n) t ∧ (s.detached n).value = dedent t) ∧
      ∀ typed, readsAsFreed typed code body.children = true →
        ((returnsIn typed code = false ∨ (creationCode s m).notes ≠ []) ↔ (returnAmong body.children = false ∨
            ∃ n ∈ body.children, (findings n).filterMap Finding.unreadable? ≠ [])) := by
  refine ⟨value_creationCode hb hc, fun n _ hn => detached_spells hn, fun typed hr => ?_⟩
  rw [returnsIn_of_readsAsFreed hr, Ne, notes_creationCode hb]
  simp

/-- A return statement in a function of its own. -/
theorem creation_code_contained_function :
    let script := "export default \x7b created() \x7b this.f = function () \x7b return 1 \x7d \x7d \x7d".toList
    let s : Source := ⟨script, 0⟩
    let code := "f = function () \x7b return 1 \x7d".toList
    ∃ m ∈ fieldsOf s "default export" (optionsIn script), ∃ body, m.function?.bind Node.body? = some body ∧
      (creationCode s m).value = some code ∧ readsAsFreed false code body.children = true ∧
      ((returnsIn false code = false ∨ (creationCode s m).notes ≠ []) ↔ (returnAmong body.children = false ∨
          ∃ n ∈ body.children, (findings n).filterMap Finding.unreadable? ≠ [])) := by
  intro script s code
  have hfields : (fieldsOf s "default export" (optionsIn script)).map (fun m => ((creationCode s m).value,
      (m.function?.bind Node.body?).any fun body => readsAsFreed false code body.children)) = [(some code, true)] := by
    decide +kernel
  obtain ⟨m, hm, hboth⟩ := List.map_eq_singleton_iff.mp hfields
  obtain ⟨hc, hbody⟩ := Prod.mk.inj hboth
  obtain ⟨body, hb, hr⟩ : ∃ body, m.function?.bind Node.body? = some body ∧ readsAsFreed false code body.children = true :=
    (Option.any_eq_true _ _).mp hbody
  exact ⟨m, hm ▸ List.mem_cons_self, body, hb, hc, hr, (creation_code_contained_iff hb hc).2.2 false hr⟩

/-- A return statement that leaves the script, of which nothing is told. -/
theorem creation_code_returns :
    let script := "export default \x7b created() \x7b if (this.x) return; this.y = 1 \x7d \x7d"
    let s : Source := ⟨script, 0⟩
    let code := "if (x) return;\ny = 1"
    ∃ m ∈ fieldsOf s "default export" (optionsIn script), (creationCode s m).value = some code ∧
      returnsIn false code = true ∧ (creationCode s m).notes = [] := by
  decide +kernel

end Options

end ComponentConverter
