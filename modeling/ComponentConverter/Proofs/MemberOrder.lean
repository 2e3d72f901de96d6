import ComponentConverter.Proofs.MemberAccounts

namespace ComponentConverter.Options

open Script

/-- The divisions of an instance. Hooks that are registered stand among the methods. -/
inductive Division where
  | props
  | data
  | computed
  | methods
  | beforeCreate
  | created
  | rest
  deriving Repr, DecidableEq

def Entry.division : Entry → Division
  | .props => .props
  | .data => .data
  | .computed => .computed
  | .methods | .hook _ => .methods
  | .beforeCreate => .beforeCreate
  | .created => .created
  | .name | .unknown _ => .rest

def divisionOf (n : Node) : Division := (keyOf? n).elim .rest fun key => (Entry.ofKey key).division

def Contribution.division? : Contribution → Option Division
  | .nothing => none
  | .props _ => some .props
  | .data _ => some .data
  | .computed _ => some .computed
  | .methods _ | .registration _ _ => some .methods
  | .beforeCreate _ => some .beforeCreate
  | .created _ => some .created

section Contributions

/-- A member brings something into its own division, or nothing. -/
theorem division_contributionOf (s : Source) (n : Node) {d : Division}
    (h : (contributionOf s n).value.division? = some d) : divisionOf n = d := by
  rw [divisionOf, ← name_read s "default export" n]
  unfold contributionOf at h
  rw [Noted.value_bind] at h
  cases hm : (Member.read s "default export" n).value with
  | none =>
    rw [hm] at h
    cases h
  | some m =>
    rw [hm] at h
    dsimp only [contribution] at h
    rw [Option.map_some, Option.elim_some]
    cases hentry : Entry.ofKey (String.ofList m.name) with
    | hook hook =>
      rw [hentry] at h
      change Contribution.division? ((hookHandler s m).value.elim .nothing (.registration hook)) = some d at h
      cases hh : (hookHandler s m).value with
      | none => simp [hh, Contribution.division?] at h
      | some handler =>
        rw [hh] at h
        exact Option.some.inj h
    | name | unknown key =>
      rw [hentry] at h
      cases h
    | _ =>
      rw [hentry] at h
      exact Option.some.inj h

def Instance.only (i : Instance) : Division → Instance
  | .props => { Instance.empty with props := i.props }
  | .data => { Instance.empty with data := i.data }
  | .computed => { Instance.empty with computed := i.computed }
  | .methods => { Instance.empty with imports := i.imports, methods := i.methods }
  | .beforeCreate => { Instance.empty with beforeCreate := i.beforeCreate }
  | .created => { Instance.empty with created := i.created }
  | .rest => .empty

theorem only_ext {i j : Instance} (h : ∀ d, i.only d = j.only d) : i = j := by
  have hpart {α : Type} (f : Instance → α) (d : Division) := congrArg f (h d)
  rw [Instance.mk.injEq]
  exact ⟨hpart Instance.imports .methods, hpart Instance.props .props, hpart Instance.data .data,
    hpart Instance.computed .computed, hpart Instance.beforeCreate .beforeCreate, hpart Instance.created .created,
    hpart Instance.methods .methods⟩

theorem only_add (i : Instance) (c : Contribution) (d : Division) :
    (i.add c).only d = if c.division? = some d then (i.only d).add c else i.only d := by
  cases c <;> cases d <;> rfl

theorem only_ofContributions (cs : List Contribution) (d : Division) :
    (Instance.ofContributions cs).only d = .ofContributions (cs.filter fun c => c.division? = some d) := by
  have hfold (i : Instance) :
      (cs.foldl Instance.add i).only d = (cs.filter fun c => c.division? = some d).foldl Instance.add (i.only d) := by
    induction cs generalizing i with
    | nil => rfl
    | cons c cs ih =>
      rw [List.foldl_cons, ih, only_add, List.filter_cons]
      by_cases hc : c.division? = some d
      · simp [hc]
      · simp [hc]
  refine (hfold .empty).trans ?_
  cases d <;> rfl

end Contributions

theorem value_collect_of_divisions (s : Source) {ns ns' : List Node}
    (h : ∀ d, (ns.filter fun n => divisionOf n = d) = ns'.filter fun n => divisionOf n = d) :
    (collect s ns).value = (collect s ns').value := by
  have hpart (ns : List Node) (d : Division) :
      ((ns.map fun n => (contributionOf s n).value).filter fun c => c.division? = some d) =
        ((ns.filter fun n => divisionOf n = d).map fun n => (contributionOf s n).value).filter
          fun c => c.division? = some d := by
    simp only [List.filter_map, List.filter_filter]
    refine congrArg (List.map _) (List.filter_congr fun n _ => ?_)
    by_cases hc : (contributionOf s n).value.division? = some d
    · simp [division_contributionOf s n hc]
    · simp [hc]
  rw [value_collect, value_collect]
  apply only_ext
  intro d
  rw [only_ofContributions, only_ofContributions, hpart ns, hpart ns', h d]

theorem members_commute (s : Source) : (∀ (front back : List Node) (a b : Node), divisionOf a ≠ divisionOf b →
      (collect s (front ++ a :: b :: back)).value = (collect s (front ++ b :: a :: back)).value ∧
        (collect s (front ++ a :: b :: back)).notes.Perm (collect s (front ++ b :: a :: back)).notes) ∧
    ∀ ns ns', (∀ d, (ns.filter fun n => divisionOf n = d) = ns'.filter fun n => divisionOf n = d) → ∀ typed,
      (collect s ns).value.render typed = (collect s ns').value.render typed := by
  refine ⟨?_, fun ns ns' h typed => congrArg (Instance.render · typed) (value_collect_of_divisions s h)⟩
  intro front back a b hne
  refine ⟨value_collect_of_divisions s fun d => ?_, ?_⟩
  · simp only [List.filter_append, List.filter_cons]
    by_cases ha : divisionOf a = d
    · have hb : divisionOf b ≠ d := fun hb => hne (ha.trans hb.symm)
      simp [hb]
    · simp [ha]
  · rw [notes_collect, notes_collect]
    exact (List.Perm.append_left front (List.Perm.swap b a back)).flatMap_right _

def dataMember : Node := .mk .pair ⟨0, 7⟩ [.leaf (.key (some "data")) ⟨0, 4⟩, .leaf .literal ⟨6, 7⟩]

def propsMember : Node := .mk .pair ⟨9, 21⟩ [.leaf (.key (some "props")) ⟨9, 14⟩,
  .mk .array ⟨16, 21⟩ [.leaf (.string (some ['a'])) ⟨17, 20⟩]]

theorem members_commute_props :
    let s : Source := ⟨"data: 1, props: ['a']", 0⟩
    divisionOf dataMember ≠ divisionOf propsMember ∧
      (collect s [dataMember, propsMember]).value = (collect s [propsMember, dataMember]).value := by
  intro s
  have hne : divisionOf dataMember ≠ divisionOf propsMember := by decide
  exact ⟨hne, ((members_commute s).1 [] [] _ _ hne).1⟩

end ComponentConverter.Options
