import ComponentConverter.Proofs.EmittedStatements
import ComponentConverter.Proofs.ScriptNotes
import Mathlib.Data.List.Forall2

namespace ComponentConverter

open List
open Noted (value_bind value_pure value_traverse)

variable {code : Diagnostic.Code} {r : Noted (Option Text)} {declare : Member → Noted (Option Text)}

section Notes

variable {α β : Type}

@[simp] theorem Noted.notes_pure (a : α) : (pure a : Noted α).notes = [] := rfl

@[simp] theorem Noted.notes_bind (x : Noted α) (f : α → Noted β) :
    (x >>= f).notes = x.notes ++ (f x.value).notes := rfl

@[simp] theorem Noted.notes_map (f : α → β) (x : Noted α) : (x.map f).notes = x.notes := rfl

theorem Noted.notes_traverse (f : α → Noted β) (as : List α) :
    (Noted.traverse f as).notes = as.flatMap fun a => (f a).notes := by
  induction as with
  | nil => rfl
  | cons a as ih => simp [Noted.traverse, ih]

end Notes

/-- The codes of warnings that tell of something left out. -/
def Diagnostic.Code.isOmission : Diagnostic.Code → Bool
  | .nonIdentifierKey | .unexpectedMember | .unexpectedProp | .unsupportedComputed | .notAFunction => true
  | _ => false

namespace Options

open Script

variable {c : Category} {f n : Node} {x : Item} {s : Source} {members : List Node} {m : Member} {moment : Hook}

section Omissions

variable {α β : Type}

def omissions (r : Noted α) : List Diagnostic := r.notes.filter (·.code.isOmission)

@[simp] theorem omissions_pure (a : α) : omissions (pure a : Noted α) = [] := rfl

@[simp] theorem omissions_bind (x : Noted α) (f : α → Noted β) :
    omissions (x >>= f) = omissions x ++ omissions (f x.value) := filter_append ..

@[simp] theorem omissions_map (f : α → β) (x : Noted α) : omissions (x.map f) = omissions x := rfl

theorem omissions_traverse (f : α → Noted β) (as : List α) :
    omissions (Noted.traverse f as) = as.flatMap fun a => omissions (f a) := by
  rw [omissions, Noted.notes_traverse, filter_flatMap]
  rfl

theorem omissions_warn (s : Source) (h : code.isOmission = true) (message : Text)
    (span : Span) : omissions (s.warn code message span) = [.warning code message (some (s.locate span))] :=
  filter_cons_of_pos h

theorem omissions_warn_return (s : Source) (h : code.isOmission = true) (message : Text)
    (span : Span) (a : α) : omissions (do s.warn code message span; return a) =
      [.warning code message (some (s.locate span))] := by
  rw [omissions_bind, omissions_warn s h, omissions_pure, append_nil]

theorem omissions_warn_other (s : Source) (h : code.isOmission = false) (message : Text)
    (span : Span) : omissions (s.warn code message span) = [] :=
  filter_cons_of_neg (Bool.eq_false_iff.mp h)

@[simp] theorem omissions_noteUnreadable (s : Source) (found : List Finding) :
    omissions (s.noteUnreadable found) = [] := by
  rw [omissions, filter_eq_nil_iff]
  intro d hd
  obtain ⟨span, -, rfl⟩ := mem_map.mp hd
  exact Bool.false_ne_true

@[simp] theorem omissions_detached (s : Source) (n : Node) : omissions (s.detached n) = [] := by
  simp [Source.detached]

@[simp] theorem omissions_callable? (s : Source) (f : Node) : omissions (s.callable? f) = [] := by
  unfold Source.callable?
  split
  · simp [Source.callable]
  · simp [Source.callable]
  · rfl

theorem omissions_defaultValue (s : Source) (spec : PropSpec) (value : Value) :
    omissions (PropSpec.defaultValue s spec value) = [] := by
  cases value with
  | expression value =>
    unfold PropSpec.defaultValue
    dsimp only
    split
    · simp
    · simp
  | method f =>
    unfold PropSpec.defaultValue
    dsimp only
    split
    · simp
    · simp only [omissions_bind, omissions_callable?]
      split
      · rfl
      · split
        · rfl
        · rfl
  | shorthand => rfl
  | accessor => rfl

theorem omissions_declaration (s : Source) (name : Text) (spec : PropSpec) :
    omissions (PropSpec.declaration s name spec) = [] := by
  have hwarn (span : Span) :
      omissions (s.warn .propValidatorIgnored ("prop `" ++ name ++ "` validator is ignored") span) = [] :=
    omissions_warn_other s rfl _ _
  unfold PropSpec.declaration
  cases spec.default with
  | none => cases spec.validator <;> simp only [omissions_bind, omissions_pure, hwarn, append_nil]
  | some value =>
    cases spec.validator <;>
      simp only [omissions_bind, omissions_pure, omissions_defaultValue, hwarn, append_nil]

end Omissions

inductive Category where
  | props
  | data
  | computed
  | methods
  deriving Repr, DecidableEq

namespace Category

def place : Category → String
  | .props => "props"
  | .data => "data"
  | .computed => "computed"
  | .methods => "methods"

def refusal : Category → Diagnostic.Code
  | .props => .unexpectedProp
  | .data => .unexpectedMember
  | .computed => .unsupportedComputed
  | .methods => .notAFunction

theorem isOmission_refusal (c : Category) : c.refusal.isOmission = true := by cases c <;> rfl

end Category

/-- Whether a member is one that a statement is made of. -/
def Member.suits (m : Member) : Category → Bool
  | .props =>
    match m.bare? with
    | some (.mk (.name _) _ _) | some (.mk .object _ _) => true
    | some n@(.mk .array _ _) => (n.elements.map elementValue).all fun t =>
      match t.form with
      | .name _ => true
      | _ => false
    | _ => false
  | .data =>
    match m.value with
    | .expression _ => true
    | _ => false
  | .computed | .methods => m.function?.isSome

open Member (declarations suits)

/-- What is to be accounted for: an element of the list of props, a member of the object of a
category, a function that is registered for a moment or runs at creation, and a member of the options
without a name. -/
inductive Item where
  | listed (element : Node)
  | field (category : Category) (n : Node)
  | hook (moment : Hook) (n : Node)
  | creation (n : Node)
  | nameless (n : Node)

variable {xs ys : List Item}

namespace Item

def node : Item → Node
  | .listed n | .field _ n | .hook _ n | .creation n | .nameless n => n

def category? : Item → Option Category
  | .listed _ => some .props
  | .field c _ => some c
  | .hook .. => some .methods
  | .creation _ | .nameless _ => none

def member? (s : Source) : Item → Option Member
  | .listed _ => none
  | .field c n => (Member.read s c.place n).value
  | .hook _ n | .creation n | .nameless n => (Member.read s "default export" n).value

/-- The function that a statement or the code at creation is made of. -/
def function? (s : Source) (x : Item) : Option Node :=
  match x with
  | .listed _ | .field .props _ | .field .data _ | .nameless _ => none
  | .field .computed _ | .field .methods _ | .hook .. | .creation _ => (x.member? s).bind Member.function?

def isTaken (s : Source) (x : Item) : Bool :=
  match x with
  | .listed n =>
    match n.form with
    | .string (some _) => true
    | _ => false
  | .field c _ => (x.member? s).any (·.suits c)
  | .hook .. | .creation _ => (x.function? s).isSome
  | .nameless _ => false

def refusals : Item → List Diagnostic.Code
  | .listed _ => [.unexpectedProp]
  | .field c _ => [.unexpectedMember, .nonIdentifierKey, c.refusal]
  | .hook .. | .creation _ => [.notAFunction]
  | .nameless _ => [.unexpectedMember, .nonIdentifierKey]

/-- The statement that an item is turned into, with its name and its value. -/
inductive Yields (s : Source) : Item → Text → Prop where
  | listed {name span children} :
    Yields s (.listed (.mk (.string (some name)) span children)) (Statement.bare name).text
  | prop {n m st comment} (hm : (Item.field .props n).member? s = some m) (h : DeclaresProp s m st)
    (hc : IsComment comment) : Yields s (.field .props n) (st.text ++ comment)
  | data {n m value} (hm : (Item.field .data n).member? s = some m) (hv : m.value = .expression value) :
    Yields s (.field .data n) (Statement.data m.name (s.detached value).value).text
  | computed {n m st} (hm : (Item.field .computed n).member? s = some m) (h : DeclaresComputed s m st) :
    Yields s (.field .computed n) st.text
  | method {n m f callable} (hm : (Item.field .methods n).member? s = some m) (hf : m.function? = some f)
    (hc : (s.callable? f).value = some callable) :
    Yields s (.field .methods n) (Statement.method m.name callable).text
  | hook {moment n m f callable} (hm : (Item.hook moment n).member? s = some m) (hf : m.function? = some f)
    (hc : (s.callable? f).value = some callable) :
    Yields s (.hook moment n) (Statement.hook moment callable.arrow).text

/-- A warning that an item is left out. Its place is that of the item or of a part of it. -/
structure Refused (s : Source) (x : Item) (d : Diagnostic) : Prop where
  code : d.code ∈ x.refusals
  severity : d.severity = .warning
  place : ∃ part, (part = x.node ∨ Part part x.node) ∧ d.span = some (s.locate part.span)

/-- An item with the reading of it: a statement and no omission, or one omission and no statement. -/
inductive Accounted (s : Source) (x : Item) (r : Noted (Option Text)) : Prop where
  | taken {text : Text} (hx : x.isTaken s = true) (hv : r.value = some text) (ht : x.Yields s text)
    (ho : omissions r = [])
  | refused {d : Diagnostic} (hx : x.isTaken s = false) (hv : r.value = none) (hd : x.Refused s d)
    (ho : omissions r = [d])

end Item

open Item (function? isTaken refusals)

def itemsUnder (n : Node) (m : Member) : List Item :=
  match Entry.ofKey (String.ofList m.name) with
  | .props =>
    match m.bare? with
    | some list@(.mk .array _ _) => list.elements.map .listed
    | some (.mk .object _ members) => members.map (.field .props)
    | _ => []
  | .data =>
    match DataShape.ofMember m with
    | .fields members => members.map (.field .data)
    | _ => []
  | .computed => (m.object?.getD []).map (.field .computed)
  | .methods => (m.object?.getD []).map (.field .methods)
  | .hook moment => [.hook moment n]
  | .beforeCreate | .created => [.creation n]
  | .name | .unknown _ => []

/-- The items of an options object, in the order of the source. -/
def items (s : Source) (members : List Node) : List Item :=
  members.flatMap fun n =>
    match (Member.read s "default export" n).value with
    | some m => itemsUnder n m
    | none => [.nameless n]

def Instance.statementsIn (i : Instance) : Category → List Text
  | .props => i.props
  | .data => i.data
  | .computed => i.computed
  | .methods => i.methods

section Fields

variable {s : Source} {n : Node} {m : Member}

/-- A member is read by its name, or it is told why it has none. -/
theorem read_cases (s : Source) (place : String) (n : Node) :
    (∃ m, Member.read s place n = pure (some m) ∧ m.span = n.span) ∨
      ((Member.read s place n).value = none ∧ ∃ d, omissions (Member.read s place n) = [d] ∧
        (d.code = .unexpectedMember ∨ d.code = .nonIdentifierKey) ∧ d.severity = .warning ∧
        ∃ part, (part = n ∨ Part part n) ∧ d.span = some (s.locate part.span)) := by
  unfold Member.read
  split
  · exact .inl ⟨_, rfl, rfl⟩
  · exact .inl ⟨_, rfl, rfl⟩
  -- A member with a value, a method and an accessor have their names from their keys.
  iterate 3
    · unfold Member.keyed
      split
      · exact .inl ⟨_, rfl, rfl⟩
      · exact .inr ⟨rfl, _, omissions_warn_return s rfl _ _ _, .inr rfl, rfl, _, .inr (.child mem_cons_self), rfl⟩
  · exact .inr ⟨rfl, _, omissions_warn_return s rfl _ _ _, .inl rfl, rfl, _, .inl rfl, rfl⟩

/-- What is made of a member of a category that has a name. -/
structure Settled (s : Source) (c : Category) (n : Node) (m : Member) (r : Noted (Option Text)) : Prop where
  taken : m.suits c = true → ∃ text, r.value = some text ∧ (Item.field c n).Yields s text ∧ omissions r = []
  refused : m.suits c = false → r.value = none ∧
    ∃ message, omissions r = [.warning c.refusal message (some (s.locate m.span))]

theorem Settled.of_taken {text : Text} (h : m.suits c = true)
    (hv : r.value = some text) (ht : (Item.field c n).Yields s text) (ho : omissions r = []) : Settled s c n m r := by
  refine ⟨fun _ => ⟨text, hv, ht, ho⟩, fun hr => ?_⟩
  rw [h] at hr
  cases hr

theorem Settled.of_refused (h : m.suits c = false) (message : Text) :
    Settled s c n m (do s.warn c.refusal message m.span; return none) := by
  refine ⟨fun ht => ?_, fun _ => ⟨rfl, message, omissions_warn_return s c.isOmission_refusal _ _ _⟩⟩
  rw [h] at ht
  cases ht

theorem function?_eq_some (h : m.function? = some f) :
    m.value = .method f ∨ ∃ isAsync isGenerator isNamed, f.form = .functionExpression isAsync isGenerator isNamed := by
  unfold Member.function? at h
  split at h
  next g _ hv =>
    cases h
    exact .inl hv
  · cases h
    exact .inr ⟨_, _, _, rfl⟩
  · cases h

theorem callable?_isSome {place : String} (hm : (Member.read s place n).value = some m)
    (hf : m.function? = some f) (hb : f.body?.isSome = true) :
    ∃ callable, (s.callable? f).value = some callable := by
  obtain ⟨body, hb⟩ := Option.isSome_iff_exists.mp hb
  unfold Source.callable?
  rw [hb]
  obtain hv | ⟨_, _, _, h⟩ := function?_eq_some hf
  · obtain ⟨-, _, _, h⟩ := (value_read hm).2 f hv
    rw [h]
    exact ⟨_, rfl⟩
  · rw [h]
    exact ⟨_, rfl⟩

theorem settled_data (hm : (Item.field .data n).member? s = some m) : Settled s .data n m (dataField s m) := by
  unfold dataField
  cases hv : m.value with
  | expression value =>
    have ht := Item.Yields.data hm hv
    rw [Statement.text_data] at ht
    refine .of_taken (by simp [suits, hv]) rfl ht ?_
    simp
  | method | shorthand | accessor => exact .of_refused (by simp [suits, hv]) _

theorem settled_computed (hm : (Item.field .computed n).member? s = some m)
    (hb : ∀ f, m.function? = some f → f.body?.isSome = true) : Settled s .computed n m (computedField s m) := by
  unfold computedField
  cases hf : m.function? with
  | none => exact .of_refused (by simp [suits, hf]) _
  | some f =>
    have hs : m.suits .computed = true := by simp [suits, hf]
    dsimp only
    cases hr : f.body?.bind returned? with
    | some value =>
      have ht := Item.Yields.computed hm (.returned hf hr)
      rw [Statement.text_computed] at ht
      refine .of_taken hs rfl ht ?_
      simp
    | none =>
      obtain ⟨callable, hc⟩ := callable?_isSome hm hf (hb f hf)
      have ht := Item.Yields.computed hm (.applied hf hr hc)
      rw [Statement.text_computed] at ht
      refine .of_taken hs ?_ ht ?_
      · simp only [value_bind, value_pure, hc, Option.map_some]
      · simp

theorem settled_method (hm : (Item.field .methods n).member? s = some m)
    (hb : ∀ f, m.function? = some f → f.body?.isSome = true) : Settled s .methods n m (methodField s m) := by
  unfold methodField
  cases hf : m.function? with
  | none => exact .of_refused (by simp [suits, hf]) _
  | some f =>
    obtain ⟨callable, hc⟩ := callable?_isSome hm hf (hb f hf)
    have ht := Item.Yields.method hm hf hc
    rw [Statement.text_method] at ht
    refine .of_taken (by simp [suits, hf]) ?_ ht ?_
    · simp only [value_bind, value_pure, hc, Option.map_some]
    · simp

theorem settled_prop (hm : (Item.field .props n).member? s = some m) : Settled s .props n m (declaredProp s m) := by
  have htaken {r : Noted (Option Text)} {text : Text} (hs : m.suits .props = true) (h : declaredProp s m = r)
      (hv : r.value = some text) (ho : omissions r = []) : Settled s .props n m r := by
    obtain ⟨st, hst, rfl⟩ := declaredProp_eq (h ▸ hv)
    exact .of_taken hs hv (.prop hm hst (isComment_propNote s m)) ho
  generalize hr : declaredProp s m = r
  have h := hr
  unfold declaredProp at h
  dsimp only at h
  split at h
  next hb =>
    rw [← h]
    exact .of_refused (by simp [suits, hb]) _
  next hb =>
    refine htaken (by simp [suits, hb]) hr (by rw [← h]; rfl) ?_
    rw [← h]
    rfl
  next list span elements hb =>
    split at h
    next hall =>
      refine htaken ?_ hr (by rw [← h]; rfl) (by rw [← h]; rfl)
      simp only [suits, hb]
      exact hall
    next hall =>
      rw [← h]
      refine .of_refused ?_ _
      simp only [suits, hb]
      exact Bool.eq_false_iff.mpr hall
  next fields hb =>
    refine htaken (by simp [suits, hb]) hr (by rw [← h]; rfl) ?_
    rw [← h]
    simp only [omissions_bind, omissions_declaration, omissions_pure, append_nil]
  next value hname harray hobject hb =>
    rw [← h]
    refine .of_refused ?_ _
    simp only [suits, hb]
    split
    next hv => exact absurd (Option.some.inj hv) (hname _ _ _)
    next hv => exact absurd (Option.some.inj hv) (hobject _ _)
    next hv => exact absurd (Option.some.inj hv) (harray _ _)
    · rfl

end Fields

section Items

variable {s : Source}

theorem accounted_listed (s : Source) (e : Node) : (Item.listed e).Accounted s (namedProp s e) := by
  unfold namedProp
  split
  next name span children =>
    have ht := @Item.Yields.listed s name span children
    rw [Statement.text_bare] at ht
    exact .taken rfl rfl ht rfl
  next hname =>
    have hx : (Item.listed e).isTaken s = false := by
      obtain ⟨form, span, children⟩ := e
      simp only [isTaken, Node.form]
      split
      · exact absurd rfl (hname _ _ _)
      · rfl
    have hpart : elementValue e = e ∨ Part (elementValue e) e := by
      unfold elementValue
      split
      · exact .inr (.child mem_cons_self)
      · exact .inl rfl
    exact .refused hx rfl ⟨mem_cons_self, rfl, _, hpart, rfl⟩ (omissions_warn_return s rfl _ _ _)

theorem accounted_field (h : ∀ m, (Item.field c n).member? s = some m → Settled s c n m (declare m)) :
    (Item.field c n).Accounted s (do
      match ← Member.read s c.place n with
      | some m => declare m
      | none => pure none) := by
  obtain ⟨m, hread, hspan⟩ | ⟨hnone, d, ho, hcode, hseverity, hplace⟩ := read_cases s c.place n
  · have hm : (Item.field c n).member? s = some m := congrArg Noted.value hread
    rw [hread]
    cases hs : m.suits c with
    | true =>
      obtain ⟨text, hv, ht, ho⟩ := (h m hm).taken hs
      exact .taken (by simp [isTaken, hm, hs]) hv ht ho
    | false =>
      obtain ⟨hv, message, ho⟩ := (h m hm).refused hs
      refine .refused (by simp [isTaken, hm, hs]) hv ⟨?_, rfl, n, .inl rfl, by rw [← hspan]; rfl⟩ ho
      simp [refusals, Diagnostic.warning]
  · have hm : (Item.field c n).member? s = none := hnone
    refine .refused (by simp [isTaken, hm]) ?_ ⟨?_, hseverity, hplace⟩ ?_
    · rw [value_bind, hnone]
      rfl
    · rcases hcode with hcode | hcode <;> simp [refusals, hcode]
    · rw [omissions_bind, hnone, ho]
      rfl

/-- Items with the statements made of them, by category, and the omissions told of them. -/
structure Settlement (s : Source) (xs : List Item) (texts : Category → List Text) (ds : List Diagnostic) : Prop where
  taken : ∀ c, List.Forall₂ (fun x text => x.Yields s text)
    (xs.filter fun x => x.category? == some c && x.isTaken s) (texts c)
  refused : List.Forall₂ (fun x d => x.Refused s d) (xs.filter fun x => !x.isTaken s) ds

theorem Settlement.nil : Settlement s [] (fun _ => []) [] := ⟨fun _ => .nil, .nil⟩

theorem Settlement.append {texts texts' : Category → List Text} {ds es : List Diagnostic}
    (h : Settlement s xs texts ds) (h' : Settlement s ys texts' es) :
    Settlement s (xs ++ ys) (fun c => texts c ++ texts' c) (ds ++ es) := by
  refine ⟨fun c => ?_, ?_⟩
  · rw [filter_append]
    exact rel_append (h.taken c) (h'.taken c)
  · rw [filter_append]
    exact rel_append h.refused h'.refused

def onlyIn (c : Category) (texts : List Text) (c' : Category) : List Text := if c' = c then texts else []

theorem onlyIn_append (c : Category) (texts texts' : List Text) :
    onlyIn c (texts ++ texts') = fun c' => onlyIn c texts c' ++ onlyIn c texts' c' := by
  funext c'
  by_cases h : c' = c <;> simp [onlyIn, h]

theorem onlyIn_nil (c : Category) : onlyIn c [] = fun _ => [] := by
  funext c'
  simp [onlyIn]

theorem Settlement.single (hc : x.category? = some c)
    (h : x.Accounted s r) : Settlement s [x] (onlyIn c r.value.toList) (omissions r) := by
  cases h with
  | @taken text hx hv ht ho =>
    refine ⟨fun c' => ?_, ?_⟩
    · by_cases h : c' = c
      · subst h
        simpa [hc, hx, hv, onlyIn] using ht
      · have h' : (some c == some c') = false := by simpa using Ne.symm h
        simp [hc, h, h', onlyIn]
    · simp [hx, ho]
  | @refused d hx hv hd ho =>
    refine ⟨fun c' => ?_, ?_⟩
    · simp [hx, hv, onlyIn]
    · simpa [hx, ho] using hd

theorem Settlement.run {α : Type} {item : α → Item} {read : α → Noted (Option Text)} (as : List α)
    (hc : ∀ a, (item a).category? = some c) (h : ∀ a ∈ as, (item a).Accounted s (read a)) :
    Settlement s (as.map item) (onlyIn c (Noted.traverse read as).value.reduceOption)
      (omissions (Noted.traverse read as)) := by
  induction as with
  | nil =>
    rw [show (Noted.traverse read []).value.reduceOption = [] from rfl, onlyIn_nil]
    exact .nil
  | cons a as ih =>
    have hfirst := Settlement.single (hc a) (h a mem_cons_self)
    have hrest := ih fun b hb => h b (mem_cons_of_mem a hb)
    have hvalue : (Noted.traverse read (a :: as)).value.reduceOption =
        (read a).value.toList ++ (Noted.traverse read as).value.reduceOption := by
      rw [value_traverse, value_traverse, map_cons]
      cases (read a).value <;> rfl
    rw [hvalue, onlyIn_append, omissions_traverse, flatMap_cons, ← omissions_traverse]
    exact hfirst.append hrest

theorem Settlement.fields (members : List Node)
    (h : ∀ n ∈ members, ∀ m, (Item.field c n).member? s = some m → Settled s c n m (declare m)) :
    Settlement s (members.map (.field c)) (onlyIn c (declarations s c.place declare members).value)
      (omissions (declarations s c.place declare members)) := by
  unfold declarations
  rw [omissions_bind, omissions_pure, append_nil]
  exact .run members (fun _ => rfl) fun n hn => accounted_field (h n hn)

end Items

def Contribution.statementsIn (k : Contribution) (c : Category) : List Text :=
  match k with
  | .props ds => onlyIn .props ds c
  | .data ds => onlyIn .data ds c
  | .computed ds => onlyIn .computed ds c
  | .methods ds => onlyIn .methods ds c
  | .registration moment handler => onlyIn .methods [(Statement.hook moment handler).text] c
  | .nothing | .beforeCreate _ | .created _ => []

theorem statementsIn_add (i : Instance) (k : Contribution) (c : Category) :
    (i.add k).statementsIn c = i.statementsIn c ++ k.statementsIn c := by
  cases k with
  | registration moment handler =>
    rw [Contribution.statementsIn, Statement.text_hook]
    cases c <;> simp [Instance.add, Instance.statementsIn, onlyIn]
  | _ => cases c <;> simp [Instance.add, Instance.statementsIn, Contribution.statementsIn, onlyIn]

theorem statementsIn_ofContributions (ks : List Contribution) (c : Category) :
    (Instance.ofContributions ks).statementsIn c = ks.flatMap (·.statementsIn c) := by
  have hfold (i : Instance) : (ks.foldl Instance.add i).statementsIn c =
      i.statementsIn c ++ ks.flatMap (·.statementsIn c) := by
    induction ks generalizing i with
    | nil => simp
    | cons k ks ih => simp [ih, statementsIn_add]
  rw [Instance.ofContributions, hfold]
  cases c <;> rfl

section Members

variable {s : Source} {n : Node} {m : Member}

/-- A warning about the member as a whole, after which nothing is declared. -/
theorem settlement_warn (h : code.isOmission = false) (c : Category) (message : Text)
    (span : Span) (r : Noted (List Text)) (hr : (do s.warn code message span; return []) = r) :
    Settlement s [] (onlyIn c r.value) (omissions r) := by
  rw [← hr, omissions_bind, omissions_warn_other s h]
  change Settlement s [] (onlyIn c []) []
  rw [onlyIn_nil]
  exact .nil

theorem settlement_props (s : Source) (n : Node) (hk : Entry.ofKey (String.ofList m.name) = .props) :
    Settlement s (itemsUnder n m) (onlyIn .props (props s m).value) (omissions (props s m)) := by
  unfold props
  rw [itemsUnder, hk]
  generalize m.bare? = value
  rcases value with _ | ⟨form, span, children⟩
  · exact settlement_warn rfl _ _ _ _ rfl
  · cases form with
    | array =>
      rw [omissions_bind, omissions_pure, append_nil]
      exact .run _ (fun _ => rfl) fun e _ => accounted_listed s e
    | object => exact .fields children fun n _ m hm => settled_prop hm
    | _ => exact settlement_warn rfl _ _ _ _ rfl

theorem settlement_data (s : Source) (n : Node) (hk : Entry.ofKey (String.ofList m.name) = .data) :
    Settlement s (itemsUnder n m) (onlyIn .data (data s m).value) (omissions (data s m)) := by
  unfold data
  rw [itemsUnder, hk]
  cases DataShape.ofMember m with
  | fields members => exact .fields members fun n _ m hm => settled_data hm
  | tooComplex => exact settlement_warn rfl _ _ _ _ rfl
  | invalid => exact settlement_warn rfl _ _ _ _ rfl

/-- The functions that statements are made of have a body. -/
def HaveBodies (s : Source) (xs : List Item) : Prop := ∀ x ∈ xs, (x.function? s).all (·.body?.isSome) = true

instance (s : Source) (xs : List Item) : Decidable (HaveBodies s xs) := inferInstanceAs (Decidable (∀ x ∈ xs, _))

theorem HaveBodies.body (h : HaveBodies s xs) (hx : x ∈ xs)
    (hf : x.function? s = some f) : f.body?.isSome = true := by
  simpa [hf] using h x hx

/-- The members of an object that are functions with a body. -/
theorem settlement_object {declare : Member → Noted (Option Text)} (c : Category)
    (hitems : itemsUnder n m = (m.object?.getD []).map (.field c)) (hb : HaveBodies s (itemsUnder n m))
    (hc : ∀ n m, (Item.field c n).member? s = some m → (Item.field c n).function? s = m.function?)
    (hd : ∀ n m, (Item.field c n).member? s = some m → (∀ f, m.function? = some f → f.body?.isSome = true) →
      Settled s c n m (declare m)) :
    Settlement s (itemsUnder n m) (onlyIn c (m.objectDeclarations s c.place declare).value)
      (omissions (m.objectDeclarations s c.place declare)) := by
  rw [hitems] at hb ⊢
  unfold Member.objectDeclarations
  cases ho : m.object? with
  | none => exact settlement_warn rfl _ _ _ _ rfl
  | some members =>
    refine .fields members fun n hn m' hm => hd n m' hm fun f hf => ?_
    exact hb.body (mem_map_of_mem (by rwa [ho])) ((hc n m' hm).trans hf)

theorem accounted_hook {moment : Hook} (hm : (Item.hook moment n).member? s = some m) (hspan : m.span = n.span)
    (hb : ∀ f, m.function? = some f → f.body?.isSome = true) :
    (Item.hook moment n).Accounted s
      ((hookHandler s m).map (Option.map fun handler => (Statement.hook moment handler).text)) := by
  unfold hookHandler hookFunction
  cases hf : m.function? with
  | none =>
    refine .refused (by simp [isTaken, function?, hm, hf]) rfl
      ⟨mem_cons_self, rfl, n, .inl rfl, ?_⟩ (omissions_warn_return s rfl _ m.span _)
    rw [← hspan]
    rfl
  | some f =>
    obtain ⟨callable, hc⟩ := callable?_isSome hm hf (hb f hf)
    refine .taken (by simp [isTaken, function?, hm, hf]) ?_ (.hook hm hf hc) ?_
    · simp [hc]
    · simp

theorem settlement_creation (hm : (Item.creation n).member? s = some m) (hspan : m.span = n.span) :
    Settlement s [.creation n] (fun _ => []) (omissions (creationCode s m)) := by
  unfold creationCode hookFunction
  cases hf : m.function? with
  | none =>
    have hx : (Item.creation n).isTaken s = false := by simp [isTaken, function?, hm, hf]
    refine ⟨fun c => by simp [hx], ?_⟩
    rw [filter_cons_of_pos (by simp [hx]), filter_nil, omissions_bind, omissions_warn_return s rfl]
    exact .cons ⟨mem_cons_self, rfl, n, .inl rfl, by rw [← hspan]; rfl⟩ .nil
  | some f =>
    have hx : (Item.creation n).isTaken s = true := by simp [isTaken, function?, hm, hf]
    refine ⟨fun c => by simp [Item.category?], ?_⟩
    rw [filter_cons_of_neg (by simp [hx]), filter_nil, omissions_bind, omissions_pure, nil_append,
      value_pure, Option.bind_some]
    cases f.body? with
    | none => exact .nil
    | some body => simp [omissions_traverse]

theorem settlement_contribution (hm : (Member.read s "default export" n).value = some m) (hspan : m.span = n.span)
    (hb : HaveBodies s (itemsUnder n m)) :
    Settlement s (itemsUnder n m) (contribution s m).value.statementsIn (omissions (contribution s m)) := by
  unfold contribution
  cases hk : Entry.ofKey (String.ofList m.name) with
  | props => exact settlement_props s n hk
  | data => exact settlement_data s n hk
  | computed =>
    exact settlement_object .computed (by rw [itemsUnder, hk]) hb (fun _ _ hm => by simp [function?, hm])
      fun _ _ => settled_computed
  | methods =>
    exact settlement_object .methods (by rw [itemsUnder, hk]) hb (fun _ _ hm => by simp [function?, hm])
      fun _ _ => settled_method
  | hook moment =>
    rw [itemsUnder, hk] at hb ⊢
    have hx := @accounted_hook s n m moment hm hspan fun f hf =>
      hb.body mem_cons_self (by simp [function?, Item.member?, hm, hf])
    have htexts (handler : Option Text) :
        onlyIn .methods (handler.map fun handler => (Statement.hook moment handler).text).toList =
          (handler.elim .nothing (Contribution.registration moment)).statementsIn := by
      cases handler with
      | none => exact onlyIn_nil _
      | some handler => rfl
    have h := Settlement.single rfl hx
    rw [Noted.value_map, htexts] at h
    exact h
  | beforeCreate | created =>
    rw [itemsUnder, hk]
    exact settlement_creation hm hspan
  | name =>
    rw [itemsUnder, hk]
    exact .nil
  | unknown key =>
    rw [itemsUnder, hk]
    rw [omissions_bind, omissions_warn_other s rfl]
    exact .nil

end Members

/-- What a member of an options object brings in, with or without a name. -/
def contributionOf (s : Source) (n : Node) : Noted Contribution := do
  match ← Member.read s "default export" n with
  | some m => contribution s m
  | none => pure .nothing

theorem value_collect (s : Source) (members : List Node) :
    (collect s members).value = .ofContributions (members.map fun n => (contributionOf s n).value) :=
  congrArg Instance.ofContributions (value_traverse (contributionOf s) members)

theorem notes_collect (s : Source) (members : List Node) :
    (collect s members).notes = members.flatMap fun n => (contributionOf s n).notes :=
  (append_nil _).trans (Noted.notes_traverse (contributionOf s) members)

theorem items_cons (s : Source) (n : Node) (members : List Node) :
    items s (n :: members) = items s [n] ++ items s members := by
  simp [items]

theorem mem_items : x ∈ items s members ↔ ∃ n ∈ members, x ∈ items s [n] := by
  simp [items]

theorem settlement_member (hb : HaveBodies s (items s [n])) :
    Settlement s (items s [n]) (contributionOf s n).value.statementsIn (omissions (contributionOf s n)) := by
  unfold contributionOf
  obtain ⟨m, hread, hspan⟩ | ⟨hnone, d, ho, hcode, hseverity, hplace⟩ := read_cases s "default export" n
  · have hm : (Member.read s "default export" n).value = some m := congrArg Noted.value hread
    have hitems : items s [n] = itemsUnder n m := by simp [items, hm]
    rw [hitems] at hb ⊢
    rw [hread]
    exact settlement_contribution hm hspan hb
  · have hitems : items s [n] = [.nameless n] := by simp [items, hnone]
    rw [hitems, value_bind, omissions_bind, hnone, ho]
    refine ⟨fun c => .nil, .cons ⟨?_, hseverity, hplace⟩ .nil⟩
    rcases hcode with hcode | hcode <;> simp [refusals, hcode]

theorem HaveBodies.mono (h : HaveBodies s ys) (hx : xs ⊆ ys) : HaveBodies s xs :=
  fun x hmem => h x (hx hmem)

/-- What a run over the members of an options object makes of their items. -/
theorem settlement_collect (hb : HaveBodies s (items s members)) :
    Settlement s (items s members) (collect s members).value.statementsIn (omissions (collect s members)) := by
  have hstatements : (collect s members).value.statementsIn =
      fun c => members.flatMap fun n => (contributionOf s n).value.statementsIn c := by
    funext c
    rw [value_collect, statementsIn_ofContributions, flatMap_map]
  have homissions : omissions (collect s members) = members.flatMap fun n => omissions (contributionOf s n) := by
    rw [omissions, notes_collect, filter_flatMap]
    rfl
  rw [hstatements, homissions]
  clear hstatements homissions
  induction members with
  | nil => exact .nil
  | cons n members ih =>
    rw [items_cons] at hb ⊢
    have hfirst := settlement_member (hb.mono (subset_append_left _ _))
    exact hfirst.append (ih (hb.mono (subset_append_right _ _)))

section Imports

theorem imports_add (i : Instance) (k : Contribution) : (i.add k).imports = match k with
      | .registration moment _ =>
        if i.imports.contains moment.registrar then i.imports else i.imports ++ [moment.registrar]
      | _ => i.imports := by
  cases k <;> rfl

/-- A step keeps each import single, and brings in the one that a registration asks for. -/
theorem imports_step {i : Instance} (h : i.imports.Nodup) (k : Contribution) :
    (i.add k).imports.Nodup ∧ ∀ r, r ∈ (i.add k).imports ↔
      r ∈ i.imports ∨ ∃ moment handler, k = .registration moment handler ∧ r = moment.registrar := by
  rw [imports_add]
  cases k with
  | registration moment handler =>
    by_cases hc : moment.registrar ∈ i.imports
    · simp only [contains_eq_mem, hc]
      refine ⟨h, fun r => ⟨.inl, ?_⟩⟩
      rintro (hr | ⟨_, _, hk, rfl⟩)
      · exact hr
      · cases hk
        exact hc
    · simp only [contains_eq_mem, hc]
      refine ⟨nodup_append.mpr ⟨h, by simp, ?_⟩, fun r => by simp⟩
      rintro r hr _ hm rfl
      exact hc (mem_singleton.mp hm ▸ hr)
  | _ => simp [h]

theorem imports_ofContributions (ks : List Contribution) :
    (Instance.ofContributions ks).imports.Nodup ∧ ∀ r, r ∈ (Instance.ofContributions ks).imports ↔
      ∃ moment handler, .registration moment handler ∈ ks ∧ r = moment.registrar := by
  have hfold (i : Instance) (hi : i.imports.Nodup) : (ks.foldl Instance.add i).imports.Nodup ∧
      ∀ r, r ∈ (ks.foldl Instance.add i).imports ↔
        r ∈ i.imports ∨ ∃ moment handler, .registration moment handler ∈ ks ∧ r = moment.registrar := by
    induction ks generalizing i with
    | nil => simp [hi]
    | cons k ks ih =>
      obtain ⟨hk, hmem⟩ := imports_step hi k
      obtain ⟨hn, hr⟩ := ih (i.add k) hk
      refine ⟨hn, fun r => ?_⟩
      rw [foldl_cons, hr, hmem, or_assoc]
      refine or_congr_right ?_
      grind
  obtain ⟨hn, hr⟩ := hfold .empty .nil
  exact ⟨hn, fun r => (hr r).trans (by simp [Instance.empty])⟩

theorem hook_mem_itemsUnder {n x : Node} :
    .hook moment x ∈ itemsUnder n m ↔ Entry.ofKey (String.ofList m.name) = .hook moment ∧ x = n := by
  unfold itemsUnder
  cases Entry.ofKey (String.ofList m.name) with
  | props =>
    dsimp only
    split <;> simp
  | data =>
    dsimp only
    split <;> simp
  | hook moment' => simp [eq_comm]
  | _ => simp

theorem eq_of_hook_mem {n x : Node} (h : .hook moment x ∈ items s [n]) : x = n := by
  cases hm : (Member.read s "default export" n).value with
  | none => simp [items, hm] at h
  | some m =>
    simp only [items, flatMap_cons, flatMap_nil, append_nil, hm, hook_mem_itemsUnder] at h
    exact h.2

theorem contribution_eq_registration {handler : Text} : (contribution s m).value = .registration moment handler ↔
      Entry.ofKey (String.ofList m.name) = .hook moment ∧ (hookHandler s m).value = some handler := by
  unfold contribution
  cases Entry.ofKey (String.ofList m.name) with
  | hook moment' =>
    rw [Noted.value_map]
    cases (hookHandler s m).value <;> simp
  | _ => simp

theorem hookHandler_isSome (hm : (Member.read s "default export" n).value = some m)
    (hb : ∀ f, m.function? = some f → f.body?.isSome = true) :
    (∃ handler, (hookHandler s m).value = some handler) ↔ m.function?.isSome = true := by
  constructor
  · rintro ⟨handler, h⟩
    obtain ⟨f, callable, hf, -⟩ := hookHandler_eq h
    simp [hf]
  · intro h
    obtain ⟨f, hf⟩ := Option.isSome_iff_exists.mp h
    obtain ⟨callable, hc⟩ := callable?_isSome hm hf (hb f hf)
    exact ⟨callable.arrow, by simp [hookHandler, hookFunction, hf, hc]⟩

/-- A member is registered exactly if it is a hook with a function. -/
theorem registers_iff (hb : HaveBodies s (items s [n])) :
    (∃ handler, (contributionOf s n).value = .registration moment handler) ↔
      .hook moment n ∈ items s [n] ∧ (Item.hook moment n).isTaken s = true := by
  unfold contributionOf
  cases hm : (Member.read s "default export" n).value with
  | none =>
    have hitems : items s [n] = [.nameless n] := by simp [items, hm]
    simp [hitems, hm]
  | some m =>
    have hitems : items s [n] = itemsUnder n m := by simp [items, hm]
    have hx : (Item.hook moment n).function? s = m.function? := by
      simp [function?, Item.member?, hm]
    simp only [value_bind, hm, hitems, hook_mem_itemsUnder, isTaken, hx, contribution_eq_registration,
      exists_and_left, and_true]
    refine and_congr_right fun hk => hookHandler_isSome hm fun f hf => ?_
    exact hb.body (by rw [hitems]; exact hook_mem_itemsUnder.mpr ⟨hk, rfl⟩) (hx.trans hf)

theorem imports_collect (hb : HaveBodies s (items s members)) (r : Text) : r ∈ (collect s members).value.imports ↔
      ∃ moment n, .hook moment n ∈ items s members ∧ (Item.hook moment n).isTaken s = true ∧ r = moment.registrar := by
  have hone (n : Node) (hn : n ∈ members) : HaveBodies s (items s [n]) :=
    hb.mono fun x hx => mem_items.mpr ⟨n, hn, hx⟩
  rw [value_collect, (imports_ofContributions _).2]
  constructor
  · rintro ⟨moment, handler, hk, rfl⟩
    obtain ⟨n, hn, hk⟩ := mem_map.mp hk
    obtain ⟨hx, ht⟩ := (registers_iff (hone n hn)).mp ⟨handler, hk⟩
    exact ⟨moment, n, mem_items.mpr ⟨n, hn, hx⟩, ht, rfl⟩
  · rintro ⟨moment, n, hx, ht, rfl⟩
    obtain ⟨n', hn, hx⟩ := mem_items.mp hx
    obtain rfl := eq_of_hook_mem hx
    obtain ⟨handler, hk⟩ := (registers_iff (hone n hn)).mpr ⟨hx, ht⟩
    exact ⟨moment, handler, mem_map.mpr ⟨n, hn, hk⟩, rfl⟩

end Imports

theorem Item.Refused.within {d : Diagnostic} (h : x.Refused s d) (hn : Nested s.text x.node) :
    ∃ span, d.span = some (s.locate span) ∧ span.Within x.node.span := by
  obtain ⟨part, rfl | hpart, hspan⟩ := h.place
  · exact ⟨_, hspan, .refl _⟩
  · exact ⟨_, hspan, (hn.part hpart).2⟩

/-- Each item of an options object is turned into one statement of its category or left out with one
warning about it, both in the order of the source, and exactly what is registered is imported, once. -/
theorem members_accounted {s : Source} {members : List Node} (hb : HaveBodies s (items s members)) :
    (∀ c, List.Forall₂ (fun x text => x.Yields s text)
      ((items s members).filter fun x => x.category? == some c && x.isTaken s)
      ((collect s members).value.statementsIn c)) ∧
    List.Forall₂ (fun x d => x.Refused s d ∧ (Nested s.text x.node →
        ∃ span, d.span = some (s.locate span) ∧ span.Within x.node.span))
      ((items s members).filter fun x => !x.isTaken s)
      ((collect s members).notes.filter fun d => d.code.isOmission) ∧
    (collect s members).value.imports.Nodup ∧
    ∀ r, r ∈ (collect s members).value.imports ↔
      ∃ moment n, .hook moment n ∈ items s members ∧ (Item.hook moment n).isTaken s = true ∧ r = moment.registrar := by
  obtain ⟨htaken, hrefused⟩ := settlement_collect hb
  refine ⟨htaken, hrefused.imp fun x d h => ⟨h, h.within⟩, ?_, imports_collect hb⟩
  rw [value_collect]
  exact (imports_ofContributions _).1

theorem members_accounted_mixed :
    let script := ("export default \x7b props: ['a', 1], data: \x7b b: 1, ...c \x7d, " ++
      "computed: \x7b d() \x7b return this.b \x7d, get e() \x7b return 2 \x7d \x7d, " ++
      "methods: \x7b f() \x7b\x7d, 'g'() \x7b\x7d \x7d, mounted() \x7b\x7d, updated: 3 \x7d").toList
    let s : Source := ⟨script, 0⟩
    let members := optionsIn script
    HaveBodies s (items s members) ∧
      ((items s members).filter fun x => x.category? == some .methods && x.isTaken s).length =
        (collect s members).value.methods.length ∧
      (collect s members).value.methods = ["function f() \x7b\x7d".toList, "onMount(() => \x7b\x7d);".toList] ∧
      (collect s members).notes.map (·.code) =
        [.unexpectedProp, .unexpectedMember, .unsupportedComputed, .nonIdentifierKey, .notAFunction] ∧
      (collect s members).value.imports = ["onMount".toList] := by
  intro script s members
  have h : HaveBodies s (items s members) ∧
      (collect s members).value.methods = ["function f() \x7b\x7d".toList, "onMount(() => \x7b\x7d);".toList] ∧
      (collect s members).notes.map (·.code) =
        [.unexpectedProp, .unexpectedMember, .unsupportedComputed, .nonIdentifierKey, .notAFunction] ∧
      (collect s members).value.imports = ["onMount".toList] := by decide +kernel
  refine ⟨h.1, ?_, h.2⟩
  have hmethods : ∀ i : Instance, i.statementsIn .methods = i.methods := fun _ => rfl
  rw [← hmethods]
  exact ((members_accounted h.1).1 .methods).length_eq

end Options

end ComponentConverter
