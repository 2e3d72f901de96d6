import ComponentConverter.Conversion.Script
import ComponentConverter.Proofs.Detaching
import ComponentConverter.Proofs.StatementTexts

namespace ComponentConverter

open List

variable {members : List Node} {field : Member}

section Notes

variable {α β : Type}

@[simp] theorem Noted.value_pure (a : α) : (pure a : Noted α).value = a := rfl

@[simp] theorem Noted.value_bind (x : Noted α) (f : α → Noted β) : (x >>= f).value = (f x.value).value := rfl

@[simp] theorem Noted.value_map (f : α → β) (x : Noted α) : (x.map f).value = f x.value := rfl

theorem Noted.value_traverse (f : α → Noted β) (as : List α) :
    (Noted.traverse f as).value = as.map fun a => (f a).value := by
  induction as with
  | nil => rfl
  | cons a as ih => simp [Noted.traverse, ih]

end Notes

namespace Options

open Script

def fieldsOf (s : Source) (place : String) (members : List Node) : List Member :=
  members.filterMap fun n => (Member.read s place n).value

theorem mem_reduceOption {l : List (Option α)} {a : α} : a ∈ l.reduceOption ↔ some a ∈ l := by
  change a ∈ l.filterMap id ↔ _
  simp

theorem mem_declarations {s : Source} {place : String} {declare : Member → Noted (Option Text)} {text : Text} :
    text ∈ (Member.declarations s place declare members).value ↔
      ∃ field ∈ fieldsOf s place members, (declare field).value = some text := by
  simp only [Member.declarations, fieldsOf, Noted.value_bind, Noted.value_pure, Noted.value_traverse, mem_reduceOption,
    mem_map, mem_filterMap]
  constructor
  · rintro ⟨n, hn, htext⟩
    split at htext
    next field hfield => exact ⟨field, ⟨n, hn, hfield⟩, htext⟩
    · cases htext
  · rintro ⟨field, ⟨n, hn, hfield⟩, htext⟩
    refine ⟨n, hn, ?_⟩
    rw [hfield]
    exact htext

/-- Nothing, or a comment up to the end of the line. -/
def IsComment (t : Text) : Prop := t = [] ∨ " // " <+: t

/-- What the declaration of a prop says beside its default value. -/
def PropSpec.remarks (s : Source) (spec : PropSpec) : List Text :=
  (spec.type.map fun t => s.textOf t.span).toList ++ (if spec.required then ["required".toList] else []) ++
    if spec.default.any fun value => (spec.defaultValue s value).value.2 then ["default unwrapped".toList] else []

def noteOf (remarks : List Text) : Text :=
  if remarks.isEmpty then [] else " // " ++ ", ".toList.intercalate remarks

def propNote (s : Source) (field : Member) : Text :=
  match field.bare? with
  | some (.mk (.name type) _ _) => " // " ++ type.toList
  | some n@(.mk .array _ _) =>
    " // " ++ " | ".toList.intercalate ((n.elements.map elementValue).map fun t => s.textOf t.span)
  | some (.mk .object _ fields) => noteOf ((PropSpec.ofFields fields).remarks s)
  | _ => []

/-- The statement that a member of `props` is turned into. -/
inductive DeclaresProp (s : Source) (field : Member) : Statement → Prop where
  | bare (h : ∀ place fields, field.bare? = some (.mk .object place fields) → (PropSpec.ofFields fields).default = none) :
    DeclaresProp s field (.bare field.name)
  | prop {place fields value} (h : field.bare? = some (.mk .object place fields))
    (hd : (PropSpec.ofFields fields).default = some value) :
    DeclaresProp s field (.prop field.name (PropSpec.defaultValue s (.ofFields fields) value).value.1)

/-- The statement that a member of `computed` is turned into: the value that its function returns at
once, or the result of calling it. -/
inductive DeclaresComputed (s : Source) (field : Member) : Statement → Prop where
  | returned {f value} (hf : field.function? = some f) (hr : f.body?.bind returned? = some value) :
    DeclaresComputed s field (.computed field.name (s.detached value).value)
  | applied {f callable} (hf : field.function? = some f) (hr : f.body?.bind returned? = none)
    (hc : (s.callable? f).value = some callable) :
    DeclaresComputed s field (.computed field.name ("(" ++ callable.arrow ++ ")()"))

/-- The statements that the members of an options object are turned into. -/
inductive Emits (s : Source) (m : Member) : Statement → Prop where
  | named {place elements name inner children} (hm : Entry.ofKey (String.ofList m.name) = .props)
    (ho : m.bare? = some (.mk .array place elements))
    (he : Node.mk (.string (some name)) inner children ∈ (Node.mk .array place elements).elements) :
    Emits s m (.bare name)
  | prop {fields field st} (hm : Entry.ofKey (String.ofList m.name) = .props) (ho : m.object? = some fields)
    (hf : field ∈ fieldsOf s "props" fields) (h : DeclaresProp s field st) : Emits s m st
  | data {fields field value} (hm : Entry.ofKey (String.ofList m.name) = .data)
    (ho : DataShape.ofMember m = .fields fields) (hf : field ∈ fieldsOf s "data" fields)
    (hv : field.value = .expression value) : Emits s m (.data field.name (s.detached value).value)
  | computed {fields field st} (hm : Entry.ofKey (String.ofList m.name) = .computed) (ho : m.object? = some fields)
    (hf : field ∈ fieldsOf s "computed" fields) (h : DeclaresComputed s field st) : Emits s m st
  | method {fields field f callable} (hm : Entry.ofKey (String.ofList m.name) = .methods)
    (ho : m.object? = some fields) (hf : field ∈ fieldsOf s "methods" fields) (hv : field.function? = some f)
    (hc : (s.callable? f).value = some callable) : Emits s m (.method field.name callable)
  | hook {moment f callable} (hm : Entry.ofKey (String.ofList m.name) = .hook moment) (hv : m.function? = some f)
    (hc : (s.callable? f).value = some callable) : Emits s m (.hook moment callable.arrow)

section Fields

variable {s : Source} {m : Member} {text : Text}

theorem dataField_eq (h : (dataField s field).value = some text) :
    ∃ value, field.value = .expression value ∧ text = (Statement.data field.name (s.detached value).value).text := by
  unfold dataField at h
  split at h
  next value hv =>
    refine ⟨value, hv, ?_⟩
    rw [Statement.text_data]
    exact (Option.some.inj h).symm
  · cases h

theorem computedField_eq (h : (computedField s field).value = some text) :
    ∃ st, DeclaresComputed s field st ∧ text = st.text := by
  unfold computedField at h
  split at h
  next f hf =>
    split at h
    next value hr =>
      refine ⟨_, .returned hf hr, ?_⟩
      rw [Statement.text_computed]
      exact (Option.some.inj h).symm
    next hr =>
      obtain ⟨callable, hc, htext⟩ := Option.map_eq_some_iff.mp h
      refine ⟨_, .applied hf hr hc, ?_⟩
      rw [Statement.text_computed]
      exact htext.symm
  · cases h

theorem methodField_eq (h : (methodField s field).value = some text) :
    ∃ f callable, field.function? = some f ∧ (s.callable? f).value = some callable ∧
      text = (Statement.method field.name callable).text := by
  unfold methodField at h
  split at h
  next f hf =>
    obtain ⟨callable, hc, htext⟩ := Option.map_eq_some_iff.mp h
    refine ⟨f, callable, hf, hc, ?_⟩
    rw [Statement.text_method]
    exact htext.symm
  · cases h

theorem namedProp_eq {element : Node} (h : (namedProp s element).value = some text) :
    ∃ name place children, element = .mk (.string (some name)) place children ∧ text = (Statement.bare name).text := by
  unfold namedProp at h
  split at h
  next name place children =>
    refine ⟨name, place, children, rfl, ?_⟩
    rw [Statement.text_bare]
    exact (Option.some.inj h).symm
  · cases h

theorem annotated_bare (name comment : Text) :
    annotated (propDeclaration name) comment = (Statement.bare name).text ++ (" // " ++ comment) := by
  rw [Statement.text_bare]
  exact append_assoc _ _ _

theorem declaration_eq (name : Text) (spec : PropSpec) : (PropSpec.declaration s name spec).value =
      (match spec.default with
      | none => Statement.bare name
      | some value => .prop name (PropSpec.defaultValue s spec value).value.1).text ++ noteOf (spec.remarks s) := by
  have hnote (declared : Text) (remarks : List Text) :
      (if remarks.isEmpty then declared else annotated declared (", ".toList.intercalate remarks)) =
        declared ++ noteOf remarks := by
    unfold noteOf
    split
    · exact (append_nil _).symm
    · exact append_assoc _ _ _
  unfold PropSpec.declaration PropSpec.remarks
  cases spec.default with
  | none =>
    rw [Statement.text_bare]
    cases spec.validator <;> simp only [Noted.value_bind, Noted.value_pure, append_nil] <;> exact hnote _ _
  | some value =>
    rw [Statement.text_prop]
    cases spec.validator <;> simp only [Noted.value_bind, Noted.value_pure, ← append_assoc] <;> exact hnote _ _

theorem declaredProp_eq (h : (declaredProp s field).value = some text) :
    ∃ st, DeclaresProp s field st ∧ text = st.text ++ propNote s field := by
  have hother (type : Text) (hb : ∀ place fields, field.bare? ≠ some (.mk .object place fields))
      (hn : propNote s field = " // " ++ type) (ht : text = annotated (propDeclaration field.name) type) :
      ∃ st, DeclaresProp s field st ∧ text = st.text ++ propNote s field := by
    refine ⟨.bare field.name, .bare ?_, ?_⟩
    · intro place fields hf
      exact absurd hf (hb place fields)
    · rw [hn]
      exact ht.trans (annotated_bare _ _)
  unfold declaredProp at h
  dsimp only at h
  split at h
  · cases h
  next type _ _ hb =>
    refine hother type.toList ?_ (by simp only [propNote, hb]) (Option.some.inj h).symm
    intro place fields hf
    cases hf.symm.trans hb
  next n place elements hb =>
    split at h
    · refine hother _ ?_ (by simp only [propNote, hb]) (Option.some.inj h).symm
      intro place fields hf
      cases hf.symm.trans hb
    · cases h
  next place fields hb =>
    have hnote : propNote s field = noteOf ((PropSpec.ofFields fields).remarks s) := by simp only [propNote, hb]
    have hdeclared := (Option.some.inj h).symm.trans (@declaration_eq s field.name (.ofFields fields))
    rw [← hnote] at hdeclared
    cases hd : (PropSpec.ofFields fields).default with
    | none =>
      rw [hd] at hdeclared
      refine ⟨.bare field.name, .bare ?_, hdeclared⟩
      intro place' fields' hf
      cases hf.symm.trans hb
      exact hd
    | some value =>
      rw [hd] at hdeclared
      exact ⟨_, .prop hb hd, hdeclared⟩
  · cases h

theorem isComment_propNote (s : Source) (field : Member) : IsComment (propNote s field) := by
  unfold propNote
  split
  · exact .inr ⟨_, rfl⟩
  · exact .inr ⟨_, rfl⟩
  · unfold noteOf
    split
    · exact .inl rfl
    · exact .inr ⟨_, rfl⟩
  · exact .inl rfl

theorem mem_props (h : text ∈ (props s m).value) (hm : Entry.ofKey (String.ofList m.name) = .props) :
    ∃ st comment, Emits s m st ∧ IsComment comment ∧ text = st.text ++ comment := by
  unfold props at h
  split at h
  next n place elements hb =>
    simp only [Noted.value_bind, Noted.value_pure, Noted.value_traverse, mem_reduceOption, mem_map] at h
    obtain ⟨element, he, htext⟩ := h
    obtain ⟨name, _, _, rfl, hbare⟩ := namedProp_eq htext
    exact ⟨.bare name, [], .named hm hb he, .inl rfl, by rw [hbare, append_nil]⟩
  next place fields hb =>
    obtain ⟨field, hf, htext⟩ := mem_declarations.mp h
    obtain ⟨st, hst, htext⟩ := declaredProp_eq htext
    have ho : m.object? = some fields := by simp [Member.object?, hb]
    exact ⟨st, _, .prop hm ho hf hst, isComment_propNote s field, htext⟩
  · cases h

theorem mem_data (h : text ∈ (data s m).value) (hm : Entry.ofKey (String.ofList m.name) = .data) :
    ∃ st, Emits s m st ∧ text = st.text := by
  unfold data at h
  split at h
  next fields ho =>
    obtain ⟨field, hf, htext⟩ := mem_declarations.mp h
    obtain ⟨value, hv, htext⟩ := dataField_eq htext
    exact ⟨_, .data hm ho hf hv, htext⟩
  · cases h
  · cases h

theorem mem_objectDeclarations {key : String} {declare : Member → Noted (Option Text)}
    (h : text ∈ (m.objectDeclarations s key declare).value) :
    ∃ fields, m.object? = some fields ∧ ∃ field ∈ fieldsOf s key fields, (declare field).value = some text := by
  unfold Member.objectDeclarations at h
  split at h
  next fields ho => exact ⟨fields, ho, mem_declarations.mp h⟩
  · cases h

theorem hookHandler_eq {handler : Text} (h : (hookHandler s m).value = some handler) :
    ∃ f callable, m.function? = some f ∧ (s.callable? f).value = some callable ∧ handler = callable.arrow := by
  unfold hookHandler hookFunction at h
  cases hf : m.function? with
  | none => simp [hf] at h
  | some f =>
    simp only [hf] at h
    obtain ⟨callable, hc, harrow⟩ := Option.map_eq_some_iff.mp h
    exact ⟨f, callable, rfl, hc, harrow.symm⟩

end Fields

def Contribution.texts : Contribution → List Text
  | .props ds | .data ds | .computed ds | .methods ds => ds
  | .registration hook handler => [hook.registrar ++ "(" ++ handler ++ ");"]
  | .nothing | .beforeCreate _ | .created _ => []

/-- The declarations and registrations of an instance. -/
def Instance.statements (i : Instance) : List Text := i.props ++ i.data ++ i.computed ++ i.methods

theorem mem_statements_add {i : Instance} {c : Contribution} {text : Text} :
    text ∈ (i.add c).statements ↔ text ∈ i.statements ∨ text ∈ c.texts := by
  cases c <;> simp [Instance.add, Instance.statements, Contribution.texts] <;> grind

theorem mem_statements_ofContributions {cs : List Contribution} {text : Text} :
    text ∈ (Instance.ofContributions cs).statements ↔ ∃ c ∈ cs, text ∈ c.texts := by
  have hfold (i : Instance) : text ∈ (cs.foldl Instance.add i).statements ↔
      text ∈ i.statements ∨ ∃ c ∈ cs, text ∈ c.texts := by
    induction cs generalizing i with
    | nil => simp
    | cons c cs ih => simp [ih, mem_statements_add, or_assoc]
  rw [Instance.ofContributions, hfold]
  simp [Instance.statements, Instance.empty]

theorem emits_of_contribution {s : Source} {m : Member} {text : Text} (h : text ∈ (contribution s m).value.texts) :
    ∃ st comment, Emits s m st ∧ IsComment comment ∧ text = st.text ++ comment := by
  have hplain (hst : ∃ st, Emits s m st ∧ text = st.text) :
      ∃ st comment, Emits s m st ∧ IsComment comment ∧ text = st.text ++ comment := by
    obtain ⟨st, hst, htext⟩ := hst
    exact ⟨st, [], hst, .inl rfl, by rw [htext, append_nil]⟩
  unfold contribution at h
  split at h
  · cases h
  next hm => exact mem_props h hm
  next hm => exact hplain (mem_data h hm)
  next hm =>
    obtain ⟨fields, ho, field, hf, htext⟩ := mem_objectDeclarations h
    obtain ⟨st, hst, htext⟩ := computedField_eq htext
    exact hplain ⟨st, .computed hm ho hf hst, htext⟩
  next hm =>
    obtain ⟨fields, ho, field, hf, htext⟩ := mem_objectDeclarations h
    obtain ⟨f, callable, hv, hc, htext⟩ := methodField_eq htext
    exact hplain ⟨_, .method hm ho hf hv hc, htext⟩
  next moment hm =>
    rw [Noted.value_map] at h
    cases hhandler : (hookHandler s m).value with
    | none =>
      rw [hhandler] at h
      cases h
    | some handler =>
      rw [hhandler] at h
      obtain ⟨f, callable, hv, hc, rfl⟩ := hookHandler_eq hhandler
      refine hplain ⟨_, .hook hm hv hc, ?_⟩
      rw [Statement.text_hook]
      exact mem_singleton.mp h
  · cases h
  · cases h
  · cases h

theorem emits_of_mem {s : Source} {text : Text} (h : text ∈ (collect s members).value.statements) :
    ∃ m ∈ fieldsOf s "default export" members, ∃ st comment,
      Emits s m st ∧ IsComment comment ∧ text = st.text ++ comment := by
  unfold collect at h
  simp only [Noted.value_bind, Noted.value_pure, Noted.value_traverse, mem_statements_ofContributions, mem_map] at h
  obtain ⟨c, ⟨n, hn, rfl⟩, h⟩ := h
  split at h
  next m hm => exact ⟨m, mem_filterMap.mpr ⟨n, hn, hm⟩, emits_of_contribution h⟩
  · cases h

/-- Each statement of an instance is a declaration, an assignment, a function or a registration that a
member asks for. With a name that can be bound it is read as such, with a value that passes a test (as
to be alike what is left of the member's own), exactly if its content is read as such a value that the
statement ends behind. A content that is a value freed from its instance spells what is left of it. -/
theorem emitted_statement_meant {s : Source} {members : List Node} {text : Text}
    (h : text ∈ (collect s members).value.statements) (typed : Bool) :
    ∃ m ∈ fieldsOf s "default export" members, ∃ st comment,
      Emits s m st ∧ IsComment comment ∧ text = st.text ++ comment ∧ (st.IsNamed → ∀ P,
          (st.IsReadAlone P typed comment → st.Meant P typed comment) ∧
            (st.Meant P typed comment ↔ st.IsRead P typed comment)) ∧
        ∀ value, st.content = (s.detached value).value → Nested s.text value →
          ∃ t, Spells s.text value (freed value) t ∧ st.content = dedent t := by
  obtain ⟨m, hm, st, comment, hst, hcomment, htext⟩ := emits_of_mem h
  refine ⟨m, hm, st, comment, hst, hcomment, htext, ?_, ?_⟩
  · intro hnamed P
    have hiff := @Statement.meant_iff_isRead st P typed comment hnamed
    exact ⟨fun h => hiff.mpr (Statement.isRead_of_isReadAlone h), hiff⟩
  · intro value hcontent hn
    rw [hcontent]
    exact detached_spells hn

/-- The members of the options that a script exports, if it is read without an issue. -/
def optionsIn (script : Text) : List Node :=
  match parse script false with
  | .ok ⟨[item], []⟩ => (Conversion.exportedOptions? item).getD []
  | _ => []

theorem emitted_statement_meant_sum :
    let script := "export default \x7b computed: \x7b sum() \x7b return this.a + 1 \x7d \x7d \x7d".toList
    let s : Source := ⟨script, 0⟩
    let value : Node := .mk (.binary "+") ⟨44, 54⟩
      [.mk .member ⟨44, 50⟩ [.leaf .this ⟨44, 48⟩, .leaf (.property "a") ⟨49, 50⟩], .leaf .literal ⟨53, 54⟩]
    let st : Statement := .computed "sum".toList "a + 1".toList
    st.text ∈ (collect s (optionsIn script)).value.statements ∧
      (∃ m ∈ fieldsOf s "default export" (optionsIn script), ∃ st' comment,
        Emits s m st' ∧ IsComment comment ∧ st.text = st'.text ++ comment ∧ (st'.IsNamed → ∀ P,
            (st'.IsReadAlone P false comment → st'.Meant P false comment) ∧
              (st'.Meant P false comment ↔ st'.IsRead P false comment)) ∧
          ∀ value, st'.content = (s.detached value).value → Nested s.text value →
            ∃ t, Spells s.text value (freed value) t ∧ st'.content = dedent t) ∧
      st.IsNamed ∧ Nested script value ∧ st.content = (s.detached value).value ∧
      st.IsReadAlone (·.alike (freed value)) false [] ∧ st.Meant (·.alike (freed value)) false [] := by
  intro script s value st
  have hmem : st.text ∈ (collect s (optionsIn script)).value.statements := by decide +kernel
  have hnamed : Statement.IsBindable "sum".toList := by decide +kernel
  exact ⟨hmem, emitted_statement_meant hmem false, hnamed, by decide +kernel⟩

/-- A name that is no word, and a value that has a comma. -/
theorem emitted_statement_not_meant :
    let script := "export default \x7b props: ['a-b'], computed: \x7b c() \x7b return 1, 2 \x7d \x7d \x7d".toList
    let name : Statement := .bare "a-b".toList
    let pair : Statement := .computed "c".toList "1, 2".toList
    name.text ∈ (collect ⟨script, 0⟩ (optionsIn script)).value.statements ∧ ¬ name.Meant (fun _ => true) false [] ∧
      pair.text ∈ (collect ⟨script, 0⟩ (optionsIn script)).value.statements ∧
      ¬ pair.Meant (fun _ => true) false [] := by
  decide +kernel

end Options

end ComponentConverter
