import ComponentConverter.Conversion.Script
import ComponentConverter.Proofs.Detaching

namespace ComponentConverter

open Script

variable {before after : Text} {quoted : List Text} {code : Diagnostic.Code} {message : Nat → Text} {place : String}
variable {text : Text} {tree : Module} {s : Source} {n f : Node} {members : List Node}

def Diagnostic.move (d : Diagnostic) (base : Nat) : Diagnostic :=
  { d with span := d.span.map (·.move base) }

def Diagnostic.Code.ofScript : Diagnostic.Code → Bool
  | .htmlChildrenIgnored | .unsupportedStyleLang | .unparsedStyle => false
  | _ => true

/-- A message with the texts that it quotes; its own words have no line feed. -/
inductive Phrase : Text → List Text → Prop
  | words {words : Text} (h : '\n' ∉ words) : Phrase words []
  | quote (quoted : Text) : Phrase quoted [quoted]
  | append {m m' : Text} {qs qs' : List Text} (h : Phrase m qs) (h' : Phrase m' qs') : Phrase (m ++ m') (qs ++ qs')

theorem Phrase.around {quoted : Text} (hb : '\n' ∉ before) (ha : '\n' ∉ after) :
    Phrase (before ++ quoted ++ after) [quoted] :=
  ((words hb).append (quote quoted)).append (words ha)

namespace Options

section Names

def nameOf? (key : Node) : Option String :=
  match key.form with
  | .key name => name
  | _ => none

/-- The name of a member of an object. -/
def keyOf? : Node → Option String
  | .mk (.shorthand name) _ _ | .mk (.initialized name) _ _ => some name
  | .mk .pair _ [key, _] | .mk (.method ..) _ (key :: _) | .mk .accessor _ (key :: _) => nameOf? key
  | _ => none

variable (s : Source) (place : String) (key : Node) (value : Value) (span : Span) {m : Member}

theorem name_keyed : (Member.keyed s place key value span).value.map (String.ofList ·.name) = nameOf? key := by
  unfold Member.keyed nameOf?
  cases key.form with
  | key name =>
    cases name with
    | none => rfl
    | some name => exact congrArg some (String.ofList_toList ..)
  | _ => rfl

theorem name_read (n : Node) : (Member.read s place n).value.map (String.ofList ·.name) = keyOf? n := by
  obtain ⟨form, span, children⟩ := n
  cases form with
  | shorthand name | initialized name => exact congrArg some (String.ofList_toList ..)
  | pair =>
    rcases children with _ | ⟨key, _ | ⟨value, _ | _⟩⟩
    · rfl
    · rfl
    · exact name_keyed s place key (.expression value) span
    · rfl
  | method | accessor =>
    cases children with
    | nil => rfl
    | cons key children => exact name_keyed s place key _ span
  | _ => rfl

variable {s place key value span}

theorem value_keyed (h : (Member.keyed s place key value span).value = some m) : m.value = value := by
  unfold Member.keyed at h
  split at h
  · cases h
    rfl
  · cases h

/-- A member has its value from a part of its node, or it is a method and the node itself is. -/
theorem value_read (h : (Member.read s place n).value = some m) : (∀ v, m.value = .expression v → v ∈ n.children) ∧
      ∀ f, m.value = .method f → f = n ∧ ∃ isAsync isGenerator, f.form = .method isAsync isGenerator := by
  unfold Member.read at h
  split at h
  · cases h
    simp
  · cases h
    simp
  · simp [value_keyed h, Node.children]
  · rw [value_keyed h]
    refine ⟨by simp, ?_⟩
    rintro f ⟨⟩
    exact ⟨rfl, _, _, rfl⟩
  · simp [value_keyed h]
  · cases h

end Names

end Options

namespace Script.Module

/-- A tree holds its items and their parts. -/
def Holds (tree : Module) (n : Node) : Prop := ∃ item ∈ tree.items, n = item ∨ Part n item

/-- A name that a member has in a tree. -/
def Names (tree : Module) (name : Text) : Prop := ∃ n, tree.Holds n ∧ Options.keyOf? n = some (String.ofList name)

namespace Holds

theorem part {m : Node} (h : tree.Holds n) (hm : Part m n) : tree.Holds m := by
  obtain ⟨item, hi, rfl | hn⟩ := h
  · exact ⟨n, hi, .inr hm⟩
  · exact ⟨item, hi, .inr (hm.trans hn)⟩

theorem child {c : Node} (h : tree.Holds n) (hc : c ∈ n.children) : tree.Holds c := h.part (.child hc)

theorem bare (h : tree.Holds n) : tree.Holds n.bare := by
  rcases bare_eq_or_part n with hn | hn
  · rwa [hn]
  · exact h.part hn

theorem body? {body : Node} (h : tree.Holds f) (hb : f.body? = some body) : tree.Holds body :=
  h.child (List.mem_of_getLast? (Option.filter_eq_some_iff.mp hb).1)

theorem returned? {block v : Node} (h : tree.Holds block) (hv : Options.returned? block = some v) : tree.Holds v := by
  unfold Options.returned? at hv
  split at hv
  next hc =>
    cases hv
    exact (h.child (hc ▸ List.mem_singleton_self _)).child (List.mem_singleton_self _)
  · cases hv

end Holds

end Script.Module

namespace Options

variable {m : Member}

/-- A member of a tree has its name and its value from there. -/
structure Member.In (tree : Module) (m : Member) : Prop where
  name : tree.Names m.name
  expression : ∀ v, m.value = .expression v → tree.Holds v
  method : ∀ f, m.value = .method f → tree.Holds f

namespace Member.In

theorem of_read (hn : tree.Holds n) (h : (Member.read s place n).value = some m) : m.In tree := by
  obtain ⟨hexpression, hmethod⟩ := value_read h
  refine ⟨⟨n, hn, ?_⟩, fun v hv => hn.child (hexpression v hv), fun f hf => (hmethod f hf).1 ▸ hn⟩
  rw [← name_read s place n, h, Option.map_some]

theorem bare? (hm : m.In tree) (h : m.bare? = some n) : tree.Holds n := by
  unfold Member.bare? at h
  split at h
  next v hv =>
    cases h
    exact (hm.expression v hv).bare
  · cases h

theorem object? (hm : m.In tree) (h : m.object? = some members) : ∀ n ∈ members, tree.Holds n := by
  unfold Member.object? at h
  split at h
  next hb =>
    cases h
    exact fun n hn => (hm.bare? hb).child hn
  · cases h

theorem ofResult {result : Option Node} (hr : ∀ n, result = some n → tree.Holds n)
    (h : DataShape.ofResult result = .fields members) : ∀ n ∈ members, tree.Holds n := by
  unfold DataShape.ofResult at h
  split at h
  next hb =>
    cases h
    obtain ⟨n, hn, hb⟩ := Option.map_eq_some_iff.mp hb
    have hobject := (hr n hn).bare
    rw [hb] at hobject
    exact fun c hc => hobject.child hc
  · cases h

theorem ofMember (hm : m.In tree) (h : DataShape.ofMember m = .fields members) : ∀ n ∈ members, tree.Holds n := by
  have hreturned {f v : Node} (hf : tree.Holds f) (hv : f.body?.bind returned? = some v) : tree.Holds v := by
    obtain ⟨body, hb, hv⟩ := Option.bind_eq_some_iff.mp hv
    exact (hf.body? hb).returned? hv
  unfold DataShape.ofMember at h
  split at h
  next f hf => exact ofResult (fun v => hreturned (hm.method f hf)) h
  next value hv =>
    have hbare := (hm.expression value hv).bare
    have hresult (v : Node) (hr : result? value = some v) : tree.Holds v := by
      unfold result? at hr
      split at hr
      next parts hb =>
        obtain ⟨body, hbody, hr⟩ := Option.bind_eq_some_iff.mp hr
        have hbody := (hb ▸ hbare).child (List.mem_of_getLast? hbody)
        split at hr
        · exact hbody.returned? hr
        · cases hr
          exact hbody.bare
      next hb => exact hreturned (hb ▸ hbare) hr
      · cases hr
    split at h
    next hb =>
      cases h
      exact fun n hn => (hb ▸ hbare).child hn
    · exact ofResult hresult h
    · exact ofResult hresult h
    · cases h
  · cases h
  · cases h

end Member.In

end Options

/-- What a warning about a script quotes: nothing, a passage of the script, the name of a member, a name and a
passage, or a syntax error. -/
inductive Script.Quotes (text : Text) (tree : Module) : Diagnostic.Code → List Text → Prop
  | nothing {code : Diagnostic.Code} (h : code ∈ [.invalidDefaultExport, .invalidOption, .dataTooComplex]) :
      Quotes text tree code []
  | passage {code : Diagnostic.Code} (span : Span)
      (h : code ∈ [.nonIdentifierKey, .unexpectedMember, .unexpectedProp, .unknownScriptNode]) :
      Quotes text tree code [span.slice text]
  | name {code : Diagnostic.Code} {name : Text} (hn : tree.Names name) (h : code ∈ [.unexpectedMember, .unexpectedProp,
      .propValidatorIgnored, .unsupportedComputed, .notAFunction, .unknownOption]) : Quotes text tree code [name]
  | prop {name : Text} (hn : tree.Names name) (span : Span) : Quotes text tree .unexpectedProp [name, span.slice text]
  | issue {i : Issue} (hi : i ∈ tree.issues) : Quotes text tree .recoveredScriptError [i.message.toList]

theorem Script.Quotes.ofScript (h : Quotes text tree code quoted) : code.ofScript = true := by
  cases h with
  | nothing h | passage _ h | name _ h =>
    revert code
    decide
  | prop | issue => rfl

/-- A computation that takes the place of a script for nothing but the spans it tells, and whose warnings
quote the script. -/
structure Told {α : Type} (text : Text) (tree : Module) (f : Nat → Noted α) : Prop where
  value : ∀ base, (f base).value = (f 0).value
  notes : ∀ base, (f base).notes = (f 0).notes.map (·.move base)
  quotes : ∀ d ∈ (f 0).notes, ∃ quoted, Quotes text tree d.code quoted ∧ Phrase d.message quoted

namespace Told

variable {α β γ : Type} {f : Nat → Noted α} {g : α → Nat → Noted β}

theorem pure {a : Nat → α} (h : ∀ base, a base = a 0) : Told text tree fun base => (Pure.pure (a base) : Noted α) := by
  refine ⟨h, fun _ => rfl, ?_⟩
  intro d hd
  cases hd

theorem bind_of (hf : Told text tree f) (hg : Told text tree (g (f 0).value)) :
    Told text tree fun base => f base >>= fun a => g a base := by
  refine ⟨?_, ?_, ?_⟩
  · intro base
    show (g (f base).value base).value = (g (f 0).value 0).value
    rw [hf.value, hg.value]
  · intro base
    show (f base).notes ++ (g (f base).value base).notes = ((f 0).notes ++ (g (f 0).value 0).notes).map (·.move base)
    rw [hf.value, hf.notes, hg.notes, List.map_append]
  · intro d hd
    rcases List.mem_append.mp hd with hd | hd
    · exact hf.quotes d hd
    · exact hg.quotes d hd

theorem bind (hf : Told text tree f) (hg : ∀ a, Told text tree (g a)) :
    Told text tree fun base => f base >>= fun a => g a base :=
  hf.bind_of (hg _)

theorem map (hf : Told text tree f) (k : α → β) : Told text tree fun base => (f base).map k :=
  ⟨fun base => congrArg k (hf.value base), hf.notes, hf.quotes⟩

theorem traverse {f : γ → Nat → Noted α} {cs : List γ} (hf : ∀ c ∈ cs, Told text tree (f c)) :
    Told text tree fun base => Noted.traverse (fun c => f c base) cs := by
  induction cs with
  | nil => exact pure fun _ => rfl
  | cons c cs ih =>
    obtain ⟨hc, hcs⟩ := List.forall_mem_cons.mp hf
    exact hc.bind fun a => (ih hcs).bind fun as => pure fun _ => rfl

theorem forIn {f : γ → Nat → Noted Unit} {cs : List γ} (hf : ∀ c ∈ cs, Told text tree (f c)) :
    Told text tree fun base => ForIn.forIn cs PUnit.unit fun c _ =>
      f c base >>= fun _ => Pure.pure (ForInStep.yield PUnit.unit) := by
  induction cs with
  | nil => exact pure fun _ => rfl
  | cons c cs ih =>
    obtain ⟨hc, hcs⟩ := List.forall_mem_cons.mp hf
    simp only [List.forIn_cons]
    apply Told.bind
    · exact hc.bind fun _ => pure fun _ => rfl
    · intro step
      cases step with
      | done u => exact pure fun _ => rfl
      | yield u => exact ih hcs

end Told

namespace Script.Source

theorem told_warn
    (hq : Quotes text tree code quoted) (hp : Phrase (message 0) quoted) (hm : ∀ base, message base = message 0)
    (span : Span) :
    Told text tree fun base => (Source.mk text base).warn code (message base) span := by
  refine ⟨fun _ => rfl, ?_, ?_⟩
  · intro base
    rw [hm base]
    rfl
  · intro d hd
    obtain rfl := List.mem_singleton.mp hd
    exact ⟨quoted, hq, hp⟩

theorem told_noteUnreadable (found : List Finding) :
    Told text tree fun base => (Source.mk text base).noteUnreadable found := by
  refine ⟨fun _ => rfl, ?_, ?_⟩
  · intro base
    simp only [noteUnreadable, List.map_map]
    rfl
  · intro d hd
    obtain ⟨span, -, rfl⟩ := List.mem_map.mp hd
    have hq : Quotes text tree .unknownScriptNode _ := .passage span (by decide)
    exact ⟨_, hq, .around (by decide) (by decide)⟩

theorem told_detached (n : Node) : Told text tree fun base => (Source.mk text base).detached n :=
  (told_noteUnreadable _).bind fun _ => .pure fun _ => rfl

theorem told_callable (f body : Node) (isAsync isGenerator : Bool) :
    Told text tree fun base => (Source.mk text base).callable f body isAsync isGenerator :=
  (told_noteUnreadable _).bind fun _ => .pure fun _ => rfl

theorem told_callable? (f : Node) : Told text tree fun base => (Source.mk text base).callable? f := by
  simp only [callable?]
  split
  · exact (told_callable f _ _ _).map some
  · exact (told_callable f _ _ _).map some
  · exact .pure fun _ => rfl

end Script.Source

namespace Options

variable {α : Type} {m : Member} {declare : Member → Nat → Noted (Option Text)}

theorem told_warn_pure
    (hq : Quotes text tree code quoted) (hp : Phrase (message 0) quoted) (hm : ∀ base, message base = message 0)
    (span : Span) (a : α) :
    Told text tree fun base => do
      (Source.mk text base).warn code (message base) span
      return a :=
  (Source.told_warn hq hp hm span).bind fun _ => .pure fun _ => rfl

theorem told_warnInvalid {key problem : String} (hk : '\n' ∉ key.toList) (hp : '\n' ∉ problem.toList)
    (span : Span) (a : α) :
    Told text tree fun base => do
      warnInvalid ⟨text, base⟩ key problem span
      return a :=
  told_warn_pure (.nothing (by decide)) (.words (by simp +decide [hk, hp])) (fun _ => rfl) span a

/-- A warning that quotes one text. -/
theorem told_quoting {quoted : Text} (hq : Quotes text tree code [quoted]) (hb : '\n' ∉ before) (ha : '\n' ∉ after)
    (span : Span) (a : α) :
    Told text tree fun base => do
      (Source.mk text base).warn code (before ++ quoted ++ after) span
      return a :=
  told_warn_pure hq (.around hb ha) (fun _ => rfl) span a

theorem told_keyed (hp : '\n' ∉ place.toList) (key : Node) (value : Value) (span : Span) :
    Told text tree fun base => Member.keyed ⟨text, base⟩ place key value span := by
  simp only [Member.keyed]
  split
  · exact .pure fun _ => rfl
  · exact told_quoting (.passage _ (by decide)) (by simp +decide [hp]) (by decide) _ none

theorem told_read (hp : '\n' ∉ place.toList) (n : Node) :
    Told text tree fun base => Member.read ⟨text, base⟩ place n := by
  simp only [Member.read]
  split
  · exact .pure fun _ => rfl
  · exact .pure fun _ => rfl
  · exact told_keyed hp _ _ _
  · exact told_keyed hp _ _ _
  · exact told_keyed hp _ _ _
  · exact told_quoting (.passage _ (by decide)) (by simp +decide [hp]) (by decide) _ none

theorem told_declarations
    (hd : ∀ m, m.In tree → Told text tree (declare m)) (hp : '\n' ∉ place.toList) (hn : ∀ n ∈ members, tree.Holds n) :
    Told text tree fun base => Member.declarations ⟨text, base⟩ place (fun m => declare m base) members := by
  apply Told.bind
  · apply Told.traverse
    intro n hmem
    apply (told_read hp n).bind_of
    cases h : (Member.read ⟨text, 0⟩ place n).value with
    | none => exact .pure fun _ => rfl
    | some m => exact hd m (.of_read (hn n hmem) h)
  · intro found
    exact .pure fun _ => rfl

theorem told_objectDeclarations
    (hd : ∀ m, m.In tree → Told text tree (declare m)) (hp : '\n' ∉ place.toList) (hm : m.In tree) :
    Told text tree fun base => m.objectDeclarations ⟨text, base⟩ place fun m => declare m base := by
  simp only [Member.objectDeclarations]
  split
  next ho => exact told_declarations hd hp (hm.object? ho)
  · exact told_warnInvalid hp (by decide) _ []

section Behaviour

theorem told_methodField (hm : m.In tree) : Told text tree fun base => methodField ⟨text, base⟩ m := by
  simp only [methodField]
  split
  · exact (Source.told_callable? _).bind fun _ => .pure fun _ => rfl
  · exact told_quoting (.name hm.name (by decide)) (by decide) (by decide) _ none

theorem told_hookFunction (hm : m.In tree) : Told text tree fun base => hookFunction ⟨text, base⟩ m := by
  simp only [hookFunction]
  split
  · exact .pure fun _ => rfl
  · exact told_quoting (.name hm.name (by decide)) (by decide) (by decide) _ none

theorem told_hookHandler (hm : m.In tree) : Told text tree fun base => hookHandler ⟨text, base⟩ m := by
  apply (told_hookFunction hm).bind
  intro f
  cases f with
  | none => exact .pure fun _ => rfl
  | some f => exact (Source.told_callable? f).bind fun _ => .pure fun _ => rfl

theorem told_creationCode (hm : m.In tree) : Told text tree fun base => creationCode ⟨text, base⟩ m := by
  apply (told_hookFunction hm).bind
  intro f
  cases f.bind Node.body? with
  | none => exact .pure fun _ => rfl
  | some body => exact (Told.traverse fun n _ => Source.told_detached n).bind fun _ => .pure fun _ => rfl

end Behaviour

section State

theorem told_dataField (hm : m.In tree) : Told text tree fun base => dataField ⟨text, base⟩ m := by
  simp only [dataField]
  split
  · exact (Source.told_detached _).bind fun _ => .pure fun _ => rfl
  · exact told_quoting (.name hm.name (by decide)) (by decide) (by decide) _ none

theorem told_data (hm : m.In tree) : Told text tree fun base => data ⟨text, base⟩ m := by
  simp only [data]
  split
  next ho => exact told_declarations (fun _ => told_dataField) (by decide) (hm.ofMember ho)
  · exact told_warn_pure (.nothing (by decide)) (.words (by decide)) (fun _ => rfl) _ []
  · exact told_warnInvalid (by decide) (by decide) _ []

theorem told_computedField (hm : m.In tree) : Told text tree fun base => computedField ⟨text, base⟩ m := by
  simp only [computedField]
  split
  · split
    · exact (Source.told_detached _).bind fun _ => .pure fun _ => rfl
    · exact (Source.told_callable? _).bind fun _ => .pure fun _ => rfl
  · have hproblem : '\n' ∉ (computedProblem m).toList := by
      unfold computedProblem
      split <;> decide
    exact told_warn_pure (.name hm.name (by decide)) (((Phrase.around (by decide) (by decide)).append
      (.words hproblem)).append (.words (by decide))) (fun _ => rfl) _ none

end State

section Props

theorem told_namedProp (element : Node) : Told text tree fun base => namedProp ⟨text, base⟩ element := by
  simp only [namedProp]
  split
  · exact .pure fun _ => rfl
  · exact told_quoting (.passage _ (by decide)) (by decide) (by decide) _ none

theorem told_defaultValue (spec : PropSpec) (value : Value) :
    Told text tree fun base => PropSpec.defaultValue ⟨text, base⟩ spec value := by
  have hdetached (n : Node) (b : Bool) : Told text tree fun base => (do
      return (← (Source.mk text base).detached n, b) : Noted (Text × Bool)) :=
    (Source.told_detached n).bind fun _ => .pure fun _ => rfl
  unfold PropSpec.defaultValue
  split
  · split
    · exact hdetached _ _
    · exact hdetached _ _
  · split
    · exact hdetached _ _
    · apply (Source.told_callable? _).bind
      intro callable
      cases callable with
      | none => exact .pure fun _ => rfl
      | some callable =>
        dsimp only
        split
        · exact .pure fun _ => rfl
        · exact .pure fun _ => rfl
  · exact .pure fun _ => rfl
  · exact .pure fun _ => rfl

theorem told_declaration {name : Text} (hname : tree.Names name) (spec : PropSpec) :
    Told text tree fun base => PropSpec.declaration ⟨text, base⟩ name spec := by
  simp only [PropSpec.declaration]
  have hinitial (r : Text × Bool) : Told text tree fun _ => (Pure.pure (" = " ++ r.1, r.2) : Noted (Text × Bool)) :=
    .pure fun _ => rfl
  cases spec.validator with
  | none =>
    cases spec.default with
    | none => exact .pure fun _ => rfl
    | some value => exact (told_defaultValue spec value).bind fun r => (hinitial r).bind fun _ => .pure fun _ => rfl
  | some span =>
    have hwarn : Told text tree fun base => (Source.mk text base).warn .propValidatorIgnored
        ("prop `" ++ name ++ "` validator is ignored") span :=
      Source.told_warn (.name hname (by decide)) (.around (by decide) (by decide)) (fun _ => rfl) span
    cases spec.default with
    | none => exact Told.bind (.pure fun _ => rfl) fun _ => hwarn.bind fun _ => .pure fun _ => rfl
    | some value =>
      exact (told_defaultValue spec value).bind fun r => (hinitial r).bind fun _ =>
        hwarn.bind fun _ => .pure fun _ => rfl

theorem told_declaredProp (hm : m.In tree) : Told text tree fun base => declaredProp ⟨text, base⟩ m := by
  have hpassage (span : Span) : Told text tree fun base => (do
      (Source.mk text base).warn .unexpectedProp ("unexpected prop `" ++ m.name ++ "` declaration" ++
        (": `" ++ span.slice text ++ "`") ++ ", ignoring it") m.span
      return none : Noted (Option Text)) :=
    told_warn_pure (.prop hm.name span) (((Phrase.around (by decide) (by decide)).append
      (.around (by decide) (by decide))).append (.words (by decide))) (fun _ => rfl) _ none
  simp only [declaredProp]
  split
  · exact told_warn_pure (.name hm.name (by decide)) (((Phrase.around (by decide) (by decide)).append
      (.words (by decide))).append (.words (by decide))) (fun _ => rfl) _ none
  · exact .pure fun _ => rfl
  · split
    · exact .pure fun _ => rfl
    · exact hpassage _
  · exact (told_declaration hm.name _).bind fun _ => .pure fun _ => rfl
  · exact hpassage _

theorem told_props (hm : m.In tree) : Told text tree fun base => props ⟨text, base⟩ m := by
  simp only [props]
  split
  · exact (Told.traverse fun n _ => told_namedProp n).bind fun _ => .pure fun _ => rfl
  next hb => exact told_declarations (fun _ => told_declaredProp) (by decide) fun n hn => (hm.bare? hb).child hn
  · exact told_warnInvalid (by decide) (by decide) _ []

end Props

theorem ofKey_eq_unknown {key key' : String} (h : Entry.ofKey key = .unknown key') : key' = key := by
  unfold Entry.ofKey at h
  split at h
  all_goals cases h
  rfl

theorem told_contribution (hm : m.In tree) : Told text tree fun base => contribution ⟨text, base⟩ m := by
  simp only [contribution]
  split
  · exact .pure fun _ => rfl
  · exact (told_props hm).map _
  · exact (told_data hm).map _
  · exact (told_objectDeclarations (fun _ => told_computedField) (by decide) hm).map _
  · exact (told_objectDeclarations (fun _ => told_methodField) (by decide) hm).map _
  · exact (told_hookHandler hm).map _
  · exact (told_creationCode hm).map _
  · exact (told_creationCode hm).map _
  next key hkey =>
    obtain rfl := ofKey_eq_unknown hkey
    exact told_quoting (.name (by rw [String.toList_ofList]; exact hm.name) (by decide)) (by decide) (by decide) _ _

theorem told_collect (hn : ∀ n ∈ members, tree.Holds n) : Told text tree fun base => collect ⟨text, base⟩ members := by
  apply Told.bind
  · apply Told.traverse
    intro n hmem
    apply (told_read (by decide) n).bind_of
    cases h : (Member.read ⟨text, 0⟩ "default export" n).value with
    | none => exact .pure fun _ => rfl
    | some m => exact told_contribution (.of_read (hn n hmem) h)
  · intro found
    exact .pure fun _ => rfl

end Options

end ComponentConverter
