import ComponentConverter.Options.Collect
import ComponentConverter.Proofs.ExpressionStatements

namespace ComponentConverter.Script

open List Read

section Frames

variable {s : State} {w r : Text}

theorem wordEnds_cons {c : Char} (hc : c ≠ '\\' ∧ continuesWord c = false) (r : Text) :
    wordEnds continuesWord (c :: r) := by
  rintro _ ⟨⟩
  exact hc

theorem bumped_word (ha : s.after = ' ' :: (w ++ r)) (hw : isPlainWord w = true) (hr : wordEnds continuesWord r) :
    s.bumped.token.kind = .word (String.ofList w) false ∧ s.bumped.token.newline = false ∧ s.bumped.after = r := by
  have hscan := (@scan_blank false _ (opensGap_word hw r) s.token.stop).trans (scanHere_word hw hr _ _)
  simp [State.bumped, ha, hscan]

theorem bumped_mark {c : Char} (ha : s.after = c :: r) (hc : c ∈ frameMarks)
    (hr : c = '=' ∨ c = '*' → r.head? = some ' ') :
    s.bumped.token.isMark (String.ofList [c]) = true ∧ s.bumped.after = r := by
  have hscan := (@scan_here false _ (opensGap_mark hc r) s.token.stop).trans (scanHere_mark hc hr _ _)
  simp [State.bumped, ha, hscan, Token.isMark]

theorem bumped_blank_mark {c : Char} (ha : s.after = ' ' :: c :: r) (hc : c ∈ frameMarks)
    (hr : c = '=' ∨ c = '*' → r.head? = some ' ') :
    s.bumped.token.isMark (String.ofList [c]) = true ∧ s.bumped.after = r := by
  have hscan := (@scan_blank false _ (opensGap_mark hc r) s.token.stop).trans (scanHere_mark hc hr _ _)
  simp [State.bumped, ha, hscan, Token.isMark]

theorem opened_word (hw : isPlainWord w = true) (hr : wordEnds continuesWord r) (typed : Bool) :
    (opened (w ++ r) typed).token.kind = .word (String.ofList w) false ∧ (opened (w ++ r) typed).after = r := by
  have hscan := (@scan_here true _ (opensGap_word hw r) 0).trans (scanHere_word hw hr _ _)
  simp [opened, hscan]

end Frames

end ComponentConverter.Script

namespace ComponentConverter.Options

open List Script

/-- A statement of the script of an instance, with the texts it is put together from. -/
inductive Statement where
  | bare (name : Text)
  | prop (name value : Text)
  | data (name value : Text)
  | computed (name value : Text)
  | method (name : Text) (callable : Callable)
  | hook (moment : Hook) (handler : Text)

namespace Statement

def name : Statement → Text
  | .bare name | .prop name _ | .data name _ | .computed name _ | .method name _ => name
  | .hook moment _ => moment.registrar

def head : Statement → Text
  | .bare name => "export let " ++ name
  | .prop name _ => "export let " ++ name ++ " = "
  | .data name _ => "let " ++ name ++ " = "
  | .computed name _ => "$: " ++ name ++ " = "
  | .method name f =>
    f.async ++ "function".toList ++ (if f.isGenerator then "*".toList else []) ++ " ".toList ++ name ++
      f.signature ++ " "
  | .hook moment _ => moment.registrar ++ "("

def content : Statement → Text
  | .bare _ => []
  | .prop _ value | .data _ value | .computed _ value => value
  | .method _ f => f.body
  | .hook _ handler => handler

def isBare : Statement → Bool
  | .bare _ => true
  | _ => false

def marks : Statement → List String
  | .method .. => []
  | .hook .. => [")", ";"]
  | _ => [";"]

def text (st : Statement) : Text := st.head ++ st.content ++ st.marks.flatMap String.toList

section Texts

variable (name value : Text)

theorem text_bare : (Statement.bare name).text = "export let " ++ name ++ ";" := by
  change "export let ".toList ++ name ++ [] ++ (";".toList ++ []) = _
  rw [append_nil, append_nil]

theorem text_prop : (Statement.prop name value).text = "export let " ++ name ++ " = " ++ value ++ ";" := by
  change "export let ".toList ++ name ++ " = ".toList ++ value ++ (";".toList ++ []) = _
  rw [append_nil]

theorem text_data : (Statement.data name value).text = "let " ++ name ++ " = " ++ value ++ ";" := by
  change "let ".toList ++ name ++ " = ".toList ++ value ++ (";".toList ++ []) = _
  rw [append_nil]

theorem text_computed : (Statement.computed name value).text = "$: " ++ name ++ " = " ++ value ++ ";" := by
  change "$: ".toList ++ name ++ " = ".toList ++ value ++ (";".toList ++ []) = _
  rw [append_nil]

theorem text_method (f : Callable) : (Statement.method name f).text = f.declaration name := by
  change f.async ++ "function".toList ++ (if f.isGenerator then "*".toList else []) ++ " ".toList ++ name ++
    f.signature ++ " ".toList ++ f.body ++ [] = _
  rw [append_nil]
  rfl

theorem text_hook (moment : Hook) :
    (Statement.hook moment value).text = moment.registrar ++ "(" ++ value ++ ");" := by
  change moment.registrar ++ "(".toList ++ value ++ (")".toList ++ (";".toList ++ [])) = _
  rw [append_nil]
  rfl

end Texts

def place (st : Statement) : Span := ⟨bytes st.head, bytes st.head + bytes st.content⟩

/-- What an item of a script is read as: the name that it is about, and the value. -/
def parts? : Statement → Node → Option (String × Option Node)
  | .bare _ | .prop .. => exportedVariable?
  | .data .. => declaredVariable?
  | .computed .. => reactiveAssignment?
  | .method .. => declaredFunction?
  | .hook .. => registration?

/-- Whether a value is the whole of the part that can be anything, and passes a test. -/
def takes (st : Statement) (P : Node → Bool) (value : Option Node) : Bool :=
  value.isNone == st.isBare && value.all fun v => v.span == st.place && P v

def describes (st : Statement) (P : Node → Bool) (n : Node) : Bool :=
  (st.parts? n).any fun (w, value) => w == String.ofList st.name && st.takes P value

/-- The text, and a comment behind it, is read as the statement and nothing else, without any issue, and
its value passes a test. -/
def Meant (st : Statement) (P : Node → Bool) (typed : Bool) (comment : Text) : Prop :=
  (match parse (st.text ++ comment) typed with
  | .ok ⟨[n], []⟩ => st.describes P n
  | _ => false) = true

def atFunction (f : Callable) (s : State) : State := if f.isAsync then s.bumped else s

def atName (f : Callable) (s : State) : State := if f.isGenerator then (atFunction f s).bumped else atFunction f s

/-- The reader behind the head of the statement, or behind the name of a function. -/
def entry : Statement → State → State
  | .bare _, s => s.bumped.bumped.bumped
  | .prop _ _, s => s.bumped.bumped.bumped.bumped.inside s.context.takingIn
  | .data _ _, s => s.bumped.bumped.bumped.inside s.context.takingIn
  | .computed _ _, s => s.atBody.atValue
  | .method _ f, s => (atName f s).bumped.bumped
  | .hook _ _, s => s.atArgument

/-- Reads the part that can be anything. -/
def readContent (st : Statement) (depth : Nat) : Read (Option Node) :=
  match st with
  | .bare _ => return none
  | .prop .. | .data .. => some <$> (grammar (depth + 3)).assignment
  | .computed .. => some <$> (grammar depth).assignment
  | .method _ f => (·.1.getLast?) <$> functionRest (grammar (depth + 3)) f.isAsync f.isGenerator
  | .hook .. => Option.guard Node.isFunction <$> (grammar depth).assignment

/-- Behind the part that can be anything the statement ends, and the script. -/
def Closes (st : Statement) (depth : Nat) (s : State) (value : Option Node) (u : State) : Prop :=
  match st with
  | .bare _ => u.bumped.Ended
  | .prop .. => EndsVariable (grammar (depth + 3)) s.bumped u
  | .data .. => EndsVariable (grammar (depth + 3)) s u
  | .computed name _ => ∀ v ∈ value, EndsAssignment depth s.atBody (String.ofList name) v u
  | .method .. => u.Ended
  | .hook moment _ => ∀ f ∈ value, EndsCall depth s (String.ofList moment.registrar) f u

/-- Whether the reader passes marks and is then at the end, without any issue. -/
def passes : List String → State → Bool
  | [], s => s.token.isEnd && s.issues.isEmpty
  | m :: ms, s => s.token.isMark m && passes ms s.bumped

def depthOf (st : Statement) (comment : Text) : Nat := 8 * (st.text ++ comment).length + 60

/-- The part that can be anything is read as a whole, its value passes a test, and the statement ends
behind it. -/
def IsRead (st : Statement) (P : Node → Bool) (typed : Bool) (comment : Text) : Prop :=
  ∃ value u, st.readContent (st.depthOf comment) (st.entry (opened (st.text ++ comment) typed)) = .ok value u ∧
    st.takes P value = true ∧ st.Closes (st.depthOf comment) (opened (st.text ++ comment) typed) value u

/-- The same with nothing but the marks of the statement behind the part. -/
def IsReadAlone (st : Statement) (P : Node → Bool) (typed : Bool) (comment : Text) : Prop :=
  (match st.readContent (st.depthOf comment) (st.entry (opened (st.text ++ comment) typed)) with
  | .ok value u => st.takes P value && passes st.marks u
  | .error _ _ => false) = true

instance (st : Statement) (P : Node → Bool) (typed : Bool) (comment : Text) : Decidable (st.Meant P typed comment) :=
  inferInstanceAs (Decidable (_ = true))

instance (st : Statement) (P : Node → Bool) (typed : Bool) (comment : Text) :
    Decidable (st.IsReadAlone P typed comment) :=
  inferInstanceAs (Decidable (_ = true))

def IsBindable (name : Text) : Prop := isPlainWord name = true ∧ String.ofList name ∉ unbindableWords

instance (name : Text) : Decidable (IsBindable name) :=
  inferInstanceAs (Decidable (isPlainWord name = true ∧ String.ofList name ∉ unbindableWords))

def IsNamed : Statement → Prop
  | .bare name | .prop name _ | .data name _ | .computed name _ => IsBindable name
  | .method name f => IsBindable name ∧ wordEnds continuesWord f.signature
  | .hook _ _ => True

section Tokens

variable {name r : Text} {s : State}

theorem bumped_name (ha : s.after = ' ' :: (name ++ r)) (hn : IsBindable name) (hr : wordEnds continuesWord r) :
    s.bumped.token.Names (String.ofList name) ∧ s.bumped.after = r := by
  obtain ⟨hkind, -, hafter⟩ := bumped_word ha hn.1 hr
  exact ⟨⟨hkind, hn.2⟩, hafter⟩

theorem tokens_value (ha : s.after = ' ' :: (name ++ (" = " ++ r))) (hn : IsBindable name) :
    s.bumped.token.Names (String.ofList name) ∧ s.bumped.bumped.token.isMark "=" = true := by
  obtain ⟨hname, hafter⟩ := bumped_name ha hn (wordEnds_cons (by decide) _)
  exact ⟨hname, (bumped_blank_mark hafter (by decide) (fun _ => rfl)).1⟩

theorem tokens_export (r : Text) (typed : Bool) :
    (opened ("export let " ++ r) typed).token.kind = .word "export" false ∧
      (opened ("export let " ++ r) typed).bumped.token.kind = .word "let" false ∧
      (opened ("export let " ++ r) typed).bumped.after = ' ' :: r := by
  have hexport : "export let " ++ r = "export" ++ (" let " ++ r) := rfl
  obtain ⟨hkind, hafter⟩ := @opened_word "export" (" let " ++ r) (by decide) (wordEnds_cons (by decide) _) typed
  rw [← hexport] at hkind hafter
  obtain ⟨hlet, -, hafter⟩ := @bumped_word _ "let" (' ' :: r) hafter (by decide) (wordEnds_cons (by decide) _)
  exact ⟨hkind, hlet, hafter⟩

theorem tokens_let (r : Text) (typed : Bool) : (opened ("let " ++ r) typed).token.kind = .word "let" false ∧
      (opened ("let " ++ r) typed).after = ' ' :: r := by
  obtain ⟨hkind, hafter⟩ := @opened_word "let" (' ' :: r) (by decide) (wordEnds_cons (by decide) _) typed
  exact ⟨hkind, hafter⟩

theorem tokens_label (r : Text) (typed : Bool) : (opened ("$: " ++ r) typed).token.kind = .word "$" false ∧
      (opened ("$: " ++ r) typed).bumped.token.isMark ":" = true ∧
      (opened ("$: " ++ r) typed).bumped.after = ' ' :: r := by
  obtain ⟨hkind, hafter⟩ := @opened_word "$" (": " ++ r) (by decide) (wordEnds_cons (by decide) _) typed
  obtain ⟨hmark, hafter⟩ := @bumped_mark _ (' ' :: r) ':' hafter (by decide) (fun h => absurd h (by decide))
  exact ⟨hkind, hmark, hafter⟩

theorem tokens_hook (moment : Hook) (r : Text) (typed : Bool) :
    (opened (moment.registrar ++ ("(" ++ r)) typed).token.kind = .word (String.ofList moment.registrar) false ∧
      (opened (moment.registrar ++ ("(" ++ r)) typed).bumped.token.isMark "(" = true := by
  obtain ⟨hkind, hafter⟩ := @opened_word moment.registrar ("(" ++ r) (by cases moment <;> decide)
    (wordEnds_cons (by decide) _) typed
  obtain ⟨hmark, -⟩ := @bumped_mark _ r '(' hafter (by decide) (fun h => absurd h (by decide))
  exact ⟨hkind, hmark⟩

end Tokens

section Meaning

variable {st : Statement} {P : Node → Bool} {typed : Bool} {comment : Text} {w : String} {f : Callable}

theorem describes_eq_true {n : Node} : st.describes P n = true ↔
      ∃ value, st.parts? n = some (String.ofList st.name, value) ∧ st.takes P value = true := by
  unfold describes
  cases st.parts? n with
  | none => simp
  | some parts => simp [Prod.ext_iff, and_assoc]

theorem not_directive {t : Text} (h : (opened t typed).token.kind = .word w false) :
    ['#', '!'].isPrefixOf t = false := by
  rw [Bool.eq_false_iff]
  intro hd
  obtain ⟨r, rfl⟩ := isPrefixOf_iff_prefix.mp hd
  have hgap : opensGap true (['#', '!'] ++ r) = false := by
    simp [opensGap, opensBlank, opensLine, opensBlock, List.isPrefixOf, isGapCharacter, isLineEnd, isInlineSpace, isSpace]
  have hkind : (opened (['#', '!'] ++ r) typed).token.kind = .mark := by
    rfl
  cases hkind.symm.trans h

theorem meant_iff (hs : (opened (st.text ++ comment) typed).token.kind = .word w false) : st.Meant P typed comment ↔
      ∃ n t, itemRule (grammar (st.depthOf comment + 3)) (opened (st.text ++ comment) typed) = .ok n t ∧ t.Ended ∧
        st.describes P n = true := by
  have hend : (opened (st.text ++ comment) typed).token.isEnd = false := by simp [Token.isEnd, hs]
  have hparse {n : Node} := @parse_single_iff (st.text ++ comment) typed n (not_directive hs) hend
  unfold Meant
  constructor
  · intro h
    split at h
    next n hn =>
      obtain ⟨t, ht, hend⟩ := hparse.mp hn
      exact ⟨n, t, ht, hend, h⟩
    · cases h
  · rintro ⟨n, t, ht, hend, h⟩
    rw [hparse.mpr ⟨t, ht, hend⟩]
    exact h

/-- The rule for an item of a script reads the statement exactly if its content is read and closed. -/
def Fits (st : Statement) (depth : Nat) (s : State) : Prop :=
  ∀ value : Option Node, value.isNone = st.isBare → ((∃ n t, itemRule (grammar (depth + 3)) s = .ok n t ∧ t.Ended ∧
      st.parts? n = some (String.ofList st.name, value)) ↔
    ∃ u, st.readContent depth (st.entry s) = .ok value u ∧ st.Closes depth s value u)

variable {name value : Text} {s : State} {depth : Nat}

theorem fits_prop (hexport : s.token.kind = .word "export" false) (hlet : s.bumped.token.kind = .word "let" false)
    (hname : s.bumped.bumped.token.Names (String.ofList name)) (he : s.bumped.bumped.bumped.token.isMark "=" = true) :
    Fits (.prop name value) depth s := by
  rintro (_ | v) hv
  · cases hv
  refine (exported_iff hexport hlet hname).trans ((variable_iff hlet hname he).trans ?_)
  exact exists_congr fun u => and_congr_left fun _ => Read.map_some_eq_ok.symm

theorem fits_data (hlet : s.token.kind = .word "let" false) (hname : s.bumped.token.Names (String.ofList name))
    (he : s.bumped.bumped.token.isMark "=" = true) : Fits (.data name value) depth s := by
  rintro (_ | v) hv
  · cases hv
  rw [itemRule_variable hlet hname]
  refine (variable_iff hlet hname he).trans ?_
  exact exists_congr fun u => and_congr_left fun _ => Read.map_some_eq_ok.symm

theorem fits_computed (hs : s.token.kind = .word "$" false) (hl : s.labels = [])
    (hc : s.bumped.token.isMark ":" = true) (hname : s.bumped.bumped.token.Names (String.ofList name))
    (he : s.bumped.bumped.bumped.token.isMark "=" = true) : Fits (.computed name value) (depth + 1) s := by
  rintro (_ | v) hv
  · cases hv
  refine (reactive_iff hs hl hc hname he).trans ?_
  exact exists_congr fun u => and_congr Read.map_some_eq_ok.symm (by simp [Closes])

theorem fits_hook {moment : Hook} (hs : s.token.kind = .word (String.ofList moment.registrar) false)
    (hc : s.bumped.token.isMark "(" = true) : Fits (.hook moment value) (depth + 2) s := by
  have hname : s.token.Names (String.ofList moment.registrar) := ⟨hs, by cases moment <;> decide⟩
  have ha : String.ofList moment.registrar ≠ "async" := by cases moment <;> decide
  have hu : String.ofList moment.registrar ≠ "using" := by cases moment <;> decide
  rintro (_ | f) hf
  · cases hf
  refine (registration_iff hname ha hu hc).trans ?_
  constructor
  · rintro ⟨hfunction, u, hu, hend⟩
    refine ⟨u, Read.map_eq_ok.mpr ⟨f, hu, Option.guard_eq_some_iff.mpr ⟨rfl, hfunction⟩⟩, ?_⟩
    rintro _ ⟨⟩
    exact hend
  · rintro ⟨u, hread, hend⟩
    obtain ⟨_, hu, hguard⟩ := Read.map_eq_ok.mp hread
    obtain ⟨rfl, hfunction⟩ := Option.guard_eq_some_iff.mp hguard
    exact ⟨hfunction, u, hu, hend _ rfl⟩

/-- The tokens in front of the parameters of a method. -/
structure MethodTokens (name : Text) (f : Callable) (s : State) : Prop where
  async : f.isAsync = true → s.token.kind = .word "async" false
  onOneLine : f.isAsync = true → s.bumped.token.newline = false
  function : (atFunction f s).token.kind = .word "function" false
  star : f.isGenerator = true → (atFunction f s).bumped.token.isMark "*" = true
  name : (atName f s).bumped.token.Names (String.ofList name)

theorem itemRule_method (h : MethodTokens name f s) (g : Grammar) : itemRule g s = (do
      let (parts, _) ← functionRest g f.isAsync f.isGenerator
      Read.close .functionDeclaration s.token.start
        (.leaf (.name (String.ofList name)) (atName f s).bumped.token.span :: parts)) (atName f s).bumped.bumped := by
  have hitem : itemRule g s = functionFrom g s.token.start f.isAsync (atFunction f s).bumped := by
    have hfunction := h.function
    cases hasync : f.isAsync with
    | false =>
      simp only [atFunction, hasync, Bool.false_eq_true, if_false] at hfunction ⊢
      exact itemRule_function hfunction
    | true =>
      simp only [atFunction, hasync, if_true] at hfunction ⊢
      exact itemRule_async (h.async hasync) hfunction (h.onOneLine hasync)
  have hname := h.name
  rw [hitem]
  cases hstar : f.isGenerator with
  | false =>
    simp only [atName, hstar, Bool.false_eq_true, if_false] at hname ⊢
    exact functionFrom_name hname _ _
  | true =>
    simp only [atName, hstar, if_true] at hname ⊢
    exact functionFrom_generator (h.star hstar) hname _ _

theorem fits_method (h : MethodTokens name f s) : Fits (.method name f) depth s := by
  have hitem := itemRule_method h (grammar (depth + 3))
  rintro (_ | body) hbody
  · cases hbody
  constructor
  · rintro ⟨n, t, hr, ht, hn⟩
    obtain ⟨⟨parts, hasBody⟩, u, hparts, hclose⟩ := Read.bind_eq_ok.mp (hitem.symm.trans hr)
    cases hclose
    obtain ⟨_, hlast, ⟨⟩⟩ := Option.map_eq_some_iff.mp hn
    exact ⟨t, Read.map_eq_ok.mpr ⟨_, hparts, hlast⟩, ht⟩
  · rintro ⟨u, hread, hend⟩
    obtain ⟨⟨parts, hasBody⟩, hparts, hlast⟩ := Read.map_eq_ok.mp hread
    refine ⟨_, u, hitem.trans (Read.bind_eq_ok.mpr ⟨(parts, hasBody), u, hparts, rfl⟩), hend, ?_⟩
    simp [parts?, Node.leaf, declaredFunction?, hlast, Statement.name]

theorem fits_bare (hexport : s.token.kind = .word "export" false) (hlet : s.bumped.token.kind = .word "let" false)
    (hname : s.bumped.bumped.token.Names (String.ofList name)) (he : s.bumped.bumped.bumped.token.isMark ";" = true) :
    Fits (.bare name) depth s := by
  rintro (_ | v) hv
  · refine (exported_iff hexport hlet hname).trans ?_
    obtain ⟨m, hm, hdeclares⟩ := @variableStatement_bare (grammar (depth + 3)) _ _ hlet hname he
    constructor
    · rintro ⟨n, t, hn, ht, -⟩
      cases hm.symm.trans hn
      exact ⟨_, rfl, ht⟩
    · rintro ⟨_, ⟨⟩, ht⟩
      exact ⟨m, _, hm, ht, hdeclares⟩
  · cases hv

theorem tokens_name {t : State} {isGenerator : Bool} {r : Text}
    (ha : t.after = (if isGenerator then "*".toList else []) ++ (' ' :: (name ++ r))) (hn : IsBindable name)
    (hr : wordEnds continuesWord r) :
    (isGenerator = true → t.bumped.token.isMark "*" = true) ∧
      (if isGenerator then t.bumped else t).bumped.token.Names (String.ofList name) := by
  cases isGenerator with
  | false =>
    refine ⟨?_, (bumped_name ha hn hr).1⟩
    rintro ⟨⟩
  | true =>
    obtain ⟨hmark, hafter⟩ := @bumped_mark t (' ' :: (name ++ r)) '*' ha (by decide) (fun _ => rfl)
    exact ⟨fun _ => hmark, (bumped_name hafter hn hr).1⟩

theorem methodTokens_of {u : State} {r : Text} (hat : atFunction f s = u) (hu : u.token.kind = .word "function" false)
    (ha : u.after = (if f.isGenerator then "*".toList else []) ++ (' ' :: (name ++ r)))
    (hn : IsBindable name) (hr : wordEnds continuesWord r)
    (hasync : f.isAsync = true → s.token.kind = .word "async" false ∧ s.bumped.token.newline = false) :
    MethodTokens name f s := by
  subst hat
  obtain ⟨hstar, hname⟩ := tokens_name ha hn hr
  exact ⟨fun h => (hasync h).1, fun h => (hasync h).2, hu, hstar, hname⟩

theorem methodTokens {f : Callable} (hn : IsBindable name) (hs : wordEnds continuesWord f.signature) (r : Text) :
    MethodTokens name f (opened ((Statement.method name f).head ++ r) typed) := by
  have hends : wordEnds continuesWord (f.signature ++ (' ' :: r)) := by
    cases hsignature : f.signature with
    | nil => exact wordEnds_cons (by decide) _
    | cons c t =>
      rw [hsignature] at hs
      exact wordEnds_cons (hs c rfl) _
  have hhead : (Statement.method name f).head ++ r = f.async ++ ("function".toList ++
      ((if f.isGenerator then "*".toList else []) ++ (' ' :: (name ++ (f.signature ++ (' ' :: r)))))) := by
    change f.async ++ "function".toList ++ (if f.isGenerator then "*".toList else []) ++ [' '] ++ name ++ f.signature ++
      [' '] ++ r = _
    simp only [append_assoc, cons_append, nil_append]
  generalize f.signature ++ (' ' :: r) = rest at hends hhead
  rw [hhead]
  have hstar : wordEnds continuesWord ((if f.isGenerator then "*".toList else []) ++ (' ' :: (name ++ rest))) := by
    cases f.isGenerator <;> exact wordEnds_cons (by decide) _
  cases hasync : f.isAsync with
  | false =>
    have hempty : f.async = [] := by simp [Callable.async, hasync]
    obtain ⟨hfunction, hafter⟩ := @opened_word "function".toList _ (by decide) hstar typed
    rw [hempty]
    exact methodTokens_of (by simp [atFunction, hasync]) hfunction hafter hn hends (by simp [hasync])
  | true =>
    have hword : f.async = "async".toList ++ [' '] := by
      rw [Callable.async, hasync]
      rfl
    obtain ⟨hfirst, hafter⟩ := @opened_word "async".toList (' ' :: ("function".toList ++
      ((if f.isGenerator then "*".toList else []) ++ (' ' :: (name ++ rest))))) (by decide) (wordEnds_cons (by decide) _) typed
    obtain ⟨hfunction, hnewline, hafter⟩ := bumped_word hafter (by decide) hstar
    have htokens := methodTokens_of (by simp [atFunction, hasync]) hfunction hafter hn hends fun _ => ⟨hfirst, hnewline⟩
    rw [hword, append_assoc, singleton_append]
    exact htokens

theorem fits (hn : st.IsNamed) (typed : Bool) (comment : Text) :
    (∃ w, (opened (st.text ++ comment) typed).token.kind = .word w false) ∧
      st.Fits (st.depthOf comment) (opened (st.text ++ comment) typed) := by
  unfold depthOf
  generalize 8 * (st.text ++ comment).length = depth
  cases st with
  | bare name =>
    have htext : (Statement.bare name).text ++ comment = "export let " ++ (name ++ (";" ++ comment)) := by
      simp only [text_bare, append_assoc]
    rw [htext]
    obtain ⟨hexport, hlet, hafter⟩ := tokens_export (name ++ (";" ++ comment)) typed
    obtain ⟨hname, hafter⟩ := bumped_name hafter hn (wordEnds_cons (by decide) _)
    obtain ⟨hmark, -⟩ := @bumped_mark _ comment ';' hafter (by decide) (fun h => absurd h (by decide))
    exact ⟨⟨_, hexport⟩, fits_bare hexport hlet hname hmark⟩
  | prop name value =>
    have htext : (Statement.prop name value).text ++ comment =
        "export let " ++ (name ++ (" = " ++ (value ++ (";" ++ comment)))) := by
      simp only [text_prop, append_assoc]
    rw [htext]
    obtain ⟨hexport, hlet, hafter⟩ := tokens_export (name ++ (" = " ++ (value ++ (";" ++ comment)))) typed
    obtain ⟨hname, hmark⟩ := tokens_value hafter hn
    exact ⟨⟨_, hexport⟩, fits_prop hexport hlet hname hmark⟩
  | data name value =>
    have htext : (Statement.data name value).text ++ comment =
        "let " ++ (name ++ (" = " ++ (value ++ (";" ++ comment)))) := by
      simp only [text_data, append_assoc]
    rw [htext]
    obtain ⟨hlet, hafter⟩ := tokens_let (name ++ (" = " ++ (value ++ (";" ++ comment)))) typed
    obtain ⟨hname, hmark⟩ := tokens_value hafter hn
    exact ⟨⟨_, hlet⟩, fits_data hlet hname hmark⟩
  | computed name value =>
    have htext : (Statement.computed name value).text ++ comment =
        "$: " ++ (name ++ (" = " ++ (value ++ (";" ++ comment)))) := by
      simp only [text_computed, append_assoc]
    rw [htext]
    obtain ⟨hlabel, hcolon, hafter⟩ := tokens_label (name ++ (" = " ++ (value ++ (";" ++ comment)))) typed
    obtain ⟨hname, hmark⟩ := tokens_value hafter hn
    exact ⟨⟨_, hlabel⟩, fits_computed hlabel rfl hcolon hname hmark⟩
  | method name f =>
    have htext : (Statement.method name f).text ++ comment = (Statement.method name f).head ++ (f.body ++ comment) := by
      simp only [text, content, marks, flatMap_nil, append_nil, append_assoc]
    rw [htext]
    have htokens := @methodTokens typed name f hn.1 hn.2 (f.body ++ comment)
    refine ⟨?_, fits_method htokens⟩
    cases hasync : f.isAsync with
    | true => exact ⟨_, htokens.async hasync⟩
    | false =>
      have hfunction := htokens.function
      rw [atFunction, hasync, if_neg Bool.false_ne_true] at hfunction
      exact ⟨_, hfunction⟩
  | hook moment handler =>
    have htext : (Statement.hook moment handler).text ++ comment =
        moment.registrar ++ ("(" ++ (handler ++ (");" ++ comment))) := by
      simp only [text_hook, append_assoc]
    rw [htext]
    obtain ⟨hname, hmark⟩ := tokens_hook moment (handler ++ (");" ++ comment)) typed
    exact ⟨⟨_, hname⟩, fits_hook hname hmark⟩

theorem meant_iff_isRead (hn : st.IsNamed) : st.Meant P typed comment ↔ st.IsRead P typed comment := by
  obtain ⟨⟨w, hw⟩, hfits⟩ := fits hn typed comment
  have hbare {value : Option Node} (h : st.takes P value = true) : value.isNone = st.isBare :=
    beq_iff_eq.mp (Bool.and_eq_true_iff.mp h).1
  simp only [meant_iff hw, describes_eq_true]
  constructor
  · rintro ⟨n, t, hn, ht, value, hparts, htakes⟩
    obtain ⟨u, hread, hcloses⟩ := (hfits value (hbare htakes)).mp ⟨n, t, hn, ht, hparts⟩
    exact ⟨value, u, hread, htakes, hcloses⟩
  · rintro ⟨value, u, hread, htakes, hcloses⟩
    obtain ⟨n, t, hn, ht, hparts⟩ := (hfits value (hbare htakes)).mpr ⟨u, hread, hcloses⟩
    exact ⟨n, t, hn, ht, value, hparts, htakes⟩

theorem isRead_of_isReadAlone (h : st.IsReadAlone P typed comment) : st.IsRead P typed comment := by
  have hended {u : State} (h : passes [] u = true) : u.Ended := by simpa [passes, State.Ended] using h
  unfold IsReadAlone at h
  split at h
  next value u hread =>
    obtain ⟨htakes, hpasses⟩ := Bool.and_eq_true_iff.mp h
    refine ⟨value, u, hread, htakes, ?_⟩
    cases st with
    | method name f => exact hended hpasses
    | hook moment handler =>
      obtain ⟨hmark, hpasses⟩ := Bool.and_eq_true_iff.mp hpasses
      obtain ⟨hsemi, hpasses⟩ := Bool.and_eq_true_iff.mp hpasses
      exact fun f _ => endsCall_of_marks hmark hsemi (hended hpasses)
    | bare name => exact hended (Bool.and_eq_true_iff.mp hpasses).2
    | computed name value =>
      obtain ⟨hmark, hpasses⟩ := Bool.and_eq_true_iff.mp hpasses
      exact fun v _ => endsAssignment_of_semicolon hmark (hended hpasses)
    | prop | data =>
      obtain ⟨hmark, hpasses⟩ := Bool.and_eq_true_iff.mp hpasses
      exact endsVariable_of_semicolon hmark (hended hpasses)
  · cases h

end Meaning

end Statement

end ComponentConverter.Options
