import ComponentConverter.Proofs.Operands

namespace ComponentConverter.Script

open Read
open Token (isMark_ne isMark_word isWord_word)

variable {s : State} {w : String}

theorem decorators_run (h : s.token.isMark "@" = false) (g : Grammar) (b : Bool) : decorators g b s = .ok [] s := by
  unfold decorators
  simp only [bind_run, position_run]
  rw [many_of_none (by simp [h])]
  simp

theorem itemRule_word (h : s.token.kind = .word w false) (hi : w ≠ "import")
    (he : w ≠ "export") (g : Grammar) : itemRule g s = statementFrom g true s.token.start [] s := by
  simp [itemRule, decorators_run (isMark_word h _), isWord_word h, hi, he]

theorem itemRule_export (h : s.token.kind = .word "export" false) (g : Grammar) :
    itemRule g s = exportDeclaration g [] s := by
  simp [itemRule, decorators_run (isMark_word h _), isWord_word h]

theorem typedStatement?_run (h : s.token.kind = .word w false) (hc : w ≠ "const")
    (hn : s.bumped.token.isAnyWord = false ∨ (w ≠ "interface" ∧ w ≠ "type" ∧ w ≠ "enum")) (g : Grammar) :
    typedStatement? g s = .ok none s := by
  rcases hn with hn | ⟨hi, ht, he⟩
  · simp [typedStatement?, isWord_word h, hc, hn]
  · simp [typedStatement?, isWord_word h, hc, hi, ht, he]

theorem statementFrom_let (h : s.token.kind = .word "let" false)
    (hn : s.bumped.token.followsLet = true) (g : Grammar) (start : Nat) (decorated : List Node) :
    statementFrom g true start decorated s = variableStatement g s := by
  simp [statementFrom, typedStatement?_run h (by decide) (.inr (by decide)), h, hn]

theorem declarator_value {s : State} {w : String} (h : s.token.Names w) (he : s.bumped.token.isMark "=" = true)
    (g : Grammar) (kind : VariableKind) :
    declarator g kind false s = (do
      let v ← g.assignment
      close (.declarator true false) s.token.start [.leaf (.name w) s.token.span, v]) s.bumped.bumped := by
  have hany : s.token.isAnyWord = true := by simp [Token.isAnyWord, h.kind]
  simp [declarator, hany, bindingIdentifier_run h, typeAnnotation?]
  cases s.typed <;> simp [Node.leaf, Node.form, he, isMark_ne he]

theorem declarator_bare {s : State} {w : String} (h : s.token.Names w) (he : s.bumped.token.isMark ";" = true)
    (g : Grammar) :
    declarator g .ofBlock false s =
      .ok (.mk (.declarator false false) s.token.span [.leaf (.name w) s.token.span]) s.bumped := by
  have hany : s.token.isAnyWord = true := by simp [Token.isAnyWord, h.kind]
  simp [declarator, hany, bindingIdentifier_run h, typeAnnotation?]
  cases s.typed <;> simp [Node.leaf, Node.form, isMark_ne he, Token.span]

section Variables

variable {g : Grammar} {kind : VariableKind} {word : Span} {s t : State}

def reportComma (word : Span) : Read Unit := do
  let last ← lastSpan
  report .trailingComma (if last == word then .point last.stop else last)

/-- Reads on behind a variable that no other one follows. -/
def noMoreVariables (word : Span) : Read Unit := do
  if ← eat "," then
    unless ← is ";" do fail .identifierExpected
    reportComma word

def declaratorStep (g : Grammar) (kind : VariableKind) (word : Span) (read : List Node × Bool) :
    Read (Option (List Node × Bool)) := do
  if !read.2 then return none
  if ← is ";" then
    reportComma word
    return some (read.1, false)
  let declared ← declarator g kind false
  return some (declared :: read.1, ← eat ",")

theorem declaratorList_eq (g : Grammar) (kind : VariableKind) (word : Span) :
    declaratorList g kind false word = (do return (← iterate (declaratorStep g kind word) ([], true)).1.reverse) := by
  rfl

theorem declaratorStep_stop (ds : List Node) (s : State) : declaratorStep g kind word (ds, false) s = .ok none s := by
  simp [declaratorStep]

theorem declaratorStep_semicolon (hs : s.token.isMark ";" = true) (ds : List Node) :
    declaratorStep g kind word (ds, true) s = (do reportComma word; return some (ds, false)) s := by
  simp [declaratorStep, hs]

theorem declaratorStep_variable (hs : s.token.isMark ";" = false) (ds : List Node) :
    declaratorStep g kind word (ds, true) s =
      (do let d ← declarator g kind false; return some (d :: ds, ← eat ",")) s := by
  simp [declaratorStep, hs]

theorem suffix_of_declaratorStep {read next : List Node × Bool}
    (h : declaratorStep g kind word read s = .ok (some next) t) : read.1 <:+ next.1 := by
  obtain ⟨ds, more⟩ := read
  cases more with
  | false => simp [declaratorStep_stop] at h
  | true =>
    cases hs : s.token.isMark ";" with
    | true =>
      rw [declaratorStep_semicolon hs, bind_eq_ok] at h
      obtain ⟨_, _, _, h⟩ := h
      obtain ⟨rfl, -⟩ : (ds, false) = next ∧ _ := by simpa using h
      exact List.suffix_refl _
    | false =>
      rw [declaratorStep_variable hs, bind_eq_ok] at h
      obtain ⟨d, u, _, h⟩ := h
      rw [bind_eq_ok] at h
      obtain ⟨more, _, _, h⟩ := h
      obtain ⟨rfl, -⟩ : (d :: ds, more) = next ∧ _ := by simpa using h
      exact List.suffix_cons _ _

theorem suffix_of_iterateUpTo {n : Nat} {read last : List Node × Bool}
    (h : iterateUpTo (declaratorStep g kind word) n read s = .ok last t) : read.1 <:+ last.1 := by
  refine @iterateUpTo_keeps _ _ _ _ (fun next _ => read.1 <:+ next.1) ?_ ?_ n _ _ (List.suffix_refl _) h
  · intro next u after v hnext hstep
    exact hnext.trans (suffix_of_declaratorStep hstep)
  · intro next u v hnext _
    exact hnext

theorem iterateUpTo_stop (n : Nat) (ds : List Node) (s : State) :
    iterateUpTo (declaratorStep g kind word) n (ds, false) s = .ok (ds, false) s := by
  cases n with
  | zero => rfl
  | succ n => exact iterateUpTo_eq_ok.mpr (.inl ⟨rfl, declaratorStep_stop ds s⟩)

theorem declaratorStep_variable_eq_ok (hs : s.token.isMark ";" = false) {ds : List Node}
    {next : Option (List Node × Bool)} :
    declaratorStep g kind word (ds, true) s = .ok next t ↔
      ∃ d u, declarator g kind false s = .ok d u ∧ next = some (d :: ds, u.token.isMark ",") ∧
        t = if u.token.isMark "," then u.bumped else u := by
  rw [declaratorStep_variable hs, bind_run]
  cases declarator g kind false s with
  | error e u => simp
  | ok d u =>
    constructor
    · intro h
      refine ⟨d, u, rfl, ?_⟩
      cases hc : u.token.isMark "," <;> simp [hc] at h <;> simp [← h.1, ← h.2]
    · rintro ⟨_, _, ⟨⟩, rfl, rfl⟩
      cases hc : u.token.isMark "," <;> simp [hc]

theorem noMoreVariables_eq_ok {u : State} : noMoreVariables word u = .ok () t ↔ (u.token.isMark "," = false ∧ t = u) ∨
        (u.token.isMark "," = true ∧ u.bumped.token.isMark ";" = true ∧ reportComma word u.bumped = .ok () t) := by
  cases hc : u.token.isMark "," with
  | false =>
    have hrun : noMoreVariables word u = .ok () u := by simp [noMoreVariables, hc]
    rw [hrun]
    constructor
    · rintro ⟨⟩
      exact .inl ⟨rfl, rfl⟩
    · rintro (⟨-, rfl⟩ | ⟨h, -⟩)
      · rfl
      · simp at h
  | true =>
    cases hs : u.bumped.token.isMark ";" with
    | false =>
      obtain ⟨e, v, hv⟩ := @fail_run PUnit .identifierExpected u.bumped
      simp [noMoreVariables, hc, hs, hv]
    | true => simp [noMoreVariables, hc, hs]

variable {n : Nat} {ds : List Node} {d : Node} {u : State} {last : List Node × Bool}

theorem iterateUpTo_semicolon (hs : s.token.isMark ";" = true) :
    iterateUpTo (declaratorStep g kind word) (n + 1) (ds, true) s = .ok last t ↔
      (ds, false) = last ∧ reportComma word s = .ok () t := by
  rw [iterateUpTo_eq_ok, declaratorStep_semicolon hs, bind_run]
  cases reportComma word s with
  | error e u => simp
  | ok _ u => simp [iterateUpTo_stop, and_assoc, and_comm]

theorem iterateUpTo_variable (hs : s.token.isMark ";" = false) :
    iterateUpTo (declaratorStep g kind word) (n + 1) (ds, true) s = .ok last t ↔
      ∃ d u, declarator g kind false s = .ok d u ∧ iterateUpTo (declaratorStep g kind word) n
        (d :: ds, u.token.isMark ",") (if u.token.isMark "," then u.bumped else u) = .ok last t := by
  simp only [iterateUpTo_eq_ok, declaratorStep_variable_eq_ok hs]
  constructor
  · rintro (⟨-, _, _, -, h, -⟩ | ⟨_, _, ⟨d, u, hd, h, rfl⟩, hit⟩)
    · cases h
    · cases h
      exact ⟨d, u, hd, hit⟩
  · rintro ⟨d, u, hd, hit⟩
    exact .inr ⟨_, _, ⟨d, u, hd, rfl, rfl⟩, hit⟩

/-- Behind a variable the list stays as it is exactly if no other one follows. -/
theorem iterateUpTo_single_iff {more : Bool} :
    iterateUpTo (declaratorStep g kind word) (n + 1) ([d], u.token.isMark ",")
        (if u.token.isMark "," then u.bumped else u) = .ok ([d], more) t ↔
      more = false ∧ noMoreVariables word u = .ok () t := by
  rw [noMoreVariables_eq_ok]
  cases hc : u.token.isMark "," with
  | false => simp [iterateUpTo_stop, eq_comm (a := u)]
  | true =>
    cases hsemi : u.bumped.token.isMark ";" with
    | true => simp [iterateUpTo_semicolon hsemi, eq_comm]
    | false =>
      refine iff_of_false (fun h => ?_) (by simp)
      obtain ⟨_, _, -, hit⟩ := (iterateUpTo_variable hsemi).mp h
      have hlength := (suffix_of_iterateUpTo hit).length_le
      simp at hlength

theorem declaratorList_single_iff (hs : s.token.isMark ";" = false) {d : Node} :
    declaratorList g kind false word s = .ok [d] t ↔
      ∃ u, declarator g kind false s = .ok d u ∧ noMoreVariables word u = .ok () t := by
  rw [declaratorList_eq, bind_eq_ok]
  constructor
  · rintro ⟨⟨ds, more⟩, v, hit, hret⟩
    obtain ⟨rfl, rfl⟩ : ds = [d] ∧ v = t := by simpa using hret
    obtain ⟨d', u, hd, hit⟩ := (iterateUpTo_variable hs).mp hit
    obtain ⟨rfl, -⟩ := List.cons.inj ((suffix_of_iterateUpTo hit).eq_of_length rfl)
    exact ⟨u, hd, (iterateUpTo_single_iff.mp hit).2⟩
  · rintro ⟨u, hd, hmore⟩
    refine ⟨([d], false), t, ?_, by simp⟩
    exact (iterateUpTo_variable hs).mpr ⟨d, u, hd, iterateUpTo_single_iff.mpr ⟨rfl, hmore⟩⟩

/-- The name of the variable that a statement declares alone, and its value. -/
def declaredVariable? : Node → Option (String × Option Node)
  | .mk .other _ [.mk (.declarator false false) _ [.mk (.name w) _ []]] => some (w, none)
  | .mk .other _ [.mk (.declarator true false) _ [.mk (.name w) _ [], value]] => some (w, some value)
  | _ => none

theorem variableStatement_eq_ok {n : Node} : variableStatement g s = .ok n t ↔
      ∃ ds u, declarators g false s = .ok ds u ∧ endDeclaration g u = .ok () t ∧
        n = .mk .other ⟨s.token.start, t.lastStop⟩ ds := by
  simp only [variableStatement, bind_eq_ok, position_run, close_run]
  constructor
  · rintro ⟨_, _, ⟨⟩, ds, u, hds, _, _, hend, ⟨⟩⟩
    exact ⟨ds, u, hds, hend, rfl⟩
  · rintro ⟨ds, u, hds, hend, rfl⟩
    exact ⟨_, _, rfl, ds, u, hds, (), t, hend, rfl⟩

theorem declarators_let (h : s.token.kind = .word "let" false) : declarators g false s =
      within Context.takingIn (declaratorList g .ofBlock false s.token.span) s.bumped := by
  simp [declarators, isWord_word h]
  rfl

end Variables

section Variable

variable {g : Grammar} {s t u : State} {w : String} {v : Node}

theorem declaredVariable?_eq_some {n : Node} : declaredVariable? n = some (w, some v) ↔
      ∃ a b c, n = .mk .other a [.mk (.declarator true false) b [.mk (.name w) c [], v]] := by
  constructor
  · intro h
    unfold declaredVariable? at h
    split at h
    · simp at h
    next a b _ c _ =>
      obtain ⟨rfl, rfl⟩ : _ = w ∧ _ = v := by simpa using h
      exact ⟨a, b, c, rfl⟩
    · simp at h
  · rintro ⟨a, b, c, rfl⟩
    rfl

theorem variableStatement_value (hlet : s.token.kind = .word "let" false) (hname : s.bumped.token.Names w)
    (he : s.bumped.bumped.token.isMark "=" = true) :
    (∃ n, variableStatement g s = .ok n t ∧ declaredVariable? n = some (w, some v)) ↔
      ∃ u u', g.assignment (s.bumped.bumped.bumped.inside s.context.takingIn) = .ok v u ∧
        noMoreVariables s.token.span u = .ok () u' ∧ endDeclaration g (u'.inside s.context) = .ok () t := by
  have hsemi : s.bumped.token.isMark ";" = false := isMark_word hname.kind _
  let inside : State := s.bumped.inside s.context.takingIn
  have hdeclarator := @declarator_value inside w hname he g .ofBlock
  simp only [variableStatement_eq_ok, declarators_let hlet, within_eq_ok, declaredVariable?_eq_some]
  constructor
  · rintro ⟨_, ⟨ds, _, ⟨u, hds, rfl⟩, hend, rfl⟩, a, b, c, hn⟩
    obtain ⟨-, rfl⟩ : _ ∧ ds = [_] := by simpa using hn
    obtain ⟨u', hd, hmore⟩ := (@declaratorList_single_iff g .ofBlock s.token.span inside u hsemi _).mp hds
    rw [hdeclarator, bind_eq_ok] at hd
    obtain ⟨v', _, hv', hd⟩ := hd
    obtain ⟨⟨-, -, rfl⟩, rfl⟩ : (_ ∧ _ ∧ v' = v) ∧ _ = u' := by simpa using hd
    exact ⟨_, u, hv', hmore, hend⟩
  · rintro ⟨u, u', hv, hmore, hend⟩
    have hd := hdeclarator.trans (bind_eq_ok.mpr ⟨v, u, hv, rfl⟩)
    have hds := (@declaratorList_single_iff g .ofBlock s.token.span inside u' hsemi _).mpr ⟨u, hd, hmore⟩
    exact ⟨_, ⟨_, _, ⟨u', hds, rfl⟩, hend, rfl⟩, _, _, _, rfl⟩

theorem variableStatement_bare (hlet : s.token.kind = .word "let" false) (hname : s.bumped.token.Names w)
    (he : s.bumped.bumped.token.isMark ";" = true) :
    ∃ n, variableStatement g s = .ok n s.bumped.bumped.bumped ∧ declaredVariable? n = some (w, none) := by
  have hsemi : s.bumped.token.isMark ";" = false := isMark_word hname.kind _
  let inside : State := s.bumped.inside s.context.takingIn
  have hd := @declarator_bare inside w hname he g
  have hmore : noMoreVariables s.token.span inside.bumped = .ok () inside.bumped :=
    noMoreVariables_eq_ok.mpr (.inl ⟨isMark_ne he (by decide), rfl⟩)
  have hds := (@declaratorList_single_iff g .ofBlock s.token.span inside _ hsemi _).mpr ⟨_, hd, hmore⟩
  have hend : endDeclaration g s.bumped.bumped = .ok () s.bumped.bumped.bumped := by
    simp [endDeclaration, eatSemicolon, he]
  have hlist := (@declarators_let g s hlet).trans (within_eq_ok.mpr ⟨_, hds, rfl⟩)
  exact ⟨_, variableStatement_eq_ok.mpr ⟨_, _, hlist, hend, rfl⟩, rfl⟩

end Variable

section Exports

variable {g : Grammar} {s : State}

theorem Token.Names.followsLet (h : s.token.Names w) : s.token.followsLet = true := by
  simp [Token.followsLet, h.kind, h.isReference]

theorem typedExport?_let (h : s.token.kind = .word "let" false) (start : Nat) :
    typedExport? g start [] s = .ok none s := by
  have hattempt : attempt? (wordDeclaration? g s.token.start [] "let" true) s = .ok none s := by
    simp [attempt?, wordDeclaration?]
  simp [typedExport?, isWord_word h, isMark_word h, h, hattempt]

theorem exportDeclaration_let (h : s.token.kind = .word "export" false)
    (hlet : s.bumped.token.kind = .word "let" false) (hn : s.bumped.bumped.token.followsLet = true) :
    exportDeclaration g [] s = (do let n ← variableStatement g; close .other s.token.start [n]) s.bumped := by
  have hend : s.bumped.token.isEnd = false := by simp [Token.isEnd, hlet]
  have hdeclared : exportedDeclaration? g [] s.bumped = (do return some (← variableStatement g)) s.bumped := by
    simp [exportedDeclaration?, isWord_word hlet, hn]
  have hat : s.bumped.token.isMark "@" = false := isMark_word hlet "@"
  cases hv : variableStatement g s.bumped <;> cases htyped : s.typed <;>
    simp [exportDeclaration, expectWord, isWord_word h, hend, htyped, typedExport?_let hlet,
      isWord_word hlet, lateDecorators, hat, hdeclared, hv]

/-- The variable that a statement declares and exports alone. -/
def exportedVariable? : Node → Option (String × Option Node)
  | .mk .other _ [n] => declaredVariable? n
  | _ => none

/-- Nothing is left to read, and there is no issue. -/
def State.Ended (s : State) : Prop := s.token.isEnd = true ∧ s.issues = []

/-- Behind the value of a variable its declaration ends, and the script. -/
def EndsVariable (g : Grammar) (s u : State) : Prop :=
  ∃ v t, noMoreVariables s.token.span u = .ok () v ∧ endDeclaration g (v.inside s.context) = .ok () t ∧ t.Ended

theorem endsVariable_of_semicolon {u : State} (hu : u.token.isMark ";" = true) (he : u.bumped.Ended) :
    EndsVariable g s u :=
  ⟨u, u.bumped.inside s.context, noMoreVariables_eq_ok.mpr (.inl ⟨isMark_ne hu (by decide), rfl⟩),
    by simp [endDeclaration, eatSemicolon, hu], he⟩

theorem exported_iff {r : Option (String × Option Node)} (h : s.token.kind = .word "export" false)
    (hlet : s.bumped.token.kind = .word "let" false) (hname : s.bumped.bumped.token.Names w) :
    (∃ n t, itemRule g s = .ok n t ∧ t.Ended ∧ exportedVariable? n = r) ↔
      ∃ n t, variableStatement g s.bumped = .ok n t ∧ t.Ended ∧ declaredVariable? n = r := by
  rw [itemRule_export h, exportDeclaration_let h hlet hname.followsLet]
  constructor
  · rintro ⟨_, t, hclose, ht, hr⟩
    obtain ⟨n, _, hn, ⟨⟩⟩ := bind_eq_ok.mp hclose
    exact ⟨n, t, hn, ht, hr⟩
  · rintro ⟨n, t, hn, ht, hr⟩
    exact ⟨_, t, bind_eq_ok.mpr ⟨n, t, hn, rfl⟩, ht, hr⟩

section

variable {w : String} (hlet : s.token.kind = .word "let" false) (hname : s.bumped.token.Names w)

include hlet hname

theorem itemRule_variable : itemRule g s = variableStatement g s := by
  rw [itemRule_word hlet (by decide) (by decide), statementFrom_let hlet hname.followsLet]

theorem variable_iff (he : s.bumped.bumped.token.isMark "=" = true) {v : Node} :
    (∃ n t, variableStatement g s = .ok n t ∧ t.Ended ∧ declaredVariable? n = some (w, some v)) ↔
      ∃ u, g.assignment (s.bumped.bumped.bumped.inside s.context.takingIn) = .ok v u ∧ EndsVariable g s u := by
  constructor
  · rintro ⟨n, t, hn, ht, hv⟩
    obtain ⟨u, u', hv, hmore, hend⟩ := (variableStatement_value hlet hname he).mp ⟨n, hn, hv⟩
    exact ⟨u, hv, u', t, hmore, hend, ht⟩
  · rintro ⟨u, hv, u', t, hmore, hend, ht⟩
    obtain ⟨n, hn, hv⟩ := (variableStatement_value hlet hname he).mpr ⟨u, u', hv, hmore, hend⟩
    exact ⟨n, t, hn, ht, hv⟩

end

end Exports

section Functions

variable {g : Grammar} {s t : State} {w : String}

/-- Reads a function declaration behind its first words. -/
def functionFrom (g : Grammar) (start : Nat) (isAsync : Bool) : Read Node := do
  let isGenerator ← eat "*"
  let name ← bindingIdentifier false
  let (parts, _) ← functionRest g isAsync isGenerator
  close .functionDeclaration start (name :: parts)

theorem itemRule_function (h : s.token.kind = .word "function" false) :
    itemRule g s = functionFrom g s.token.start false s.bumped := by
  rw [itemRule_word h (by decide) (by decide)]
  simp [statementFrom, typedStatement?_run h (by decide) (.inr (by decide)), h, declaration,
    functionDeclaration, declaredFunction, isWord_word h, expectWord, functionFrom]

theorem itemRule_async (h : s.token.kind = .word "async" false)
    (hf : s.bumped.token.kind = .word "function" false) (hn : s.bumped.token.newline = false) :
    itemRule g s = functionFrom g s.token.start true s.bumped.bumped := by
  rw [itemRule_word h (by decide) (by decide)]
  simp [statementFrom, typedStatement?_run h (by decide) (.inr (by decide)), h, declaration,
    functionDeclaration, declaredFunction, isWord_word h, isWord_word hf, hn, expectWord, functionFrom]

theorem functionFrom_name (hs : s.token.Names w) (start : Nat) (isAsync : Bool) : functionFrom g start isAsync s = (do
      let (parts, _) ← functionRest g isAsync false
      close .functionDeclaration start (.leaf (.name w) s.token.span :: parts)) s.bumped := by
  simp [functionFrom, isMark_word hs.kind, bindingIdentifier_run hs]

theorem functionFrom_generator (hs : s.token.isMark "*" = true) (h : s.bumped.token.Names w) (start : Nat)
    (isAsync : Bool) :
    functionFrom g start isAsync s = (do
      let (parts, _) ← functionRest g isAsync true
      close .functionDeclaration start (.leaf (.name w) s.bumped.token.span :: parts)) s.bumped.bumped := by
  simp [functionFrom, hs, bindingIdentifier_run h]

/-- The name of the function that a statement declares, and its body. -/
def declaredFunction? : Node → Option (String × Option Node)
  | .mk .functionDeclaration _ (.mk (.name w) _ [] :: parts) => parts.getLast?.map fun body => (w, some body)
  | _ => none

end Functions

end ComponentConverter.Script
