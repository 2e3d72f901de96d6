import ComponentConverter.Proofs.ExpressionResults
import ComponentConverter.Proofs.StatementReading

namespace ComponentConverter.Script

open List Read

variable {n f : Node} {u : State}
variable {place : Span} {c : Context}

theorem Token.isAnyWord_mark {t : Token} {m : String} (h : t.isMark m = true) : t.isAnyWord = false := by
  unfold Token.isMark at h
  unfold Token.isAnyWord
  split <;> simp_all

section Stages

variable {g : Grammar} {s t : State} {w : String} {k : Nat}

/-- What comes behind an expression gives it back as it is, one reader after the other. -/
def Leaves (n : Node) : List (Node → Read Node) → State → State → Prop
  | [], s, t => s = t
  | r :: rs, s, t => ∃ u, r n s = .ok n u ∧ Leaves n rs u t

/-- The readers behind an operand, up to an assignment and on. -/
def operandStages (k start : Nat) (rest : List (Node → Read Node)) : List (Node → Read Node) :=
  counted :: operated (grammar (k + 1)) :: questioned (grammar (k + 1)) start :: rest

theorem bind_eq_ok_of_returns {x : Read Node} {r : Node → Read Node} {Q : Node → Prop}
    (hr : ∀ m, Returns (r m) fun n => n = m ∨ Q n) (hn : ¬ Q n) :
    (x >>= r) s = .ok n t ↔ ∃ u, x s = .ok n u ∧ r n u = .ok n t := by
  rw [bind_eq_ok]
  constructor
  · rintro ⟨m, u, hm, hrest⟩
    obtain rfl := (hr m u n t hrest).resolve_right hn
    exact ⟨u, hm, hrest⟩
  · rintro ⟨u, hm, hrest⟩
    exact ⟨n, u, hm, hrest⟩

theorem counted_returns (n : Node) : Returns (counted n) n.Grown := by
  refine .bind fun _ => .ite (.pure (.refl n)) ?_
  refine .bind fun _ => .bind fun _ => .ite ?_ (.pure (.refl n))
  exact .bind fun _ => .bind fun _ => .close fun _ => .inr rfl

theorem operated_returns (n : Node) : Returns (operated (grammar (k + 1)) n) n.Grown := by
  refine .ite (.pure (.refl n)) ?_
  intro s m t h
  exact (operatorsRule_returns s m t h).imp_right isCompound_of_isOperation

theorem questioned_returns (start : Nat) (n : Node) : Returns (questioned g start n) n.Grown := by
  refine .ite (.pure (.refl n)) (.bind fun _ => .ite ?_ (.pure (.refl n)))
  exact .bind fun _ => .bind fun _ => .bind fun _ => .pure (.inr rfl)

theorem assigned_returns (start : Nat) (n : Node) : Returns (assigned g start n) n.Grown := by
  have hrest : Returns (assignmentRest g start n) n.Grown := by
    refine .bind fun _ => .ite ?_ (.pure (.refl n))
    repeat' first
      | with_reducible refine .ite ?_ ?_
      | with_reducible refine .bind fun _ => ?_
      | exact .close fun _ => .inr rfl
  unfold assigned
  split
  case h_6 => exact hrest
  all_goals exact .pure (.refl n)

theorem operatorExpression_eq_ok (hn : n.isCompound = false) : operatorExpression (grammar (k + 1)) s = .ok n t ↔
      ∃ u, (grammar (k + 1)).unary s = .ok n u ∧ operated (grammar (k + 1)) n u = .ok n t := by
  -- An operand that cannot be read is left out, and is no name.
  have hinvalid (issue : Issue) : Returns (do
      let t ← token
      if (operatorAhead t (← context).withIn).isSome then
        report .expressionExpected t.span
        return Node.leaf .invalid issue.span
      else throw issue) (·.isCompound = true) := by
    refine .bind fun _ => .bind fun _ => .ite ?_ ?_
    · exact .bind fun _ => .pure rfl
    · intro _ _ _ h
      cases h
  refine (bind_eq_ok_of_returns (Q := (·.isCompound = true)) operated_returns (by simp [hn])).trans ?_
  refine exists_congr fun u => and_congr_left fun _ => ?_
  rw [recover_run]
  cases (grammar (k + 1)).unary s with
  | ok m v => rfl
  | error issue v =>
    refine iff_of_false (fun h => ?_) (by simp)
    exact absurd (hinvalid issue v n u h) (by simp [hn])

theorem conditionalExpression_eq_ok (h : s.token.Names w) (hn : n.isCompound = false) :
    conditionalExpression (grammar (k + 1)) s = .ok n t ↔
      ∃ u, leftHandRule (grammar k) s = .ok n u ∧ Leaves n (operandStages k s.token.start []) u t := by
  have hgrown : ¬ n.isCompound = true := by simp [hn]
  have hunary {u : State} : (grammar (k + 1)).unary s = .ok n u ↔
      ∃ v, leftHandRule (grammar k) s = .ok n v ∧ counted n v = .ok n u := by
    change unaryRule (grammar k) s = _ ↔ _
    rw [unaryRule_name h]
    exact bind_eq_ok_of_returns (Q := (·.isCompound = true)) counted_returns hgrown
  have hall : conditionalExpression (grammar (k + 1)) s =
      (operatorExpression (grammar (k + 1)) >>= questioned (grammar (k + 1)) s.token.start) s := rfl
  rw [hall, bind_eq_ok_of_returns (Q := (·.isCompound = true)) (questioned_returns _) hgrown]
  simp only [operatorExpression_eq_ok hn, hunary]
  constructor
  · rintro ⟨u₃, ⟨u₂, ⟨u₁, hleft, hcounted⟩, hoperated⟩, hquestioned⟩
    exact ⟨u₁, hleft, u₂, hcounted, u₃, hoperated, t, hquestioned, rfl⟩
  · rintro ⟨u₁, hleft, u₂, hcounted, u₃, hoperated, _, hquestioned, rfl⟩
    exact ⟨u₃, ⟨u₂, ⟨u₁, hleft, hcounted⟩, hoperated⟩, hquestioned⟩

theorem leaves_operandStages (hs : s.token.endsOperand = true) (hl : isLogical n = false) (start : Nat) :
    Leaves n (operandStages k start []) s s :=
  ⟨s, counted_run hs n, s, operated_run hs hl, s, questioned_run hs start n, rfl⟩

theorem assignmentRest_end {m : String} (h : s.token.isMark m = true) (hm : m ∉ assignmentMarks) (g : Grammar)
    (start : Nat) (n : Node) : assignmentRest g start n s = .ok n s := by
  have hassign : assignmentMarks.any s.token.isMark = false := by
    rw [any_eq_false]
    intro m' hm'
    rw [Token.isMark_ne h (by rintro rfl; exact hm hm')]
    exact Bool.false_ne_true
  simp [assignmentRest, hassign]

theorem assignmentRest_value (h : s.token.isMark "=" = true) (hw : w ∉ unbindableWords) (g : Grammar)
    (start : Nat) (place : Span) :
    assignmentRest g start (.leaf (.name w) place) s = (do
      let v ← g.assignment
      close (.assignment true) start [.leaf (.name w) place, v]) s.bumped := by
  have hassign : assignmentMarks.any s.token.isMark = true := any_eq_true.mpr ⟨"=", by decide, h⟩
  have heval := isEvalName_of_bindable hw
  have hpattern : asPattern .target (.leaf (.name w) place) s = .ok (.leaf (.name w) place) s := by
    cases htyped : s.typed <;>
      simp [Node.leaf, asPattern, leafAsPattern, checkTarget, isSimpleTarget, Node.form, heval]
  have htarget : canBeTarget (.leaf (.name w) place) = true := rfl
  simp [assignmentRest, hassign, h, hpattern, htarget]

theorem conditionalExpression_name (h : s.token.Names w) (hn : s.bumped.token.endsOperand = true) :
    conditionalExpression (grammar (k + 1)) s = .ok (.leaf (.name w) s.token.span) s.bumped :=
  (conditionalExpression_eq_ok h rfl).mpr ⟨s.bumped, leftHandRule_run h hn, leaves_operandStages hn rfl _⟩

theorem assignmentRule_operand (h : s.token.Names w) (hn : s.bumped.token.endsOperand = true) :
    assignmentRule (grammar (k + 1)) s =
      assignmentRest (grammar (k + 1)) s.token.start (.leaf (.name w) s.token.span) (s.bumped.arrowFrom s.token.start) := by
  rw [assignmentRule_name h, bind_run, @conditionalExpression_name (s.arrowFrom s.token.start) w k h hn]
  rfl

end Stages

section Expressions

variable {s t : State} {w : String} {k : Nat}

theorem statementFrom_name (h : s.token.Names w)
    (hn : s.bumped.token.isAnyWord = false) {declares : Bool} (hu : w = "using" → declares = false)
    (g : Grammar) (start : Nat) (decorated : List Node) :
    statementFrom g declares start decorated s = expressionStatement g decorated s := by
  have hconst : w ≠ "const" := h.ne (by decide)
  have hfunction : s.bumped.token.isWord "function" = false := by
    unfold Token.isAnyWord at hn
    unfold Token.isWord
    split at hn <;> simp_all
  simp only [statementFrom, bind_run, typedStatement?_run h.kind hconst (.inl hn), token_run, peek_run, h.kind]
  -- The words that start a statement of their own are no names, two apart.
  split
  case h_4 => simp [hu rfl]
  case h_22 => simp [hfunction]
  case h_23 => rfl
  all_goals exact absurd (by decide) h.bindable

theorem expressionStatement_other {g : Grammar}
    (hn : g.expression (s.inside s.context.takingIn) = .ok n u) (hf : ∀ label, n.form ≠ .name label)
    (decorated : List Node) :
    expressionStatement g decorated s = endExpression g s.token.start n (u.inside s.context) := by
  simp only [expressionStatement, bind_run, position_run, allowingIn_run, hn]

theorem endExpression_semicolon (h : s.token.isMark ";" = true) (g : Grammar) (start : Nat) (n : Node) :
    endExpression g start n s = .ok (.mk .expressionStatement ⟨start, s.token.stop⟩ [n]) s.bumped := by
  simp [endExpression, eatSemicolon, h]

/-- The statement of an expression ends behind it, and the script. -/
def EndsExpression (g : Grammar) (s : State) (n : Node) (u : State) : Prop :=
  ∃ place t, endExpression g s.token.start n (u.inside s.context) = .ok (.mk .expressionStatement place [n]) t ∧ t.Ended

theorem endsExpression_of_semicolon {g : Grammar} (hu : u.token.isMark ";" = true) (he : u.bumped.Ended) :
    EndsExpression g s n u :=
  ⟨_, _, @endExpression_semicolon (u.inside s.context) hu g s.token.start n, he⟩

/-- Where no name comes first, a statement is made of an expression exactly if that is read and the
statement ends behind it. -/
theorem expressionStatement_iff (hx : ∀ m u, (grammar (k + 1)).expression (s.inside s.context.takingIn) = .ok m u →
      m.isName = false) (hn : n.isOperation = false) :
    (∃ place t, expressionStatement (grammar (k + 1)) [] s = .ok (.mk .expressionStatement place [n]) t ∧ t.Ended) ↔
      ∃ u, (grammar (k + 1)).expression (s.inside s.context.takingIn) = .ok n u ∧
        EndsExpression (grammar (k + 1)) s n u := by
  constructor
  · rintro ⟨place, t, hs, ht⟩
    cases hm : (grammar (k + 1)).expression (s.inside s.context.takingIn) with
    | error e u => simp [expressionStatement, hm] at hs
    | ok m u =>
      rw [expressionStatement_other hm (m.form_ne_of_isName (hx m u hm))] at hs
      obtain ⟨_, l, hl, hml⟩ := endExpression_returns _ _ _ hs
      obtain ⟨-, rfl⟩ : place = _ ∧ n = l := by simpa using hl
      rcases hml with rfl | hoperation
      · exact ⟨u, rfl, place, t, hs, ht⟩
      · simp [hn] at hoperation
  · rintro ⟨u, hu, place, t, hend, ht⟩
    rw [expressionStatement_other hu (n.form_ne_of_isName (hx n u hu))]
    exact ⟨place, t, hend, ht⟩

theorem expressionStatement_label (h : s.token.Names w) (hn : s.bumped.token.isMark ":" = true) :
    expressionStatement (grammar (k + 3)) [] s = labelled (grammar (k + 3)) w (.leaf (.name w) s.token.span)
        (s.bumped.bumped.arrowFrom s.token.start) := by
  have hend : s.bumped.token.endsOperand = true := by simp [Token.endsOperand, endMarks, hn]
  have hname (c : Context) : (grammar (k + 3)).expression (s.inside c) =
      .ok (.leaf (.name w) s.token.span) ((s.bumped.inside c).arrowFrom s.token.start) := by
    have hfirst : (grammar (k + 2)).assignment (s.inside c) = _ := (@assignmentRule_operand (s.inside c) w k h hend).trans
      (@assignmentRest_end ((s.inside c).bumped.arrowFrom s.token.start) ":" hn (by decide) _ _ _)
    change expressionRule (grammar (k + 2)) (s.inside c) = _
    simp [expressionRule, sequel, hfirst, Token.isMark_ne hn]
  simp [expressionStatement, hname, Node.leaf, Node.form, hn]

theorem labelled_eq_ok {g : Grammar} {label : String} {name n : Node} (hl : s.labels = [])
    (hf : s.token.isWord "function" = false) :
    labelled g label name s = .ok n t ↔
      ∃ body u, g.statement ((s.inside { s.context with breakAllowed := true }).under [label]) = .ok body u ∧
        n = .mk .other ⟨name.start, u.lastStop⟩ [name, body] ∧
        t = (u.inside s.context).under (u.labels.erase label) := by
  have hunder : { s with labels := [label] } = s.under [label] := rfl
  cases hr : g.statement ((s.inside { s.context with breakAllowed := true }).under [label]) with
  | error e u => simp [labelled, hl, hunder, hf, hr]
  | ok body u =>
    have hrun : labelled g label name s =
        .ok (.mk .other ⟨name.start, u.lastStop⟩ [name, body]) ((u.inside s.context).under (u.labels.erase label)) := by
      simp [labelled, hl, hunder, hf, hr]
      rfl
    rw [hrun]
    constructor
    · rintro ⟨⟩
      exact ⟨body, u, rfl, rfl, rfl⟩
    · rintro ⟨_, _, ⟨⟩, rfl, rfl⟩
      rfl

def State.atValue (s : State) : State := (s.bumped.bumped.inside s.context.takingIn).arrowFrom s.token.start

/-- The assignment of a value to the name that comes next. -/
def State.assigning (s : State) (w : String) (v : Node) (u : State) : Node :=
  .mk (.assignment true) ⟨s.token.start, u.lastStop⟩ [.leaf (.name w) s.token.span, v]

section Assignments

variable (h : s.token.Names w) (he : s.bumped.token.isMark "=" = true)

include h he

theorem assignmentRule_value (c : Context) : assignmentRule (grammar (k + 1)) (s.inside c) = (do
      let v ← (grammar (k + 1)).assignment
      close (.assignment true) s.token.start [.leaf (.name w) s.token.span, v])
      ((s.bumped.bumped.inside c).arrowFrom s.token.start) := by
  have hend : s.bumped.token.endsOperand = true := by simp [Token.endsOperand, endMarks, he]
  rw [@assignmentRule_operand (s.inside c) w k h hend]
  exact @assignmentRest_value ((s.inside c).bumped.arrowFrom s.token.start) w he h.bindable _ _ _

theorem expression_assignment : (grammar (k + 3)).expression (s.inside s.context.takingIn) = .ok n t ↔
      ∃ v u, (grammar (k + 1)).assignment s.atValue = .ok v u ∧
        sequel (grammar (k + 2)) (s.assigning w v u) u = .ok n t := by
  have hall : (grammar (k + 3)).expression (s.inside s.context.takingIn) =
      (assignmentRule (grammar (k + 1)) >>= sequel (grammar (k + 2))) (s.inside s.context.takingIn) := rfl
  rw [hall, bind_run, assignmentRule_value h he, bind_run, ← State.atValue]
  cases hv : (grammar (k + 1)).assignment s.atValue with
  | error e u => simp
  | ok v u =>
    constructor
    · exact fun hn => ⟨v, u, rfl, hn⟩
    · rintro ⟨_, _, ⟨⟩, hn⟩
      exact hn

theorem assignmentStatement_iff {a : Span} {x v : Node} : (∃ place t, expressionStatement (grammar (k + 3)) [] s =
        .ok (.mk .expressionStatement place [.mk (.assignment true) a [x, v]]) t ∧ t.Ended) ↔
      ∃ u, (grammar (k + 1)).assignment s.atValue = .ok v u ∧ .mk (.assignment true) a [x, v] = s.assigning w v u ∧
        ∃ u', Leaves (s.assigning w v u) [sequel (grammar (k + 2))] u u' ∧
          EndsExpression (grammar (k + 3)) s (s.assigning w v u) u' := by
  have hx (m : Node) (u : State) (hm : (grammar (k + 3)).expression (s.inside s.context.takingIn) = .ok m u) :
      m.isName = false := by
    obtain ⟨v, u', -, hm⟩ := (expression_assignment h he).mp hm
    rcases sequel_returns _ _ _ _ hm with rfl | hm
    · rfl
    · simp [Node.isName, hm]
  refine (expressionStatement_iff hx rfl).trans ?_
  simp only [expression_assignment h he]
  constructor
  · rintro ⟨u', ⟨v', u, hv, hn⟩, hend⟩
    rcases sequel_returns _ _ _ _ hn with hsame | hsequence
    · obtain ⟨-, -, rfl⟩ : _ ∧ _ ∧ v = v' := by simpa [State.assigning] using hsame
      rw [hsame] at hn hend
      exact ⟨u, hv, hsame, u', ⟨u', hn, rfl⟩, hend⟩
    · cases hsequence
  · rintro ⟨u, hv, hsame, _, ⟨u', hn, rfl⟩, hend⟩
    rw [hsame]
    exact ⟨u', ⟨v, u, hv, hn⟩, hend⟩

end Assignments

end Expressions

section Reactive

variable {s t : State} {w : String} {k : Nat} {v : Node}

theorem statementRule_name (h : s.token.Names w) (hn : s.bumped.token.isAnyWord = false) (g : Grammar) :
    statementRule g false s = expressionStatement g [] s := by
  have himport := h.isWord (by decide : "import" ∈ unbindableWords)
  have hexport := h.isWord (by decide : "export" ∈ unbindableWords)
  simp [statementRule, decorators_run (Token.isMark_word h.kind _), himport, hexport,
    statementFrom_name h hn (fun _ => rfl)]

/-- The name that a statement assigns to whenever its value changes, and that value. -/
def reactiveAssignment? : Node → Option (String × Option Node)
  | .mk .other _ [.mk (.name "$") _ [],
      .mk .expressionStatement _ [.mk (.assignment true) _ [.mk (.name w) _ [], value]]] => some (w, some value)
  | _ => none

theorem reactiveAssignment?_eq_some : reactiveAssignment? n = some (w, some v) ↔
      ∃ a b c d e, n = .mk .other a [.mk (.name "$") b [],
        .mk .expressionStatement c [.mk (.assignment true) d [.mk (.name w) e [], v]]] := by
  constructor
  · intro h
    unfold reactiveAssignment? at h
    split at h
    next a b c d _ e _ =>
      obtain ⟨rfl, rfl⟩ : _ = w ∧ _ = v := by simpa using h
      exact ⟨a, b, c, d, e, rfl⟩
    · simp at h
  · rintro ⟨a, b, c, d, e, rfl⟩
    rfl

/-- The reader behind a label. -/
def State.atBody (s : State) : State :=
  ((s.bumped.bumped.inside { s.context with breakAllowed := true }).under ["$"]).arrowFrom s.token.start

/-- Behind a value that is assigned to a name the statement ends, and the script. -/
def EndsAssignment (k : Nat) (s : State) (w : String) (v : Node) (u : State) : Prop :=
  ∃ u', Leaves (s.assigning w v u) [sequel (grammar (k + 1))] u u' ∧
    EndsExpression (grammar (k + 2)) s (s.assigning w v u) u'

theorem endsAssignment_of_semicolon (hu : u.token.isMark ";" = true) (he : u.bumped.Ended) :
    EndsAssignment k s w v u :=
  ⟨u, ⟨u, by simp [sequel, Token.isMark_ne hu], rfl⟩, endsExpression_of_semicolon hu he⟩

section

variable (hs : s.token.kind = .word "$" false) (hl : s.labels = []) (hc : s.bumped.token.isMark ":" = true)
  (h : s.bumped.bumped.token.Names w) (he : s.bumped.bumped.bumped.token.isMark "=" = true)

include hs hl hc h he

theorem itemRule_reactive :
    itemRule (grammar (k + 4)) s = .ok n t ↔ ∃ body u, expressionStatement (grammar (k + 3)) [] s.atBody = .ok body u ∧
        n = .mk .other ⟨s.token.start, u.lastStop⟩ [.leaf (.name "$") s.token.span, body] ∧
        t = (u.inside s.context).under (u.labels.erase "$") := by
  have hlabel : s.token.Names "$" := ⟨hs, by decide⟩
  have hcolon : s.bumped.token.isAnyWord = false := Token.isAnyWord_mark hc
  have heq : s.bumped.bumped.bumped.token.isAnyWord = false := Token.isAnyWord_mark he
  have hfunction : s.bumped.bumped.token.isWord "function" = false := h.isWord (by decide)
  rw [itemRule_word hs (by decide) (by decide), statementFrom_name hlabel hcolon (by decide),
    expressionStatement_label hlabel hc,
    @labelled_eq_ok (s.bumped.bumped.arrowFrom s.token.start) t _ _ _ _ hl hfunction]
  have hbody := @statementRule_name s.atBody w h heq (grammar (k + 3))
  rw [← hbody]
  rfl

theorem reactive_iff :
    (∃ n t, itemRule (grammar (k + 4)) s = .ok n t ∧ t.Ended ∧ reactiveAssignment? n = some (w, some v)) ↔
      ∃ u, (grammar (k + 1)).assignment s.atBody.atValue = .ok v u ∧ EndsAssignment (k + 1) s.atBody w v u := by
  have hbody {a : Span} {x : Node} := @assignmentStatement_iff s.atBody w k h he a x v
  constructor
  · rintro ⟨n, t, hn, ht, hr⟩
    obtain ⟨body, u, hu, rfl, rfl⟩ := (itemRule_reactive hs hl hc h he).mp hn
    obtain ⟨_, _, c, d, e, hform⟩ := reactiveAssignment?_eq_some.mp hr
    obtain ⟨-, -, rfl⟩ : _ ∧ _ ∧ body = _ := by simpa using hform
    obtain ⟨u', hv, -, hend⟩ := hbody.mp ⟨c, u, hu, ht⟩
    exact ⟨u', hv, hend⟩
  · rintro ⟨u, hv, hend⟩
    obtain ⟨_, t, hbody, ht⟩ := hbody.mpr ⟨u, hv, rfl, hend⟩
    exact ⟨_, _, (itemRule_reactive hs hl hc h he).mpr ⟨_, t, hbody, rfl, rfl⟩, ht, rfl⟩

end

end Reactive

section Calls

variable {g : Grammar} {s t : State} {w : String} {k : Nat}

/-- The call of the name that comes next. -/
def State.calling (s : State) (w : String) (list : List Node) (u : State) : Node :=
  .mk .call ⟨s.token.start, u.lastStop⟩ (.leaf (.name w) s.token.span :: list)

/-- The readers behind a call that comes first in a statement. -/
def callStages (k start : Nat) : List (Node → Read Node) :=
  subscripts (grammar k) true :: operandStages k start [assigned (grammar (k + 1)) start, sequel (grammar (k + 2))]

section

variable (h : s.token.Names w) (ha : w ≠ "async") (hn : s.bumped.token.isMark "(" = true)

include h ha hn

theorem leftHandRule_call : leftHandRule g s = (do
      let list ← callArguments g false
      let call ← close .call s.token.start (.leaf (.name w) s.token.span :: list)
      subscripts g true call) s.bumped := by
  have hsuper := h.isWord (by decide : "super" ∈ unbindableWords)
  have himport := h.isWord (by decide : "import" ∈ unbindableWords)
  have hends : s.bumped.token.endsAccess false = true := by simp [Token.endsAccess, hn]
  have hcallee := @calleeRule_run g s w h hends (fun hasync => absurd hasync ha)
  have hless : s.bumped.token.isMark "<" = false := Token.isMark_ne hn (by decide)
  have hlesser : s.bumped.token.isMark "<<" = false := Token.isMark_ne hn (by decide)
  simp [leftHandRule, hsuper, himport, hcallee, hless, hlesser, hn, inChain, callForm, chained, Node.leaf,
    Node.form, Node.isArrow]

theorem leftHandRule_eq_ok (hc : n.isCompound = false) : leftHandRule g s = .ok n t ↔
      ∃ list u, callArguments g false s.bumped = .ok list u ∧ n = s.calling w list u ∧
        subscripts g true n u = .ok n t := by
  rw [leftHandRule_call h ha hn]
  constructor
  · intro hr
    obtain ⟨list, u, hlist, hr⟩ := bind_eq_ok.mp hr
    rcases subscripts_returns rfl true _ _ _ hr with rfl | hcompound
    · exact ⟨list, u, hlist, rfl, hr⟩
    · simp [hc] at hcompound
  · rintro ⟨list, u, hlist, rfl, hr⟩
    exact bind_eq_ok.mpr ⟨list, u, hlist, hr⟩

theorem expression_call (hc : n.isCompound = false) : (grammar (k + 3)).expression s = .ok n t ↔
      ∃ list u, callArguments (grammar k) false (s.bumped.arrowFrom s.token.start) = .ok list u ∧
        n = s.calling w list u ∧ Leaves n (callStages k s.token.start) u t := by
  have hgrown : ¬ n.isCompound = true := by simp [hc]
  have hsequel (m : Node) : Returns (sequel (grammar (k + 2)) m) m.Grown := by
    rintro s ⟨form, place, parts⟩ t h
    refine (sequel_returns m s _ t h).imp_right ?_
    rintro ⟨⟩
    rfl
  have hall : (grammar (k + 3)).expression s =
      (assignmentRule (grammar (k + 1)) >>= sequel (grammar (k + 2))) s := rfl
  rw [hall, bind_eq_ok_of_returns (Q := (·.isCompound = true)) hsequel hgrown]
  simp only [assignmentRule_name h, bind_eq_ok_of_returns (Q := (·.isCompound = true)) (assigned_returns _) hgrown,
    @conditionalExpression_eq_ok n (s.arrowFrom s.token.start) _ w k h hc,
    @leftHandRule_eq_ok n (grammar k) (s.arrowFrom s.token.start) _ w h ha hn hc]
  constructor
  · rintro ⟨u₅, ⟨_, ⟨u₁, ⟨list, u, hlist, rfl, hsubscripts⟩, u₂, hcounted, u₃, hoperated, u₄, hquestioned, rfl⟩, hassigned⟩,
      hrest⟩
    exact ⟨list, u, hlist, rfl, u₁, hsubscripts, u₂, hcounted, u₃, hoperated, _, hquestioned, u₅, hassigned, t, hrest, rfl⟩
  · rintro ⟨list, u, hlist, rfl, u₁, hsubscripts, u₂, hcounted, u₃, hoperated, u₄, hquestioned, u₅, hassigned, _, hrest, rfl⟩
    exact ⟨u₅, ⟨u₄, ⟨u₁, ⟨list, u, hlist, rfl, hsubscripts⟩, u₂, hcounted, u₃, hoperated, u₄, hquestioned, rfl⟩, hassigned⟩,
      hrest⟩

theorem callStatement_iff {a b : Span} {list : List Node} : (∃ place t, expressionStatement (grammar (k + 3)) [] s =
        .ok (.mk .expressionStatement place [.mk .call a (.mk (.name w) b [] :: list)]) t ∧ t.Ended) ↔
      ∃ u, callArguments (grammar k) false ((s.bumped.inside s.context.takingIn).arrowFrom s.token.start) = .ok list u ∧
        .mk .call a (.mk (.name w) b [] :: list) = s.calling w list u ∧
        ∃ u', Leaves (s.calling w list u) (callStages k s.token.start) u u' ∧
          EndsExpression (grammar (k + 3)) s (s.calling w list u) u' := by
  have hcall {m : Node} {v : State} (hc : m.isCompound = false) :=
    @expression_call m (s.inside s.context.takingIn) v w k h ha hn hc
  have hx (m : Node) (u : State) (hm : (grammar (k + 3)).expression (s.inside s.context.takingIn) = .ok m u) :
      m.isName = false := by
    cases hc : m.isCompound with
    | true => exact m.isName_of_isCompound hc
    | false =>
      obtain ⟨list, u, -, rfl, -⟩ := (hcall hc).mp hm
      rfl
  refine (expressionStatement_iff hx rfl).trans ?_
  refine (exists_congr fun u' => and_congr_left fun _ => hcall rfl).trans ?_
  constructor
  · rintro ⟨u', ⟨list', u, hlist, hsame, hleaves⟩, hend⟩
    obtain ⟨-, -, rfl⟩ : _ ∧ _ ∧ list = list' := by simpa [State.calling] using hsame
    rw [hsame] at hleaves hend
    exact ⟨u, hlist, hsame, u', hleaves, hend⟩
  · rintro ⟨u, hlist, hsame, u', hleaves, hend⟩
    rw [hsame]
    exact ⟨u', ⟨list, u, hlist, rfl, hleaves⟩, hend⟩

end

theorem leaves_callStages {list : List Node} (hs : t.token.isMark ";" = true) :
    Leaves (s.calling w list u) (callStages k s.token.start) t t := by
  have hends : t.token.endsOperand = true := by simp [Token.endsOperand, endMarks, hs]
  refine ⟨t, subscripts_run (Token.endsAccess_of_endsOperand hends true) (by simp [State.calling, Node.form])
    (by simp [State.calling, Node.form]), t, counted_run hends _, t, operated_run hends rfl, t, questioned_run hends _ _, t,
    assignmentRest_end hs (by decide) _ _ _, t, ?_, rfl⟩
  simp [sequel, Token.isMark_ne hs]

def Context.ofArgument (c : Context) : Context := { c with beforeColon := false }

/-- Behind an argument no other one follows. -/
def EndsArguments (u v : State) : Prop :=
  (u.token.isMark ")" = true ∧ v = u.bumped) ∨ (u.token.isMark ")" = false ∧ u.token.isMark "," = true ∧
    u.bumped.token.isMark ")" = true ∧ v = u.bumped.bumped)

theorem expect_eq_ok {m : String} : expect m s = .ok () t ↔ s.token.isMark m = true ∧ t = s.bumped := by
  cases h : s.token.isMark m with
  | true => simp [expect, h, eq_comm]
  | false =>
    obtain ⟨e, u, hu⟩ := @fail_run PUnit (.tokenExpected m s.token.describe) s
    simp [expect, h, hu]

/-- A single argument is read exactly if it is one and no other one follows. -/
theorem callArguments_single_iff (hs : s.token.isMark "(" = true) :
    callArguments g false s = .ok [f] t ↔ s.bumped.token.isMark ")" = false ∧
      ∃ u v, argument g (s.bumped.inside s.context.ofArgument.takingIn) = .ok f u ∧ EndsArguments u v ∧
        t = v.inside s.context := by
  constructor
  · intro hr
    obtain ⟨_, _, ⟨⟩, hr⟩ := bind_eq_ok.mp hr
    obtain ⟨_, u, hopen, hr⟩ := bind_eq_ok.mp hr
    obtain rfl : s.bumped = u := by simpa [expect, hs] using hopen
    obtain ⟨_, _, ⟨⟩, hr⟩ := bind_eq_ok.mp hr
    obtain ⟨items, v, hitems, hr⟩ := bind_eq_ok.mp hr
    obtain ⟨_, x, hclose, hr⟩ := bind_eq_ok.mp hr
    cases hr
    obtain ⟨v, hmany, rfl⟩ := (@within_eq_ok _ _ _ Context.ofArgument _ _).mp hitems
    obtain ⟨y, hfirst, hlast⟩ := many_single_iff.mp hmany
    obtain ⟨hclosed, rfl⟩ := expect_eq_ok.mp hclose
    obtain rfl : y = v := by
      obtain ⟨_, _, ⟨⟩, hlast⟩ := bind_eq_ok.mp hlast
      split at hlast
      · cases hlast
        rfl
      · refine absurd rfl ((?_ : Returns _ (· ≠ none)) _ _ _ hlast)
        repeat' first
          | with_reducible refine .ite ?_ ?_
          | with_reducible refine .bind fun _ => ?_
          | exact .pure (by simp)
    obtain ⟨_, _, ⟨⟩, hfirst⟩ := bind_eq_ok.mp hfirst
    split at hfirst
    · cases hfirst
    next hopen =>
    refine ⟨by simpa using hopen, ?_⟩
    obtain ⟨f', z, hf, hrest⟩ := bind_eq_ok.mp hfirst
    obtain ⟨u, hread, rfl⟩ := (@within_eq_ok _ _ _ Context.takingIn _ _).mp hf
    obtain ⟨_, _, ⟨⟩, hrest⟩ := bind_eq_ok.mp hrest
    split at hrest
    next hu =>
      cases hrest
      exact ⟨u, u.bumped, hread, .inl ⟨hu, rfl⟩, rfl⟩
    next hu =>
      obtain ⟨_, _, hcomma, hrest⟩ := bind_eq_ok.mp hrest
      obtain ⟨hmark, rfl⟩ := expect_eq_ok.mp hcomma
      obtain ⟨rfl, rfl⟩ : f' = f ∧ _ = y := by simpa using hrest
      exact ⟨u, u.bumped.bumped, hread, .inr ⟨by simpa using hu, hmark, hclosed, rfl⟩, rfl⟩
  · rintro ⟨hn, u, v, hf, hend, rfl⟩
    refine bind_eq_ok.mpr ⟨_, _, rfl, bind_eq_ok.mpr ⟨(), s.bumped, by simp [expect, hs], ?_⟩⟩
    rcases hend with ⟨hu, rfl⟩ | ⟨hu, hcomma, hclosed, rfl⟩
    · refine bind_eq_ok.mpr ⟨_, _, rfl, bind_eq_ok.mpr ⟨[f], u.inside s.context, ?_, by simp [expect, hu]⟩⟩
      refine (@within_eq_ok _ _ _ Context.ofArgument _ _).mpr ⟨u.inside s.context.ofArgument, many_single_iff.mpr ?_, rfl⟩
      refine ⟨u.inside s.context.ofArgument, ?_, by simp [hu]⟩
      simp [hn, hf, hu]
    · refine bind_eq_ok.mpr ⟨_, _, rfl, bind_eq_ok.mpr ⟨[f], u.bumped.inside s.context, ?_, by simp [expect, hclosed]⟩⟩
      refine (@within_eq_ok _ _ _ Context.ofArgument _ _).mpr
        ⟨u.bumped.inside s.context.ofArgument, many_single_iff.mpr ?_, rfl⟩
      refine ⟨u.bumped.inside s.context.ofArgument, ?_, by simp [hclosed]⟩
      simp [hn, hf, hu, expect, hcomma]

theorem fail_mark {α : Type} (h : s.token.kind = .mark) (cause : Cause) :
    (fail cause : Read α) s = .error ⟨cause, s.token.span⟩ s := by
  simp [fail, failAt, takeBroken?, h]
  rfl

/-- The marks that stand where an argument can start and that start no expression. -/
def argumentMarks : List String := [")", "..."]

theorem unaryRule_refuses (h : s.token.kind = .mark) (hm : s.token.lexeme ∈ argumentMarks) :
    unaryRule g s = .error ⟨.expressionExpected, s.token.span⟩ s := by
  have hword := Token.isWord_mark h
  have hprimary : primary g s = .error ⟨.expressionExpected, s.token.span⟩ s := by
    refine Eq.trans ?_ (fail_mark h .expressionExpected)
    simp only [argumentMarks, mem_cons, not_mem_nil, or_false] at hm
    rcases hm with hm | hm <;> simp [primary, h, hm]
  simp only [argumentMarks, mem_cons, not_mem_nil, or_false] at hm
  rcases hm with hm | hm <;>
    simp [unaryRule, leftHandRule, calleeRule, hprimary, hword, Token.isMark_mark h, hm]

theorem operatorExpression_refuses (h : s.token.kind = .mark) (hm : s.token.lexeme ∈ argumentMarks) :
    operatorExpression (grammar (k + 1)) s = .error ⟨.expressionExpected, s.token.span⟩ s := by
  have hunary : (grammar (k + 1)).unary s = _ := unaryRule_refuses h hm
  have hword := Token.isWord_mark h
  have hnone : precedence s.token.lexeme = none := by
    simp only [argumentMarks, mem_cons, not_mem_nil, or_false] at hm
    rcases hm with hm | hm <;> rw [hm] <;> rfl
  have hoperator : operatorAhead s.token s.context.withIn = none := by
    simp [operatorAhead, hnone, hword]
  simp [operatorExpression, hunary, hoperator]
  rfl

theorem assignmentRule_refuses (h : s.token.kind = .mark) (hm : s.token.lexeme ∈ argumentMarks) :
    ∃ e t, assignmentRule (grammar (k + 1)) s = .error e t := by
  have hword := Token.isWord_mark h
  have hless : s.token.isMark "<" = false := by
    rw [Token.isMark_mark h, beq_eq_false_iff_ne]
    rintro hless
    exact absurd (hless ▸ hm) (by decide)
  cases hr : assignmentRule (grammar (k + 1)) s with
  | error e t => exact ⟨e, t, rfl⟩
  | ok n t =>
    simp [assignmentRule, hword, hless, refuseBroken, takeBroken?, h, conditionalExpression, operatorExpression_refuses, hm] at hr

theorem isMark_of_assignment (hf : (grammar (k + 2)).assignment s = .ok f u) {m : String}
    (hm : m ∈ argumentMarks) : s.token.isMark m = false := by
  rw [Bool.eq_false_iff]
  intro hs
  obtain ⟨hmark, hlexeme⟩ : s.token.kind = .mark ∧ s.token.lexeme = m := by simpa [Token.isMark] using hs
  obtain ⟨e, t, hr⟩ := @assignmentRule_refuses s k hmark (hlexeme ▸ hm)
  cases hr.symm.trans hf

theorem argument_of_assignment (hf : (grammar (k + 2)).assignment s = .ok f u) :
    argument (grammar (k + 2)) s = .ok f u := by
  simp [argument, isMark_of_assignment hf (by decide : "..." ∈ argumentMarks), hf]

theorem assignment_of_argument (hf : argument g s = .ok f u) (hs : f.form ≠ .spread) : g.assignment s = .ok f u := by
  cases hdots : s.token.isMark "..." with
  | false => simpa [argument, hdots] using hf
  | true =>
    cases hv : g.assignment s.bumped with
    | error e v => simp [argument, hdots, hv] at hf
    | ok v u' =>
      obtain ⟨rfl, -⟩ : _ = f ∧ _ := by simpa [argument, hdots, hv] using hf
      exact absurd rfl hs

def Node.isFunction (n : Node) : Bool :=
  match n.form with
  | .arrow _ | .functionExpression .. => true
  | _ => false

/-- The name of the function that a statement calls with a function alone, and the latter. -/
def registration? : Node → Option (String × Option Node)
  | .mk .expressionStatement _ [.mk .call _ [.mk (.name w) _ [], f]] => if f.isFunction then some (w, some f) else none
  | _ => none

theorem registration?_eq_some : registration? n = some (w, some f) ↔ f.isFunction = true ∧
      ∃ a b c, n = .mk .expressionStatement a [.mk .call b [.mk (.name w) c [], f]] := by
  constructor
  · intro h
    unfold registration? at h
    split at h
    next a b _ c _ =>
      split at h
      next hf =>
        obtain ⟨rfl, rfl⟩ : _ = w ∧ _ = f := by simpa using h
        exact ⟨hf, a, b, c, rfl⟩
      · simp at h
    · simp at h
  · rintro ⟨hf, a, b, c, rfl⟩
    simp [registration?, hf]

def State.atArgument (s : State) : State :=
  (s.bumped.bumped.inside s.context.takingIn.ofArgument.takingIn).arrowFrom s.token.start

/-- Behind the argument of a call the statement ends, and the script. -/
def EndsCall (k : Nat) (s : State) (w : String) (f : Node) (u : State) : Prop :=
  ∃ v u', EndsArguments u v ∧
    Leaves (s.calling w [f] v) (callStages k s.token.start) (v.inside s.context.takingIn) u' ∧
    EndsExpression (grammar (k + 3)) s (s.calling w [f] v) u'

theorem endsCall_of_marks (hu : u.token.isMark ")" = true) (hs : u.bumped.token.isMark ";" = true)
    (he : u.bumped.bumped.Ended) : EndsCall k s w f u :=
  ⟨u.bumped, _, .inl ⟨hu, rfl⟩, leaves_callStages hs, endsExpression_of_semicolon hs he⟩

section

variable (h : s.token.Names w) (ha : w ≠ "async") (hu : w ≠ "using") (hn : s.bumped.token.isMark "(" = true)

include h hu hn

theorem itemRule_call : itemRule g s = expressionStatement g [] s := by
  have himport := h.ne (by decide : "import" ∈ unbindableWords)
  have hexport := h.ne (by decide : "export" ∈ unbindableWords)
  rw [itemRule_word h.kind himport hexport, statementFrom_name h (Token.isAnyWord_mark hn) (fun hw => absurd hw hu)]

include ha

theorem registration_iff :
    (∃ n t, itemRule (grammar (k + 5)) s = .ok n t ∧ t.Ended ∧ registration? n = some (w, some f)) ↔
      f.isFunction = true ∧ ∃ u, (grammar (k + 2)).assignment s.atArgument = .ok f u ∧ EndsCall (k + 2) s w f u := by
  have hstatement {a b : Span} := @callStatement_iff s w (k + 2) h ha hn a b [f]
  have harguments {t : State} := @callArguments_single_iff f (grammar (k + 2))
    ((s.bumped.inside s.context.takingIn).arrowFrom s.token.start) t hn
  rw [itemRule_call h hu hn]
  constructor
  · rintro ⟨n, t, hr, ht, hn⟩
    obtain ⟨hf, a, b, c, rfl⟩ := registration?_eq_some.mp hn
    obtain ⟨_, hlist, -, u', hleaves, hend⟩ := hstatement.mp ⟨a, t, hr, ht⟩
    obtain ⟨-, u, v, harg, hends, rfl⟩ := harguments.mp hlist
    refine ⟨hf, u, assignment_of_argument harg ?_, v, u', hends, hleaves, hend⟩
    intro hspread
    simp [Node.isFunction, hspread] at hf
  · rintro ⟨hf, u, hu, v, u', hargs, hleaves, hend⟩
    have hlist := harguments.mpr ⟨isMark_of_assignment hu (by decide), u, v, argument_of_assignment hu, hargs, rfl⟩
    obtain ⟨place, t, hr, ht⟩ := hstatement.mpr ⟨_, hlist, rfl, u', hleaves, hend⟩
    exact ⟨_, t, hr, ht, registration?_eq_some.mpr ⟨hf, _, _, _, rfl⟩⟩

end

end Calls

end ComponentConverter.Script
