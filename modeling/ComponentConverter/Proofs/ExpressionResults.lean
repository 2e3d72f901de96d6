import ComponentConverter.Proofs.ReaderRuns

namespace ComponentConverter.Script

open Read

section Results

variable {α β : Type}

def Read.Returns (r : Read α) (P : α → Prop) : Prop := ∀ s a t, r s = .ok a t → P a

namespace Read.Returns

variable {P : α → Prop} {r r' : Read α}

theorem pure {a : α} (h : P a) : Returns (pure a) P := by
  intro s b t hb
  cases hb
  exact h

theorem bind {x : Read β} {f : β → Read α} (h : ∀ b, Returns (f b) P) : Returns (x >>= f) P := by
  intro s a t ha
  obtain ⟨b, u, -, hf⟩ := bind_eq_ok.mp ha
  exact h b u a t hf

theorem bind_of {Q : β → Prop} {x : Read β} {f : β → Read α} (hx : Returns x Q)
    (h : ∀ b, Q b → Returns (f b) P) : Returns (x >>= f) P := by
  intro s a t ha
  obtain ⟨b, u, hb, hf⟩ := bind_eq_ok.mp ha
  exact h b (hx s b u hb) u a t hf

theorem ite {c : Prop} [Decidable c] (ht : Returns r P) (he : Returns r' P) : Returns (if c then r else r') P := by
  split
  · exact ht
  · exact he

theorem fail {cause : Cause} : Returns (fail cause) P := by
  intro s a t h
  obtain ⟨e, u, hu⟩ := @fail_run α cause s
  rw [hu] at h
  cases h

theorem close {P : Node → Prop} {form : Form} {start : Nat} {children : List Node}
    (h : ∀ place, P (.mk form place children)) : Returns (close form start children) P := by
  intro s n t hn
  cases hn
  exact h _

theorem attempt (h : Returns r P) : Returns (attempt r) (fun o => ∀ a, o = some a → P a) := by
  intro s o t ho a ha
  cases ha
  cases hr : r { s with context := { s.context with isQuiet := true } } with
  | error e u => simp [Read.attempt, attempt?, hr] at ho
  | ok b u =>
    obtain ⟨rfl, -⟩ : b = a ∧ _ := by simpa [Read.attempt, attempt?, hr] using ho
    exact h _ _ _ hr

theorem iterate {step : α → Read (Option α)} {a : α} (ha : P a)
    (hstep : ∀ b, P b → Returns (step b) (fun o => ∀ c, o = some c → P c)) : Returns (iterate step a) P := by
  intro s b t h
  refine @iterate_keeps _ _ _ _ (fun b _ => P b) ?_ ?_ _ _ ha h
  · intro b u c v hb hc
    exact hstep b hb u _ v hc c rfl
  · intro b u v hb _
    exact hb

end Read.Returns

end Results

namespace Node

def isName (n : Node) : Bool :=
  match n.form with
  | .name _ => true
  | _ => false

def callsName : Node → Bool
  | .mk .call _ (callee :: _) => callee.isName
  | _ => false

def isCompound (n : Node) : Bool := !n.isName && !n.callsName

/-- What comes out behind an expression: itself, or neither a name nor the call of one. -/
def Grown (n m : Node) : Prop := m = n ∨ m.isCompound = true

variable {n m l : Node}

theorem isName_of_isCompound (h : n.isCompound = true) : n.isName = false := by
  simp only [isCompound, Bool.and_eq_true, Bool.not_eq_true'] at h
  exact h.1

theorem form_ne_of_isName (h : n.isName = false) (label : String) : n.form ≠ .name label := by
  intro hl
  simp [isName, hl] at h

theorem Grown.refl (n : Node) : Grown n n := .inl rfl

theorem Grown.trans (h : Grown n m) (h' : Grown m l) : Grown n l := by
  rcases h' with rfl | h'
  · exact h
  · exact .inr h'

theorem Grown.isName_eq (h : Grown n m) (hn : n.isName = false) : m.isName = false := by
  rcases h with rfl | h
  · exact hn
  · exact isName_of_isCompound h

end Node

section Growth

variable {g : Grammar} {n : Node}

open Node

theorem chained_grown (isChain : Bool) (n : Node) : Grown n (chained isChain n) := by
  cases isChain with
  | true => exact .inr rfl
  | false => exact .refl n

theorem call_grown (hn : n.isName = false) (isChain : Bool) (place : Span) (arguments : List Node) :
    Grown n (chained isChain (.mk (callForm isChain) place (n :: arguments))) := by
  cases isChain with
  | true => exact .inr rfl
  | false =>
    refine .inr ?_
    change (!false && !n.isName) = true
    rw [hn]
    rfl

theorem instantiated_returns (n : Node) : Returns (instantiated g n) (Grown n) := by
  refine .bind fun _ => .bind fun _ => .ite (.bind ?_) (.bind ?_)
  all_goals
    intro arguments
    cases arguments with
    | none => exact .pure (.refl n)
    | some arguments => exact .close fun _ => .inr rfl

theorem taggedTemplate_returns (n : Node) (arguments : List Node) :
    Returns (taggedTemplate g n arguments) (Grown n) := by
  refine .bind fun _ => .bind_of (Q := Grown n) (.close fun _ => .inr rfl) ?_
  intro m hm
  refine .ite ?_ (.pure hm)
  exact .bind fun _ => .pure hm

theorem typedSubscript_returns (hn : n.isName = false) (callAllowed : Bool) :
    Returns (typedSubscript g callAllowed n) (fun r => Grown n r.1) := by
  refine .bind fun arguments => .bind fun t => .ite ?_ (.ite ?_ (.ite ?_ ?_))
  · refine .bind fun list => .bind_of (.close fun _ => ?_) fun _ h => .pure h
    exact call_grown hn _ _ _
  · exact .bind_of (taggedTemplate_returns n _) fun _ h => .pure h
  · exact .bind_of (.close fun _ => (.inr rfl : Grown n _)) fun _ h => .pure h
  · exact .bind fun _ => .fail

theorem access?_returns (hn : n.isName = false) (callAllowed isOptional : Bool) :
    Returns (access? g callAllowed isOptional n) (fun r => ∀ m, r = some m → Grown n m) := by
  have hsome {m : Node} (hm : Grown n m) : ∀ l, some m = some l → Grown n l := by
    rintro _ ⟨⟩
    exact hm
  have hlast {made : Node} (hm : Grown n made) (isChain : Bool) : Returns (do
      return some (← instantiated g (chained isChain made))) (fun r => ∀ m, r = some m → Grown n m) := by
    refine .bind_of (instantiated_returns _) fun m hgrown => .pure (hsome ?_)
    exact (hm.trans (chained_grown _ _)).trans hgrown
  refine .bind fun isTyped => .bind fun _ => .ite ?_ ?_
  · refine .bind fun key => .bind_of (Q := Grown n) (.close fun _ => .inr rfl) ?_
    exact fun made hm => .bind fun _ => hlast hm _
  refine .bind fun _ => .bind fun _ => .bind fun _ => .ite ?_ ?_
  · have hcall (arguments : List Node) : Returns (do
        let list ← callArguments g (n.form == .importReference)
        let made ← close (callForm (isOptional || inChain n)) n.start (n :: arguments ++ list)
        if isOptional && (n.form == .superReference || n.form == .importReference) then fail .optionalSuper
        return some (chained (isOptional || inChain n) made)) (fun r => ∀ m, r = some m → Grown n m) := by
      refine .bind fun list => ?_
      refine .bind_of (Q := fun made => Grown n (chained (isOptional || inChain n) made))
        (.close fun _ => call_grown hn _ _ _) fun made hm => ?_
      exact .ite (.bind fun _ => .pure (hsome hm)) (.pure (hsome hm))
    exact .ite (.bind hcall) (.bind hcall)
  · refine .bind fun _ => .ite ?_ (.pure (by rintro _ ⟨⟩))
    refine .bind fun _ => .bind fun key => ?_
    refine .bind_of (Q := Grown n) (.close fun _ => .inr rfl) fun made hm => ?_
    exact .bind fun _ => .ite (.bind fun _ => hlast hm _) (hlast hm _)

theorem subscript_returns (hn : n.isName = false) (callAllowed : Bool) :
    Returns (subscript g callAllowed n) (fun r => Grown n r.1) := by
  refine .bind fun t => .bind fun isTyped => .ite ?_ ?_
  · refine .bind fun _ => .bind_of (.close fun _ => ?_) fun _ h => .pure h
    exact .inr rfl
  refine .bind fun _ => .ite
    (.bind_of (.attempt (typedSubscript_returns hn callAllowed)) ?_)
    (.bind_of (Q := fun generic => ∀ made, generic = some made → Grown n made.1)
      (.pure (by rintro _ ⟨⟩)) ?_)
  all_goals
    intro generic hgeneric
    cases generic with
    | some made => exact .pure (hgeneric made rfl)
    | none =>
      refine .bind fun _ => .bind_of (access?_returns hn _ _) fun made hmade => ?_
      cases made with
      | some made => exact .pure (hmade made rfl)
      | none =>
        dsimp only
        split
        · exact .fail
        · exact .fail
        · refine .ite ?_ (.pure (.refl n))
          exact .bind_of (taggedTemplate_returns n []) fun _ h => .pure h

theorem subscripts_returns (hn : n.isName = false) (callAllowed : Bool) :
    Returns (subscripts g callAllowed n) (Grown n) := by
  refine .bind_of ?_ fun r hr => .pure hr
  refine .iterate (.refl n) fun r hr => .ite ?_ (.pure ?_)
  · refine .bind_of (subscript_returns (hr.isName_eq hn) callAllowed) fun next hnext => .pure ?_
    rintro _ ⟨⟩
    exact hr.trans hnext
  · rintro _ ⟨⟩

end Growth

section Operations

variable {g : Grammar} {left : Node}

def Node.isOperation (n : Node) : Bool :=
  match n.form with
  | .binary _ | .assertion _ => true
  | _ => false

theorem isCompound_of_isOperation {n : Node} (h : n.isOperation = true) : n.isCompound = true := by
  obtain ⟨form, place, children⟩ := n
  cases form <;> first | rfl | cases h

theorem typeAssertion_returns : Returns (typeAssertion g left) (·.isOperation = true) := by
  refine .bind fun _ => .bind fun _ => .bind fun _ => .ite ?_ ?_
  · exact .close fun _ => rfl
  · exact .bind fun _ => .close fun _ => rfl

theorem operation_returns {binds : Nat} : Returns (operation g binds left) (·.isOperation = true) := by
  repeat' first
    | exact .pure rfl
    | refine .ite ?_ ?_
    | refine .bind fun _ => ?_

theorem operatorStep_returns {bound : Nat} :
    Returns (operatorStep g bound left) (fun r => ∀ n, r = some n → n.isOperation = true) := by
  have hnone : Returns (pure none) (fun r : Option Node => ∀ n, r = some n → n.isOperation = true) := by
    apply Returns.pure
    intro n h
    cases h
  have hsome {r : Read Node} (hr : Returns r (·.isOperation = true)) (rest : Node → Read Unit) :
      Returns (do let n ← r; rest n; return some n) (fun r : Option Node => ∀ n, r = some n → n.isOperation = true) := by
    refine .bind_of hr fun n hn => .bind fun _ => .pure ?_
    rintro _ ⟨⟩
    exact hn
  refine .bind fun t => .bind fun isTyped => .ite ?_ ?_
  · refine .bind_of typeAssertion_returns fun n hn => .pure ?_
    rintro _ ⟨⟩
    exact hn
  · refine .bind fun c => ?_
    split
    · exact hnone
    · exact .ite hnone (hsome operation_returns checkCoalescing)

theorem operatorsRule_returns {bound : Nat} :
    Returns (operatorsRule g bound left) (fun n => n = left ∨ n.isOperation = true) := by
  refine .bind_of (.iterate (.inl rfl) fun n _ => ?_) fun n hn => .bind fun _ => .pure hn
  intro s o t h m hm
  exact .inr (operatorStep_returns s o t h m hm)

theorem endExpression_returns {k start : Nat} : Returns (endExpression (grammar (k + 1)) start left)
      (fun n => ∃ a m, n = .mk .expressionStatement a [m] ∧ (m = left ∨ m.isOperation = true)) := by
  refine .bind fun ended => .ite ?_ ?_
  · exact .close fun place => ⟨place, left, rfl, .inl rfl⟩
  · refine .bind fun t => .ite ?_ .fail
    refine .bind fun _ => .bind fun _ => .bind_of operatorsRule_returns fun m hm => ?_
    exact .close fun place => ⟨place, m, rfl, hm⟩

theorem sequel_returns (n : Node) : Returns (sequel g n) (fun m => m = n ∨ m.form = .sequence) := by
  refine .bind fun _ => .ite ?_ (.pure (.inl rfl))
  exact .bind fun _ => .close fun _ => .inr rfl

end Operations

end ComponentConverter.Script
