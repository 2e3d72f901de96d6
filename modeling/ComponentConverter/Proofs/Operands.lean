import ComponentConverter.Proofs.ReaderRuns

namespace ComponentConverter.Script

open List Read

variable {m v : String}

namespace Token

variable {t : Token} {w : String}

theorem isWord_word (h : t.kind = .word w false) (v : String) : t.isWord v = (w == v) := by
  simp [isWord, h]

theorem isMark_word {e : Bool} (h : t.kind = .word w e) (m : String) : t.isMark m = false := by
  simp [isMark, h]

theorem isMark_ne {k : String} (h : t.isMark m = true) (hk : k ≠ m) : t.isMark k = false := by
  simp only [isMark, Bool.and_eq_true, beq_iff_eq] at h
  simp [isMark, h.2, hk.symm]

theorem isWord_mark (h : t.kind = .mark) (v : String) : t.isWord v = false := by
  simp [isWord, h]

theorem isMark_mark (h : t.kind = .mark) (m : String) : t.isMark m = (t.lexeme == m) := by
  simp [isMark, h]

end Token

/-- The words that no variable can have as name. -/
def unbindableWords : List String := "static" :: "eval" :: "arguments" :: reservedWords

/-- A token is a word that can be bound. -/
structure Token.Names (t : Token) (w : String) : Prop where
  kind : t.kind = .word w false
  bindable : w ∉ unbindableWords

/-- The marks before which an operand, and what is made of it by operators, has ended. -/
def endMarks : List String := [";", ":", "=", ",", ")"]

namespace Token

def endsOperand (t : Token) : Bool := t.isEnd || endMarks.any t.isMark

/-- Whether no access follows an operand, and no call where calls are allowed. -/
def endsAccess (callAllowed : Bool) (t : Token) : Bool := t.endsOperand || (!callAllowed && t.isMark "(")

variable {t : Token} {callAllowed : Bool}

theorem kind_of_endsAccess (h : t.endsAccess callAllowed = true) :
    t.kind = .endOfFile ∨ (t.kind = .mark ∧ t.lexeme ∈ "(" :: endMarks) := by
  simp only [endsAccess, endsOperand, isEnd, Bool.or_eq_true, Bool.and_eq_true, beq_iff_eq, any_eq_true] at h
  rcases h with (h | ⟨m, hm, h⟩) | ⟨-, h⟩
  · exact .inl h
  · simp only [isMark, Bool.and_eq_true, beq_iff_eq] at h
    exact .inr ⟨h.1, mem_cons_of_mem _ (h.2 ▸ hm)⟩
  · simp only [isMark, Bool.and_eq_true, beq_iff_eq] at h
    exact .inr ⟨h.1, h.2 ▸ mem_cons_self⟩

theorem isMark_of_endsAccess (h : t.endsAccess callAllowed = true) (hm : m ∉ "(" :: endMarks) :
    t.isMark m = false := by
  rw [Bool.eq_false_iff]
  intro hmark
  simp only [isMark, Bool.and_eq_true, beq_iff_eq] at hmark
  rcases kind_of_endsAccess h with hk | ⟨-, hl⟩
  · simp [hk] at hmark
  · exact hm (hmark.2 ▸ hl)

theorem isWord_of_endsAccess (h : t.endsAccess callAllowed = true) (v : String) : t.isWord v = false := by
  rcases kind_of_endsAccess h with hk | ⟨hk, -⟩ <;> simp [isWord, hk]

theorem isTemplate_of_endsAccess (h : t.endsAccess callAllowed = true) : t.isTemplate = false := by
  rcases kind_of_endsAccess h with hk | ⟨hk, -⟩ <;> simp [isTemplate, hk]

theorem isReference_of_endsAccess (h : t.endsAccess callAllowed = true) : t.isReference = false := by
  rcases kind_of_endsAccess h with hk | ⟨hk, -⟩ <;> simp [isReference, hk]

theorem not_isMark_call (h : t.endsAccess true = true) : t.isMark "(" = false := by
  rw [Bool.eq_false_iff]
  intro hmark
  simp only [endsAccess, endsOperand, Bool.not_true, Bool.false_and, Bool.or_false, Bool.or_eq_true, any_eq_true] at h
  rcases h with h | ⟨m, hm, h⟩
  · simp [isEnd, isMark] at h hmark
    simp [h] at hmark
  · simp only [isMark, Bool.and_eq_true, beq_iff_eq] at h hmark
    rw [← h.2, hmark.2] at hm
    simp [endMarks] at hm

theorem endsAccess_of_endsOperand (h : t.endsOperand = true) (callAllowed : Bool) :
    t.endsAccess callAllowed = true := by
  simp [endsAccess, h]

theorem isMark_of_endsOperand (h : t.endsOperand = true) (hm : m ∉ endMarks) : t.isMark m = false := by
  by_cases hcall : m = "("
  · rw [hcall]
    exact not_isMark_call (endsAccess_of_endsOperand h true)
  · apply isMark_of_endsAccess (endsAccess_of_endsOperand h false)
    simp [hm, hcall]

end Token

section Names

variable {g : Grammar} {s t : State} {w : String}

theorem Token.Names.ne (h : s.token.Names w) (hv : v ∈ unbindableWords) : w ≠ v := by
  rintro rfl
  exact h.bindable hv

theorem Token.Names.isWord (h : s.token.Names w) (hv : v ∈ unbindableWords) : s.token.isWord v = false := by
  rw [Token.isWord_word h.kind, beq_eq_false_iff_ne]
  exact h.ne hv

theorem isEvalName_of_bindable (hw : w ∉ unbindableWords) : isEvalName w = false := by
  simp only [unbindableWords, mem_cons, not_or] at hw
  simp [isEvalName, hw.2.1, hw.2.2.1]

theorem identifier_run (h : s.token.Names w) : identifier s = .ok (.leaf (.name w) s.token.span) s.bumped := by
  have henum : w ≠ "enum" := h.ne (by decide)
  have hawait : w ≠ "await" := h.ne (by decide)
  have hw := h.bindable
  simp only [unbindableWords, mem_cons, not_or] at hw
  obtain ⟨hs, he, ha, hr⟩ := hw
  have hstrict : w ∉ strictWords := by
    intro hm
    simp only [strictWords, mem_cons, not_mem_nil, or_false] at hm
    rcases hm with rfl | rfl | rfl | rfl | rfl | rfl | rfl | rfl | rfl
    all_goals first
      | exact hs rfl
      | exact hr (by decide)
  simp [identifier, h.kind, ha, hr, henum, hawait, hstrict]

theorem bindingIdentifier_run (h : s.token.Names w) (b : Bool) :
    bindingIdentifier b s = .ok (.leaf (.name w) s.token.span) s.bumped := by
  have hlet : w ≠ "let" := h.ne (by decide)
  have hawait : w ≠ "await" := h.ne (by decide)
  have hyield : w ≠ "yield" := h.ne (by decide)
  have heval := isEvalName_of_bindable h.bindable
  simp [bindingIdentifier, identifier_run h, h.kind, Token.isWord_word h.kind, heval, hlet, hawait, hyield]

end Names

section Accesses

variable {g : Grammar} {s t : State} {callAllowed : Bool} {n : Node}

theorem instantiated_run (h : s.token.endsAccess callAllowed = true) (n : Node) : instantiated g n s = .ok n s := by
  have hless : s.token.isMark "<" = false := Token.isMark_of_endsAccess h (by decide)
  have hlesser : s.token.isMark "<<" = false := Token.isMark_of_endsAccess h (by decide)
  simp [instantiated, hless, hlesser]

theorem access?_run (h : s.token.endsAccess callAllowed = true) (n : Node) :
    access? g callAllowed false n s = .ok none s := by
  have hindex : s.token.isMark "[" = false := Token.isMark_of_endsAccess h (by decide)
  have hpoint : s.token.isMark "." = false := Token.isMark_of_endsAccess h (by decide)
  have hcall : callAllowed = true → s.token.isMark "(" = false := by
    rintro rfl
    exact Token.not_isMark_call h
  cases callAllowed with
  | false => simp [access?, hindex, hpoint]
  | true => simp [access?, hindex, hpoint, hcall rfl]

theorem subscript_run (h : s.token.endsAccess callAllowed = true) (hs : n.form ≠ .superReference)
    (hi : n.form ≠ .importReference) : subscript g callAllowed n s = .ok (n, false) s := by
  have hbang : s.token.isMark "!" = false := Token.isMark_of_endsAccess h (by decide)
  have hless : s.token.isMark "<" = false := Token.isMark_of_endsAccess h (by decide)
  have hlesser : s.token.isMark "<<" = false := Token.isMark_of_endsAccess h (by decide)
  have hchain : s.token.isMark "?." = false := Token.isMark_of_endsAccess h (by decide)
  simp [subscript, hbang, hless, hlesser, hchain, access?_run h, Token.isTemplate_of_endsAccess h]

theorem subscripts_run (h : s.token.endsAccess callAllowed = true) (hs : n.form ≠ .superReference)
    (hi : n.form ≠ .importReference) : subscripts g callAllowed n s = .ok n s := by
  refine bind_eq_ok.mpr ⟨(n, false), s, ?_, rfl⟩
  rw [Read.iterate, bind_run, get_run]
  refine iterateUpTo_eq_ok.mpr (.inr ⟨(n, false), s, ?_, ?_⟩)
  · simp [subscript_run h hs hi]
  · exact iterateUpTo_eq_ok.mpr (.inl ⟨rfl, rfl⟩)

end Accesses

section NamesAlone

variable {g : Grammar} {s : State} {w : String} {callAllowed : Bool}

theorem Token.Names.isReference (h : s.token.Names w) : s.token.isReference = true := by
  have hr : w ∉ reservedWords := fun hr => h.bindable (mem_cons_of_mem _ (mem_cons_of_mem _ (mem_cons_of_mem _ hr)))
  simp [Token.isReference, h.kind, hr]

theorem nameExpression_run (h : s.token.Names w)
    {callAllowed : Bool} (hn : s.bumped.token.endsAccess callAllowed = true) (canBeArrow : Bool) :
    nameExpression g canBeArrow s = .ok (.leaf (.name w) s.token.span) s.bumped := by
  have harrow : s.bumped.token.isMark "=>" = false := Token.isMark_of_endsAccess hn (by decide)
  have hreference := Token.isReference_of_endsAccess hn
  simp [nameExpression, nameRest, h.isReference, identifier_run h, harrow, hreference]

theorem wordExpression_run (h : s.token.Names w) (hn : s.bumped.token.endsAccess callAllowed = true)
    (hasync : w = "async" → s.bumped.token.isMark "(" = false) (canBeArrow : Bool) :
    wordExpression g canBeArrow w s = .ok (.leaf (.name w) s.token.span) s.bumped := by
  have hname := @nameExpression_run g s w h _ hn canBeArrow
  rw [wordExpression.eq_def]
  split
  · exact absurd rfl (h.ne (by decide : "this" ∈ unbindableWords))
  · exact absurd rfl (h.ne (by decide : "null" ∈ unbindableWords))
  · exact absurd rfl (h.ne (by decide : "true" ∈ unbindableWords))
  · exact absurd rfl (h.ne (by decide : "false" ∈ unbindableWords))
  · exact absurd rfl (h.ne (by decide : "function" ∈ unbindableWords))
  · exact absurd rfl (h.ne (by decide : "class" ∈ unbindableWords))
  · have hcall := hasync rfl
    have hless : s.bumped.token.isMark "<" = false := Token.isMark_of_endsAccess hn (by decide)
    have hfunction := Token.isWord_of_endsAccess hn "function"
    simp [asyncStart?, hfunction, hless, hcall, hname]
  · exact hname

theorem primary_run (h : s.token.Names w) (hn : s.bumped.token.endsAccess callAllowed = true)
    (hasync : w = "async" → s.bumped.token.isMark "(" = false) :
    primary g s = .ok (.leaf (.name w) s.token.span) s.bumped := by
  simp [primary, h.kind, wordExpression_run h hn hasync]

theorem calleeRule_run (h : s.token.Names w)
    (hn : s.bumped.token.endsAccess false = true) (hasync : w = "async" → s.bumped.token.isMark "(" = false) :
    calleeRule g s = .ok (.leaf (.name w) s.token.span) s.bumped := by
  have hnew := h.isWord (by decide : "new" ∈ unbindableWords)
  have hsuper := h.isWord (by decide : "super" ∈ unbindableWords)
  have himport := h.isWord (by decide : "import" ∈ unbindableWords)
  have hsubscripts := @subscripts_run g s.bumped false (.leaf (.name w) s.token.span) hn
    (by simp [Node.leaf, Node.form]) (by simp [Node.leaf, Node.form])
  have harrow : (Node.leaf (.name w) s.token.span).isArrow = false := rfl
  simp [calleeRule, hnew, hsuper, himport, primary_run h hn hasync, instantiated_run hn, hsubscripts]

theorem leftHandRule_run (h : s.token.Names w) (hn : s.bumped.token.endsOperand = true) :
    leftHandRule g s = .ok (.leaf (.name w) s.token.span) s.bumped := by
  have hsuper := h.isWord (by decide : "super" ∈ unbindableWords)
  have himport := h.isWord (by decide : "import" ∈ unbindableWords)
  have hcall : s.bumped.token.isMark "(" = false := Token.isMark_of_endsOperand hn (by decide)
  have hless : s.bumped.token.isMark "<" = false := Token.isMark_of_endsOperand hn (by decide)
  have hlesser : s.bumped.token.isMark "<<" = false := Token.isMark_of_endsOperand hn (by decide)
  have hcallee := @calleeRule_run g s w h (Token.endsAccess_of_endsOperand hn false) (fun _ => hcall)
  simp [leftHandRule, hsuper, himport, hcallee, hless, hlesser, hcall]

end NamesAlone

section Operators

variable {s : State} {n : Node}

theorem operatorAhead_of_endsOperand {t : Token} (h : t.endsOperand = true) (withIn : Bool) :
    operatorAhead t withIn = none := by
  have hends := Token.endsAccess_of_endsOperand h false
  have hoperator : t.isOperator = false := by
    rcases Token.kind_of_endsAccess hends with hk | ⟨hk, hl⟩
    · simp [Token.isOperator, hk]
    · have hnone : ∀ m ∈ "(" :: endMarks, precedence m = none := by decide
      simp [Token.isOperator, hnone _ hl]
  simp [operatorAhead, hoperator, Token.isWord_of_endsAccess hends]

theorem operatorStep_run (hn : s.token.endsOperand = true) (g : Grammar) (bound : Nat) (n : Node) :
    operatorStep g bound n s = .ok none s := by
  have has := Token.isWord_of_endsAccess (Token.endsAccess_of_endsOperand hn false) "as"
  have hsatisfies := Token.isWord_of_endsAccess (Token.endsAccess_of_endsOperand hn false) "satisfies"
  simp [operatorStep, has, hsatisfies, operatorAhead_of_endsOperand hn]

theorem operatorsRule_run (hn : s.token.endsOperand = true) (hl : isLogical n = false) (g : Grammar)
    (bound : Nat) : operatorsRule g bound n s = .ok n s := by
  have hiterate := iterate_of_none (@operatorStep_run s hn g bound n)
  simp [operatorsRule, hiterate, checkCoalescing, hl]

end Operators

section Ended

variable {g : Grammar} {s : State} {w : String} {n : Node} {k : Nat}

section

variable (hs : s.token.endsOperand = true)

include hs

theorem counted_run (n : Node) : counted n s = .ok n s := by
  have hplus : s.token.isMark "++" = false := Token.isMark_of_endsOperand hs (by decide)
  have hminus : s.token.isMark "--" = false := Token.isMark_of_endsOperand hs (by decide)
  simp [counted, hplus, hminus]

theorem operated_run (hl : isLogical n = false) : operated (grammar (k + 1)) n s = .ok n s := by
  unfold operated
  split
  · rfl
  · exact operatorsRule_run hs hl _ 0

theorem questioned_run (start : Nat) (n : Node) : questioned g start n s = .ok n s := by
  have hquestion : s.token.isMark "?" = false := Token.isMark_of_endsOperand hs (by decide)
  simp [questioned, hquestion]

end

section

variable (h : s.token.Names w)

include h

theorem unaryRule_name : unaryRule g s = (leftHandRule g >>= counted) s := by
  have hdelete := h.isWord (by decide : "delete" ∈ unbindableWords)
  have hvoid := h.isWord (by decide : "void" ∈ unbindableWords)
  have htypeof := h.isWord (by decide : "typeof" ∈ unbindableWords)
  have hawait := h.isWord (by decide : "await" ∈ unbindableWords)
  simp [unaryRule, Token.isMark_word h.kind, hdelete, hvoid, htypeof, hawait]

theorem assignmentRule_name :
    assignmentRule g s = (conditionalExpression g >>= assigned g s.token.start) (s.arrowFrom s.token.start) := by
  have hyield := h.isWord (by decide : "yield" ∈ unbindableWords)
  have hany : s.token.isAnyWord = true := by simp [Token.isAnyWord, h.kind]
  have hstart : { s with arrowStart := some s.token.start } = s.arrowFrom s.token.start := rfl
  simp [assignmentRule, Token.isMark_word h.kind, hyield, refuseBroken, takeBroken?, h.kind, hany, hstart]

end

end Ended

end ComponentConverter.Script
