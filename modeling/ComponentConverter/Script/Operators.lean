import ComponentConverter.Script.Annotations

namespace ComponentConverter.Script

open Read

variable (g : Grammar)

def precedence : String → Option Nat
  | "??" | "||" => some 1
  | "&&" => some 2
  | "|" => some 3
  | "^" => some 4
  | "&" => some 5
  | "==" | "!=" | "===" | "!==" => some 6
  | "<" | ">" | "<=" | ">=" => some 7
  | "<<" | ">>" | ">>>" => some 8
  | "+" | "-" => some 9
  | "*" | "/" | "%" => some 10
  | "**" => some 11
  | _ => none

def Token.isOperator (t : Token) : Bool := t.kind == .mark && (precedence t.lexeme).isSome

def operatorAhead (t : Token) (withIn : Bool) : Option Nat :=
  if t.isOperator then precedence t.lexeme
  else if t.isWord "instanceof" || (t.isWord "in" && withIn) then some 7
  else none

def isLogical (n : Node) : Bool := n.form == .binary "&&" || n.form == .binary "||"

def checkCoalescing (n : Node) : Read Unit := do
  if isLogical n && n.children.head?.any (·.form == .binary "??") then
    report .mixedCoalescing n.span

def typeAssertion (inner : Node) : Read Node := do
  let isSatisfying ← isWord "satisfies"
  bump
  if ← eatWordIf (!isSatisfying) "const" then close (.assertion .constant) inner.start [inner]
  else
    let type ← innerType g
    close (.assertion (if isSatisfying then .satisfying else .ofType)) inner.start [inner, type]

def operation (binds : Nat) (left : Node) : Read Node := do
  let t ← token
  bump
  if t.isMark "**" && (left.form == .unary || left.form == .awaited) then fail .unaryBeforePower
  let operand ← g.unary
  let right ← g.operators (if t.isMark "**" then binds - 1 else binds) operand
  if t.isMark "??" then
    if isLogical left then report .mixedCoalescing left.span
    if isLogical right then report .mixedCoalescing right.span
  return .mk (.binary t.lexeme) ⟨left.start, right.stop⟩ [left, right]

def operatorStep (bound : Nat) (left : Node) : Read (Option Node) := do
  let t ← token
  if (← typed) && bound < 7 && !t.newline && (t.isWord "as" || t.isWord "satisfies") then
    return some (← typeAssertion g left)
  match operatorAhead t (← context).withIn with
  | none => return none
  | some binds =>
    if binds ≤ bound then return none
    let n ← operation g binds left
    checkCoalescing n
    return some n

def operatorsRule (bound : Nat) (left : Node) : Read Node := do
  let n ← iterate (operatorStep g bound) left
  checkCoalescing n
  return n

def Node.isArrow (n : Node) : Bool :=
  match n.form with
  | .arrow _ => true
  | _ => false

def operated (first : Node) : Read Node :=
  if first.isArrow then return first else g.operators 0 first

/-- Reads an expression of operators. An operator whose left operand cannot be read is reported,
and reading goes on from it. -/
def operatorExpression : Read Node := do
  let first ← recover g.unary fun issue => do
    let t ← token
    if (operatorAhead t (← context).withIn).isSome then
      report .expressionExpected t.span
      return .leaf .invalid issue.span
    else throw issue
  operated g first

end ComponentConverter.Script
