import ComponentConverter.Script.Arrows
import ComponentConverter.Script.Classes
import ComponentConverter.Script.Literals

namespace ComponentConverter.Script

open Read

variable (g : Grammar)

def Token.startsExpression (t : Token) : Bool :=
  match t.kind with
  | .word name _ =>
    !reservedWords.contains name ||
      ["await", "class", "delete", "false", "function", "import", "new", "null", "super", "this",
        "throw", "true", "typeof", "void", "yield"].contains name
  | .mark =>
    ["(", "[", "\x7b", "+", "-", "!", "~", "++", "--", "<", "#", "@"].contains t.lexeme
  | .number | .bigint | .string _ | .template _ _ => true
  | .broken _ | .endOfFile => false

/-- Reads an arrow function with `async` and one parameter without parentheses, after that word.
At the head of a loop over values, `async` is a name. -/
def asyncArrow (name : Node) : Read Node := do
  let c ← context
  if c.inLoopHead && (← isWord "of") && !(← peek).isMark "=>" then
    unless c.inAwaitedLoopHead do report .loopAsync name.span
    return name
  let parameter ← bindingIdentifier false
  if (← typed) && parameter.form == .name "as" && !(← is "=>") then
    let type ← innerType g
    close (.assertion .ofType) name.start [name, type]
  else
    expect "=>"
    let body ← arrowBody g true true
    close (.arrow true) name.start [parameter, body]

def nameRest (canBeArrow : Bool) (name : Node) : Read Node := do
  let t ← token
  if !canBeArrow || t.newline then return name
  else if name.form == .name "async" && t.isReference then asyncArrow g name
  else if ← eat "=>" then
    checkNames name
    let body ← arrowBody g false true
    close (.arrow false) name.start [name, body]
  else return name

def genericAsyncArrow : Read Node := do
  let start ← position
  bump
  let generics ← typeParameters g functionWords
  expect "("
  let parameters ← formalParameters g false
  expect ")"
  let result ← returnAnnotation? g
  expect "=>"
  let body ← arrowBody g true (areSimple parameters)
  close (.arrow true) start (generics :: parameters ++ result ++ [body])

def asyncStart? (canBeArrow : Bool) : Read (Option Node) := do
  let t ← token
  let next ← peek
  if next.isWord "function" && !next.newline then return some (← functionExpression g)
  let generic ←
    if canBeArrow && (← typed) && next.isMark "<" then attempt (genericAsyncArrow g) else pure none
  if generic.isSome then return generic
  if canBeArrow && next.isMark "(" && !next.newline then
    bump
    return some (← parenthesesOrArrow g canBeArrow (some (.leaf (.name "async") t.span)))
  else return none

def nameExpression (canBeArrow : Bool) : Read Node := do
  let t ← token
  if t.isReference || t.isWord "let" then
    let n ← identifier
    nameRest g canBeArrow n
  else fail .expressionExpected

def wordExpression (canBeArrow : Bool) (name : String) : Read Node := do
  let t ← token
  let leaf (form : Form) : Read Node := do bump; return .leaf form t.span
  match name with
  | "this" => leaf .this
  | "null" => leaf .literal
  | "true" => leaf (.boolean true)
  | "false" => leaf (.boolean false)
  | "function" => functionExpression g
  | "class" => classRule g t.start [] false false
  | "async" =>
    match ← asyncStart? g canBeArrow with
    | some n => return n
    | none => nameExpression g canBeArrow
  | _ => nameExpression g canBeArrow

def primary : Read Node := do
  let s ← get
  let t := s.token
  let start := t.start
  let canBeArrow := s.arrowStart == some start
  let leaf (form : Form) : Read Node := do bump; return .leaf form t.span
  match t.kind with
  | .number | .bigint => leaf .literal
  | .string value => leaf (.string value)
  | .template _ _ => template false g.expression
  | .word name false => wordExpression g canBeArrow name
  | .word _ true => nameExpression g canBeArrow
  | .mark =>
    match t.lexeme with
    | "[" => arrayLiteral g
    | "\x7b" => objectLiteral g
    | "(" => parenthesesOrArrow g canBeArrow none
    | "/" | "/=" => patternLiteral
    | "#" =>
      bump
      let _ ← anyName
      close .privateName start []
    | "@" =>
      let decorated ← decorators g false
      classRule g start decorated false false
    | _ => fail .expressionExpected
  | _ => fail .expressionExpected

def inChain : Node → Bool
  | .mk .optional _ _ => true
  | .mk .nonNull _ [inner] => inChain inner
  | _ => false

def chained (isChain : Bool) (n : Node) : Node :=
  if isChain then .mk .optional n.span [n] else n

def callForm (isChain : Bool) : Form := if isChain then .other else .call

def propertyName : Read Node := do
  if ← is "#" then privateName
  else
    let (name, span) ← anyName
    return .leaf (.property name) span

def index : Read Node := do
  let start ← position
  expect "["
  let inner ← allowingIn g.expression
  expect "]"
  close .computed start [inner]

def instantiated (n : Node) : Read Node := do
  let arguments ←
    if (← typed) && (← opensTypes) then
      attempt? do
        let arguments ← typeArguments g
        let t ← token
        if ["<", ">", "=", ">>", ">=", "+", "-", "("].any t.isMark || t.isTemplate then return none
        else if t.newline || t.isOperator || !t.startsExpression then return some arguments
        else return none
    else pure none
  match arguments with
  | some arguments => close .instantiation n.start [n, arguments]
  | none => return n

def taggedTemplate (tag : Node) (arguments : List Node) : Read Node := do
  let text ← template true g.expression
  let n ← close .taggedTemplate tag.start (tag :: arguments ++ [text])
  if tag.form == .optional then report .chainedTemplate n.span
  return n

/-- Type arguments behind an expression, with the call, template or operator they belong to; and
whether more can follow. -/
def typedSubscript (callAllowed : Bool) (n : Node) : Read (Node × Bool) := do
  let arguments ← typeArguments g
  let t ← token
  if callAllowed && t.isMark "(" then
    let isChain := n.form == .optional
    let list ← callArguments g (n.form == .importReference)
    return (chained isChain (← close (callForm isChain) n.start (n :: arguments :: list)), true)
  else if t.isTemplate then return (← taggedTemplate g n [arguments], true)
  else if t.isMark "=" || t.isWord "as" || t.isWord "satisfies" then
    return (← close .instantiation n.start [n, arguments], false)
  else unexpected (if callAllowed then "( or `" else "`")

/-- Members of the base class are known only to methods where there are no types. -/
def checkSuper (callAllowed isOptional : Bool) (n : Node) : Read Unit := do
  if n.form == .superReference then
    unless (← context).superAllowed || (← typed) do failAt .superAccess n.span
    if isOptional then failAt (if callAllowed then .superAccess else .superCall) n.span

def access? (callAllowed isOptional : Bool) (n : Node) : Read (Option Node) := do
  let isTyped ← typed
  let isChain := isOptional || inChain n
  let isBase := n.form == .superReference || n.form == .importReference
  if ← is "[" then
    let key ← index g
    let made ← close .member n.start [n, key]
    checkSuper callAllowed isOptional n
    return some (← instantiated g (chained isChain made))
  else if (isOptional && ((← is "(") || (isTyped && (← isLess)))) || (callAllowed && (← is "(")) then
    let arguments ← if isOptional && isTyped then typeArguments? g else pure []
    let list ← callArguments g (n.form == .importReference)
    let made ← close (callForm isChain) n.start (n :: arguments ++ list)
    if isOptional && isBase then fail .optionalSuper
    return some (chained isChain made)
  else if isOptional || (← is ".") then
    let _ ← eatIf (!isOptional) "."
    let key ← propertyName
    let made ← close .member n.start [n, key]
    checkSuper callAllowed isOptional n
    if n.form == .superReference && key.form == .privateName then fail .superCall
    return some (← instantiated g (chained isChain made))
  else return none

/-- Goes on after an expression with one access, call or template; and tells whether more can
follow. -/
def subscript (callAllowed : Bool) (n : Node) : Read (Node × Bool) := do
  let t ← token
  let isTyped ← typed
  let isBase := n.form == .superReference || n.form == .importReference
  if isTyped && t.isMark "!" && !t.newline && !isBase then
    bump
    return (← close .nonNull n.start [n], true)
  let generic ←
    if isTyped && !isBase && (← opensTypes) then attempt (typedSubscript g callAllowed n)
    else pure none
  if let some made := generic then return made
  let isOptional ← eat "?."
  if let some made ← access? g callAllowed isOptional n then return (made, true)
  match n.form with
  | .superReference => fail (if callAllowed then .superAccess else .superCall)
  | .importReference => fail .importNotAllowed
  | _ => if t.isTemplate then return (← taggedTemplate g n [], true) else return (n, false)

def subscripts (callAllowed : Bool) (n : Node) : Read Node := do
  let step (read : Node × Bool) : Read (Option (Node × Bool)) := do
    if read.2 then return some (← subscript g callAllowed read.1) else return none
  return (← iterate step (n, true)).1

def importRest (start : Nat) (callAllowed : Bool) : Read Node := do
  if ← eat "." then
    let (name, _) ← anyName
    match name with
    | "meta" =>
      let whole ← close .other start []
      subscripts g callAllowed whole
    | "defer" | "source" =>
      let keyword ← close .importReference start []
      subscripts g callAllowed keyword
    | _ => unexpected "meta"
  else
    let keyword ← close .importReference start []
    subscripts g callAllowed keyword

def newTarget (start : Nat) : Read Node := do
  unless ← eatWord "target" do unexpected "target"
  let target ← close .other start []
  let c ← context
  unless c.inPlainFunction || c.inParameters || c.inClass do report .targetOutside target.span
  subscripts g false target

def checkMade (callee : Node) : Read Unit := do
  match callee with
  | .mk .optional span _ => failAt .chainAfterNew span
  | .mk .member _ (.mk .optional span _ :: _) => failAt .chainAfterNew span
  | _ => return

/-- Reads what can stand behind `new`: an expression without calls. -/
def calleeRule : Read Node := do
  let start ← position
  if ← eatWord "new" then
    if ← eat "." then return ← newTarget g start
    let callee ← g.callee
    if callee.isArrow then return callee
    checkMade callee
    let arguments ←
      if (← typed) && (← opensTypes) then
        attempt? do
          let arguments ← typeArguments g
          return if ← is "(" then some arguments else none
      else pure none
    if ← is "(" then
      let list ← callArguments g false
      let made ← close (.newExpression true) start (callee :: arguments.toList ++ list)
      subscripts g false made
    else close (.newExpression false) start [callee]
  else if ← eatWord "super" then
    let base ← close .superReference start []
    subscripts g false base
  else if ← eatWord "import" then importRest g start false
  else
    let n ← primary g
    if n.isArrow then return n
    let n ← instantiated g n
    subscripts g false n

def leftHandRule : Read Node := do
  let start ← position
  if ← eatWord "super" then
    let base ← close .superReference start []
    subscripts g true base
  else if ← eatWord "import" then importRest g start true
  else
    let n ← calleeRule g
    if n.isArrow then return n
    let arguments ←
      if (← typed) && (← opensTypes) then
        attempt? do
          let arguments ← typeArguments g
          return if ← is "(" then some arguments else none
      else pure none
    if n.form == .newExpression false then
      return n
    else if ← is "(" then
      let list ← callArguments g false
      let isChain := inChain n
      let call ← close (callForm isChain) start (n :: arguments.toList ++ list)
      subscripts g true (chained isChain call)
    else return n

def awaitExpression : Read Node := do
  let t ← token
  bump
  if ← is "*" then fail .awaitStar
  let c ← context
  if !c.inAsync && ((← isOneOf [")", "]", ";", ","]) || (← isEnd)) then
    report .awaitAsName t.span
    return .leaf (.name "await") t.span
  else
    if c.inFunction && !c.inAsync then report .awaitInFunction t.span
    if c.inParameters && !c.inFunction then report .awaitInParameter t.span
    let operand ← g.unary
    close .awaited t.start [operand]

def signedOperand : Read Node := do
  let missing := (← position) - 1
  recover g.unary fun issue => do
    report issue.cause issue.span
    return .leaf .invalid (.point missing)

def checkDeleted (operand : Node) : Read Unit := do
  match operand.form with
  | .name _ => reportStrict .deletedName operand.span
  | _ => pure ()
  if ← typed then
    match operand.bare with
    | .mk .member _ _ => pure ()
    | .mk .optional _ [.mk .member _ _] => pure ()
    | n => report .deletedValue n.span

def prefixedCast : Read Node := do
  let start ← position
  expect "<"
  if ← eatWord "const" then
    expectGreater
    let inner ← g.unary
    close (.assertion .constant) start [inner]
  else
    let type ← innerType g
    expectGreater
    let inner ← g.unary
    close .cast start [type, inner]

/-- Reads a mark that counts an operand up or down. -/
def counted (n : Node) : Read Node := do
  if n.isArrow || (← token).newline then return n
  if (← is "++") || (← is "--") then
    checkTarget n false
    bump
    close .update n.start [n]
  else return n

def unaryRule : Read Node := do
  let t ← token
  let start := t.start
  if (← typed) && t.isMark "<" then prefixedCast g
  else if t.isMark "++" || t.isMark "--" then
    bump
    let operand ← g.unary
    checkTarget operand false
    return .mk .update ⟨start, operand.stop⟩ [operand]
  else if ["+", "-", "~", "!"].any t.isMark || ["delete", "void", "typeof"].any t.isWord then
    bump
    let operand ← signedOperand g
    if t.isWord "delete" then checkDeleted operand
    return .mk .unary ⟨start, operand.stop⟩ [operand]
  else if t.isWord "await" then awaitExpression g
  else counted (← leftHandRule g)

def questioned (start : Nat) (condition : Node) : Read Node := do
  if condition.isArrow then return condition
  if ← eat "?" then conditionalRest g start condition else return condition

def conditionalExpression : Read Node := do
  let start ← position
  questioned g start (← operatorExpression g)

def yieldExpression : Read Node := do
  let start ← position
  bump
  let c ← context
  if c.inParameters && !c.inFunction then failAt .yieldInParameter (← lastSpan)
  let t ← token
  if t.endsStatement || !(t.startsExpression || ["*", "/", "/="].any t.isMark) then
    close .other start []
  else
    let _ ← eat "*"
    let operand ← g.assignment
    close .other start [operand]

def genericArrow : Read Node := do
  let start ← position
  let generics ← typeParameters g functionWords
  let arrow ← g.assignment
  unless arrow.isArrow do fail .arrowNotAllowed
  return .mk arrow.form ⟨start, arrow.stop⟩ (generics :: arrow.children)

def assigned (start : Nat) (left : Node) : Read Node := do
  match left.form with
  | .arrow _ | .conditional | .binary _ | .unary | .update => return left
  | _ => assignmentRest g start left

def assignmentRule : Read Node := do
  let t ← token
  let generic ←
    if (← typed) && t.isMark "<" && (← peek).isAnyWord then
      attempt (within (fun c => { c with beforeColon := false }) (genericArrow g))
    else pure none
  if let some arrow := generic then return arrow
  if t.isWord "yield" && (← context).inGenerator then return ← yieldExpression g
  refuseBroken
  let start := t.start
  modify fun s =>
    { s with arrowStart := if t.isAnyWord || t.isMark "(" then some start else none }
  assigned g start (← conditionalExpression g)

/-- Reads the values behind a first one. -/
def sequel (first : Node) : Read Node := do
  if ← is "," then
    let rest ← many do
      if ← eat "," then return some (← g.assignment)
      return none
    close .sequence first.start (first :: rest)
  else return first

def expressionRule : Read Node := do
  sequel g (← g.assignment)

end ComponentConverter.Script
