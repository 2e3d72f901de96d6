import ComponentConverter.Script.Parameters
import ComponentConverter.Script.Template

namespace ComponentConverter.Script

open Read

variable (g : Grammar)

def signatureParameters : Read (List Node) := do
  expect "("
  let parameters ← formalParameters g false
  if parameters.any fun p => p.children.head?.any (·.form == .assignment true) then
    unexpected ("an identifier, [ for an array pattern, \x7b for an object patter or ... " ++ "for a rest pattern")
  expect ")"
  return parameters

def endTypeMember : Read Unit := do
  unless ← eat "," do expectSemicolon

def signature : Read (List Node) := do
  let generics ← typeParameters? g functionWords
  let parameters ← signatureParameters g
  let result ← returnAnnotation? g
  endTypeMember
  return generics ++ parameters ++ result

def foreseesIndex : Read Bool := foresee do
  expect "["
  if (← token).isReference then
    bump
    return (← is ":") || (← is ",")
  return false

def indexSignature? : Read (Option Node) := do
  if !(← is "[") || !(← foreseesIndex) then return none
  let start ← position
  expect "["
  let (_, span) ← anyName
  if ← eat "," then report .indexParameters span else expect ":"
  let key ← innerType g
  expect "]"
  let value ← typeAnnotation? g
  endTypeMember
  return some (← close .other start (key :: value))

def typeMemberName : Read Node := do
  let t ← token
  if ← eat "[" then
    let key ← g.assignment
    expect "]"
    return key
  else if t.isNumeric || t.isString then g.callee
  else if t.isMark "#" then
    let n ← privateName
    report .privateInInterface n.span
    return n
  else
    let _ ← anyName
    close .other t.start []

def accessorSignature (isFixed : Bool) : Read Node := do
  let start ← position
  if isFixed then fail .readonlyAccessor
  let isGetter ← eatWord "get"
  unless isGetter do expectWord "set"
  let key ← typeMemberName g
  if isGetter then
    expect "("
    expect ")"
    let result ← typeAnnotation? g
    endTypeMember
    close .other start (key :: result)
  else
    let parameters ← signatureParameters g
    if parameters.isEmpty then fail .setterParameters
    endTypeMember
    close .other start (key :: parameters)

def typeMember : Read Node := do
  let start ← position
  let next ← peek
  if (← is "(") || (← isLess) then
    let parts ← signature g
    close .other start parts
  else if (← isWord "new") && (next.isMark "(" || next.isMark "<") then
    bump
    let parts ← signature g
    close .other start parts
  else
    let isFixed := (← eatModifier ["readonly"] false).isSome
    if let some n ← indexSignature? g then return n
    if let some n ← attempt (accessorSignature g isFixed) then return n
    let key ← typeMemberName g
    let _ ← eat "?"
    if (← is "(") || (← isLess) then
      if isFixed then fail .readonlyMethod
      let parts ← signature g
      close .other start (key :: parts)
    else
      let annotation ← typeAnnotation? g
      endTypeMember
      close .other start (key :: annotation)

def typeMembers : Read Node := do
  let start ← position
  expect "\x7b"
  let members ← many do
    if ← is "\x7d" then return none
    return some (← typeMember g)
  expect "\x7d"
  close .other start members

def mappedType : Read Node := do
  let start ← position
  let signed : Read Bool := isOneOf ["+", "-"]
  expect "\x7b"
  if ← signed then
    bump
    expectWord "readonly"
  else let _ ← eatWord "readonly"
  expect "["
  let _ ← anyName
  let source ← typeAfter g "in"
  let renamed ← if ← eatWord "as" then pure [← innerType g] else pure []
  expect "]"
  if ← signed then
    bump
    expect "?"
  else let _ ← eat "?"
  let value ← if ← eat ":" then pure [← innerType g] else pure []
  expectSemicolon
  expect "\x7d"
  close .other start (source :: renamed ++ value)

def foreseesMappedType : Read Bool := foresee do
  expect "\x7b"
  if ← isOneOf ["+", "-"] then
    bump
    return ← isWord "readonly"
  let _ ← eatWord "readonly"
  unless ← eat "[" do return false
  unless (← token).isReference do return false
  bump
  isWord "in"

def tupleLabel : Read Unit := do
  let _ ← eat "..."
  let _ ← anyName
  let _ ← eat "?"
  expect ":"

structure TupleElement where
  node : Node
  isRest : Bool
  isOptional : Bool

def tupleElement : Read TupleElement := do
  let start ← position
  let _ ← attempt tupleLabel
  if ← eat "..." then
    let inner ← innerType g
    return ⟨← close .other start [inner], true, false⟩
  else
    let inner ← innerType g
    let isOptional ← eat "?"
    return ⟨← close .other start [inner], false, isOptional⟩

def hasLateElement : Bool → List TupleElement → Bool
  | _, [] => false
  | seen, e :: es =>
    if e.isRest then hasLateElement seen es
    else if e.isOptional then hasLateElement true es
    else seen || hasLateElement seen es

def tupleType : Read Node := do
  let start ← position
  expect "["
  let elements ← commaList "]" (tupleElement g)
  if hasLateElement false elements then failAt .requiredAfterOptional (← spanFrom start)
  close .other start (elements.map (·.node))

def importType : Read Node := do
  let start ← position
  expectWord "import"
  expect "("
  let t ← token
  refuseBroken
  bump
  unless t.isString do report .stringExpected t.span
  let options ←
    if (← eat ",") && (← is "\x7b") then pure [← g.unary] else pure []
  expect ")"
  if ← eat "." then entityName
  let arguments ← if ← isLess then pure [← typeArguments g] else pure []
  close .other start (options ++ arguments)

def typeReference : Read Node := do
  let start ← position
  let isProperty ← eatPropertyModifier
  entityName
  let arguments ← typeArguments? g
  if isProperty then report .parameterProperty (← spanFrom start)
  close .other start arguments

def Token.isTypeName (t : Token) : Bool :=
  match t.kind with
  | .word name _ =>
    t.isReference || strictWords.contains name || ["void", "null", "await", "break", "enum"].contains name
  | _ => false

def builtInTypes : List String :=
  ["any", "bigint", "boolean", "intrinsic", "never", "null", "number", "object", "string", "symbol",
    "undefined", "unknown", "void"]

def primaryType : Read Node := do
  let t ← token
  let next ← peek
  if t.isWord "asserts" && next.isWord "this" then
    bump; bump
    thisPredicate t.start
  else if builtInTypes.any t.isWord && !next.isMark "." then
    bump
    close .other t.start []
  else if t.isTypeName then typeReference g
  else if t.isWord "this" then
    bump
    if (← isWord "is") && !(← token).newline then thisPredicate t.start
    else close .other t.start []
  else if t.isString || t.isNumeric || t.isWord "true" || t.isWord "false" then
    bump
    close .other t.start []
  else if t.isTemplate then template false (innerType g)
  else if t.isMark "-" then
    bump
    unless (← token).isNumeric do unexpected "numeric literal or bigint literal"
    bump
    close .other t.start []
  else if t.isWord "import" then importType g
  else if t.isWord "typeof" then
    bump
    if ← isWord "import" then
      let n ← importType g
      close .other t.start [n]
    else
      entityName
      let arguments ← typeArguments? g
      close .other t.start arguments
  else if t.isMark "\x7b" then
    if ← foreseesMappedType then mappedType g else typeMembers g
  else if t.isMark "[" then tupleType g
  else if t.isMark "(" then
    bump
    let n ← innerType g
    expect ")"
    close .other t.start [n]
  else
    unexpected ("an identifier, void, yield, null, await, break, a string literal, a numeric " ++
      "literal, true, false, `, -, import, this, typeof, \x7b, [, (")
where
  thisPredicate (start : Nat) : Read Node := do
    let inner ← if ← eatWord "is" then pure [← innerType g] else pure []
    close .other start inner

def arrayType : Read Node := do
  let start ← position
  let element ← primaryType g
  let indices ← many do
    if (← is "[") && !(← token).newline then
      bump
      if ← eat "]" then return some []
      let index ← innerType g
      expect "]"
      return some [index]
    return none
  close .other start (element :: indices.flatten)

def inferredBound : Read Node := do
  expectWord "extends"
  let bound ← within (fun c => { c with withoutConditionalTypes := true }) g.type
  if !(← context).withoutConditionalTypes && (← is "?") then fail .expressionExpected
  return bound

def operatorType : Read Node := do
  let start ← position
  let _ ← many do
    if ["keyof", "unique", "readonly"].any (← token).isWord then
      bump
      return some ()
    return none
  if ← eatWord "infer" then
    let _ ← anyName
    let bound ← attempt (inferredBound g)
    close .other start bound.toList
  else
    let _ ← eatModifier ["readonly"] false
    let inner ← arrayType g
    close .other start [inner]

def foreseesFunctionType : Read Bool := do
  if ← isLess then return true
  unless ← is "(" do return false
  foresee do
    expect "("
    if (← is ")") || (← is "...") then return true
    let _ ← eatPropertyModifier
    let t ← token
    if t.isReference || t.isWord "this" then bump
    else if t.isMark "[" || t.isMark "\x7b" then let _ ← g.binding
    else return false
    if ← isOneOf [":", ",", "?", "="] then return true
    return (← eat ")") && (← is "=>")

def functionType : Read Node := do
  let start ← position
  let generics ← typeParameters? g functionWords
  let parameters ← signatureParameters g
  let result ← returnAnnotation g "=>"
  close .other start (generics ++ parameters ++ [result])

def plainType : Read Node := do
  let start ← position
  if ← foreseesFunctionType g then functionType g
  else if (← isWord "new") || ((← isWord "abstract") && (← peek).isWord "new") then
    let _ ← eatWord "abstract"
    bump
    functionType g
  else
    let _ ← eat "|"
    let members ← separated "|" do
      let start ← position
      let _ ← eat "&"
      let parts ← separated "&" (operand g)
      close .other start parts
    close .other start members
where
  /-- A function type may stand in a union behind a leading mark. -/
  operand (g : Grammar) : Read Node := do
    if ← foreseesFunctionType g then functionType g else operatorType g

def typeRule : Read Node := do
  let start ← position
  let left ← plainType g
  let t ← token
  if !(← context).withoutConditionalTypes && !t.newline && t.isWord "extends" then
    bump
    let bound ← within (fun c => { c with withoutConditionalTypes := true }) (plainType g)
    expect "?"
    let yes ← innerType g
    expect ":"
    let no ← innerType g
    close .other start [left, bound, yes, no]
  else return left

end ComponentConverter.Script
