import ComponentConverter.Script.Names

namespace ComponentConverter.Script

variable (g : Grammar)

/-- Whether something can be assigned to: a name or a member, also behind parentheses and what
is said about types. -/
def isSimpleTarget : Node → Bool
  | .mk (.name name) _ _ => !isEvalName name
  | .mk .parentheses _ [inner] => isSimpleTarget inner
  | .mk .member _ (receiver :: _) =>
    match receiver.form with
    | .member => isSimpleTarget receiver
    | .optional => false
    | _ => true
  | .mk .nonNull _ (inner :: _) | .mk .instantiation _ (inner :: _)
  | .mk (.assertion .ofType) _ (inner :: _) | .mk (.assertion .satisfying) _ (inner :: _)
  | .mk .cast _ [_, inner] => isSimpleTarget inner
  | _ => false

def isRefusedTarget (refusesCall : Bool) : Node → Bool
  | .mk .parentheses _ [inner] => isRefusedTarget refusesCall inner
  | .mk (.string _) _ _ | .mk (.boolean _) _ _ | .mk .literal _ _ | .mk (.binary _) _ _ => false
  | .mk .call _ _ => refusesCall
  | _ => true

def canBeTarget (n : Node) : Bool :=
  match n.form with
  | .name _ | .member | .optional | .parentheses | .assertion .ofType | .assertion .satisfying
  | .nonNull | .cast | .instantiation | .invalid | .array | .object => true
  | _ => false

open Read

def checkTarget (n : Node) (refusesCall : Bool) : Read Unit := do
  let isSimple := isSimpleTarget n
  unless isSimple do report .notVariable n.span
  if ← typed then
    let isEval := match n.form with
      | .name name => isEvalName name
      | _ => false
    if isEval then reportStrict .argumentsInStrict n.span
    else if !isSimple && isRefusedTarget refusesCall n then report .notVariable n.span

/-- What a pattern is for: the left of an assignment, a part of it, or parameters. -/
inductive PatternRole where
  | target
  | element
  | binding
  deriving Repr, DecidableEq

def PatternRole.inner : PatternRole → PatternRole
  | .target | .element => .element
  | .binding => .binding

def giveUpPattern (span : Span) : Read Node := do
  report .notPattern span
  return .leaf .invalid span

def leafAsPattern (role : PatternRole) (n : Node) : Read Node := do
  match role with
  | .target =>
    checkTarget n true
    return n
  | .element =>
    match n.form with
    | .name _ | .member | .call | .newExpression _ | .string _ | .boolean _ | .literal | .template
    | .functionExpression .. | .classExpression | .parentheses | .assertion .ofType =>
      unless isSimpleTarget n do report .notAssignable n.span
      return n
    | .assignment _ => giveUpPattern n.span
    | _ =>
      report .notPattern n.span
      giveUpPattern n.span
  | .binding =>
    match n.form with
    | .name _ => return n
    | _ => giveUpPattern n.span

def trailingComma? (start : Nat) : Read (Option Span) := return (← get).trailingCommas.lookup start

mutual

def asPattern (role : PatternRole) : Node → Read Node
  | .mk .invalid span children => return .mk .invalid span children
  | .mk .object span members => do
    return .mk .object span (← membersAsPattern role span.start members)
  | .mk .array span elements => do
    return .mk .array span (← elementsAsPattern role span.start elements)
  | .mk (.assignment true) span [target, value] => do
    if role == .target then leafAsPattern role (.mk (.assignment true) span [target, value])
    else if target.form == .array || target.form == .object then
      return .mk (.assignment true) span [target, value]
    else return .mk (.assignment true) span [← asPattern role target, value]
  | n => leafAsPattern role n

def elementsAsPattern (role : PatternRole) (start : Nat) : List Node → Read (List Node)
  | [] => return []
  | .mk .spread span [inner] :: rest => do
    if !rest.isEmpty then
      report .restNotLast span
      elementsAsPattern role start rest
    else
      match inner.form with
      | .assignment _ => report .restInitializer span
      | _ => pure ()
      if let some comma ← trailingComma? start then report .commaAfterRest comma
      return [.mk .spread span [← asPattern role.inner inner]]
  | .mk .hole span children :: rest => do
    return .mk .hole span children :: (← elementsAsPattern role start rest)
  | n :: rest => do
    let n ← asPattern role.inner n
    return n :: (← elementsAsPattern role start rest)

def membersAsPattern (role : PatternRole) (start : Nat) : List Node → Read (List Node)
  | [] => return []
  | .mk .pair span [key, value] :: rest => do
    let value ← asPattern role.inner value
    return .mk .pair span [key, value] :: (← membersAsPattern role start rest)
  | .mk .spread span [inner] :: rest => do
    if !rest.isEmpty then report .restNotLast span
    else if let some comma ← trailingComma? start then report .commaAfterRest comma
    let inner ←
      if role == .binding then
        match inner.form with
        | .name _ => pure inner
        | _ =>
          report .restWithoutName span
          pure (.leaf .invalid span)
      else asPattern role.inner inner
    if inner.form == .assignment true then report .restInitializer span
    return .mk .spread span [inner] :: (← membersAsPattern role start rest)
  | .mk (.shorthand name) span children :: rest => do
    return .mk (.shorthand name) span children :: (← membersAsPattern role start rest)
  | .mk (.initialized name) span children :: rest => do
    return .mk (.initialized name) span children :: (← membersAsPattern role start rest)
  | n :: _ => failAt .notPattern n.span

end

def boundNames : Node → List (String × Span)
  | .mk .array _ children | .mk .object _ children => namesOf children
  | .mk .pair _ (_ :: value :: _) => boundNames value
  | .mk (.assignment true) _ (target :: _) => boundNames target
  | .mk .spread _ (target :: _) | .mk .typed _ (target :: _) => boundNames target
  | .mk (.name name) span _ | .mk (.shorthand name) span _ => [(name, span)]
  | .mk (.initialized name) span _ => [(name, ⟨span.start, span.start + name.utf8ByteSize⟩)]
  | _ => []
where
  namesOf : List Node → List (String × Span)
    | [] => []
    | n :: ns => boundNames n ++ namesOf ns

def checkNames (n : Node) : Read Unit := do
  for (name, span) in boundNames n do
    if isEvalName name then reportStrict .evalAsBinding span

def bindingElement : Read Node := do
  let start ← position
  let target ← g.binding
  if ← eat "=" then
    let value ← allowingIn g.assignment
    if (← context).inDeclaration then report .ambientInitializer (← spanFrom start)
    close (.assignment true) start [target, value]
  else return target

def restElement : Read Node := do
  let start ← position
  expect "..."
  let target ← g.binding
  close .spread start [target]

def elementPattern (before : Option Span) : Read Node := do
  if let some span := before then report .restNotLast span
  let element ← if ← is "..." then restElement g else bindingElement g
  unless ← is "]" do
    expect ","
    if element.form == .spread && (← is "]") then report .commaAfterRest (← lastSpan)
  return element

def arrayPattern : Read Node := do
  let start ← position
  expect "["
  let step (read : List Node) : Read (Option (List Node)) := do
    if ← is "]" then return none
    if ← eat "," then return some read
    let rest := read.find? (·.form == .spread)
    return some ((← elementPattern g (rest.map (·.span))) :: read)
  let elements ← iterate step []
  expect "]"
  close .array start elements.reverse

def propertyPattern : Read Node := do
  let start ← position
  if ← is "..." then restElement g
  else
    let key ← propertyKey g
    if ← eat ":" then
      let value ← bindingElement g
      close .pair start [key, value]
    else
      match key.form with
      | .key (some name) =>
        if ← eat "=" then
          let value ← allowingIn g.assignment
          close (.initialized name) start [value]
        else
          if reservedWords.contains name then report .reservedShorthand key.span
          close (.shorthand name) start []
      | _ => unexpected "an identifier"

def checkRestMembers (comma : Option Span) : List Node → Read Unit
  | [] => return
  | [.mk .spread span [inner]] =>
    match inner.form, comma with
    | .name _, some comma => report .commaAfterRest comma
    | .name _, none => return
    | _, _ => failAt .restWithoutName span
  | n :: rest => do
    if n.form == .spread && !rest.isEmpty then report .restNotLast n.span
    checkRestMembers comma rest

def objectPattern : Read Node := do
  let start ← position
  expect "\x7b"
  let (members, comma) ← within (fun c => { c with beforeColon := false })
    (commaListWithEnd "\x7d" (propertyPattern g))
  checkRestMembers comma members
  close .object start members

def bindingTarget : Read Node := do
  let t ← token
  if t.isAnyWord then bindingIdentifier false
  else if t.isMark "[" then arrayPattern g
  else if t.isMark "\x7b" then objectPattern g
  else
    refuseBroken
    unexpected "yield, an identifier, [ or \x7b"

end ComponentConverter.Script
