import ComponentConverter.Script.Functions
import ComponentConverter.Script.Operators

namespace ComponentConverter.Script

open Read

variable (g : Grammar)

/-- Something between parentheses: an expression, or a parameter that can be nothing else. -/
structure CoverItem where
  node : Node
  isParameter : Bool

/-- What stands between parentheses, and a comma right before the closing one. -/
structure Cover where
  items : List CoverItem
  comma : Option Span

def assignmentMarks : List String :=
  ["=", "+=", "-=", "*=", "/=", "%=", "**=", "<<=", ">>=", ">>>=", "&=", "|=", "^=", "&&=", "||=", "??="]

def checkCompoundTarget (target : Node) : Read Unit := do
  unless isSimpleTarget target do
    report (if ← typed then .notVariable else .notAssignable) target.span
  match target.form, ← typed with
  | .name name, true => if isEvalName name then reportStrict .argumentsInStrict target.span
  | _, _ => pure ()
  match target.form with
  | .array | .object | .invalid => failAt .invalidTarget target.span
  | _ => unless canBeTarget target do failAt .invalidTarget target.span

def assignmentRest (start : Nat) (target : Node) : Read Node := do
  if ← isOneOf assignmentMarks then
    let isPlain ← is "="
    let target ←
      if isPlain then
        let target ← asPattern .target target
        unless canBeTarget target do failAt .invalidTarget target.span
        pure target
      else
        checkCompoundTarget target
        pure target
    bump
    let value ← g.assignment
    close (.assignment isPlain) start [target, value]
  else return target

def conditionalRest (start : Nat) (condition : Node) : Read Node := do
  let yes ← within (fun c => { c with inConditional := true, beforeColon := true, withIn := true })
    g.assignment
  expect ":"
  let no ← within (fun c => { c with inConditional := true, beforeColon := false }) g.assignment
  return .mk .conditional ⟨start, no.stop⟩ [condition, yes, no]

/-- Where there are types, a name between parentheses may be a parameter with a mark for an
optional one, which a conditional expression must not take for its own. -/
def typedItem (start : Nat) : Read Node := do
  if ← eat "..." then
    let inner ← operatorExpression g
    close .spread start [inner]
  else
    let target ← operatorExpression g
    assignmentRest g start target

/-- Goes on after the first part of an item that a question mark follows, and tells whether the
item is an optional parameter. -/
def questionedItem (start : Nat) (first : Node) : Read (Node × Bool) := do
  if [",", ":", ")", "="].any (← peek).isMark then
    bump
    if first.form == .spread then report .optionalRest (← lastSpan)
    let inner := if first.form == .spread then first.children.head?.getD first else first
    match inner.form with
    | .name _ => return (first, true)
    | _ => failAt .optionalPattern first.span
  else if first.form == .spread then return (first, false)
  else
    bump
    return (← conditionalRest g start first, false)

def typedParameter (start : Nat) (first : Node) : Read Node := do
  let target ← match first with
    | .mk .spread span [inner] => pure (.mk .spread span [← asPattern .binding inner])
    | _ => asPattern .binding first
  let annotation ← typeAnnotation? g
  if ← eat "=" then
    let value ← g.assignment
    let pattern ← close (.assignment true) start [target, value]
    close .typed start (pattern :: annotation)
  else close .typed start (target :: annotation)

def coverItem : Read CoverItem := do
  let start ← position
  modify fun s => { s with arrowStart := some start }
  let isProperty ← eatPropertyModifier
  let inside ← position
  let t ← token
  let isTyped ← typed
  let first ←
    if isTyped && (t.isReference || (t.isMark "..." && (← peek).isReference)) then
      typedItem g inside
    else allowingIn (argument g)
  let (first, isOptional) ←
    if isTyped && (← is "?") then questionedItem g inside first else pure (first, false)
  let isParameter := isOptional || (isTyped && (← is ":"))
  let item ← if isParameter then typedParameter g inside first else pure first
  if isProperty then report .parameterProperty (← spanFrom start)
  return ⟨item, isParameter⟩

def parameterPattern (n : Node) : Node :=
  match n with
  | .mk .typed _ (pattern :: _) => pattern
  | _ => n

def parameterOf (isLast : Bool) (comma : Option Span) (item : CoverItem) : Read (Option Node) := do
  let isRest := (parameterPattern item.node).form == .spread
  if isRest && !isLast then
    report .restParameterNotLast item.node.span
    return none
  if isRest && item.isParameter then
    if let some comma := comma then report .commaAfterRest comma
  if item.isParameter then return some item.node
  match item.node with
  | .mk .spread span [inner] =>
    match inner.form with
    | .assignment _ => report .restInitializer span
    | _ => pure ()
    if let some comma := comma then report .commaAfterRest comma
    return some (.mk .spread span [← asPattern .binding inner])
  | n => return some (← asPattern .binding n)

def parametersOf (cover : Cover) : Read (List Node) := do
  let parameters ← judge cover.items
  for p in parameters do checkNames p
  return parameters
where
  judge : List CoverItem → Read (List Node)
    | [] => return []
    | item :: rest => do
      let p ← parameterOf rest.isEmpty cover.comma item
      return p.toList ++ (← judge rest)

def isPlainParameter (n : Node) : Bool :=
  match (parameterPattern n).form with
  | .name _ => true
  | _ => false

def CoverItem.isName (item : CoverItem) : Bool := isPlainParameter item.node

def arrowInside (start : Nat) (items : List CoverItem) : Read CoverItem := do
  let parameters ← parametersOf ⟨items, none⟩
  let body ← arrowBody g false (parameters.all isPlainParameter)
  return ⟨← close (.arrow false) start (parameters ++ [body]), false⟩

/-- Reads one more item between parentheses. An arrow behind it is taken, and makes a function of
the items before it if the first of them is a name. -/
def coverStep (start : Nat) (read : Cover) : Read (Option Cover) := do
  if ← is ")" then return none
  let item ← coverItem g
  let items := read.items ++ [item]
  let items ←
    if (← eat "=>") && items.head?.any (·.isName) then
      pure (items ++ [← arrowInside g start items])
    else pure items
  if ← is ")" then return some ⟨items, none⟩
  expect ","
  let comma ← lastSpan
  return some ⟨items, if ← is ")" then some comma else none⟩

def coverItems : Read Cover := do
  let start ← position
  expect "("
  let cover ← iterate (coverStep g start) ⟨[], none⟩
  expect ")"
  return cover

def arrowRest (start : Nat) (isAsync : Bool) (cover : Cover) (result : List Node) : Read Node := do
  expect "=>"
  let parameters ← parametersOf cover
  let body ← arrowBody g isAsync (parameters.all isPlainParameter)
  close (.arrow isAsync) start (parameters ++ result ++ [body])

def afterArrow (arrow : Node) : Read Node := do
  let t ← token
  if arrow.body?.isSome && t.isOperator then
    report .semicolonExpected t.span
    let n ← g.operators 0 arrow
    let t ← token
    unless t.endsStatement do report .semicolonExpected t.span
    return n
  else return arrow

def checkMembers (items : List CoverItem) : Read Unit := do
  for item in items do
    let n := match item.node with
      | .mk .spread _ [inner] => inner
      | n => n
    if n.form == .object then
      for member in n.children do
        match member.form with
        | .initialized _ => report .memberInitializer member.span
        | _ => pure ()

def expressionsOf (items : List CoverItem) : Read (List Node) := do
  if let some item := items.find? (·.isParameter) then failAt .notExpression item.node.span
  return items.map (·.node)

def parenthesized (start : Nat) (items : List Node) : Read Node := do
  for item in items do
    match item with
    | .mk .spread _ [inner] => failAt .spreadInParentheses inner.span
    | _ => pure ()
  match items with
  | [] => failAt .emptyParentheses (← spanFrom start)
  | [n] => close .parentheses start [n]
  | n :: ns =>
    let last := (ns.getLast?.map (·.stop)).getD n.stop
    close .parentheses start [.mk .sequence ⟨n.start, last⟩ (n :: ns)]

/-- Reads parentheses and what they are the head of. A call of `async` looks like the head of an
arrow function as well; then `async` is the word in front. -/
def parenthesesOrArrow (canBeArrow : Bool) (async : Option Node) : Read Node := do
  let here ← position
  let start := (async.map (·.start)).getD here
  let isAsync := async.isSome
  let outside ← context
  let cover ← within (fun c => { c with beforeColon := false, withIn := true }) (coverItems g)
  let isTyped ← typed
  let early ←
    if isTyped && outside.inConditional && (← is ":") then
      attempt do
        let result ← returnAnnotation g ":"
        let arrow ← arrowRest g start isAsync cover [result]
        if outside.beforeColon && !(← is ":") then fail .arrowNotAllowed
        return arrow
    else pure none
  if let some arrow := early then return arrow
  let result ←
    if isTyped && !outside.beforeColon && (← is ":") then
      attempt do
        let result ← returnAnnotation g ":"
        unless ← is "=>" do fail .arrowNotAllowed
        return result
    else pure none
  if cover.items.any (·.isParameter) || result.isSome || (← is "=>") then
    if (← token).newline then failAt .lineBreakBeforeArrow (← spanFrom start)
    if !canBeArrow then failAt .arrowNotAllowed (← spanFrom start)
    let arrow ← arrowRest g start isAsync cover result.toList
    afterArrow g arrow
  else
    checkMembers cover.items
    let items ← expressionsOf cover.items
    match async with
    | some callee => close .call start (callee :: items)
    | none => parenthesized start items

end ComponentConverter.Script
