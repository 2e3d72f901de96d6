import ComponentConverter.Script.Annotations

namespace ComponentConverter.Script

open Read

variable (g : Grammar)

def argument : Read Node := do
  let start ← position
  if ← eat "..." then
    let inner ← g.assignment
    close .spread start [inner]
  else g.assignment

/-- Reads the arguments of a call. Where there are no types, an import takes no comma at its
end. -/
def callArguments (isImport : Bool) : Read (List Node) := do
  let start ← position
  expect "("
  let refusesComma := isImport && !(← typed)
  let items ← within (fun c => { c with beforeColon := false }) <| many do
    if ← is ")" then return none
    let item ← allowingIn (argument g)
    unless ← is ")" do
      expect ","
      if refusesComma && (← is ")") then failAt .commaInImport (← spanFrom start)
    return some item
  expect ")"
  return items

def decorator : Read Node := do
  let start ← position
  expect "@"
  if ← eat "(" then
    let inner ← g.expression
    expect ")"
    close .other start [inner]
  else
    let name ← identifier
    let names ← many do
      if ← eat "." then
        let (name, span) ← anyName
        return some (.leaf (.property name) span)
      return none
    let generics ← if (← typed) && (← isLess) then pure [← typeArguments g] else pure []
    let arguments ←
      if !generics.isEmpty || (← is "(") then callArguments g false else pure []
    close .other start (name :: names ++ generics ++ arguments)

/-- Reads decorators. An export behind them is only known to scripts with types. -/
def decorators (allowsExport : Bool) : Read (List Node) := do
  let start ← position
  let read ← many do
    if ← is "@" then return some (← decorator g)
    return none
  let c ← context
  if !read.isEmpty && (← isWord "export") && !c.inFunction && !c.inClass then
    unless allowsExport do failAt .exportNotAllowed (← spanFrom start)
    unless ← typed do failAt .decoratedExport (← spanFrom start)
  return read

def restParameter (isConstructor : Bool) : Read Node := do
  let start ← position
  expect "..."
  let target ← g.binding
  let value ←
    if ← eatIf (!isConstructor) "=" then
      let value ← g.assignment
      report .restInitializer target.span
      pure [value]
    else pure []
  let annotation ← typeAnnotation? g
  let span ← spanFrom start
  if ← eatIf (!isConstructor && (← typed)) "?" then report .optionalRest (← lastSpan)
  return .mk .spread span (target :: annotation ++ value)

def plainParameter : Read Node := do
  let start ← position
  let isProperty ← eatPropertyModifier
  let target ← g.binding
  let isOptional ← eatIf (← typed) "?"
  let annotation ← typeAnnotation? g
  let targetSpan ← spanFrom target.start
  let parameter ←
    if ← eat "=" then
      if isOptional then report .optionalInitializer targetSpan
      let value ← g.assignment
      if (← context).inDeclaration then report .ambientInitializer (← spanFrom start)
      let pattern ← close (.assignment true) start [target, value]
      close .typed start (pattern :: annotation)
    else close .typed start (target :: annotation)
  if isProperty then report .parameterProperty (← spanFrom start)
  return parameter

def constructorParameter : Read Node := do
  let access ← eatModifier ["public", "protected", "private", "in", "out"] false
  if let some word := access then
    if word == "in" || word == "out" then report (.classParameterModifier word) (← lastSpan)
  let overrides ← eatModifier ["override"] false
  let isFixed ← eatModifier ["readonly"] false
  let isProperty := access.any (fun w => w != "in" && w != "out") || overrides.isSome || isFixed.isSome
  let parameter ← plainParameter g
  if isProperty then
    match parameter.children.head?.map Node.form with
    | some (.name _) | some (.assignment true) => pure ()
    | _ => failAt .parameterPropertyPattern parameter.span
  return parameter

def formalParameter (isConstructor : Bool) (before : Option Span) : Read Node := do
  if let some span := before then report .restParameterNotLast span
  let start ← position
  let decorated ← decorators g false
  let parameter ←
    if ← is "..." then
      let rest ← restParameter g isConstructor
      close .typed rest.start [rest]
    else if isConstructor then constructorParameter g
    else plainParameter g
  let isRest := parameter.children.head?.any (·.form == .spread)
  let span ← spanFrom start
  unless ← is ")" do
    expect ","
    if isRest && (← is ")") then report .commaAfterRest (← lastSpan)
  return .mk .typed span (parameter.children ++ decorated)

def restOf? (parameters : List Node) : Option Span :=
  (parameters.filterMap fun p =>
    (p.children.head?.filter (·.form == .spread)).map (·.span)).head?

def formalParameters (isConstructor : Bool) : Read (List Node) := do
  let step (read : List Node) : Read (Option (List Node)) := do
    if ← is ")" then return none
    return some ((← formalParameter g isConstructor (restOf? read)) :: read)
  return (← iterate step []).reverse

def areSimple (parameters : List Node) : Bool :=
  parameters.all fun p => match p.children.head?.map Node.form with
    | some (.name _) => true
    | _ => false

end ComponentConverter.Script
