import ComponentConverter.Script.Types

namespace ComponentConverter.Script

open Read

variable (g : Grammar)

def itemsOfBlock (item : Read Node) : Read (List Node) := do
  let items ← many do
    let t ← token
    if t.isEnd then
      report (.tokenExpected "\x7d" t.describe) t.span
      return none
    if t.isMark "\x7d" then return none
    return some (← item)
  unless ← isEnd do bump
  return items

def block : Read Node := do
  let start ← position
  expect "\x7b"
  let statements ← within (fun c => { c with inCase := false }) (itemsOfBlock g.listItem)
  close .block start statements

/-- Reads inside a function, where no label and no loop from outside is in force. -/
def inFunction {α : Type} (isAsync isGenerator : Bool) (r : Read α) : Read α := do
  let s ← get
  set { s with labels := [] }
  let a ← within (fun c => { c with
    inFunction := true, inAsync := isAsync, inGenerator := isGenerator, inStaticBlock := false,
    breakAllowed := false, continueAllowed := false }) r
  modify fun t => { t with labels := s.labels, arrowStart := s.arrowStart }
  return a

def strictRequest? : Node → Option Bool
  | .mk .expressionStatement _ [.mk (.string value) span _] =>
    some (value == some "use strict" && span.stop - span.start == 12)
  | _ => none

def strictRequestIn? : List Node → Option Node
  | [] => none
  | n :: ns =>
    match strictRequest? n with
    | none => none
    | some true => some n
    | some false => strictRequestIn? ns

def checkStrictRequest (isSimple : Bool) (body : Node) : Read Unit := do
  if !isSimple then
    if let some n := strictRequestIn? body.children then report .strictDirective n.span

def checkAmbientBody : Read Unit := do
  if (← context).inDeclaration && (← typed) && (← is "\x7b") then report .ambientBody (← token).span

/-- Reads the body of a function. Where there are types, it may be missing. -/
def functionBody? (isAsync isGenerator isSimple : Bool) : Read (Option Node) := do
  checkAmbientBody
  inFunction isAsync isGenerator do
    if (← typed) && !(← is "\x7b") && (← token).endsStatement then
      let _ ← eatSemicolon
      return none
    let body ← within (fun c => { c with withIn := true, inPlainFunction := true }) (block g)
    checkStrictRequest isSimple body
    return some body

def checkAmbientParameters (parameters : List Node) : Read Unit := do
  for p in parameters do
    if let some n := p.children.head? then
      if n.form == .assignment true then report .ambientInitializer n.span

/-- Reads what follows the name of a function, and judges its parameters by `check`: its parts, and
whether it has a body. -/
def functionRestChecked (isAsync isGenerator : Bool) (check : List Node → Read Unit) : Read (List Node × Bool) := do
  let generics ← typeParameters? g functionWords
  expect "("
  let parameters ← within (fun c => { c with
      inParameters := true, inFunction := false, inAsync := isAsync, inGenerator := isGenerator }) do
    let parameters ← formalParameters g false
    check parameters
    return parameters
  expect ")"
  let result ← returnAnnotation? g
  let body ← functionBody? g isAsync isGenerator (areSimple parameters)
  if (← typed) && body.isNone then checkAmbientParameters parameters
  return (generics ++ parameters ++ result ++ body.toList, body.isSome)

def methodRest (isAsync isGenerator : Bool) (check : List Node → Read Unit) : Read (List Node) := do
  let (parts, _) ← within (fun c => { c with superAllowed := true, inField := false })
    (functionRestChecked g isAsync isGenerator check)
  return parts

def accessorParameters (parameters : List Node) : List Node :=
  parameters.filter fun p => (p.children.head?.map Node.form) != some (.name "this")

def checkAccessor (isSetter : Bool) (place : Span) (parameters : List Node) : Read Unit := do
  let counted := accessorParameters parameters
  if isSetter then
    if counted.length != 1 then report .setterParameters place
    if let some p := parameters.head? then
      if p.children.head?.any (·.form == .spread) then report .restInSetter p.span
  else if !counted.isEmpty then report .getterParameters place

def functionRest (isAsync isGenerator : Bool) : Read (List Node × Bool) :=
  within (fun c => { c with superAllowed := false, inField := false, beforeColon := false })
    (functionRestChecked g isAsync isGenerator fun _ => pure ())

def functionExpression : Read Node := do
  let start ← position
  let isAsync ← eatWord "async"
  expectWord "function"
  let isGenerator ← eat "*"
  let name ←
    if (← token).isAnyWord then
      pure (some (← within (fun c => { c with inAsync := isAsync, inGenerator := isGenerator })
        (bindingIdentifier false)))
    else pure none
  let (parts, hasBody) ← functionRest g isAsync isGenerator
  unless hasBody do unexpected "\x7b"
  close (.functionExpression isAsync isGenerator name.isSome) start (name.toList ++ parts)

structure DeclaredFunction where
  node : Node
  isSpecial : Bool

def declaredFunction (isNameless : Bool) : Read DeclaredFunction := do
  let start ← position
  let isAsync ← eatWord "async"
  expectWord "function"
  let isGenerator ← eat "*"
  let name ←
    if isNameless && !(← token).isAnyWord then pure []
    else pure [← bindingIdentifier false]
  let (parts, _) ← functionRest g isAsync isGenerator
  return ⟨← close .functionDeclaration start (name ++ parts), isAsync || isGenerator⟩

def functionDeclaration (isNameless : Bool) : Read Node := do
  return (← declaredFunction g isNameless).node

def arrowBody (isAsync isSimple : Bool) : Read Node := do
  checkAmbientBody
  inFunction isAsync false do
    if ← is "\x7b" then
      let body ← block g
      checkStrictRequest isSimple body
      return body
    else g.assignment

end ComponentConverter.Script
