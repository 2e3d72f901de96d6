import ComponentConverter.Script.Functions

namespace ComponentConverter.Script

open Read

variable (g : Grammar)

/-- A member of a class, and what the class has to know about it. -/
structure ClassMember where
  node : Node
  isAbstract : Bool := false
  isConstructor : Bool := false

structure MemberHead where
  start : Nat
  decorated : List Node := []
  access : Option String := none
  declared : Option Span := none
  staticWord : Option Span := none
  isStatic : Bool := false
  isAccessor : Bool := false
  isAbstract : Bool := false
  isOverride : Bool := false
  isFixed : Option Span := none
  lastWord : Option Span := none

def startsMethod : Read Bool := return (← is "(") || ((← typed) && (← isLess))

def startsField (canEndLine : Bool) : Read Bool := do
  let t ← token
  return ((← typed) && (t.isMark "!" || t.isMark ":")) || t.isMark "=" || t.isMark "\x7d" ||
    (if canEndLine then t.endsStatement else t.isMark ";")

def isConstructorKey (key : Node) : Bool :=
  key.form == .key (some "constructor") || key.form == .quotedKey (some "constructor")

def classMethod (head : MemberHead) (key : Node) (isAsync isGenerator : Bool)
    (check : List Node → Read Unit) : Read ClassMember := do
  let (parts, hasBody) ← within (fun c => { c with superAllowed := true, inField := false })
    (functionRestChecked g isAsync isGenerator check)
  let span ← spanFrom head.start
  if key.form == .privateName then
    if head.access.isSome then report .privateAccess ⟨span.start, key.stop⟩
  else if head.isAbstract && hasBody then report .abstractBody span
  return { node := .mk .other span (head.decorated ++ key :: parts), isAbstract := head.isAbstract }

def classField (head : MemberHead) (key : Node) (isOptional : Bool) : Read ClassMember := do
  if isConstructorKey key then failAt .constructorField key.span
  if key.form == .privateName && head.declared.isSome then
    report (.privateModifier "declare") key.span
  if (← typed) && !isOptional then let _ ← eat "!"
  let annotation ← typeAnnotation? g
  within (fun c => { c with withIn := true, inField := true }) do
    let value ← if ← eat "=" then pure [← g.assignment] else pure []
    unless ← eatSemicolon do report .semicolonExpected (← token).span
    let span ← spanFrom head.start
    if key.form == .privateName then
      if head.access.isSome then report .privateAccess ⟨span.start, key.stop⟩
    else if head.isAbstract && !value.isEmpty then report .abstractInitializer span
    return {
      node := .mk .other span (head.decorated ++ key :: annotation ++ value)
      isAbstract := head.isAbstract && key.form != .privateName }

def classConstructor (head : MemberHead) (key : Node) : Read ClassMember := do
  if (← typed) && head.isOverride then
    report (.constructorModifier "override") (← spanFrom head.start)
  if (← typed) && (← isLess) then
    let start ← position
    if (← peek).isMark ">" then
      bump
      let close ← position
      bump
      report .emptyTypeParameters (← spanFrom start)
      report .constructorTypeParameters (← spanFrom close)
    else
      let generics ← typeParameters g functionWords
      for parameter in generics.children do report .constructorTypeParameters parameter.span
  expect "("
  let parameters ← formalParameters g true
  expect ")"
  if (← typed) && (← is ":") then
    let annotation ← typeAnnotation g
    if let some type := annotation.children.head? then report .constructorResult type.span
  let body ← within (fun c => { c with superAllowed := true, inField := false })
    (functionBody? g false false (areSimple parameters))
  if (← typed) && body.isNone then checkAmbientParameters parameters
  if let some span := head.staticWord then report (.constructorModifier "static") span
  if let some span := head.lastWord then
    if head.isAbstract then report .abstractPlace span
  let node ← close .other head.start (head.decorated ++ key :: parameters ++ body.toList)
  return { node, isConstructor := body.isSome }

def memberKey : Read Node := do
  if ← is "#" then
    let n ← privateName
    if n.children.any (·.form == .property "constructor") then report .privateConstructor n.span
    return n
  else propertyKey g

def eatMemberWord (head : MemberHead) : Read (Option MemberHead) := do
  match ← eatModifier ["abstract", "readonly", "override", "static"] true with
  | none => return none
  | some word =>
    let span ← lastSpan
    let head := { head with lastWord := some span }
    match word with
    | "abstract" =>
      if head.isAbstract then report (.repeatedModifier "abstract") span
      else if head.isOverride then report (.modifierOrder "abstract" "override") span
      else if head.isFixed.isSome then report (.modifierOrder "abstract" "readonly") span
      return some { head with isAbstract := true }
    | "override" =>
      if head.isOverride then report (.repeatedModifier "override") span
      else if head.isFixed.isSome then report (.modifierOrder "override" "readonly") span
      else if head.declared.isSome then report (.modifierConflict "override" "declare") span
      else if !(← context).hasBase then report .overrideWithoutBase span
      return some { head with isOverride := true }
    | "readonly" =>
      if head.isFixed.isSome then
        report (.repeatedModifier "readonly") span
        return some head
      return some { head with isFixed := some span }
    | _ =>
      if head.isOverride then report (.modifierOrder "static" "override") span
      return some { head with isStatic := true }

def staticBlock (start : Nat) : Read ClassMember := do
  let body ← within (fun c => { c with inStaticBlock := true, inField := true }) (block g)
  return { node := ← close .other start [body] }

def classAccessor (head : MemberHead) (word : Node) (isSetter : Bool) : Read ClassMember := do
  let key ← memberKey g
  if head.isFixed.isSome then report .readonlyAccessor word.span
  if isConstructorKey key then report .constructorAccessor word.span
  classMethod g head key false false fun parameters => do
    let counted := accessorParameters parameters
    if isSetter then
      if counted.length != 1 then report .setterParameters word.span
      if let some rest := parameters.head?.bind (·.children.head?) then
        if rest.form == .spread then report .restInSetter rest.span
    else if !counted.isEmpty then report .getterParameters word.span

def asyncMethod (head : MemberHead) (isOptional : Bool) : Read ClassMember := do
  if (← eatModifier ["override"] false).isSome then
    report (.modifierOrder "override" "async") (← lastSpan)
  let isGenerator ← eat "*"
  let key ← memberKey g
  if isConstructorKey key then failAt .constructorAsync key.span
  if head.isFixed.isSome then failAt .readonlyMethod (← spanFrom head.start)
  if !isOptional && (← typed) then let _ ← eat "?"
  classMethod g head key true isGenerator fun _ => pure ()

def namedMember (head : MemberHead) : Read ClassMember := do
  let free (_ : List Node) : Read Unit := pure ()
  if ← eat "*" then
    let key ← memberKey g
    if head.isFixed.isSome then report .readonlyMethod (← spanFrom head.start)
    if isConstructorKey key then report .constructorGenerator (← spanFrom head.start)
    return ← classMethod g head key false true free
  let key ← match head.isFixed, ← isOneOf ["!", ":"] with
    | some span, true => pure (.leaf (.key (some "readonly")) span)
    | _, _ => memberKey g
  let isOptional ← eatIf (← typed) "?"
  if ← startsMethod then
    if let some span := head.declared then report (.elementModifier "declare") span
    if head.isFixed.isSome then failAt .readonlyMethod (← spanFrom head.start)
    if isConstructorKey key then return ← classConstructor g head key
    return ← classMethod g head key false false free
  let t ← token
  let isNextGenerator := t.newline && t.isMark "*"
  let isAccessor := (key.form == .key (some "get") || key.form == .key (some "set")) &&
    !(← startsField false) && !isNextGenerator
  if !isAccessor && (← startsField true) then classField g head key isOptional
  else if key.form == .key (some "async") && !t.newline then asyncMethod g head isOptional
  else if isAccessor then classAccessor g head key (key.form == .key (some "set"))
  else unexpected "* for generator, private key, identifier or async"

def memberRest (head : MemberHead) : Read ClassMember := do
  let head ← iterate eatMemberWord head
  let isAccessor ← if (← typed) && !head.isAccessor then takeAccessor else pure false
  let head := { head with isAccessor := head.isAccessor || isAccessor }
  if head.isStatic && (← is "\x7b") then
    if let some span := head.declared then report .modifiersNotAllowed span
    if head.access.isSome then report .modifiersNotAllowed (← token).span
    return ← staticBlock g head.start
  if (← isWord "static") && (← peek).isMark "\x7b" then
    if let some span := head.lastWord then report .modifiersNotAllowed span
    if let some span := head.staticWord then report .modifiersNotAllowed span
    bump
    return ← staticBlock g head.start
  if (← typed) && !head.isAbstract && !head.isOverride && head.access.isNone then
    if let some n ← indexSignature? g then return { node := ← close .other head.start [n] }
  namedMember g head
where
  takeAccessor : Read Bool := do
    if (← isWord "accessor") && (← peek).followsModifier then
      bump
      return true
    return false

def wordMember? (head : MemberHead) (word : String) (span : Span)
    (canBeOptional : Bool) : Read (Option ClassMember) := do
  let key : Node := .leaf (.key (some word)) span
  if ← startsMethod then
    return some (← classMethod g head key false false fun _ => pure ())
  else if (← startsField false) || (canBeOptional && (← typed) && (← is "?")) then
    let isOptional ← eatIf (← typed) "?"
    return some (← classField g head key isOptional)
  else return none

def classMember : Read ClassMember := do
  let start ← position
  let decorated ← decorators g false
  let head : MemberHead := { start, decorated }
  let isTyped ← typed
  let t ← token
  let head ←
    if isTyped && t.isWord "declare" then
      bump
      if let some m ← wordMember? g head "declare" t.span false then return m
      pure { head with declared := some (← spanFrom start) }
    else pure head
  let access ←
    if isTyped then eatModifier ["public", "protected", "private", "in", "out"] false else pure none
  let head ← match access with
    | some word =>
      if word == "in" || word == "out" then
        report (.classParameterModifier word) (← lastSpan)
        pure head
      else pure { head with access := some word }
    | none => pure head
  let head ←
    if ← eatWordIf isTyped "declare" then pure { head with declared := some (← lastSpan) }
    else pure head
  let t ← token
  if t.isWord "static" then
    bump
    let named ← if ← is "\x7b" then pure none else wordMember? g head "static" t.span true
    match named with
    | some m => return m
    | none => memberRest g { head with staticWord := some t.span, isStatic := true }
  else memberRest g head

def classMembers : Read (List ClassMember) := do
  let step (read : List ClassMember) : Read (Option (List ClassMember)) := do
    if ← is "\x7d" then return none
    if ← eat ";" then return some read
    let m ← within (fun c => { c with superAllowed := true }) (classMember g)
    if m.isConstructor && read.any (·.isConstructor) && !(← context).inDeclaration then
      report .repeatedConstructor m.node.span
    return some (m :: read)
  return (← iterate step []).reverse

def classBase : Read (List Node) := do
  let base ← g.leftHand
  let arguments ← if (← typed) && (← isLess) then pure [← typeArguments g] else pure []
  return base :: arguments

def heritage : Read Node := do
  let (name, span) ← anyName
  let base ← g.accesses (.leaf (.name name) span)
  match base.form with
  | .instantiation => return base
  | .name _ | .member => pure ()
  | _ => report .interfaceBase base.span
  let arguments ← if ← isLess then pure [← typeArguments g] else pure []
  close .other base.start (base :: arguments)

def heritages : Read (List Node) :=
  listUntil (do return (← is "\x7b") || (← isWord "implements") || (← isWord "extends")) (heritage g)

def classHeritage : Read (List Node × List Node) := do
  let isTyped ← typed
  let first ←
    if ← eatWord "extends" then
      let base ← classBase g
      if ← eatIf isTyped "," then
        for other in ← heritages g do report .severalBases other.span
      pure base
    else pure []
  if ← eatWord "extends" then
    report .repeatedExtends (← lastSpan)
    let _ ← classBase g
  let interfaces ← if ← eatWordIf isTyped "implements" then heritages g else pure []
  if ← eatWordIf isTyped "implements" then
    report .repeatedImplements (← lastSpan)
    let _ ← heritages g
  let late ←
    if ← eatWordIf isTyped "extends" then
      report .lateExtends (← lastSpan)
      classBase g
    else pure []
  let bases := if first.isEmpty then late else first
  return (bases, bases ++ interfaces)

def classRule (start : Nat) (decorated : List Node) (isNamed isAbstract : Bool) : Read Node := do
  expectWord "class"
  let t ← token
  let isName := t.isAnyWord && !t.isWord "extends" && !(t.isWord "implements" && (← typed))
  let name ← if isNamed || isName then pure [← bindingIdentifier true] else pure []
  if ← typed then
    for n in name do
      if builtInTypes.any fun word => word != "intrinsic" && n.form == .name word then report .className n.span
  let generics ← typeParameters? g classWords
  let (bases, heritage) ← classHeritage g
  expect "\x7b"
  let members ← within (fun c => { c with hasBase := !bases.isEmpty, inClass := true })
    (classMembers g)
  expect "\x7d"
  let node ← close .classExpression start
    (decorated ++ name ++ generics ++ heritage ++ members.map (·.node))
  unless isAbstract do
    for m in members do
      if m.isAbstract then report .abstractMember m.node.span
  return node

end ComponentConverter.Script
