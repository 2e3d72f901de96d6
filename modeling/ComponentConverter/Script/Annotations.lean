import ComponentConverter.Script.Patterns

namespace ComponentConverter.Script

open Read

variable (g : Grammar)

/-- Reads dotted names. A point without a name behind it ends them. -/
def entityName : Read Unit := do
  let (name, _) ← anyName
  if name == "void" then report .semicolonExpected (.point (← position))
  let _ ← many do
    if ← eat "." then
      let t ← token
      if !t.isMark "#" && !t.isAnyWord then
        report .memberNameExpected (.point t.start)
        return none
      let _ ← anyName
      return some ()
    return none

def innerType : Read Node := within (fun c => { c with withoutConditionalTypes := false }) g.type

def opensTypes : Read Bool := return (← isLess) || (← is "<<")

def expectLess : Read Unit := do
  let s ← get
  if ← opensTypes then resume (s.here.drop 1) s.token.start (s.token.start + 1)
  else expect "<"

def typeArguments : Read Node := do
  let start ← position
  expectLess
  let types ← listUntil isGreater (innerType g)
  expectGreater
  close .typeArguments start types

def typeArguments? : Read (List Node) := do
  if (← opensTypes) && !(← token).newline then return [← typeArguments g] else return []

def typeAnnotation : Read Node := do
  let start ← position
  expect ":"
  let inner ← innerType g
  close .other start [inner]

def typeAnnotation? : Read (List Node) := do
  if (← typed) && (← is ":") then return [← typeAnnotation g] else return []

def typeAfter (mark : String) : Read Node := do
  unless (← is mark) || (← isWord mark) do fail (.tokenUnexpected (← token).kindName mark)
  bump
  innerType g

def returnAnnotation (mark : String) : Read Node := do
  let start ← position
  unless ← eat mark do fail (.tokenExpected mark (← token).kindName)
  let asserts := (← isWord "asserts") && (← peek).isReference
  if asserts then bump
  let next ← peek
  let isPredicate := (← token).isReference && next.isWord "is" && !next.newline
  if asserts || isPredicate then
    let _ ← anyName
    let inner ←
      if isPredicate then
        expectWord "is"
        pure [← innerType g]
      else pure []
    close .other start inner
  else
    let inner ← innerType g
    close .other start [inner]

def returnAnnotation? : Read (List Node) := do
  if (← typed) && (← is ":") then return [← returnAnnotation g ":"] else return []

def Token.followsModifier (t : Token) : Bool :=
  !t.newline && (t.isAnyWord || t.isString || t.isNumeric || ["[", "\x7b", "*", "...", "#"].any t.isMark)

def eatModifier (words : List String) (sparesBlock : Bool) : Read (Option String) := do
  unless ← typed do return none
  refuseBroken
  let t ← token
  if t.isEnd then fail .endOfScript
  match words.find? t.isWord with
  | none => return none
  | some word =>
    let next ← peek
    if sparesBlock && word == "static" && next.isMark "\x7b" then return none
    if next.followsModifier then
      bump
      return some word
    return none

/-- Takes a word in front of a parameter or a member that only a property of a constructor may
have, and tells whether there was one. -/
def eatPropertyModifier : Read Bool := do
  let t ← token
  let next ← peek
  if (← typed) && ["public", "protected", "private", "readonly"].any t.isWord &&
      (next.isAnyWord || next.isMark "\x7b" || next.isMark "[") then
    let _ ← eatModifier ["public", "protected", "private", "readonly"] false
    return true
  else return false

structure ParameterWords where
  variance : Bool
  constant : Bool

def eatParameterWord (allowed : ParameterWords) (read : List String) : Read (Option (List String)) := do
  let words :=
    ["public", "private", "protected", "readonly", "abstract", "const", "override", "in", "out"]
  match ← eatModifier words false with
  | none => return none
  | some word =>
    let span ← lastSpan
    match word with
    | "const" => unless allowed.constant do report (.functionParameterModifier word) span
    | "in" =>
      if !allowed.variance then report (.classParameterModifier word) span
      else if read.contains "in" then report (.repeatedModifier word) span
      else if read.contains "out" then report (.modifierOrder "in" "out") span
    | "out" =>
      if !allowed.variance then report (.classParameterModifier word) span
      else if read.contains "out" then report (.repeatedModifier word) span
    | _ => report (.parameterModifier word) span
    return some (word :: read)

def typeParameter (allowed : ParameterWords) : Read Node := do
  let start ← position
  let _ ← iterate (eatParameterWord allowed) []
  let _ ← anyName
  let bound ← if ← eatWord "extends" then pure [← innerType g] else pure []
  let default ← if ← eat "=" then pure [← innerType g] else pure []
  close .other start (bound ++ default)

def typeParameters (allowed : ParameterWords) : Read Node := do
  let start ← position
  unless ← isLess do unexpected "< (jsx tag start)"
  bump
  let parameters ← listUntil isGreater (typeParameter g allowed)
  expectGreater
  close .other start parameters

def typeParameters? (allowed : ParameterWords) : Read (List Node) := do
  if (← typed) && (← isLess) then return [← typeParameters g allowed] else return []

def functionWords : ParameterWords := ⟨false, true⟩

def classWords : ParameterWords := ⟨true, true⟩

def aliasWords : ParameterWords := ⟨true, false⟩

end ComponentConverter.Script
