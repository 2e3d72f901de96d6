import ComponentConverter.Script.Functions

namespace ComponentConverter.Script

open Read

variable (g : Grammar)

def patternLength (inClass : Bool) : Text → Option Nat
  | [] => none
  | '\\' :: c :: t => if isLineEnd c then none else (patternLength inClass t).map (· + 2)
  | c :: t =>
    if isLineEnd c then none
    else if c == '/' && !inClass then some 1
    else
      let inClass := if c == '[' then true else if c == ']' then false else inClass
      (patternLength inClass t).map (· + 1)

def patternFlags : Text := "dgimsuvy"

def checkFlags (flags : Text) (span : Span) : Read Unit := do
  if flags.any (!patternFlags.contains ·) then report .patternFlags span
  if let some flag := patternFlags.find? fun f => 1 < flags.count f then
    report (.repeatedFlag flag) span

/-- Reads a pattern and its flags. Nothing can be read after a pattern without an end. -/
def patternLiteral : Read Node := do
  let s ← get
  let start := s.token.start
  match patternLength false (s.here.drop 1) with
  | none =>
    resume [] start (start + bytes s.here)
    failAt .unterminatedPattern ⟨start, start + bytes (s.here.takeWhile (!isLineEnd ·))⟩
  | some length =>
    let rest := s.here.drop (length + 1)
    let flags := rest.takeWhile continuesWord
    resume (rest.drop flags.length) start
      (start + bytes (s.here.take (length + 1 + flags.length)))
    checkFlags flags (← spanFrom start)
    close .literal start []

def keepComma (start : Nat) (comma : Span) : Read Unit := modify fun s =>
  { s with trailingCommas := (start, comma) :: s.trailingCommas }

def arrayLiteral : Read Node := do
  let start ← position
  expect "["
  let elements ← many do
    if ← is "]" then return none
    let t ← token
    if ← eat "," then return some (.leaf .hole t.span)
    let element ← allowingIn (argument g)
    unless ← is "]" do
      expect ","
      if ← is "]" then keepComma start (← lastSpan)
    return some element
  expect "]"
  close .array start elements

def accessorRest (isSetter : Bool) (key : Node) : Read (List Node) := do
  let before := (← get).issues.length
  let parts ← methodRest g false false (checkAccessor isSetter key.span)
  let isEmpty := !parts.any (·.form == .typed)
  if isSetter && isEmpty && before ≤ (← get).issues.length then
    report .setterParameters key.span
    return .leaf .invalid (.point 0) :: parts
  return parts

def wordMemberRest (start : Nat) (key : Node) (word : String) (modifier : Option Span) : Read Node := do
  if ← eat "?" then report .optionalMember (← lastSpan)
  if ← isOneOf ["=", ",", "\x7d"] then
    if reservedWords.contains word then report .reservedShorthand key.span
    if ← eat "=" then
      let value ← allowingIn g.assignment
      close (.initialized word) start [value]
    else return .leaf (.shorthand word) key.span
  else if word == "get" || word == "set" || word == "async" then
    if let some span := modifier then report .asyncModifier span
    let isGenerator ← if word == "async" then eat "*" else pure false
    let name ← propertyKey g
    if word == "async" then
      let parts ← methodRest g true isGenerator fun _ => pure ()
      close (.method true isGenerator) start (name :: parts)
    else
      let parts ← accessorRest g (word == "set") name
      close .accessor start (name :: parts)
  else
    unexpected ("... , *,  (, [, :, , ?, " ++
      (if ← typed then "=, an identifier, public, protected, private, readonly, <."
        else "= or an identifier"))

def Token.followsKey (t : Token) (key : Node) : Bool :=
  let isWordKey := match key.form with
    | .key (some _) => true
    | _ => false
  ["(", "[", ":", ",", "?", "=", "*", "<"].any t.isMark || t.isAnyWord || t.isString ||
    t.isNumeric || (t.isMark "\x7d" && isWordKey)

def objectMember : Read Node := do
  let start ← position
  if ← eat "..." then
    let inner ← allowingIn g.assignment
    close .spread start [inner]
  else if ← eat "*" then
    let key ← propertyKey g
    let parts ← methodRest g false true fun _ => pure ()
    close (.method false true) start (key :: parts)
  else
    let hasModifier ← eatPropertyModifier
    let modifier ← lastSpan
    let key ← propertyKey g
    let t ← token
    if (← typed) && !t.followsKey key then
      report .semicolonExpected t.span
      let value : Node := .leaf .invalid (← spanFrom start)
      close .pair start [key, value]
    else if ← eat ":" then
      let value ← allowingIn g.assignment
      return .mk .pair ⟨key.start, value.stop⟩ [key, value]
    else if (← is "(") || ((← typed) && (← isLess)) then
      let parts ← methodRest g false false fun _ => pure ()
      close (.method false false) start (key :: parts)
    else
      match key.form with
      | .key (some word) =>
        wordMemberRest g start key word (if hasModifier then some modifier else none)
      | _ => unexpected "identifier"

def objectLiteral : Read Node := do
  let start ← position
  expect "\x7b"
  let (members, comma) ← within (fun c => { c with beforeColon := false })
    (commaListWithEnd "\x7d" (objectMember g))
  if let some span := comma then keepComma start span
  close .object start members

end ComponentConverter.Script
