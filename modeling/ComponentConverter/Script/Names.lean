import ComponentConverter.Script.Reading

namespace ComponentConverter.Script

open Read

def strictWords : List String :=
  ["implements", "interface", "let", "package", "private", "protected", "public", "static", "yield"]

/-- Whether a token after `let` makes a declaration of it: what strict code alone keeps from being
a name counts as a name. -/
def Token.followsLet (t : Token) : Bool :=
  match t.kind with
  | .word name _ =>
    t.isReference || strictWords.contains name || name == "await" || name == "enum"
  | _ => t.isMark "[" || t.isMark "\x7b"

/-- Reads a name that is no reserved word. Words that strict code reserves are reported. -/
def identifier : Read Node := do
  let t ← token
  match t.kind with
  | .word name _ =>
    let n : Node := .leaf (.name name) t.span
    if name == "enum" then
      bump
      report (.reservedInStrict name) t.span
      return n
    else if strictWords.contains name then
      bump
      reportStrict (.reservedInStrict name) t.span
      return n
    else
      let c ← context
      if name == "await" then
        unless c.inDeclaration do
          fail (if c.inStaticBlock then .identifierExpected else .awaitAsName)
      else if reservedWords.contains name && !(name == "this" && (← typed)) then
        fail .identifierExpected
      else if name == "arguments" && c.inField then report .argumentsInField t.span
      bump
      return n
  | _ => fail .identifierExpected

def isEvalName (name : String) : Bool := name == "eval" || name == "arguments"

def bindingIdentifier (refusesLet : Bool) : Read Node := do
  let t ← token
  if refusesLet && t.isWord "let" then
    unexpected "let is reserved in const, let, class declaration"
  match t.kind with
  | .word name _ =>
    if isEvalName name then
      bump
      reportStrict .evalAsBinding t.span
      return .leaf (.name name) t.span
    else
      let n ← identifier
      let c ← context
      if ((c.inAsync || c.inStaticBlock) && name == "await") || (c.inGenerator && name == "yield") then
        report .identifierExpected t.span
      return n
  | _ => identifier

def anyName : Read (String × Span) := do
  let t ← token
  match t.kind with
  | .word name _ => bump; return (name, t.span)
  | _ => fail .identifierExpected

def privateName : Read Node := do
  let t ← token
  expect "#"
  if (← position) != t.stop then failAt .spaceAfterHash (← spanFrom t.start)
  let (name, span) ← anyName
  close .privateName t.start [.leaf (.property name) span]

def computedKey (g : Grammar) : Read Node := do
  let start ← position
  expect "["
  let inside ← position
  let first ← allowingIn g.assignment
  let inner ←
    if (← typed) && (← is ",") then
      let rest ← many do
        if ← eat "," then return some (← allowingIn g.assignment)
        return none
      report .computedComma (← spanFrom inside)
      close .sequence inside (first :: rest)
    else pure first
  expect "]"
  close (.key none) start [inner]

def propertyKey (g : Grammar) : Read Node := do
  let t ← token
  match t.kind with
  | .word name _ => bump; return .leaf (.key (some name)) t.span
  | .string value => bump; return .leaf (.quotedKey value) t.span
  | .number | .bigint => bump; return .leaf (.key none) t.span
  | _ =>
    if t.isMark "[" then computedKey g
    else unexpected "identifier, string literal, numeric literal or [ for the computed key"

end ComponentConverter.Script
