import ComponentConverter.Script.Declarations

namespace ComponentConverter.Script

open Read

variable (g : Grammar)

def condition : Read Node := do
  expect "("
  let n ← allowingIn g.expression
  expect ")"
  return n

def loopBody : Read Node := within (fun c => { c with breakAllowed := true, continueAllowed := true }) g.statement

def ifStatement : Read Node := do
  let start ← position
  bump
  let test ← condition g
  let yes ← g.statement
  let no ← if ← eatWord "else" then pure [← g.statement] else pure []
  close .other start (test :: yes :: no)

def whileStatement : Read Node := do
  let start ← position
  bump
  let test ← condition g
  let body ← loopBody g
  close .other start [test, body]

def doStatement : Read Node := do
  let start ← position
  bump
  let body ← loopBody g
  expectWord "while"
  let test ← condition g
  let _ ← eat ";"
  close .other start [body, test]

structure LoopHead where
  parts : List Node
  isOverValues : Bool := false

def loopSource (first : List Node) : Read LoopHead := do
  if ← eatWord "of" then
    let source ← allowingIn g.assignment
    return ⟨first ++ [source], true⟩
  else
    bump
    let source ← allowingIn g.expression
    return ⟨first ++ [source], false⟩

def countingHead (first : List Node) : Read LoopHead := do
  let test ←
    if ← eat ";" then pure []
    else
      let n ← allowingIn g.expression
      let _ ← eat ";"
      pure [n]
  let next ← if ← is ")" then pure [] else pure [← allowingIn g.expression]
  return ⟨first ++ test ++ next, false⟩

def checkLoopVariables (declared : List Node) : Read Unit := do
  match declared with
  | [.mk (.declarator isInitialized isAnnotated) _ (target :: _)] =>
    if isInitialized then report .loopInitializer target.span
    if isAnnotated then report .loopType target.span
  | _ =>
    for n in declared.drop 1 do
      if let some target := n.children.head? then report .loopVariables target.span

def forHead : Read LoopHead := do
  let t ← token
  let declares := t.isWord "var" || t.isWord "const" || (t.isWord "let" && (← peek).followsLet)
  if declares then
    let declared ← declarators g true
    if (← isWord "of") || (← isWord "in") then
      checkLoopVariables declared
      loopSource g declared
    else
      expect ";"
      countingHead g declared
  else if ← eat ";" then countingHead g []
  else
    let first ← refusingIn g.expression
    if (← isWord "of") || (← isWord "in") then
      let isIn ← isWord "in"
      let target ← asPattern .target first
      if isIn && (← typed) then
        match target.form with
        | .array | .object | .invalid => report .loopPattern target.span
        | _ => pure ()
      loopSource g [target]
    else
      expect ";"
      countingHead g [first]

def forStatement : Read Node := do
  let start ← position
  bump
  let t ← token
  let isAwaited ← eatWord "await"
  expect "("
  let head ← within (fun c => { c with inLoopHead := true, inAwaitedLoopHead := isAwaited })
    (forHead g)
  expect ")"
  let body ← loopBody g
  if isAwaited && !head.isOverValues then failAt .awaitInCountingLoop t.span
  close .other start (head.parts ++ [body])

def caseBody : Read (List Node) := many do
  if (← is "\x7d") || (← isWord "case") || (← isWord "default") then return none
  return some (← within (fun c => { c with inCase := true }) g.listItem)

def switchCase (read : List Node × Bool) : Read (Option (List Node × Bool)) := do
  if ← eatWord "default" then
    if read.2 then fail .repeatedDefault
    expect ":"
    let body ← caseBody g
    return some (read.1 ++ body, true)
  else if ← eatWord "case" then
    let test ← allowingIn g.expression
    expect ":"
    let body ← caseBody g
    return some (read.1 ++ test :: body, read.2)
  else return none

def switchStatement : Read Node := do
  let start ← position
  bump
  let subject ← condition g
  expect "\x7b"
  let (parts, _) ← within (fun c => { c with breakAllowed := true })
    (iterate (switchCase g) ([], false))
  expect "\x7d"
  close .other start (subject :: parts)

def catchClause : Read (List Node) := do
  expectWord "catch"
  let parameter ←
    if ← eat "(" then
      let target ← g.binding
      let annotation ← typeAnnotation? g
      expect ")"
      pure (target :: annotation)
    else pure []
  return parameter ++ [← block g]

def finallyClause : Read (List Node) := do
  if ← eatWord "finally" then return [← block g] else return []

def tryStatement : Read Node := do
  let start ← position
  bump
  let body ← block g
  let t ← token
  let handler ← if t.isWord "catch" then catchClause g else pure []
  let final ← finallyClause g
  if handler.isEmpty && final.isEmpty then report .semicolonExpected (.point t.start)
  close .other start (body :: handler ++ final)

/-- Passes over a clause whose `try` is missing. The statement is the word alone. -/
def strayClause : Read Node := do
  let t ← token
  report .semicolonExpected t.span
  let passed (r : Read (List Node)) : Read Unit := recover (do let _ ← r) fun _ => pure ()
  if t.isWord "catch" then passed (catchClause g)
  passed (finallyClause g)
  return .mk .expressionStatement t.span [.leaf .invalid t.span]

def throwStatement : Read Node := do
  let start ← position
  bump
  if (← token).newline then fail .lineBreakAfterThrow
  let value ← allowingIn g.expression
  expectSemicolon
  close .other start [value]

def returnStatement : Read Node := do
  let start ← position
  bump
  let value ←
    if (← token).endsStatement then pure [] else pure [← allowingIn g.expression]
  expectSemicolon
  unless (← context).inFunction do report .returnOutside (← spanFrom start)
  close .returnStatement start value

def jumpStatement : Read Node := do
  let start ← position
  let isBreak ← isWord "break"
  bump
  let label ←
    if ← eatSemicolon then pure none
    else
      let n ← identifier
      expectSemicolon
      pure (some n)
  let span ← spanFrom start
  let labels := (← get).labels
  let isKnown := label.all fun n => labels.any (n.form == .name ·)
  let c ← context
  if isBreak then
    if !isKnown then report .breakTarget span
    else if !c.breakAllowed then report .breakOutside span
  else if !c.continueAllowed then report .continueOutside span
  else if !isKnown then report .continueTarget span
  close .other start []

def withStatement : Read Node := do
  let t ← token
  if ← typed then report .unsupportedWith t.span
  reportStrict .withStatement t.span
  bump
  let scope ← condition g
  let body ← within (fun c => { c with inFunction := true }) g.statement
  close .other t.start [scope, body]

def labelledFunction : Read Node := do
  let f ← declaredFunction g false
  report .labelledFunction f.node.span
  if f.isSpecial then report .labelledGenerator f.node.span
  return f.node

def labelled (label : String) (name : Node) : Read Node := do
  let labels := (← get).labels
  modify fun s => { s with labels := labels ++ [label] }
  let body ← within (fun c => { c with breakAllowed := true }) do
    if ← isWord "function" then labelledFunction g else g.statement
  for other in labels do
    if other == label then report (.repeatedLabel label) name.span
  modify fun s => { s with labels := s.labels.erase label }
  close .other name.start [name, body]

def endExpression (start : Nat) (n : Node) : Read Node := do
  if ← eatSemicolon then close .expressionStatement start [n]
  else if (← token).isOperator then
    report .semicolonExpected (← token).span
    let n ← g.operators 0 n
    close .expressionStatement start [n]
  else fail .statementEndExpected

/-- Reads a statement that starts with an expression. A name may also be a label, or the first
word of a declaration of types. -/
def expressionStatement (decorated : List Node) : Read Node := do
  let start ← position
  let n ← allowingIn g.expression
  match n.form with
  | .name label =>
    if ← eat ":" then labelled g label n
    else
      let declared ← if ← typed then namedDeclaration? g decorated n else pure none
      match declared with
      | some declared => return declared
      | none => endExpression g start n
  | _ => endExpression g start n

def awaitedStatement : Read Node := do
  let start ← position
  let first ← token
  bump
  match ← usingDeclaration? g start with
  | some n => return n
  | none =>
    let c ← context
    if c.inFunction && !c.inAsync then report .awaitInFunction first.span
    let operand ← g.unary
    let awaited ← close .awaited start [operand]
    let n ← allowingIn (g.operators 0 awaited)
    let _ ← eatSemicolon
    close .expressionStatement start [n]

def typedStatement? : Read (Option Node) := do
  unless ← typed do return none
  let t ← token
  let next ← peek
  let isNamed := next.isAnyWord && !next.newline
  if t.isWord "const" && next.isWord "enum" then
    bump
    bump
    return some (← enumeration g t.start)
  else if isNamed && (t.isWord "interface" || t.isWord "type" || t.isWord "enum") then
    bump
    let n ←
      if t.isWord "interface" then interfaceDeclaration g t.start
      else if t.isWord "type" then typeAlias g t.start
      else enumeration g t.start
    return some n
  else return none

def declaration (declares : Bool) (r : Read Node) : Read Node := do
  unless declares do report .declarationNotAllowed (← token).span
  r

def statementFrom (declares : Bool) (start : Nat) (decorated : List Node) : Read Node := do
  if let some n ← typedStatement? g then return n
  let t ← token
  let next ← peek
  let other : Read Node := expressionStatement g decorated
  match t.kind with
  | .mark =>
    match t.lexeme with
    | "\x7b" => block g
    | ";" => bump; return .leaf .emptyStatement t.span
    | _ => other
  | .word name false =>
    match name with
    | "var" => variableStatement g
    | "const" => if declares then variableStatement g else other
    | "let" => if declares && next.followsLet then variableStatement g else other
    | "using" =>
      match ← if declares then usingDeclaration? g t.start else pure none with
      | some n => return n
      | none => other
    | "await" =>
      if declares && next.isWord "using" then awaitedStatement g else other
    | "function" => declaration declares (functionDeclaration g false)
    | "class" => declaration declares (classRule g start decorated true false)
    | "if" => ifStatement g
    | "for" => forStatement g
    | "while" => whileStatement g
    | "do" => doStatement g
    | "switch" => switchStatement g
    | "try" => tryStatement g
    | "catch" | "finally" => strayClause g
    | "throw" => throwStatement g
    | "return" => returnStatement g
    | "break" | "continue" => jumpStatement
    | "with" => withStatement g
    | "debugger" =>
      bump
      expectSemicolon
      close .other t.start []
    | "async" =>
      if next.isWord "function" && !next.newline then functionDeclaration g false else other
    | _ => other
  | _ => other

def importStatement : Read Node := do
  let start ← position
  let n ← g.expression
  let _ ← eatSemicolon
  close .expressionStatement start [n]

def statementRule (declares : Bool) : Read Node := do
  let start ← position
  let decorated ← decorators g true
  let next ← peek
  if (← isWord "import") && (next.isMark "(" || next.isMark ".") then importStatement g
  else if (← isWord "import") || (← isWord "export") then fail .moduleItem
  else statementFrom g declares start decorated

end ComponentConverter.Script
