import ComponentConverter.Script.Statements

namespace ComponentConverter.Script

open Read

variable (g : Grammar)

/-- Reads what is asked of a module behind its name. Only scripts with types know of it. -/
def attributes? : Read Unit := do
  if (← typed) && !(← token).newline then
    if (← isWord "assert") || (← isWord "with") then
      bump
      let _ ← objectLiteral g

def moduleSource : Read Unit := do
  unless (← token).isString do unexpected "a string literal"
  bump
  attributes? g
  let _ ← eatSemicolon

def fromClause : Read Unit := do
  expectWord "from"
  moduleSource g

/-- The name of something that a module hands out. -/
structure ModuleName where
  word : Option String
  text : Text
  span : Span

def moduleName : Read ModuleName := do
  let t ← token
  match t.kind with
  | .string value => bump; return ⟨none, value.getD [], t.span⟩
  | .word name _ => bump; return ⟨some name, name.toList, t.span⟩
  | _ => unexpected "identifier or string"

def importedAs (name : ModuleName) : Read Unit := do
  if ← eatWord "as" then let _ ← bindingIdentifier false
  else
    match name.word with
    | some word => if reservedWords.contains word then failAt .reservedImport name.span
    | none => failAt (.stringImport (String.ofList name.text)) name.span

def importedTypeAs (isTypeImport : Bool) (first : ModuleName) : Read Unit := do
  let told : Read Unit := if isTypeImport then report .doubledType first.span else pure ()
  if !(← token).isAnyWord then told
  else
    let name ← bindingIdentifier false
    if name.form == .name "as" && (← token).isAnyWord then
      let _ ← bindingIdentifier false
      told

def importSpecifier (isTypeImport : Bool) : Read Unit := do
  let first ← moduleName
  if (← typed) && first.word == some "type" && (← token).isAnyWord then
    let second ← moduleName
    if second.word == some "as" then importedTypeAs isTypeImport first
    else
      if isTypeImport then report .doubledType first.span
      importedAs second
  else importedAs first

def importEquals (start : Nat) : Read Node := do
  expect "="
  if (← isWord "require") && (← peek).isMark "(" then
    bump
    expect "("
    unless (← token).isString do unexpected "a string literal"
    bump
    expect ")"
  else entityName
  expectSemicolon
  close .other start []

inductive ImportWord where
  | nothing
  | typeOnly
  | named (isTypeOnly : Bool)
  deriving Repr, DecidableEq

def afterTypeWord : Read ImportWord := do
  if (← is "\x7b") || (← is "*") then return .typeOnly
  let t ← token
  if t.isReference then
    let next ← peek
    if !t.isWord "from" || next.isWord "from" then
      let _ ← bindingIdentifier false
      return .named true
    else if next.isMark "=" then
      let _ ← anyName
      return .named true
  return .named false

def afterPhaseWord : Read ImportWord := do
  if (← is "\x7b") || (← is "*") then return .nothing
  let t ← token
  if (t.isReference && !t.isWord "from") || (← peek).isWord "from" then
    let _ ← bindingIdentifier false
  return .named false

def importWord : Read ImportWord := do
  unless (← token).isReference do return .nothing
  let name ← bindingIdentifier false
  if (← typed) && name.form == .name "type" then afterTypeWord
  else if (name.form == .name "source" || name.form == .name "defer") &&
      !((← typed) && (← is "=")) then afterPhaseWord
  else return .named false

def importDeclaration : Read Node := do
  let start ← position
  expectWord "import"
  if (← token).isString then
    moduleSource g
    close .other start []
  else
    let word ← importWord
    let isNamed := word != .nothing && word != .typeOnly
    if isNamed && (← typed) && (← is "=") then return ← importEquals start
    if isNamed then
      unless ← isWord "from" do expect ","
    if ← eat "*" then
      expectWord "as"
      let _ ← bindingIdentifier false
    else if ← eat "\x7b" then
      let _ ← commaList "\x7d" (importSpecifier (word == .typeOnly || word == .named true))
    fromClause g
    close .other start []

def exportSpecifier (isTypeExport : Bool) : Read ModuleName := do
  let first ← moduleName
  if (← typed) && first.word == some "type" && (← token).isAnyWord then
    let second ← moduleName
    if second.word == some "as" then
      unless (← token).isAnyWord do
        if isTypeExport then report .doubledType first.span
        return second
      let third ← moduleName
      if third.word == some "as" && (← token).isAnyWord then
        let _ ← moduleName
        if isTypeExport then report .doubledType first.span
        return second
      return first
    else
      if isTypeExport then report .doubledType first.span
      if ← eatWord "as" then let _ ← moduleName
      return second
  else
    if ← eatWord "as" then let _ ← moduleName
    return first

/-- The words that no module can hand out as its own. -/
def unboundWords : List String :=
  let others := ["await", "implements", "interface", "let", "private", "protected", "public", "with", "yield"]
  reservedWords.filter (!others.contains ·)

def checkExported (names : List ModuleName) : Read Unit := do
  for name in names do
    match name.word with
    | some word => if unboundWords.contains word then report (.fromMissing word) name.span
    | none => failAt .stringExport name.span

def exportList (start : Nat) (isTypeExport : Bool) : Read Node := do
  expect "\x7b"
  let names ← commaList "\x7d" (exportSpecifier isTypeExport)
  if ← isWord "from" then fromClause g
  else
    checkExported names
    let _ ← eatSemicolon
  close .other start []

def exportAll (start : Nat) : Read Node := do
  expect "*"
  if ← eatWord "as" then let _ ← moduleName
  fromClause g
  close .other start []

def lateDecorators (decorated : List Node) : Read (List Node) := do
  if ← is "@" then
    let start ← position
    let late ← decorators g false
    unless decorated.isEmpty do failAt .repeatedDecorators (← spanFrom start)
    return late
  else return decorated

def exportDefault (start : Nat) (decorated : List Node) : Read Node := do
  let decorated ← lateDecorators g decorated
  let t ← token
  let next ← peek
  let isTyped ← typed
  let declaration (r : Read Node) : Read Node := do
    let n ← r
    close .exportDefaultDeclaration start [n]
  if isTyped && t.isWord "abstract" && next.isWord "class" && !next.newline then
    bump
    return ← declaration (classRule g t.start decorated false true)
  if isTyped && t.isWord "abstract" && next.isWord "interface" then
    report .abstractPlace t.span
    bump
  if isTyped && (← isWord "interface") then
    let here ← position
    bump
    return ← declaration (interfaceDeclaration g here)
  if t.isWord "class" then declaration (classRule g t.start decorated false false)
  else if t.isWord "function" || (t.isWord "async" && next.isWord "function" && !next.newline) then
    declaration (functionDeclaration g true)
  else
    let value ← allowingIn g.assignment
    expectSemicolon
    close .exportDefault start [value]

def typedExport? (start : Nat) (decorated : List Node) : Read (Option Node) := do
  let here ← position
  let whole (n : Node) : Read (Option Node) := do return some (← close .other start [n])
  if ← eatWord "declare" then
    if let some n ← ambientDeclaration? g here decorated then return ← whole n
  let t ← token
  let declared ← match t.kind with
    | .word name _ => attempt? (wordDeclaration? g t.start decorated name true)
    | _ => pure none
  if let some n := declared then return ← whole n
  if ← eatWord "import" then
    if (← isWord "type") && (← peek).isAnyWord then bump
    let _ ← anyName
    return some (← importEquals start)
  else if ← eat "=" then
    let value ← g.expression
    expectSemicolon
    whole value
  else if ← eatWord "as" then
    expectWord "namespace"
    let _ ← identifier
    expectSemicolon
    return some (← close .other start [])
  else return none

def exportedDeclaration? (decorated : List Node) : Read (Option Node) := do
  let t ← token
  let next ← peek
  if t.isWord "class" then return some (← classRule g t.start decorated true false)
  else if t.isWord "function" || (t.isWord "async" && next.isWord "function" && !next.newline) then
    return some (← functionDeclaration g false)
  else if (← typed) && t.isWord "const" && next.isWord "enum" then
    bump
    bump
    return some (← enumeration g t.start)
  else if t.isWord "var" || t.isWord "const" || (t.isWord "let" && next.followsLet) then
    return some (← variableStatement g)
  else return none

def exportDeclaration (decorated : List Node) : Read Node := do
  let start ← position
  expectWord "export"
  if ← isEnd then fail .endOfScript
  let isTyped ← typed
  let early ← if isTyped then typedExport? g start decorated else pure none
  if let some n := early then return n
  let isTypeExport ← if isTyped then eatWord "type" else pure false
  let isDefault ← if isTypeExport then pure false else eatWord "default"
  if isDefault then return ← exportDefault g start decorated
  let decorated ← lateDecorators g decorated
  let declared ← if isTypeExport then pure none else exportedDeclaration? g decorated
  match declared with
  | some n => close .other start [n]
  | none => if ← is "*" then exportAll g start else exportList g start isTypeExport

/-- Reads an item of a module. An item with decorators before `export` starts at that word. -/
def itemRule : Read Node := do
  let start ← position
  let decorated ← decorators g true
  let next ← peek
  if ← isWord "import" then
    if next.isMark "(" || next.isMark "." then importStatement g else importDeclaration g
  else if ← isWord "export" then exportDeclaration g decorated
  else statementFrom g true start decorated

def grammar : Nat → Grammar
  | 0 =>
    let stop : Read Node := fail .expressionExpected
    ⟨stop, stop, fun _ _ => stop, stop, stop, stop, fun _ => stop, stop, stop, stop, stop, stop⟩
  | depth + 1 =>
    { expression := fun s => expressionRule (grammar depth) s
      assignment := fun s => assignmentRule (grammar depth) s
      operators := fun bound left s => operatorsRule (grammar depth) bound left s
      unary := fun s => unaryRule (grammar depth) s
      leftHand := fun s => leftHandRule (grammar depth) s
      callee := fun s => calleeRule (grammar depth) s
      accesses := fun base s => subscripts (grammar depth) false base s
      binding := fun s => bindingTarget (grammar depth) s
      statement := fun s => statementRule (grammar depth) false s
      listItem := fun s => statementRule (grammar depth) true s
      item := fun s => itemRule (grammar depth) s
      type := fun s => typeRule (grammar depth) s }

def moduleItems : Read (List Node) := many do
  if ← isEnd then return none
  return some (← g.item)

def skipDirective (t : Text) : Text :=
  if ['#', '!'].isPrefixOf t then t.dropWhile (!isLineEnd ·) else t

/-- What was read of a script: its items and what was wrong without ending it. -/
structure Module where
  items : List Node
  issues : List Issue

/-- Reads a script. No rule goes through six others without reading a character, so that the
length of the text bounds their depth. -/
def parse (source : Text) (typed : Bool) : Except Issue Module :=
  let text := skipDirective source
  let start := bytes source - bytes text
  let first := scan text start true
  let state : State :=
    { token := first.token, here := first.here, after := first.after, lastStart := start,
      lastStop := start, issues := first.issues.reverse, context := {}, labels := [],
      arrowStart := none, trailingCommas := [], typed := typed }
  match moduleItems (grammar (8 * text.length + 64)) state with
  | .ok items s => .ok ⟨items, s.issues.reverse⟩
  | .error issue _ => .error issue

end ComponentConverter.Script
