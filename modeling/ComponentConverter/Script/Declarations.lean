import ComponentConverter.Script.Expressions

namespace ComponentConverter.Script

open Read

variable (g : Grammar)

inductive VariableKind where
  | ofFunction
  | ofBlock
  | constant
  deriving Repr, DecidableEq

def declarator (kind : VariableKind) (inHead : Bool) : Read Node := do
  let start ← position
  let target ←
    if (← token).isAnyWord then bindingIdentifier (kind != .ofFunction) else g.binding
  match target.form, ← typed with
  | .name _, true => let _ ← eat "!"
  | _, _ => pure ()
  let annotation ← typeAnnotation? g
  let isAnnotated := ! annotation.isEmpty
  if inHead && ((← isWord "in") || (← isWord "of")) then
    close (.declarator false isAnnotated) start (target :: annotation)
  else if ← eat "=" then
    let value ← g.assignment
    close (.declarator true isAnnotated) start (target :: annotation ++ [value])
  else
    unless (← context).inDeclaration do
      if kind == .constant && !inHead then report .uninitializedConstant (← spanFrom start)
      else
        match target.form with
        | .name _ => pure ()
        | _ => failAt .uninitializedPattern (← spanFrom start)
    close (.declarator false isAnnotated) start (target :: annotation)

/-- Reads variables with commas between them. A semicolon behind a comma, or behind the word of the
declaration, which covers `word`, is reported. -/
def declaratorList (kind : VariableKind) (inHead : Bool) (word : Span) : Read (List Node) := do
  let step (read : List Node × Bool) : Read (Option (List Node × Bool)) := do
    if !read.2 then return none
    if ← is ";" then
      let last ← lastSpan
      report .trailingComma (if last == word then .point last.stop else last)
      return some (read.1, false)
    let declared ← declarator g kind inHead
    return some (declared :: read.1, ← eat ",")
  return (← iterate step ([], true)).1.reverse

def isEmptyHead : Read Bool := foresee do
  unless (← isWord "of") || (← isWord "in") do return false
  bump
  let _ ← g.assignment
  expect ")"
  return true

def declarators (inHead : Bool) : Read (List Node) := do
  let word ← token
  let kind : VariableKind :=
    if word.isWord "const" then .constant else if word.isWord "let" then .ofBlock else .ofFunction
  bump
  let isEmpty ← if inHead && (← typed) then isEmptyHead g else pure false
  if isEmpty then
    report .emptyDeclaration (.point word.stop)
    return []
  let change (c : Context) : Context :=
    { c with withIn := c.withIn || kind != .ofFunction || !inHead }
  within change (declaratorList g kind inHead word.span)

def endDeclaration : Read Unit := do
  unless ← eatSemicolon do
    report .semicolonExpected (← token).span
    recover (do let _ ← g.expression) fun _ => pure ()
    let _ ← many do
      if ← eatSemicolon then return none
      bump
      match (← token).kind with
      | .broken _ => return none
      | _ => return some ()

def variableStatement : Read Node := do
  let start ← position
  let declared ← declarators g false
  endDeclaration g
  close .other start declared

/-- Reads variables that are disposed of at the end of their block, if `using` declares any here;
the declaration starts at `start`. -/
def usingDeclaration? (start : Nat) : Read (Option Node) := do
  let next ← peek
  if next.newline || !next.isReference then return none
  let word ← token
  bump
  let declared ← declaratorList g .ofFunction false word.span
  unless ← typed do report .usingDisabled (← spanFrom start)
  if (← context).inCase then report .usingNotAllowed (← spanFrom start)
  for n in declared do
    match n.children.head?.map Node.form with
    | some (.name _) => pure ()
    | _ => report .usingPattern (← spanFrom start)
    match n.form with
    | .declarator false _ => report .usingInitializer (← spanFrom start)
    | _ => pure ()
  endDeclaration g
  return some (← close .other start declared)

def typeAlias (start : Nat) : Read Node := do
  let _ ← anyName
  let generics ← typeParameters? g aliasWords
  let type ← typeAfter g "="
  expectSemicolon
  close .other start (generics ++ [type])

def interfaceDeclaration (start : Nat) : Read Node := do
  let (name, span) ← anyName
  if builtInTypes.contains name && name != "undefined" then report .interfaceName span
  let generics ← typeParameters? g aliasWords
  let bases ← if ← eatWord "extends" then heritages g else pure []
  if ← isWord "extends" then
    report .repeatedExtends (← token).span
    let _ ← many do
      if (← isEnd) || (← is "\x7b") then return none
      bump
      return some ()
  let members ← typeMembers g
  close .other start (generics ++ bases ++ [members])

def insertComma : Read Unit := do
  let start ← position
  bump
  modify fun s => { s with token := { s.token with kind := .mark, lexeme := "," } }
  report .semicolonExpected (.point start)

def enumKey : Read Unit := do
  let t ← token
  if t.isString then bump
  else if t.isNumeric then
    bump
    report .numericEnumMember t.span
  else if t.isMark "[" then
    bump
    let _ ← g.expression
    report .computedEnumMember (← spanFrom t.start)
    expect "]"
  else let _ ← anyName

def enumMember : Read Node := do
  let start ← position
  enumKey g
  if ← eat "=" then
    let value ← g.assignment
    close .other start [value]
  else
    unless ← isOneOf [",", "\x7d"] do insertComma
    close .other start []

/-- Reads an enumeration from its name on. A comma that is missing between two members is
reported. -/
def enumeration (start : Nat) : Read Node := do
  let _ ← anyName
  expect "\x7b"
  let members ← many do
    if ← is "\x7d" then return none
    let n ← enumMember g
    unless ← eat "," do
      unless ← is "\x7d" do report (.tokenExpected "," (← token).describe) (← token).span
    return some n
  expect "\x7d"
  close .other start members

def namespaceBlock : Read (List Node) := do
  expect "\x7b"
  itemsOfBlock g.item

def namespaceDeclaration (start : Nat) : Read Node := do
  let _ ← anyName
  let _ ← many do
    if ← eat "." then
      let _ ← anyName
      return some ()
    return none
  let items ← namespaceBlock g
  close .other start items

def ambientModule (start : Nat) : Read Node := do
  if (← isWord "global") || (← token).isString then bump
  else unexpected "global or a string literal"
  if ← is "\x7b" then
    let items ← namespaceBlock g
    close .other start items
  else
    expectSemicolon
    close .other start []

/-- Reads a declaration that starts with a word of scripts with types, if it is one. The word is
`word`; it is the token ahead if `isAhead`, and the one before it otherwise. -/
def wordDeclaration? (start : Nat) (decorated : List Node) (word : String) (isAhead : Bool) : Read (Option Node) := do
  let skip : Read Unit := if isAhead then bump else pure ()
  let t ← token
  match word with
  | "abstract" =>
    if isAhead || (t.isWord "class" && !t.newline) then
      skip
      return some (← classRule g start decorated true true)
  | "enum" =>
    if isAhead || t.isReference then
      skip
      return some (← enumeration g start)
  | "interface" =>
    if isAhead || t.isReference then
      skip
      return some (← interfaceDeclaration g start)
  | "module" =>
    unless t.newline do
      skip
      if ← isEnd then fail .endOfScript
      if (← token).isString then return some (← ambientModule g start)
      if isAhead || (← token).isReference then return some (← namespaceDeclaration g start)
  | "namespace" =>
    if isAhead || t.isReference then
      skip
      return some (← namespaceDeclaration g start)
  | "type" =>
    if isAhead || (!t.newline && t.isReference) then
      skip
      return some (← typeAlias g start)
  | _ => pure ()
  return none

def ambientDeclaration? (start : Nat) (decorated : List Node) : Read (Option Node) := do
  if (← context).inDeclaration then report .ambientDeclare (← spanFrom start)
  within (fun c => { c with inDeclaration := true }) do
    let t ← token
    if t.isWord "function" then return some (← functionDeclaration g false)
    else if t.isWord "class" then return some (← classRule g start decorated true false)
    else if t.isWord "const" && (← peek).isWord "enum" then
      bump
      bump
      return some (← enumeration g start)
    else if ["const", "let", "var"].any t.isWord then return some (← variableStatement g)
    else if t.isWord "global" then return some (← ambientModule g start)
    else
      match t.kind with
      | .word name _ => wordDeclaration? g start decorated name true
      | _ => return none

def namedDeclaration? (decorated : List Node) (word : Node) : Read (Option Node) := do
  match word.form with
  | .name "declare" => ambientDeclaration? g word.start decorated
  | .name "global" =>
    if ← is "\x7b" then
      let items ← namespaceBlock g
      return some (← close .other word.start items)
    else return none
  | .name name => wordDeclaration? g word.start decorated name false
  | _ => return none

end ComponentConverter.Script
