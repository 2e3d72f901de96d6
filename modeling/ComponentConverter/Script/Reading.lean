import ComponentConverter.Script.Node
import ComponentConverter.Script.Token

namespace ComponentConverter.Script

variable {α : Type}

structure Context where
  inFunction : Bool := false
  inPlainFunction : Bool := false
  inClass : Bool := false
  inAsync : Bool := false
  inGenerator : Bool := false
  inParameters : Bool := false
  inStaticBlock : Bool := false
  inField : Bool := false
  breakAllowed : Bool := false
  continueAllowed : Bool := false
  superAllowed : Bool := false
  hasBase : Bool := false
  inDeclaration : Bool := false
  inCase : Bool := false
  inLoopHead : Bool := false
  inAwaitedLoopHead : Bool := false
  withIn : Bool := false
  inConditional : Bool := false
  beforeColon : Bool := false
  withoutConditionalTypes : Bool := false
  isQuiet : Bool := false

/-- The token ahead, the text from its first character on and the text after it, the end of the
token before, and the issues met so far, latest first. Commas before the end of an array or an
object are kept by the start of what they end. `typed` is set for scripts with types. -/
structure State where
  token : Token
  here : Text
  after : Text
  lastStart : Nat
  lastStop : Nat
  issues : List Issue
  context : Context
  labels : List String
  arrowStart : Option Nat
  trailingCommas : List (Nat × Span)
  typed : Bool

abbrev Read := EStateM Issue State

namespace Read

def token : Read Token := return (← get).token

def typed : Read Bool := return (← get).typed

def context : Read Context := return (← get).context

/-- Reads the token at the head of a text that starts at the offset `pos`. The token before it
starts at `last`. -/
def resume (rest : Text) (last pos : Nat) : Read Unit := modify fun s =>
  let next := scan rest pos false
  { s with
    token := next.token, here := next.here, after := next.after, lastStart := last, lastStop := pos,
    issues := next.issues.reverse ++ s.issues }

def bump : Read Unit := do
  let s ← get
  resume s.after s.token.start s.token.stop

def peek : Read Token := do
  let s ← get
  return (scan s.after s.token.stop false).token

def reportStrict (cause : Cause) (span : Span) : Read Unit := modify fun s =>
  if s.context.isQuiet then s else { s with issues := ⟨cause, span⟩ :: s.issues }

def takeBroken? : Read (Option Issue) := do
  match (← token).kind with
  | .broken own => bump; return some own
  | _ => return none

def report (cause : Cause) (span : Span) : Read Unit := do
  unless (← context).isQuiet do
    if let some own ← takeBroken? then reportStrict own.cause own.span
    reportStrict cause span

/-- Fails; a broken token ahead is taken along. -/
def failAt (cause : Cause) (span : Span) : Read α := do
  if let some own ← takeBroken? then report own.cause own.span
  throw ⟨cause, span⟩

def fail (cause : Cause) : Read α := do failAt cause (← token).span

def refuseBroken : Read Unit := do
  if let some own ← takeBroken? then throw own

def position : Read Nat := return (← token).start

def lastStop : Read Nat := return (← get).lastStop

def lastSpan : Read Span := return ⟨(← get).lastStart, (← get).lastStop⟩

def spanFrom (start : Nat) : Read Span := return ⟨start, ← lastStop⟩

def close (form : Form) (start : Nat) (children : List Node) : Read Node :=
  return .mk form (← spanFrom start) children

end Read

def Token.isMark (t : Token) (m : String) : Bool := t.kind == .mark && t.lexeme == m

/-- Whether a token is the word `w`, written without escapes. -/
def Token.isWord (t : Token) (w : String) : Bool :=
  match t.kind with
  | .word name isEscaped => name == w && !isEscaped
  | _ => false

def Token.isAnyWord (t : Token) : Bool :=
  match t.kind with
  | .word _ _ => true
  | _ => false

def Token.isString (t : Token) : Bool :=
  match t.kind with
  | .string _ => true
  | _ => false

def Token.isTemplate (t : Token) : Bool :=
  match t.kind with
  | .template _ _ => true
  | _ => false

def Token.isNumeric (t : Token) : Bool := t.kind == .number || t.kind == .bigint

def Token.isEnd (t : Token) : Bool := t.kind == .endOfFile

def Token.isReference (t : Token) : Bool :=
  match t.kind with
  | .word name _ => !reservedWords.contains name
  | _ => false

def Token.endsStatement (t : Token) : Bool := t.isMark ";" || t.isMark "\x7d" || t.isEnd || t.newline

namespace Read

def is (m : String) : Read Bool := return (← token).isMark m

def isWord (w : String) : Read Bool := return (← token).isWord w

def isEnd : Read Bool := return (← token).isEnd

def isOneOf (ms : List String) : Read Bool := return ms.any (← token).isMark

def eat (m : String) : Read Bool := do
  if ← is m then bump; return true
  return false

def eatWord (w : String) : Read Bool := do
  if ← isWord w then bump; return true
  return false

def eatIf (mayStand : Bool) (m : String) : Read Bool :=
  if mayStand then eat m else return false

def eatWordIf (mayStand : Bool) (w : String) : Read Bool :=
  if mayStand then eatWord w else return false

def expect (m : String) : Read Unit := do
  unless ← eat m do fail (.tokenExpected m (← token).describe)

def expectWord (w : String) : Read Unit := do
  unless ← eatWord w do fail (.tokenExpected w (← token).describe)

def unexpected (wanted : String) : Read α := do
  fail (.tokenUnexpected (← token).describe wanted)

/-- A statement may end here: at a semicolon, which is taken along, before a closing brace, at
the end of a line or of the script. -/
def eatSemicolon : Read Bool := do
  if ← eat ";" then return true
  return (← token).endsStatement

def expectSemicolon : Read Unit := do
  unless ← eatSemicolon do fail (.tokenExpected ";" (← token).describe)

def isGreater : Read Bool := do
  let t ← token
  return t.kind == .mark && t.lexeme.startsWith ">"

def expectGreater : Read Unit := do
  let s ← get
  if ← isGreater then resume (s.here.drop 1) s.token.start (s.token.start + 1)
  else fail (.tokenExpected ">" s.token.describe)

def isLess : Read Bool := is "<"

def within (change : Context → Context) (r : Read α) : Read α := fun s =>
  match r { s with context := change s.context } with
  | .ok a t => .ok a { t with context := s.context }
  | .error e t => .error e { t with context := s.context }

def allowingIn (r : Read α) : Read α := within (fun c => { c with withIn := true }) r

def refusingIn (r : Read α) : Read α := within (fun c => { c with withIn := false }) r

/-- Tries a rule that yields something if it fits; else the reader is where it was. Issues met on
the way are passed over. -/
def attempt? (r : Read (Option α)) : Read (Option α) := fun s =>
  match r { s with context := { s.context with isQuiet := true } } with
  | .ok (some a) t => .ok (some a) { t with context := s.context, issues := s.issues }
  | .ok none _ => .ok none s
  | .error _ _ => .ok none s

def attempt (r : Read α) : Read (Option α) := attempt? (do return some (← r))

def recover (r : Read α) (handle : Issue → Read α) : Read α := fun s =>
  match r s with
  | .ok a t => .ok a t
  | .error e t => handle e t

def foresee (r : Read Bool) : Read Bool := fun s =>
  match r { s with context := { s.context with isQuiet := true } } with
  | .ok answer _ => .ok answer s
  | .error _ _ => .ok false s

def repeatUpTo (step : Read (Option α)) : Nat → Read (List α)
  | 0 => return []
  | fuel + 1 => do
    match ← step with
    | none => return []
    | some a => return a :: (← repeatUpTo step fuel)

/-- Repeats a step until it yields nothing. A step reads a token, so there are no more steps
than characters. -/
def many (step : Read (Option α)) : Read (List α) := do
  let s ← get
  repeatUpTo step (s.here.length + 2)

def iterateUpTo (step : α → Read (Option α)) : Nat → α → Read α
  | 0, a => return a
  | fuel + 1, a => do
    match ← step a with
    | none => return a
    | some b => iterateUpTo step fuel b

def iterate (step : α → Read (Option α)) (a : α) : Read α := do
  let s ← get
  iterateUpTo step (s.here.length + 2) a

/-- Items before the mark `last`, with commas between them and perhaps one at the end. -/
def commaItems (last : String) (item : Read α) : Read (List α) := many do
  if ← is last then return none
  let a ← item
  unless ← is last do expect ","
  return some a

def commaList (last : String) (item : Read α) : Read (List α) := do
  let items ← commaItems last item
  expect last
  return items

def commaListWithEnd (last : String) (item : Read α) : Read (List α × Option Span) := do
  let items ← many do
    if ← is last then return none
    let a ← item
    if ← is last then return some (a, none)
    expect ","
    let comma ← lastSpan
    return some (a, if ← is last then some comma else none)
  expect last
  return (items.map (·.1), items.getLast?.bind (·.2))

def separated (separator : String) (item : Read Node) : Read (List Node) := do
  let first ← item
  let rest ← many do
    if ← eat separator then return some (← item)
    return none
  return first :: rest

def listUntil (isOver : Read Bool) (item : Read Node) : Read (List Node) := do
  let step (isOpen : Bool) : Read (Option (Node × Bool)) := do
    if !isOpen || (← isOver) then return none
    let n ← item
    if ← eat "," then return some (n, true)
    if ← isOver then return some (n, false)
    expect ","
    return some (n, true)
  let s ← get
  collect step true (s.here.length + 2)
where
  collect (step : Bool → Read (Option (Node × Bool))) : Bool → Nat → Read (List Node)
    | _, 0 => return []
    | isOpen, fuel + 1 => do
      match ← step isOpen with
      | none => return []
      | some (n, isOpen) => return n :: (← collect step isOpen fuel)

end Read

/-- The rules of the grammar that contain each other. -/
structure Grammar where
  expression : Read Node
  assignment : Read Node
  operators : Nat → Node → Read Node
  unary : Read Node
  leftHand : Read Node
  callee : Read Node
  accesses : Node → Read Node
  binding : Read Node
  statement : Read Node
  listItem : Read Node
  item : Read Node
  type : Read Node

end ComponentConverter.Script
