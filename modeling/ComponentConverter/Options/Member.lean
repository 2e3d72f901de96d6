import ComponentConverter.Script.Source

namespace ComponentConverter.Options

open Script

inductive Value where
  | expression (node : Node)
  | method (node : Node)
  | shorthand
  | accessor
  deriving Repr

structure Member where
  name : Text
  value : Value
  span : Span
  deriving Repr

namespace Member

def bare? (m : Member) : Option Node :=
  match m.value with
  | .expression n => some n.bare
  | _ => none

/-- The member as a function: a method, or a function expression as value. -/
def function? (m : Member) : Option Node :=
  match m.value, m.bare? with
  | .method f, _ => some f
  | _, some f@(.mk (.functionExpression ..) _ _) => some f
  | _, _ => none

def object? (m : Member) : Option (List Node) :=
  match m.bare? with
  | some (.mk .object _ members) => some members
  | _ => none

/-- A member with a key, told of if the key is no name. -/
def keyed (s : Source) (place : String) (key : Node) (value : Value) (span : Span) : Noted (Option Member) :=
  match key.form with
  | .key (some name) => pure (some ⟨name.toList, value, span⟩)
  | _ => do
    s.warn .nonIdentifierKey ("in " ++ place.toList ++ ", `" ++ s.textOf key.span ++
      "` is not an identifier, ignoring it") key.span
    return none

def read (s : Source) (place : String) (n : Node) : Noted (Option Member) :=
  match n with
  | .mk (.shorthand name) span _ => pure (some ⟨name.toList, .shorthand, span⟩)
  | .mk (.initialized name) span _ => pure (some ⟨name.toList, .accessor, span⟩)
  | .mk .pair span [key, value] => keyed s place key (.expression value) span
  | .mk (.method ..) span (key :: _) => keyed s place key (.method n) span
  | .mk .accessor span (key :: _) => keyed s place key .accessor span
  | .mk _ span _ => do
    s.warn .unexpectedMember ("in " ++ place.toList ++ ", spread `" ++ s.textOf span ++
      "` is not supported, ignoring it") span
    return none

def declarations (s : Source) (place : String) (declare : Member → Noted (Option Text))
    (members : List Node) : Noted (List Text) := do
  let found ← Noted.traverse
    (fun n => do
      match ← read s place n with
      | some m => declare m
      | none => pure none) members
  return found.reduceOption

end Member

/-- The value of a block that does nothing but return it. -/
def returned? (block : Node) : Option Node :=
  match block.children with
  | [.mk .returnStatement _ [value]] => some value
  | _ => none

/-- The value that a function returns at once: the body of an arrow function, or the one
statement of a body. -/
def result? (f : Node) : Option Node :=
  match f.bare with
  | .mk (.arrow _) _ parts =>
    parts.getLast?.bind fun body =>
      if body.form = .block then returned? body else some body.bare
  | f@(.mk (.functionExpression ..) _ _) => f.body?.bind returned?
  | _ => none

def warnInvalid (s : Source) (key problem : String) (span : Span) : Noted Unit :=
  s.warn .invalidOption ("in default export, `" ++ key.toList ++ "` property is " ++
    problem.toList ++ ", ignoring it") span

/-- The declarations that the members of an object are turned into. -/
def Member.objectDeclarations (s : Source) (key : String) (declare : Member → Noted (Option Text)) (m : Member) :
    Noted (List Text) :=
  match m.object? with
  | some members => declarations s key declare members
  | none => do
    warnInvalid s key "not an object expression" m.span
    return []

end ComponentConverter.Options
