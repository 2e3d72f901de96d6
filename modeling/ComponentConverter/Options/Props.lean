import ComponentConverter.Options.Member

namespace ComponentConverter.Options

open Script

def propDeclaration (name : Text) : Text := "export let " ++ name ++ ";"

def annotated (declaration comment : Text) : Text := declaration ++ " // " ++ comment

def elementValue : Node → Node
  | .mk .spread _ [inner] => inner
  | n => n

def namedProp (s : Source) (element : Node) : Noted (Option Text) :=
  match element with
  | .mk (.string (some name)) _ _ => pure (some (propDeclaration name))
  | _ => do
    let span := (elementValue element).span
    s.warn .unexpectedProp
      ("unexpected prop `" ++ s.textOf span ++ "`, ignoring it") span
    return none

/-- What the declaration of a prop can say; a later field replaces an earlier one. -/
structure PropSpec where
  type : Option Node
  default : Option Value
  required : Bool
  validator : Option Span
  deriving Repr

namespace PropSpec

def empty : PropSpec := ⟨none, none, false, none⟩

def isFalse (n : Node) : Bool := n.bare.form == .boolean false

/-- Takes a field up. Only names with a value and methods count. -/
def add (spec : PropSpec) (field : Node) : PropSpec :=
  match field with
  | .mk .pair span [.mk (.key (some key)) _ _, value] =>
    match key with
    | "type" => { spec with type := some value }
    | "default" => { spec with default := some (.expression value) }
    | "required" => { spec with required := !isFalse value }
    | "validator" => { spec with validator := some span }
    | _ => spec
  | .mk (.method ..) span (.mk (.key (some key)) _ _ :: _) =>
    match key with
    | "default" => { spec with default := some (.method field) }
    | "validator" => { spec with validator := some span }
    | _ => spec
  | _ => spec

def ofFields (fields : List Node) : PropSpec := fields.foldl add empty

def isFunctionTyped (spec : PropSpec) : Bool := (spec.type.map (·.bare.form)) == some (.name "Function")

def defaultValue (s : Source) (spec : PropSpec) : Value → Noted (Text × Bool)
  | .expression value =>
    match if spec.isFunctionTyped then none else result? value with
    | some result => do return (← s.detached result, true)
    | none => do return (← s.detached value, false)
  | .method f =>
    match if spec.isFunctionTyped then none else f.body?.bind returned? with
    | some result => do return (← s.detached result, true)
    | none => do
      match ← s.callable? f with
      | none => return ("undefined", false)
      | some callable =>
        if spec.isFunctionTyped then return (callable.arrow, false)
        else return ("(" ++ callable.arrow ++ ")()", true)
  | .shorthand | .accessor => pure ("undefined", false)

def declaration (s : Source) (name : Text) (spec : PropSpec) : Noted Text := do
  let initial ← match spec.default with
    | some value => do
      let (text, unwrapped) ← defaultValue s spec value
      pure (" = " ++ text, unwrapped)
    | none => pure ([], false)
  let comments :=
    (spec.type.map fun t => s.textOf t.span).toList ++ (if spec.required then ["required".toList] else []) ++
      (if initial.2 then ["default unwrapped".toList] else [])
  let declaration := "export let " ++ name ++ initial.1 ++ ";"
  if let some span := spec.validator then
    s.warn .propValidatorIgnored
      ("prop `" ++ name ++ "` validator is ignored") span
  return if comments.isEmpty then declaration
    else annotated declaration (", ".toList.intercalate comments)

end PropSpec

def declaredProp (s : Source) (prop : Member) : Noted (Option Text) :=
  let refuse (rest : Text) : Noted (Option Text) := do
    s.warn .unexpectedProp ("unexpected prop `" ++ prop.name ++ "` declaration" ++ rest ++ ", ignoring it") prop.span
    return none
  match prop.bare? with
  | none => refuse []
  | some (.mk (.name type) _ _) =>
    pure (some (annotated (propDeclaration prop.name) type.toList))
  | some n@(.mk .array _ _) =>
    let types := n.elements.map elementValue
    let isName (t : Node) : Bool := match t.form with
      | .name _ => true
      | _ => false
    if types.all isName then
      let choice := " | ".toList.intercalate (types.map fun t => s.textOf t.span)
      pure (some (annotated (propDeclaration prop.name) choice))
    else refuse (": `" ++ s.textOf n.span ++ "`")
  | some (.mk .object _ fields) => do
    return some (← PropSpec.declaration s prop.name (.ofFields fields))
  | some n => refuse (": `" ++ s.textOf n.span ++ "`")

def props (s : Source) (m : Member) : Noted (List Text) :=
  match m.bare? with
  | some n@(.mk .array _ _) => do
    return (← Noted.traverse (namedProp s) n.elements).reduceOption
  | some (.mk .object _ members) => Member.declarations s "props" (declaredProp s) members
  | _ => do
    warnInvalid s "props" "neither an array nor an object" m.span
    return []

end ComponentConverter.Options
