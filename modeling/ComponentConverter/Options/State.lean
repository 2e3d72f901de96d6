import ComponentConverter.Options.Member

namespace ComponentConverter.Options

open Script

inductive DataShape where
  | fields (members : List Node)
  | tooComplex
  | invalid
  deriving Repr

def DataShape.ofResult (result : Option Node) : DataShape :=
  match result.map Node.bare with
  | some (.mk .object _ members) => .fields members
  | _ => .tooComplex

def DataShape.ofMember (m : Member) : DataShape :=
  match m.value with
  | .method f => .ofResult (f.body?.bind returned?)
  | .expression value =>
    match value.bare with
    | .mk .object _ members => .fields members
    | .mk (.functionExpression ..) _ _ | .mk (.arrow _) _ _ => .ofResult (result? value)
    | _ => .invalid
  | .shorthand | .accessor => .invalid

def dataField (s : Source) (field : Member) : Noted (Option Text) :=
  match field.value with
  | .expression value => do
    return some ("let " ++ field.name ++ " = " ++ (← s.detached value) ++ ";")
  | _ => do
    s.warn .unexpectedMember
      ("unexpected `data` member `" ++ field.name ++ "`, ignoring it") field.span
    return none

def data (s : Source) (m : Member) : Noted (List Text) :=
  match DataShape.ofMember m with
  | .fields members => Member.declarations s "data" (dataField s) members
  | .tooComplex => do
    s.warn .dataTooComplex
      "in default export, `data` property contains too complex function, ignoring it" m.span
    return []
  | .invalid => do
    warnInvalid s "data" "not an object expression" m.span
    return []

def computedProblem (m : Member) : String :=
  match m.value, m.bare?.map Node.form with
  | .accessor, _ => "getters and setters are not supported"
  | _, some .object => "get/set pairs are not supported"
  | _, some (.arrow _) => "arrow functions of the instance are not supported"
  | _, _ => "not a function"

def computedField (s : Source) (field : Member) : Noted (Option Text) :=
  let reactive (value : Text) : Text := "$: " ++ field.name ++ " = " ++ value ++ ";"
  match field.function? with
  | some f =>
    match f.body?.bind returned? with
    | some value => do return some (reactive (← s.detached value))
    | none => do
      return (← s.callable? f).map fun callable =>
        reactive ("(" ++ callable.arrow ++ ")()")
  | none => do
    s.warn .unsupportedComputed ("unexpected computed `" ++ field.name ++ "` declaration: " ++
      (computedProblem field).toList ++ ", ignoring it") field.span
    return none

def computed (s : Source) : Member → Noted (List Text) := Member.objectDeclarations s "computed" (computedField s)

end ComponentConverter.Options
