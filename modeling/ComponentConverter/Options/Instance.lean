import ComponentConverter.Options.Entry
import ComponentConverter.Text.Blank

namespace ComponentConverter.Options

/-- Methods and registrations of hooks stand in one list, in the order of their members. -/
structure Instance where
  imports : List Text
  props : List Text
  data : List Text
  computed : List Text
  beforeCreate : Option Text
  created : Option Text
  methods : List Text
  deriving Repr, DecidableEq

inductive Contribution where
  | nothing
  | props (declarations : List Text)
  | data (declarations : List Text)
  | computed (declarations : List Text)
  | methods (declarations : List Text)
  | registration (hook : Hook) (handler : Text)
  | beforeCreate (code : Option Text)
  | created (code : Option Text)
  deriving Repr, DecidableEq

namespace Instance

def empty : Instance := ⟨[], [], [], [], none, none, []⟩

def add (i : Instance) : Contribution → Instance
  | .nothing => i
  | .props ds => { i with props := i.props ++ ds }
  | .data ds => { i with data := i.data ++ ds }
  | .computed ds => { i with computed := i.computed ++ ds }
  | .methods ds => { i with methods := i.methods ++ ds }
  | .registration hook handler =>
    let registrar := hook.registrar
    { i with
      imports := if i.imports.contains registrar then i.imports else i.imports ++ [registrar]
      methods := i.methods ++ [registrar ++ "(" ++ handler ++ ");"] }
  | .beforeCreate code => { i with beforeCreate := code }
  | .created code => { i with created := code }

def ofContributions (cs : List Contribution) : Instance := cs.foldl add empty

def stage (title : String) : Option Text → Text
  | none => []
  | some code => "\n// " ++ title.toList ++ ":\n" ++ code ++ "\n"

def render (i : Instance) (typed : Bool) : Text :=
  let head := if typed then "<script lang=\"ts\">" else "<script>"
  let imports :=
    if i.imports.isEmpty then []
    else "\nimport \x7b ".toList ++ ", ".toList.intercalate i.imports ++ " \x7d from 'svelte';".toList
  head.toList ++ imports ++ "\n" ++ joinLines (i.props ++ i.data ++ i.computed) ++ "\n" ++
    stage "beforeCreate" i.beforeCreate ++ stage "created" i.created ++
    "\n" ++ "\n\n".toList.intercalate i.methods ++ "\n</script>\n\n"

end Instance

end ComponentConverter.Options
