import ComponentConverter.Options.Behaviour
import ComponentConverter.Options.Instance
import ComponentConverter.Options.Props
import ComponentConverter.Options.State

namespace ComponentConverter.Options

open Script

def contribution (s : Source) (m : Member) : Noted Contribution :=
  match Entry.ofKey (String.ofList m.name) with
  | .name => pure .nothing
  | .props => (props s m).map .props
  | .data => (data s m).map .data
  | .computed => (computed s m).map .computed
  | .methods => (methods s m).map .methods
  | .hook hook => (hookHandler s m).map fun handler => handler.elim .nothing (.registration hook)
  | .beforeCreate => (creationCode s m).map .beforeCreate
  | .created => (creationCode s m).map .created
  | .unknown key => do
    s.warn .unknownOption ("in default export, `" ++ key.toList ++ "` is an unknown property, ignoring it") m.span
    return .nothing

def collect (s : Source) (members : List Node) : Noted Instance := do
  let found ← Noted.traverse
    (fun n => do
      match ← Member.read s "default export" n with
      | some m => contribution s m
      | none => pure .nothing) members
  return .ofContributions found

end ComponentConverter.Options
