import ComponentConverter.Text.Basic

namespace ComponentConverter.Options

/-- The moments in the life of an instance for which a function can be registered. -/
inductive Hook where
  | mounted
  | beforeUpdate
  | updated
  | destroyed
  deriving Repr, DecidableEq

def Hook.registrar : Hook → Text
  | .mounted => "onMount"
  | .beforeUpdate => "beforeUpdate"
  | .updated => "afterUpdate"
  | .destroyed => "onDestroy"

inductive Entry where
  | name
  | props
  | data
  | computed
  | methods
  | hook (hook : Hook)
  | beforeCreate
  | created
  | unknown (key : String)
  deriving Repr, DecidableEq

def Entry.ofKey : String → Entry
  | "name" => .name
  | "props" => .props
  | "data" => .data
  | "computed" => .computed
  | "methods" => .methods
  | "mounted" => .hook .mounted
  | "beforeUpdate" => .hook .beforeUpdate
  | "updated" => .hook .updated
  | "destroyed" => .hook .destroyed
  | "beforeCreate" => .beforeCreate
  | "created" => .created
  | key => .unknown key

end ComponentConverter.Options
