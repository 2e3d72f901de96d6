import ComponentConverter.Text.Basic

namespace ComponentConverter.Svelte

/-- One level of indentation, whether the values of bound attributes are quoted, whether a
binding of a name to itself is written short, and whether comments are kept. -/
structure Preferences where
  indent : Text
  quotes : Bool
  shorthand : Bool
  comments : Bool
  deriving Repr, DecidableEq

namespace Preferences

def standard : Preferences := ⟨[' ', ' '], true, true, false⟩

def indentation (p : Preferences) (depth : Nat) : Text := (List.replicate depth p.indent).flatten

def quote (p : Preferences) : Text := if p.quotes then ['"'] else []

end Preferences

end ComponentConverter.Svelte
