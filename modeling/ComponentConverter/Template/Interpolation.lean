import ComponentConverter.Text.Blank

namespace ComponentConverter.Template

inductive Part where
  | literal (text : Text)
  | binding (expression : Text)
  deriving Repr, DecidableEq

namespace Part

def first? (t : Text) : Option ((Text × Text) × Text) :=
  match breakOn? ['{', '{'] t with
  | none => none
  | some (before, inside) =>
    (breakOn? ['}', '}'] inside).map fun (expression, after) => ((before, trim expression), after)

def ofLiteral (t : Text) : List Part := if t.isEmpty then [] else [.literal t]

/-- Splits a text at its interpolations; a text without one has no such split. -/
def split? (t : Text) : Option (List Part) :=
  let (found, last) := exhaust first? t.length t
  if found.isEmpty then none
  else
    some (found.flatMap (fun (before, expression) => ofLiteral before ++ [.binding expression]) ++ ofLiteral last)

end Part

end ComponentConverter.Template
