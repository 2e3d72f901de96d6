import ComponentConverter.Options.Member

namespace ComponentConverter.Options

open Script

def methodField (s : Source) (m : Member) : Noted (Option Text) :=
  match m.function? with
  | some f => do return (← s.callable? f).map fun callable => callable.declaration m.name
  | none => do
    s.warn .notAFunction
      ("in default export, method `" ++ m.name ++ "` is not a function, ignoring it") m.span
    return none

def methods (s : Source) : Member → Noted (List Text) := Member.objectDeclarations s "methods" (methodField s)

def hookFunction (s : Source) (m : Member) : Noted (Option Node) :=
  match m.function? with
  | some f => pure (some f)
  | none => do
    s.warn .notAFunction
      ("in default export, `" ++ m.name ++ "` is not a function, ignoring it") m.span
    return none

def hookHandler (s : Source) (m : Member) : Noted (Option Text) := do
  match ← hookFunction s m with
  | some f => return (← s.callable? f).map Callable.arrow
  | none => return none

def creationCode (s : Source) (m : Member) : Noted (Option Text) := do
  match (← hookFunction s m).bind Node.body? with
  | some body =>
    let code := joinLines (← Noted.traverse s.detached body.children)
    return if code.isEmpty then none else some code
  | none => return none

end ComponentConverter.Options
