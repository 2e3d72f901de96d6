import ComponentConverter.Script.Names

namespace ComponentConverter.Script

open Read

def templatePart (isTagged : Bool) : Read Bool := do
  let s ← get
  if !(← is "\x7d") then
    refuseBroken
    unexpected "`\x7d`"
  let body := s.here.drop 1
  let start := s.token.start
  match readChunk (body.length + 1) body with
  | none =>
    let stop := start + bytes s.here
    resume [] start stop
    throw ⟨.unterminatedTemplate, ⟨start, stop⟩⟩
  | some chunk =>
    resume (body.drop chunk.length) start (start + bytes (s.here.take (chunk.length + 1)))
    match chunk.fault, isTagged with
    | some fault, false => throw ((fault.move 1).issue s.here start)
    | _, _ => return chunk.isLast

/-- Reads a template, with `inner` between `${` and `}`. Behind a tag an escape may be faulty. -/
def template (isTagged : Bool) (inner : Read Node) : Read Node := do
  let t ← token
  match t.kind with
  | .template isWhole fault =>
    bump
    match fault, isTagged with
    | some issue, false => throw issue
    | _, _ => pure ()
    let step (read : List Node × Bool) : Read (Option (List Node × Bool)) := do
      if read.2 then return none
      let part ← allowingIn inner
      return some (part :: read.1, ← templatePart isTagged)
    let (parts, _) ← iterate step ([], isWhole)
    close .template t.start parts.reverse
  | _ => unexpected "`"

end ComponentConverter.Script
