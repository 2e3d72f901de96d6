import ComponentConverter.Template.Tree

namespace ComponentConverter.Template

open Markup

/-- Text may not stand between the branches of a chain. -/
def textBetween : Node → List Fault
  | .text raw span => if isBlank raw then [] else [⟨.textBetweenBranches (trim raw), span⟩]
  | _ => []

/-- Moves a branch to the nearest element before it. The siblings before it are given last
first. -/
def attachBranch (before : List Node) (branch : Element) : List Node × List Fault :=
  let faults := (before.takeWhile (!·.isElement)).flatMap textBetween
  let missing : Fault :=
    ⟨.elseWithoutIf (if branch.tag.guard.branchCondition.isSome then "v-else-if" else "v-else")
      branch.tag.name, branch.span⟩
  match before.dropWhile (!·.isElement) with
  | .element e :: rest =>
    if e.tag.guard.opening?.isSome then (.element (e.addBranch branch) :: rest, faults)
    else (.element e :: rest, faults ++ [missing])
  | rest => (rest, faults ++ [missing])

def addSibling (before : List Node) : Node → List Node × List Fault
  | .element e =>
    if e.tag.guard.isBranch then attachBranch before e else (.element e :: before, [])
  | .text raw span =>
    if isBlank raw then
      (if before.isEmpty then [] else .text [' '] span :: before, [])
    else (.text raw span :: before, [])
  | node => (node :: before, [])

def addSiblings : List Node → List Node → List Node × List Fault
  | before, [] => (before, [])
  | before, node :: nodes =>
    let (before, faults) := addSibling before node
    let (all, more) := addSiblings before nodes
    (all, faults ++ more)

def chainBranches (nodes : List Node) : List Node × List Fault :=
  let (all, faults) := addSiblings [] nodes
  ((all.dropWhile Node.isBlank).reverse, faults)

end ComponentConverter.Template
