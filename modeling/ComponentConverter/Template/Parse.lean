import ComponentConverter.Template.Chain
import ComponentConverter.Template.Piece

namespace ComponentConverter.Template

open Markup

/-- An element whose closing tag has not been read, with its children so far, last first. -/
structure OpenElement where
  name : Text
  attributes : List Attribute
  start : Nat
  children : List Node

/-- The open elements, innermost first, the nodes outside of them, last first, and the faults so
far. -/
structure Build where
  opened : List OpenElement
  roots : List Node
  faults : List Fault

namespace Build

def report (b : Build) (faults : List Fault) : Build := { b with faults := b.faults ++ faults }

def push (b : Build) (node : Node) : Build :=
  match b.opened with
  | [] => { b with roots := node :: b.roots }
  | e :: rest => { b with opened := { e with children := node :: e.children } :: rest }

def pushElement (b : Build) (tag : Tag) (children : List Node) : Build :=
  if isForbidden tag.name tag.attributes then b.report [⟨.forbiddenTag tag.name, tag.span⟩]
  else
    let b :=
      match tag.attribute? "v-for" with
      | some expression =>
        if tag.loop.isNone then b.report [⟨.invalidFor expression, tag.span⟩] else b
      | none => b
    b.push (.element (.mk tag children []))

/-- Finishes the innermost open element. `closing` are the faults of its closing tag. -/
def close (b : Build) (e : OpenElement) (outer : List OpenElement) (closing : List Fault) (stop : Nat) : Build :=
  let (children, faults) := chainBranches e.children.reverse
  ({ b with opened := outer }.report (faults ++ closing)).pushElement
    ⟨e.name, e.attributes, ⟨e.start, stop⟩⟩ children

/-- A closing tag fits an element if the names agree but for case. -/
def mismatch (e : OpenElement) (tag : ClosingTag) : List Fault :=
  if sameLetters tag.name e.name then [] else [⟨.mismatchedClosingTag e.name tag.name, tag.span⟩]

def step (keepComments : Bool) (last : Nat) (b : Build) : Piece → Build
  | .text raw span => b.push (.text raw span)
  | .comment comment =>
    let b := b.report comment.faults
    if keepComments then b.push (.comment comment.body comment.span) else b
  | .nameless fault => b.report [fault]
  | .opening name start tag stop =>
    let b := b.report tag.faults
    match tag.tagEnd with
    | .opened =>
      if isVoid name then b.pushElement ⟨name, tag.attributes, ⟨start, stop⟩⟩ []
      else { b with opened := ⟨name, tag.attributes, start, []⟩ :: b.opened }
    | .selfClosed => b.pushElement ⟨name, tag.attributes, ⟨start, stop⟩⟩ []
    | .cutOff =>
      (b.report [⟨.unclosedTag name, ⟨start, last⟩⟩]).pushElement
        ⟨name, tag.attributes, ⟨start, stop⟩⟩ []
  | .closing tag stop =>
    match b.opened with
    | [] => b.report (tag.faults ++ [⟨.strayClosingTag tag.name, tag.span⟩])
    | e :: outer => b.close e outer (tag.faults ++ mismatch e tag) stop

/-- Closes what is still open at the end of a source. `stop` is where its last token ends. -/
def finish (last stop : Nat) : List OpenElement → Build → Build
  | [], b => b
  | _ :: deeper, b =>
    match b.opened with
    | [] => b
    | e :: outer =>
      finish last stop deeper (b.close e outer [⟨.unclosedTag e.name, ⟨e.start, last⟩⟩] stop)

end Build

/-- Picks the one root element. Nothing but white space and comments may stand beside it. -/
def selectRoot : Option Element → List Node → Option Element × List Fault
  | root, [] => (root, [])
  | root, node :: nodes =>
    let (root, faults) :=
      match node, root with
      | .element e, none => (some e, [])
      | .element e, some first => (some first, [⟨.multipleRoots, e.span⟩])
      | .text raw span, root =>
        (root, if isBlank raw then [] else [⟨.textOutsideRoot (trim raw), span⟩])
      | .comment _ _, root => (root, [])
    let (root, more) := selectRoot root nodes
    (root, faults ++ more)

/-- Reads a template. Comments are kept on request. -/
def parse (source : Text) (keepComments : Bool) : Option Element × List Fault :=
  let (pieces, stop) := Piece.all source
  let last := bytes source
  let b := pieces.foldl (Build.step keepComments last) ⟨[], [], []⟩
  let b := b.finish last stop b.opened
  let (nodes, chained) := chainBranches b.roots.reverse
  let (root, misplaced) := selectRoot none nodes
  let faults := b.faults ++ chained ++ misplaced
  if root.isNone && faults.isEmpty then (none, [⟨.emptyTemplate, ⟨0, last⟩⟩]) else (root, faults)

end ComponentConverter.Template
