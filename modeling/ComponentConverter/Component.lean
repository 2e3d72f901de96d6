import ComponentConverter.Markup.Tag

namespace ComponentConverter

open Markup

/-- A top-level block; `span` takes the tags in, `contentSpan` does not. -/
structure Block where
  content : Text
  contentSpan : Span
  attributes : List Attribute
  span : Span
  deriving Repr, DecidableEq

namespace Block

def lang (b : Block) : Option Text := (attribute? b.attributes "lang").filter (!·.isEmpty)

def isScoped (b : Block) : Bool := (attribute? b.attributes "scoped").isSome

end Block

structure Component where
  template : Option Block
  script : Option Block
  styles : List Block
  deriving Repr, DecidableEq

namespace Component

def templateOpening : Text := "<template"

def templateClosing : Text := "</template"

/-- Whether a text starts with a `<template` tag, not with a longer name. -/
def opensTemplate (t : Text) : Bool :=
  templateOpening.isPrefixOf t &&
    match t.drop templateOpening.length with
    | [] => true
    | c :: _ => isSpace c || c == '>' || c == '/'

def templateContent? : Nat → Text → Option Text
  | _, [] => none
  | depth, c :: t =>
    if templateClosing.isPrefixOf (c :: t) then
      match depth with
      | 0 => some []
      | depth + 1 => (templateContent? depth t).map (c :: ·)
    else if opensTemplate (c :: t) then (templateContent? (depth + 1) t).map (c :: ·)
    else (templateContent? depth t).map (c :: ·)

/-- The text up to the tag that closes a block. Templates nest, other blocks do not. -/
def content? (tag : Text) (t : Text) : Option Text :=
  if tag = "template" then templateContent? 0 t
  else (breakOn? (['<', '/'] ++ tag) t).map Prod.fst

/-- What stands at one place of a component: perhaps a block, and what is wrong there. -/
structure Section where
  block : Option (Text × Block)
  faults : List Fault
  deriving Repr, DecidableEq

def unclosedBlock (tag : Text) (start : Nat) (faults : List Fault) (c : Cursor) : Section × Cursor :=
  (⟨none, faults ++ [⟨.unclosedBlock tag, ⟨start, c.current.stop⟩⟩]⟩, c.advanceTo c.last)

def readBlock (c : Cursor) : Section × Cursor :=
  let start := c.current.start
  let named := c.advance
  if named.kind = .name then
    let tag := named.current.lexeme
    let (opening, inside) := named.advance.startTag
    match opening.tagEnd with
    | .cutOff => unclosedBlock tag start opening.faults inside
    | .selfClosed =>
      (⟨some (tag, ⟨[], .point inside.pos, opening.attributes, ⟨start, inside.pos⟩⟩), opening.faults⟩, inside)
    | .opened =>
      match content? tag inside.rest with
      | none => unclosedBlock tag start opening.faults inside
      | some content =>
        let stop := inside.pos + bytes content
        let (closing, after) := (inside.advanceTo stop).closingTag
        (⟨some (tag, ⟨content, ⟨inside.pos, stop⟩, opening.attributes, ⟨start, after.pos⟩⟩),
          opening.faults ++ closing.faults⟩, after)
  else (⟨none, []⟩, named)

def readSection (c : Cursor) : Option (Section × Cursor) :=
  match c.kind with
  | .endOfFile => none
  | .commentOpen => let (comment, after) := c.comment; some (⟨none, comment.faults⟩, after)
  | .tagOpen => some (readBlock c)
  | _ => some (⟨none, []⟩, c.advance)

/-- Stores a block. Of two templates or scripts the first counts. -/
def store (component : Component) (tag : Text) (block : Block) : Component × List Fault :=
  if tag = "template" then
    if component.template.isSome then (component, [⟨.duplicateBlock tag, block.span⟩])
    else ({ component with template := some block }, [])
  else if tag = "script" then
    if component.script.isSome then (component, [⟨.duplicateBlock tag, block.span⟩])
    else ({ component with script := some block }, [])
  else if tag = "style" then
    ({ component with styles := component.styles ++ [block] }, [])
  else (component, [])

def ofSections : Component → List Section → Component × List Fault
  | component, [] => (component, [])
  | component, s :: rest =>
    let (component, stored) :=
      match s.block with
      | some (tag, block) => component.store tag block
      | none => (component, [])
    let (component, faults) := ofSections component rest
    (component, s.faults ++ stored ++ faults)

def parse (source : Text) : Component × List Fault :=
  ofSections ⟨none, none, []⟩ (exhaust readSection source.length (.start source)).1

end Component

end ComponentConverter
