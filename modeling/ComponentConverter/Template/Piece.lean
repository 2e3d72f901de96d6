import ComponentConverter.Markup.Tag

namespace ComponentConverter.Template

open Markup

/-- Whether a text starts with a comment, a tag or a closing tag. Any other `<` is text. -/
def startsMarkup : Text → Bool
  | '<' :: '!' :: '-' :: '-' :: _ => true
  | '<' :: '/' :: c :: _ => c.isAlpha
  | '<' :: c :: _ => c.isAlpha
  | _ => false

def beforeMarkup : Text → Text
  | [] => []
  | c :: t => if startsMarkup (c :: t) then [] else c :: beforeMarkup t

inductive Piece where
  | text (raw : Text) (span : Span)
  | comment (comment : Comment)
  | opening (name : Text) (start : Nat) (tag : StartTag) (stop : Nat)
  | closing (tag : ClosingTag) (stop : Nat)
  | nameless (fault : Fault)
  deriving Repr

namespace Piece

/-- Reads the text in front of the next markup. Before markup the cursor stops right there; at
the end it stops after the last token. -/
def readText (c : Cursor) (raw : Text) : Piece × Cursor :=
  let stop := c.pos + bytes raw
  let (_, exact) := c.take raw.length
  (.text raw ⟨c.pos, stop⟩, if exact.rest.isEmpty then c.advanceTo stop else exact)

def readOpening (c : Cursor) : Piece × Cursor :=
  let named := c.advance
  if named.kind = .name then
    let (tag, after) := named.advance.startTag
    (.opening named.current.lexeme c.current.start tag after.pos, after)
  else (.nameless ⟨.unexpectedToken .tagName named.kind, named.current.span⟩, named)

/-- The next piece. Gaps at the very end are none. -/
def next (c : Cursor) : Option (Piece × Cursor) :=
  if c.kind = .endOfFile then none
  else
    match beforeMarkup c.rest with
    | [] =>
      match c.kind with
      | .commentOpen => let (note, after) := c.comment; some (.comment note, after)
      | .closeOpen => let (tag, after) := c.closingTag; some (.closing tag after.pos, after)
      | _ => some (readOpening c)
    | raw => some (readText c raw)

def all (source : Text) : List Piece × Nat :=
  let (pieces, last) := exhaust next source.length (.start source)
  (pieces, last.pos)

end Piece

end ComponentConverter.Template
