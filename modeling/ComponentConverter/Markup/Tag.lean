import ComponentConverter.Markup.Cursor
import ComponentConverter.Markup.Fault
import ComponentConverter.Text.Blank

namespace ComponentConverter.Markup

structure Attribute where
  name : Text
  value : Text
  deriving Repr, DecidableEq

def attribute? (attributes : List Attribute) (name : String) : Option Text :=
  (attributes.find? (·.name == name.toList)).map (·.value)

inductive TagEnd where
  | opened
  | selfClosed
  | cutOff
  deriving Repr, DecidableEq

inductive TagItem where
  | attribute (name : Text) (nameSpan : Span) (value : Text) (faults : List Fault)
  | stray (fault : Fault)
  deriving Repr, DecidableEq

namespace Cursor

def quotedValue (c : Cursor) (quote : Char) (opened : Token) : (Text × List Fault) × Cursor :=
  match breakOn? [quote] c.rest with
  | some (value, _) => ((value, []), c.advanceTo (c.pos + bytes value + 1))
  | none => ((c.rest, [⟨.unclosedAttributeValue, opened.span⟩]), c.advanceTo c.last)

def bareLength : Text → Nat
  | [] => 0
  | '/' :: '>' :: _ => 0
  | c :: t => if isSpace c || c == '>' then 0 else bareLength t + 1

def bareValue (c : Cursor) : Text × Cursor :=
  let here := c.skipGaps
  let value := here.rest.take (bareLength here.rest)
  (value, c.advanceTo (here.pos + bytes value))

def attributeValue (c : Cursor) : (Text × List Fault) × Cursor :=
  match c.kind with
  | .doubleQuote => c.advance.quotedValue '"' c.current
  | .singleQuote => c.advance.quotedValue '\'' c.current
  | _ => let (value, after) := c.bareValue; ((value, []), after)

/-- The next attribute or stray token of a start tag, unless the tag ends here. -/
def tagItem (c : Cursor) : Option (TagItem × Cursor) :=
  match c.kind with
  | .tagClose | .selfClose | .endOfFile => none
  | .name =>
    let token := c.current
    let after := c.advance
    if after.kind = .equals then
      let ((value, faults), after) := after.advance.attributeValue
      some (.attribute token.lexeme token.span value faults, after)
    else some (.attribute token.lexeme token.span [] [], after)
  | found => some (.stray ⟨.unexpectedToken .attributeOrClose found, c.current.span⟩, c.advance)

def tagItems (c : Cursor) : List TagItem × Cursor := exhaust tagItem c.rest.length c

end Cursor

/-- The attributes among the pieces of a tag. Of two with the same name the first counts. -/
def collectAttributes : List Attribute → List TagItem → List Attribute × List Fault
  | known, [] => (known, [])
  | known, .stray fault :: items =>
    let (attributes, faults) := collectAttributes known items
    (attributes, fault :: faults)
  | known, .attribute name nameSpan value own :: items =>
    if known.any (·.name == name) then
      let (attributes, faults) := collectAttributes known items
      (attributes, own ++ ⟨.duplicateAttribute name, nameSpan⟩ :: faults)
    else
      let (attributes, faults) := collectAttributes (known ++ [⟨name, value⟩]) items
      (attributes, own ++ faults)

structure StartTag where
  attributes : List Attribute
  tagEnd : TagEnd
  faults : List Fault
  deriving Repr, DecidableEq

structure ClosingTag where
  name : Text
  span : Span
  faults : List Fault
  deriving Repr, DecidableEq

structure Comment where
  body : Text
  span : Span
  faults : List Fault
  deriving Repr, DecidableEq

namespace Cursor

def startTag (c : Cursor) : StartTag × Cursor :=
  let (items, after) := c.tagItems
  let (attributes, faults) := collectAttributes [] items
  match after.kind with
  | .tagClose => (⟨attributes, .opened, faults⟩, after.advance)
  | .selfClose => (⟨attributes, .selfClosed, faults⟩, after.advance)
  | _ => (⟨attributes, .cutOff, faults⟩, after)

def closingTag (c : Cursor) : ClosingTag × Cursor :=
  let start := c.current.start
  let inside := c.advance
  let (name, after) :=
    if inside.kind = .name then (inside.current.lexeme, inside.advance) else ([], inside)
  let span := ⟨start, after.current.stop⟩
  if after.kind = .tagClose then (⟨name, span, []⟩, after.advance)
  else (⟨name, span, [⟨.unexpectedToken .close after.kind, after.current.span⟩]⟩, after)

def comment (c : Cursor) : Comment × Cursor :=
  let opened := c.current
  let inside := c.advance
  match breakOn? ['-', '-', '>'] inside.rest with
  | some (body, _) =>
    let stop := inside.pos + bytes body + 3
    (⟨body, ⟨opened.start, stop⟩, []⟩, inside.advanceTo stop)
  | none =>
    (⟨inside.rest, ⟨opened.start, inside.last⟩, [⟨.unclosedComment, opened.span⟩]⟩, inside.advanceTo inside.last)

end Cursor

end ComponentConverter.Markup
