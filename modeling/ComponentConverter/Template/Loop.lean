import ComponentConverter.Text.Blank

namespace ComponentConverter.Template

structure Loop where
  source : Text
  item : Text
  iterators : List Text
  deriving Repr, DecidableEq

namespace Loop

def afterKeyword? : Text → Option Text
  | 'i' :: 'n' :: c :: t | 'o' :: 'f' :: c :: t => if isSpace c then some (c :: t) else none
  | _ => none

/-- Splits at the first `in` or `of` with white space on both sides. The text before it is
collected in reverse. -/
def splitAtKeyword? (before : Text) : Text → Option (Text × Text)
  | [] => none
  | c :: t =>
    match if before.head?.any isSpace then afterKeyword? (c :: t) else none with
    | some after => some (before.reverse, after)
    | none => splitAtKeyword? (c :: before) t

def dropOpening : Text → Text
  | '(' :: t => t
  | t => t

def dropClosing (t : Text) : Text := if t.getLast? = some ')' then t.dropLast else t

/-- A segment that ends a destructuring pattern is no name. -/
def isPlainSegment (t : Text) : Bool := !t.any fun c => c == '}' || c == ']'

def splitIterators (names : Text) : Text × List Text :=
  match breakOnLast? ',' names with
  | none => (names, [])
  | some (head, tail) =>
    if isPlainSegment tail then
      match breakOnLast? ',' head with
      | some (item, middle) =>
        if isPlainSegment middle then (item, [middle, tail]) else (head, [tail])
      | none => (head, [tail])
    else (names, [])

/-- Reads a loop head; one without an item or without a source is none. -/
def parse? (expression : Text) : Option Loop :=
  match splitAtKeyword? [] expression with
  | none => none
  | some (names, source) =>
    let (item, iterators) := splitIterators (dropClosing (dropOpening (trim names)))
    if (trim item).isEmpty || (trim source).isEmpty then none
    else some ⟨trim source, trim item, iterators.map trim⟩

end Loop

end ComponentConverter.Template
