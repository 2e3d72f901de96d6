import ComponentConverter.Text.Span

namespace ComponentConverter

structure Position where
  line : Nat
  column : Nat
  deriving Repr, DecidableEq

namespace Position

def toString (p : Position) : String := s!"{p.line}:{p.column}"

def lineStartsAfter (base : Nat) : Text → List Nat
  | [] => []
  | c :: t =>
    let next := base + c.utf8Size
    if c = '\n' then next :: lineStartsAfter next t else lineStartsAfter next t

def lineStarts (t : Text) : List Nat := 0 :: lineStartsAfter 0 t

def lineCount (t : Text) : Nat := (lineStarts t).length

/-- The place of an offset. One past the end counts as the end; one inside a character is in
the first column. -/
def ofOffset (t : Text) (offset : Nat) : Position :=
  let offset := min offset (bytes t)
  let reached := (lineStarts t).takeWhile (· ≤ offset)
  let start := reached.getLast?.getD 0
  ⟨reached.length, ((Span.mk start offset).slice? t).elim 0 List.length + 1⟩

end Position

end ComponentConverter
