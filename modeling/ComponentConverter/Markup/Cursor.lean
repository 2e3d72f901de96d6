import ComponentConverter.Markup.Token

namespace ComponentConverter.Markup

structure Cursor where
  rest : Text
  pos : Nat
  deriving Repr, DecidableEq

namespace Cursor

def start (source : Text) : Cursor := ⟨source, 0⟩

def take (c : Cursor) (n : Nat) : Text × Cursor :=
  let taken := c.rest.take n
  (taken, ⟨c.rest.drop n, c.pos + bytes taken⟩)

def last (c : Cursor) : Nat := c.pos + bytes c.rest

def skipGaps (c : Cursor) : Cursor := ⟨c.rest.dropWhile isGap, c.pos + bytes (c.rest.takeWhile isGap)⟩

def next (c : Cursor) : Option (Token × Cursor) :=
  let here := c.skipGaps
  (Kind.read here.rest).map fun (kind, length) =>
    let (lexeme, after) := here.take length
    (⟨kind, lexeme, here.pos⟩, after)

/-- The next token; after the last one, the empty token at the end of the source. -/
def current (c : Cursor) : Token :=
  match c.next with
  | some (token, _) => token
  | none => ⟨.endOfFile, [], c.last⟩

def advance (c : Cursor) : Cursor :=
  match c.next with
  | some (_, after) => after
  | none => c

def kind (c : Cursor) : Kind := c.current.kind

def advanceTo (c : Cursor) (offset : Nat) : Cursor :=
  (exhaust (fun c => c.next.filter (·.1.start < offset)) c.rest.length c).2

def tokens (c : Cursor) : List Token := (exhaust next c.rest.length c).1 ++ [⟨.endOfFile, [], c.last⟩]

end Cursor

def lex (source : Text) : List Token := (Cursor.start source).tokens

end ComponentConverter.Markup
