import ComponentConverter.Text.Basic

namespace ComponentConverter

def isSpace (c : Char) : Bool :=
  let n := c.toNat
  (9 ≤ n && n ≤ 13) || n == 0x20 || n == 0x85 || n == 0xA0 || n == 0x1680 ||
    (0x2000 ≤ n && n ≤ 0x200A) || n == 0x2028 || n == 0x2029 || n == 0x202F || n == 0x205F ||
    n == 0x3000

def trimStart (t : Text) : Text := t.dropWhile isSpace

def trimEnd (t : Text) : Text := (t.reverse.dropWhile isSpace).reverse

def trim (t : Text) : Text := trimEnd (trimStart t)

def isBlank (t : Text) : Bool := t.all isSpace

def splitLines : Text → List Text
  | [] => [[]]
  | c :: t =>
    match splitLines t with
    | [] => [[c]]
    | l :: ls => if c = '\n' then [] :: l :: ls else (c :: l) :: ls

def joinLines : List Text → Text
  | [] => []
  | [l] => l
  | l :: ls => l ++ '\n' :: joinLines ls

def dropReturn (l : Text) : Text := if l.getLast? = some '\r' then l.dropLast else l

/-- The lines of a text: a line feed ends a line and takes a carriage return before it along,
and nothing after the last line feed is no line. -/
def linesOf (t : Text) : List Text :=
  let ls := splitLines t
  let ended := ls.dropLast.map dropReturn
  match ls.getLast? with
  | none | some [] => ended
  | some l => ended ++ [l]

def indentation (line : Text) : Nat := (line.takeWhile isSpace).length

/-- The least indentation of the lines after the first, blank lines aside. -/
def sharedIndentation (t : Text) : Nat :=
  ((((linesOf t).drop 1).filter fun l => !isBlank l).map indentation).min?.getD 0

def outdent : Nat → Text → Text
  | n + 1, c :: line => if isSpace c then outdent n line else c :: line
  | _, line => line

/-- The lines after the first lose the indentation that they share. White space inside a
template literal means something, so a text with a backquote stays as it is. -/
def dedent (t : Text) : Text :=
  if t.contains '\x60' then t
  else
    match splitLines t with
    | [] => t
    | first :: rest => joinLines (first :: rest.map (outdent (sharedIndentation t)))

end ComponentConverter
