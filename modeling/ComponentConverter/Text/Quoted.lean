import ComponentConverter.Text.Blank

namespace ComponentConverter

def hexDigits (n : Nat) : Text := Nat.toDigits 16 n

/-- Ranges of characters that have no shape of their own: controls, formats, surrogates, private
characters and white space other than the blank. -/
def unseenRanges : List (Nat × Nat) := [
  (0x0, 0x1F), (0x7F, 0xA0), (0xAD, 0xAD), (0x300, 0x36F), (0x483, 0x489), (0x591, 0x5BD),
  (0x600, 0x605), (0x61C, 0x61C), (0x6DD, 0x6DD), (0x70F, 0x70F), (0x1680, 0x1680),
  (0x180B, 0x180F), (0x2000, 0x200F), (0x2028, 0x202F), (0x205F, 0x206F), (0x20D0, 0x20F0),
  (0x3000, 0x3000), (0xD800, 0xF8FF), (0xFE00, 0xFE0F), (0xFE20, 0xFE2F), (0xFEFF, 0xFEFF),
  (0xFFF0, 0xFFFB), (0xFFFE, 0xFFFF), (0xE0000, 0x10FFFF)]

def isUnseen (c : Char) : Bool := unseenRanges.any fun (first, last) => first ≤ c.toNat && c.toNat ≤ last

def shownChar (quote c : Char) : Text :=
  if c == quote || c == '\\' then ['\\', c]
  else if c == '\n' then ['\\', 'n']
  else if c == '\r' then ['\\', 'r']
  else if c == '\t' then ['\\', 't']
  else if c.toNat == 0 then ['\\', '0']
  else if isUnseen c then "\\u\x7b" ++ hexDigits c.toNat ++ "\x7d"
  else [c]

def quotedChar (c : Char) : String := String.ofList ('\'' :: shownChar '\'' c ++ ['\''])

def quotedText (t : Text) : String := String.ofList ('"' :: t.flatMap (shownChar '"') ++ ['"'])

end ComponentConverter
