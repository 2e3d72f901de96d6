import ComponentConverter.Text.Blank

namespace ComponentConverter.CommandLine

inductive Json where
  | null
  | number (n : Nat)
  | string (s : Text)
  | array (items : List Json)
  | object (fields : List (String × Json))
  deriving Repr

namespace Json

def hexDigit (n : Nat) : Char := Nat.digitChar (n % 16)

/-- Quotes, backslashes and control characters are escaped, and nothing else. -/
def escape (c : Char) : Text :=
  if c == '"' then "\\\""
  else if c == '\\' then "\\\\"
  else if c == '\n' then "\\n"
  else if c == '\r' then "\\r"
  else if c == '\t' then "\\t"
  else if c == '\x08' then "\\b"
  else if c == '\x0c' then "\\f"
  else if c.toNat < 32 then "\\u00" ++ [hexDigit (c.toNat / 16), hexDigit c.toNat]
  else [c]

def quote (s : Text) : Text := ['"'] ++ s.flatMap escape ++ ['"']

def line (depth : Nat) : Text := '\n' :: List.replicate (2 * depth) ' '

mutual

def pretty (depth : Nat) : Json → Text
  | .null => "null"
  | .number n => (toString n).toList
  | .string s => quote s
  | .array [] => "[]"
  | .array (i :: is) => ['['] ++ prettyItems (depth + 1) (i :: is) ++ line depth ++ [']']
  | .object [] => "\x7b\x7d"
  | .object (f :: fs) => ['\x7b'] ++ prettyFields (depth + 1) (f :: fs) ++ line depth ++ ['\x7d']

def prettyItems (depth : Nat) : List Json → Text
  | [] => []
  | [i] => line depth ++ pretty depth i
  | i :: is => line depth ++ pretty depth i ++ [','] ++ prettyItems depth is

def prettyFields (depth : Nat) : List (String × Json) → Text
  | [] => []
  | [(k, v)] => line depth ++ quote k.toList ++ ": " ++ pretty depth v
  | (k, v) :: fs =>
    line depth ++ quote k.toList ++ ": " ++ pretty depth v ++ [','] ++ prettyFields depth fs

end

end Json

end ComponentConverter.CommandLine
