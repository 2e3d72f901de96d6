import ComponentConverter.Stylesheet.Property.Grid
import ComponentConverter.Stylesheet.Property.Transform
import ComponentConverter.Stylesheet.Strict
import ComponentConverter.Stylesheet.Value.Image

namespace ComponentConverter.Stylesheet

namespace Registration

inductive Repetition where
  | once
  | spaced
  | listed
  deriving Repr, DecidableEq

structure Form where
  kind : Option Text
  word : Text
  repetition : Repetition
  deriving Repr

inductive Forms where
  | any
  | oneOf (forms : List Form)
  deriving Repr

def kinds : List String :=
  ["length", "number", "percentage", "length-percentage", "string", "color", "image", "url", "integer",
    "angle", "time", "resolution", "transform-function", "transform-list", "custom-ident"]

def isSpace (c : Char) : Bool := c == ' ' || c == '\t'

def startsWord (c : Char) : Bool := c.isAlpha || c == '_' || 0x80 ≤ c.toNat

def continuesWord (c : Char) : Bool := startsWord c || c.isDigit || c == '-'

def repetition : Text → Repetition × Text
  | '+' :: t => (.spaced, t)
  | '#' :: t => (.listed, t)
  | t => (.once, t)

def form? (t : Text) : Option (Form × Text) :=
  match t.dropWhile isSpace with
  | '<' :: t => do
    let name := t.takeWhile (· != '>')
    let rest ← (t.drop name.length).tail?
    let kind ← kinds.find? (sameLetters ·.toList name)
    if kind == "transform-list" then return (⟨some kind.toList, [], .once⟩, rest)
    let (r, rest) := repetition rest
    return (⟨some kind.toList, [], r⟩, rest)
  | c :: t =>
    if startsWord c then
      let word := c :: t.takeWhile continuesWord
      let (r, rest) := repetition (t.dropWhile continuesWord)
      some (⟨none, word, r⟩, rest)
    else none
  | [] => none

def forms? : Nat → Text → Option (List Form)
  | 0, _ => none
  | fuel + 1, t => do
    let (f, rest) ← form? t
    match rest.dropWhile isSpace with
    | [] => return [f]
    | '|' :: rest => return f :: (← forms? fuel rest)
    | _ => none

def trimSpaces (t : Text) : Text := ((t.dropWhile isSpace).reverse.dropWhile isSpace).reverse

def Forms.ofText? (t : Text) : Option Forms :=
  let t := trimSpaces t
  if t == ['*'] then some .any else Forms.oneOf <$> forms? (t.length + 1) t

def Form.text (f : Form) : Text :=
  let kind := match f.kind with
    | some k => ['<'] ++ k ++ ['>']
    | none => f.word
  kind ++ match f.repetition with
    | .once => []
    | .spaced => ['+']
    | .listed => ['#']

def Forms.text : Forms → Text
  | .any => "\"*\""
  | .oneOf fs => ['"'] ++ " | ".toList.intercalate (fs.map Form.text) ++ ['"']

open Reader in
def Form.value (f : Form) : Reader Text :=
  match f.kind with
  | none => do
    guard ((← name) == f.word)
    return identifierText f.word
  | some k =>
    match String.ofList k with
    | "length" => Calculation.valueText <$> length
    | "number" => Number.text <$> number
    | "percentage" => Number.percentage <$> percentage
    | "length-percentage" => Calculation.valueText <$> lengthPercentage
    | "string" => stringText <$> string
    | "color" => Color.text <$> color
    | "image" => image
    | "url" => urlText <$> address
    | "integer" => integerText <$> integer
    | "angle" => (Quantity.text false ·) <$> angle
    | "time" => (Quantity.text false ·) <$> time
    | "resolution" => resolution
    | "transform-function" => Transform.single
    | "transform-list" => Transform.list
    | _ => identifierText <$> customName

open Reader in
/-- Reads a value with its repetitions. What is left after a single value does not count. -/
def Form.values (f : Form) : Reader Text := do
  match f.repetition with
  | .once => f.value
  | .spaced =>
    let ts ← many1 f.value
    guard (← isDone)
    return Stylesheet.spaced ts
  | .listed =>
    let first ← f.value
    let rest ← many do
      comma
      f.value
    guard (← isDone)
    return Stylesheet.listed (first :: rest)

def Forms.initial (fs : Forms) (stop : Location) (ps : List Piece) : Except Fault Text :=
  match fs with
  | .any => rawText stop ps
  | .oneOf fs =>
    match fs.findSome? fun f => (StateT.run f.values ps).map Prod.fst with
    | some t => .ok t
    | none => .error ⟨.invalidRule, .start⟩

structure Facts where
  forms : Option Forms
  inherits : Option Bool
  initial : Option (List Piece × Location)

open Strict in
def fact (known : Facts) (n : Text) : Strict Facts := do
  mark .colon
  match String.ofList (n.map Char.toLower) with
  | "syntax" =>
    let t ← expect fun p => match p.head with
      | .string t => some t
      | _ => none
    match Forms.ofText? t with
    | some fs => return { known with forms := some fs }
    | none => fail .invalidValue
  | "inherits" =>
    let start ← place
    let w ← name
    if sameLetters w "true" then return { known with inherits := some true }
    if sameLetters w "false" then return { known with inherits := some false }
    failAt (.unexpectedToken (.name w)) start
  | "initial-value" =>
    let value := (← get, ← read)
    set ([] : List Piece)
    return { known with initial := some value }
  | _ => fail .invalidDeclaration

def facts (stop : Location) : Nat → Facts → List Piece → Except Fault Facts
  | 0, known, _ => .ok known
  | fuel + 1, known, ps =>
    match ps with
    | [] => .ok known
    | p :: rest =>
      if p.isBlank || p.is .semicolon then facts stop fuel known rest
      else
        match p.head with
        | .name n => do
          let own := rest.takeWhile (!·.is .semicolon)
          let after := rest.drop own.length
          let known ← Strict.run? (fact known n) (placeOf stop after) own
          facts stop fuel known after
        | .atKeyword n => .error ⟨.unknownRule n, p.stop⟩
        | t => .error ⟨.unexpectedToken t, p.start⟩

/-- The lines of a registration. The form and whether the property is inherited have to be told, and
an initial value unless every value is allowed. -/
def lines (stop : Location) (ps : List Piece) : Except Fault (List Text) := do
  let known ← facts stop (ps.length + 1) ⟨none, none, none⟩ ps
  match known.forms, known.inherits with
  | some fs, some inherits =>
    let head := ["syntax: " ++ fs.text ++ [';']]
    let inherits := "inherits: " ++ (if inherits then "true" else "false").toList
    match fs, known.initial with
    | .any, none => return head ++ [inherits]
    | _, some (value, valueStop) =>
      let t ← fs.initial valueStop value
      return head ++ [inherits ++ [';'], "initial-value: " ++ t ++ [';']]
    | _, none => throw ⟨.invalidBody, stop⟩
  | _, _ => throw ⟨.invalidBody, stop⟩

end Registration

end ComponentConverter.Stylesheet
