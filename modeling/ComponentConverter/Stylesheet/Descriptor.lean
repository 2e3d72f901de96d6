import ComponentConverter.Stylesheet.Property.Font
import ComponentConverter.Stylesheet.Property.Grid
import ComponentConverter.Stylesheet.Value.Image

namespace ComponentConverter.Stylesheet

open Reader

namespace Descriptor

def format : Reader Text := call "format" do
  let t ← string <|> name
  let known := ["woff", "woff2", "truetype", "opentype", "embedded-opentype", "collection", "svg"]
  return stringText (if known.any (sameLetters ·.toList t) then t.map Char.toLower else t)

def techniques : List String :=
  ["features-opentype", "features-aat", "features-graphite", "color-COLRv0", "color-COLRv1", "color-SVG",
    "color-sbix", "color-CBDT", "variations", "palettes", "incremental"]

def technique : Reader Text := do
  let n ← name
  ofOption ((techniques.find? (sameLetters ·.toList n)).map String.toList)

def source : Reader Text :=
  (do
    let a ← urlText <$> address
    let f ← optional? format
    let t ← optional? (call "tech" (listed <$> commaList technique))
    return spaced ([a] ++ (f.map fun f => "format(" ++ f ++ [')']).toList ++
      (t.map fun t => "tech(" ++ t ++ [')']).toList)) <|>
  (do
    let f ← call "local" Font.family
    return "local(" ++ f ++ [')'])

def twice (r : Reader Text) : Reader Text := do
  let a ← r
  match ← optional? r with
  | some b => return if a == b then a else spaced [a, b]
  | none => return a

def slope : Reader Text :=
  oneOf "normal italic" <|> do
    word "oblique"
    let usual := Quantity.degrees 14
    match ← optional? angle with
    | none => return "oblique"
    | some a =>
      let b := (← optional? angle).getD a
      if a == usual && b == usual then return "oblique"
      return spaced (["oblique".toList, a.text false] ++ (if a == b then [] else [b.text false]))

def hexValue (digits : Text) : Nat := digits.foldl (fun n c => 16 * n + (hexDigit? c).getD 0) 0

/-- The text of a range; where all that follows some digits belongs to it, question marks stand for
the rest. -/
def rangeText (first last : Nat) : Text :=
  let hex (n : Nat) : Text := (Nat.toDigits 16 n).map Char.toUpper
  let unit (k : Nat) : Nat := Nat.pow 16 k
  let open_ := [6, 5, 4, 3, 2, 1].find? fun k =>
    first / unit k == last / unit k && first / unit (k - 1) != last / unit (k - 1)
  match open_.filter fun k => first % unit k == 0 && last % unit k == unit k - 1 with
  | some k =>
    "U+" ++ (if first / unit k == 0 then [] else hex (first / unit k)) ++ List.replicate k '?'
  | none => "U+" ++ hex first ++ (if first == last then [] else '-' :: hex last)

def range? : Text → Option Text
  | '+' :: t => do
    let isHex (c : Char) : Bool := (hexDigit? c).isSome
    let start := t.takeWhile isHex
    let rest := t.drop start.length
    guard (start.length ≤ 6)
    let marks := rest.takeWhile (· == '?')
    let after := rest.drop marks.length
    let (first, last) ←
      if !marks.isEmpty then
        if start.length + marks.length ≤ 6 && after.isEmpty then
          let unit := Nat.pow 16 marks.length
          some (hexValue start * unit, hexValue start * unit + unit - 1)
        else none
      else if start.isEmpty then none
      else
        match after with
        | [] => some (hexValue start, hexValue start)
        | '-' :: stop =>
          if !stop.isEmpty && stop.length ≤ 6 && stop.all isHex then some (hexValue start, hexValue stop) else none
        | _ => none
    guard (last ≤ 0x10FFFF && first ≤ last)
    return rangeText first last
  | _ => none

def range : Reader Text := do
  word "u"
  let rest ← get
  let own := rest.takeWhile fun p => !p.isBlank && !p.is .comma
  set (rest.drop own.length)
  ofOption (range? (sourceText own))

inductive Kind where
  | font
  | palette
  | transition
  deriving Repr, DecidableEq

def replacement : Reader Text := do
  let i ← integer
  guard (0 ≤ i)
  let c ← color
  guard (c != .current)
  return spaced [integerText i, c.text]

def basePalette : Reader Text := oneOf "light dark" <|> do
  let i ← integer
  guard (0 ≤ i)
  return integerText i

def Kind.readers : Kind → List (String × Reader Text)
  | .font =>
    [("src", listed <$> commaList source), ("font-family", Font.family), ("font-weight", twice Font.weight),
      ("font-style", slope), ("font-stretch", twice Font.stretch), ("unicode-range", listed <$> commaList range)]
  | .palette =>
    [("font-family", Font.family), ("base-palette", basePalette),
      ("override-colors", listed <$> commaList replacement)]
  | .transition =>
    [("navigation", oneOf "none auto"),
      ("types", oneOf "none" <|> (spaced <$> many1 (identifierText <$> customName)))]

def line? (kind : Kind) (n : Text) (stop : Location) (ps : List Piece) : Option Text := do
  let value ← match dropBlank ps with
    | p :: rest => if p.is .colon then some rest else none
    | [] => none
  let typed := (kind.readers.find? (sameLetters ·.1.toList n)).bind fun (_, r) => StateT.run r value
  match typed with
  | some (t, rest) =>
    guard (dropBlank rest).isEmpty
    return n ++ ": " ++ t ++ [';']
  | none =>
    guard (value.all (!·.is (.mark '!')))
    match rawText stop value with
    | .ok t => return n ++ ": " ++ t ++ [';']
    | .error _ => none

def lines (kind : Kind) (stop : Location) : Nat → List Piece → List Text
  | 0, _ => []
  | fuel + 1, ps =>
    match ps with
    | [] => []
    | p :: rest =>
      if p.isBlank || p.is .semicolon || p.is (.closing .curly) then lines kind stop fuel rest
      else
        let isOwn (q : Piece) : Bool := !q.is .semicolon
        match p.head with
        | .name n =>
          let own := rest.takeWhile isOwn
          let after := rest.drop own.length
          (line? kind n (placeOf stop after) own).toList ++ lines kind stop fuel after
        | .atKeyword _ =>
          let head := rest.takeWhile fun q => isOwn q && q.block?.isNone
          lines kind stop fuel (rest.drop (head.length + 1))
        | _ => lines kind stop fuel (ps.dropWhile isOwn)

end Descriptor

end ComponentConverter.Stylesheet
