import ComponentConverter.Stylesheet.Value.Sides

namespace ComponentConverter.Stylesheet

open Reader

namespace Font

def genericNames : List String :=
  ["serif", "sans-serif", "cursive", "fantasy", "monospace", "system-ui", "emoji", "math", "fangsong",
    "ui-serif", "ui-sans-serif", "ui-monospace", "ui-rounded"] ++ reservedWords

def isGeneric (n : Text) : Bool := genericNames.any (sameLetters ·.toList n)

def splitBlanks : Text → List Text
  | [] => [[]]
  | ' ' :: t => [] :: splitBlanks t
  | c :: t =>
    match splitBlanks t with
    | [] => [[c]]
    | part :: parts => (c :: part) :: parts

def hasDoubleBlank (n : Text) : Bool := (n.zip (n.drop 1)).any fun (c, d) => c == ' ' && d == ' '

/-- The name of a family goes without quotes where that is not longer, unless it holds several
blanks in a row. -/
def familyText (n : Text) : Text :=
  let words := splitBlanks n
  let plain := spaced (words.map identifierText)
  if n.isEmpty || isGeneric n || hasDoubleBlank n || bytes n + 2 ≤ bytes plain then stringText n
  else plain

def family : Reader Text :=
  (familyText <$> string) <|> keyword genericNames <|> do
    let words ← many1 name
    return familyText (spaced words)

def families : Reader Text := listed <$> commaList family

def weight : Reader Text := (Number.text <$> number) <|> oneOf "normal bold bolder lighter"

def sizeWords : String := "xx-small x-small small medium large x-large xx-large xxx-large smaller larger"

def size : Reader Text := (Calculation.valueText <$> lengthPercentage) <|> oneOf sizeWords

def stretchWords : String :=
  "normal ultra-condensed extra-condensed condensed semi-condensed semi-expanded expanded " ++
    "extra-expanded ultra-expanded"

def stretch : Reader Text := oneOf stretchWords <|> (Number.percentage <$> percentage)

def style : Reader Text :=
  oneOf "normal italic" <|> do
    word "oblique"
    match (← optional? angle).filter (· != .degrees 14) with
    | some a => return spaced ["oblique", a.text false]
    | none => return "oblique"

def caps : Reader Text := oneOf "normal small-caps all-small-caps petite-caps all-petite-caps unicase titling-caps"

def lineHeight : Reader Text :=
  oneOf "normal" <|> (Number.text <$> number) <|> (Calculation.valueText <$> lengthPercentage)

structure Parts where
  count : Nat
  style : Option Text
  weight : Option Text
  caps : Option Text
  stretch : Option Text

def partsStep (p : Parts) : Reader Parts :=
  (do word "normal"; return { p with count := p.count + 1 }) <|>
  (do return { p with count := p.count + 1, style := ← fill p.style style }) <|>
  (do return { p with count := p.count + 1, weight := ← fill p.weight weight }) <|>
  (do return { p with count := p.count + 1, caps := ← fill p.caps (oneOf "normal small-caps") }) <|>
  (do return { p with count := p.count + 1, stretch := ← fill p.stretch (oneOf stretchWords) })

def font : Reader Text := do
  let p ← steps partsStep ⟨0, none, none, none, none⟩
  let s ← size
  guard (p.count ≤ 4)
  let height ← if ← holds slash then some <$> lineHeight else pure none
  let fs ← families
  let height := (height.filter (· != "normal".toList)).map fun h => " / ".toList ++ h
  let isUsual (t : Text) : Bool := t == "normal"
  return spaced ((p.style.filter (!isUsual ·)).toList ++ (p.caps.filter (!isUsual ·)).toList ++
    (p.weight.filter (!isUsual ·)).toList ++ (p.stretch.filter (!isUsual ·)).toList ++
    [s ++ height.getD [], fs])

end Font

def fontReaders : List (String × Reader Text) :=
  [("font-weight", Font.weight), ("font-size", Font.size), ("font-stretch", Font.stretch),
    ("font-family", Font.families),
    ("font-style", Font.style),
    ("font-variant-caps", Font.caps),
    ("line-height", Font.lineHeight),
    ("font", Font.font),
    ("vertical-align", oneOf "baseline sub super top text-top middle bottom text-bottom" <|>
        (Calculation.valueText <$> lengthPercentage))]

end ComponentConverter.Stylesheet
