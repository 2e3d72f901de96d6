import ComponentConverter.Stylesheet.Property.Grid
import ComponentConverter.Stylesheet.Property.Name

namespace ComponentConverter.Stylesheet

open Reader

namespace Interface

def cursorWords : String :=
  "auto default none context-menu help pointer progress wait cell crosshair text vertical-text " ++
    "alias copy move no-drop not-allowed grab grabbing e-resize n-resize ne-resize nw-resize s-resize " ++
    "se-resize sw-resize w-resize ew-resize ns-resize nesw-resize nwse-resize col-resize row-resize " ++
    "all-scroll zoom-in zoom-out"

def cursorImage : Reader Text := do
  let u ← address
  let place ← optional? do
    let x ← number
    let y ← number
    return [Number.text x, Number.text y]
  comma
  return spaced (urlText u :: place.getD [])

def cursor : Reader Text := do
  let images ← many cursorImage
  return listed (images ++ [← oneOf cursorWords])

def colorOrAuto : Reader Text := oneOf "auto" <|> (Color.text <$> color)

def caret : Reader Text := do
  let step (s : Option Text × Option Text) : Reader (Option Text × Option Text) :=
    (do return (← fill s.1 colorOrAuto, s.2)) <|>
    (do return (s.1, ← fill s.2 (oneOf "auto bar block underscore")))
  let (c, s) ← steps step (none, none)
  guard (c.isSome || s.isSome)
  let parts := (c.filter (· != "auto".toList)).toList ++ (s.filter (· != "auto".toList)).toList
  return if parts.isEmpty then "auto" else spaced parts

def counterWords : String :=
  "decimal decimal-leading-zero arabic-indic armenian upper-armenian lower-armenian bengali cambodian " ++
    "khmer cjk-decimal devanagari georgian gujarati gurmukhi hebrew kannada lao malayalam mongolian " ++
    "myanmar oriya persian lower-roman upper-roman tamil telugu thai tibetan lower-alpha lower-latin " ++
    "upper-alpha upper-latin lower-greek hiragana hiragana-iroha katakana katakana-iroha disc circle " ++
    "square disclosure-open disclosure-closed cjk-earthly-branch cjk-heavenly-stem japanese-informal " ++
    "japanese-formal korean-hangul-formal korean-hanja-informal korean-hanja-formal " ++
    "simp-chinese-informal simp-chinese-formal trad-chinese-informal trad-chinese-formal " ++
    "ethiopic-numeric"

def symbols : Reader Text := call "symbols" do
  let kind := (← optional? (oneOf "cyclic numeric alphabetic symbolic fixed")).getD "symbolic"
  let parts ← many1 ((stringText <$> string) <|> image)
  return "symbols(" ++ spaced (unlessUsual "symbolic".toList id kind ++ parts) ++ [')']

def listType : Reader Text :=
  oneOf "none" <|> (stringText <$> string) <|> oneOf counterWords <|> symbols <|> (identifierText <$> customName)

def listPosition : Reader Text := oneOf "inside outside"

structure ListParts where
  position : Option Text
  image : Option Text
  type : Option Text

def listStep (l : ListParts) : Reader ListParts :=
  (do return { l with position := ← fill l.position listPosition }) <|>
  (do
    guard l.type.isNone
    word "none"
    return { l with type := some "none" }) <|>
  (do return { l with image := ← fill l.image image }) <|>
  (do return { l with type := ← fill l.type listType })

def listStyle : Reader Text := do
  let l ← steps listStep ⟨none, none, none⟩
  guard (l.position.isSome || l.image.isSome || l.type.isSome)
  let parts := (l.position.filter (· != "outside".toList)).toList ++
    (l.image.filter (· != "none".toList)).toList ++ (l.type.filter (· != "disc".toList)).toList
  return if parts.isEmpty then "outside" else spaced parts

/-- Schemes of colours that a page is made for; unknown ones count for nothing. The word that
forbids all others stands first or last, and is written last, after a blank. -/
def colorScheme : Reader Text := do
  let first := (← name).map Char.toLower
  let rest ← many (List.map Char.toLower <$> name)
  if first == "normal" then
    guard rest.isEmpty
    return first
  let all := first :: rest
  guard !(rest.contains "normal")
  guard (!(rest.dropLast.contains "only") && all.count "only".toList ≤ 1)
  let shown := ["light".toList, "dark"].filter all.contains
  let only := if all.contains "only" then " only".toList else []
  return if shown.isEmpty && only.isEmpty then "normal" else spaced shown ++ only

def containerName : Reader Text := do
  let n ← customName
  guard !(["none", "and", "not", "or"].any (sameLetters ·.toList n))
  return identifierText n

def containerNames : Reader Text := oneOf "none" <|> (spaced <$> many1 containerName)

def container : Reader Text := do
  let names ← containerNames
  let type ← if ← holds slash then some <$> oneOf "normal inline-size size scroll-state" else pure none
  return names ++ ((type.filter (· != "normal".toList)).map fun t => " / ".toList ++ t).getD []

def appearanceWords : String :=
  "none auto textfield menulist-button button checkbox listbox menulist meter progress-bar " ++
    "push-button radio searchfield slider-horizontal square-button textarea"

def appearance : Reader Text := oneOf appearanceWords <|> name

end Interface

def interfaceReaders : List (String × Reader Text) :=
  [("resize", oneOf "none both horizontal vertical block inline"), ("cursor", Interface.cursor),
    ("caret-color", Interface.colorOrAuto),
    ("caret-shape", oneOf "auto bar block underscore"),
    ("caret", Interface.caret),
    ("user-select", oneOf "auto text none contain all"),
    ("accent-color", Interface.colorOrAuto),
    ("appearance", Interface.appearance),
    ("list-style-type", Interface.listType),
    ("list-style-image", image),
    ("list-style-position", Interface.listPosition),
    ("list-style", Interface.listStyle),
    ("marker-side", oneOf "match-self match-parent"),
    ("color-scheme", Interface.colorScheme),
    ("print-color-adjust", oneOf "economy exact"),
    ("container-name", Interface.containerNames),
    ("container", Interface.container),
    ("view-transition-name", oneOf "none auto" <|> (identifierText <$> customName)),
    ("view-transition-class", oneOf "none" <|> (spaced <$> many1 (identifierText <$> customName))),
    ("view-transition-group", oneOf "normal contain nearest" <|> (identifierText <$> customName))]

end ComponentConverter.Stylesheet
