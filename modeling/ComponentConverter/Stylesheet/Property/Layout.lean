import ComponentConverter.Stylesheet.Value.Image

namespace ComponentConverter.Stylesheet

open Reader

namespace Layout

def displayWords : String :=
  "none contents table-row-group table-header-group table-footer-group table-row table-cell " ++
    "table-column-group table-column table-caption ruby-base ruby-text ruby-base-container " ++
    "ruby-text-container"

structure Display where
  outside : Option Text
  inside : Option Text
  isListItem : Bool

def displayStep (d : Display) : Reader Display :=
  (do word "list-item"; return { d with isListItem := true }) <|>
  (do return { d with outside := ← fill d.outside (oneOf "block inline run-in") }) <|>
  (do
    let inside := oneOf "flow flow-root table flex -webkit-flex -ms-flexbox -webkit-box -moz-box grid ruby"
    return { d with inside := ← fill d.inside inside })

def inlineWords : List (String × String) :=
  [("flow-root", "inline-block"), ("table", "inline-table"), ("flex", "inline-flex"),
    ("-webkit-flex", "-webkit-inline-flex"), ("-ms-flexbox", "-ms-inline-flexbox"),
    ("-webkit-box", "-webkit-inline-box"), ("-moz-box", "-moz-inline-box"), ("grid", "inline-grid")]

def displayText (d : Display) : Text :=
  let inside := d.inside.getD "flow"
  let usual := (if inside == "ruby" then "inline" else "block").toList
  let outside := d.outside.getD usual
  let isInline := outside == "inline" && !d.isListItem
  match if isInline then inlineWords.find? (·.1.toList == inside) else none with
  | some (_, w) => w.toList
  | none =>
    let showsOutside := outside != usual || (inside == "flow" && !d.isListItem)
    spaced ((if showsOutside then [outside] else []) ++ unlessUsual "flow".toList id inside ++
      (if d.isListItem then ["list-item".toList] else []))

def display : Reader Text :=
  (do
    let d ← steps displayStep ⟨none, none, false⟩
    guard (d.isListItem || d.outside.isSome || d.inside.isSome)
    guard (!d.isListItem || d.inside.all fun i => i == "flow".toList || i == "flow-root")
    return displayText d) <|>
  keyword (inlineWords.map Prod.snd) <|> oneOf displayWords

def overflowWord : Reader Text := oneOf "visible hidden clip scroll auto"

def flexDirection : Reader Text := oneOf "row row-reverse column column-reverse"

def flexWrap : Reader Text := oneOf "nowrap wrap wrap-reverse"

def flexFlow : Reader Text := do
  let step (s : Option Text × Option Text) : Reader (Option Text × Option Text) :=
    (do return (← fill s.1 flexDirection, s.2)) <|> (do return (s.1, ← fill s.2 flexWrap))
  let (d, w) ← steps step (none, none)
  guard (d.isSome || w.isSome)
  let d := d.getD "row"
  let w := w.getD "nowrap"
  let isUsualWrap := w == "nowrap"
  return spaced ((if d != "row" || isUsualWrap then [d] else []) ++ if isUsualWrap then [] else [w])

structure Flex where
  sizes : Option (Float32 × Option Float32)
  basis : Option Extent

def flexStep (f : Flex) : Reader Flex :=
  (do
    let sizes : Reader (Float32 × Option Float32) := do
      let grow ← number
      return (grow, ← optional? number)
    return { f with sizes := ← fill f.sizes sizes }) <|>
  (do return { f with basis := ← fill f.basis lengthPercentageOrAuto })

/-- The text of how a box grows and shrinks from its basis. A basis of nought needs all three. -/
def flexText (grow shrink : Float32) (basis : Extent) : Text :=
  if grow == 0 && shrink == 0 && basis == .auto then "none"
  else
    let isLength := match basis with
      | .measure (.value (.length x _)) => x == 0
      | _ => false
    let isPercentage := match basis with
      | .measure (.value (.percentage x)) => x == 0
      | _ => false
    let sizes :=
      if grow != 1 || shrink != 1 || isLength || isPercentage then
        Number.text grow :: (if shrink != 1 || isLength then [Number.text shrink] else [])
      else []
    spaced (sizes ++ if isPercentage then [] else [basis.text])

def flex : Reader Text :=
  (do word "none"; return "none") <|> do
    let f ← steps flexStep ⟨none, none⟩
    let (grow, shrink) := f.sizes.getD (1, none)
    return flexText grow (shrink.getD 1) (f.basis.getD (.measure (.value (.percentage 0))))

def overflowPosition : Reader Text := oneOf "safe unsafe"

def positioned (words : String) : Reader Text := do
  let o ← optional? overflowPosition
  return spaced (o.toList ++ [← oneOf words])

def baseline : Reader Text :=
  oneOf "baseline" <|> (do word "first"; word "baseline"; return "baseline") <|>
    (do word "last"; word "baseline"; return "last baseline")

def contentWords : String := "center start end flex-start flex-end"

def selfWords : String := "center start end self-start self-end flex-start flex-end"

def distribution : Reader Text := oneOf "space-between space-around space-evenly stretch"

def alignContent : Reader Text := oneOf "normal" <|> baseline <|> distribution <|> positioned contentWords

def justifyContent : Reader Text := oneOf "normal" <|> distribution <|> positioned (contentWords ++ " left right")

def alignSelf : Reader Text := oneOf "auto normal stretch" <|> baseline <|> positioned selfWords

def justifySelf : Reader Text := oneOf "auto normal stretch" <|> baseline <|> positioned (selfWords ++ " left right")

def alignItems : Reader Text := oneOf "normal stretch" <|> baseline <|> positioned selfWords

def legacy : Reader Text :=
  (do word "legacy"; return spaced ["legacy", ← oneOf "left right center"]) <|>
  (do
    let w ← oneOf "left right center"
    word "legacy"
    return spaced ["legacy", w])

def justifyItems : Reader Text :=
  oneOf "normal stretch" <|> baseline <|> legacy <|> positioned (selfWords ++ " left right")

/-- Values for both directions; the second follows from the first unless that is a line of text. -/
def place (first second : Reader Text) (ofBaseline : Text) : Reader Text := do
  let a ← first
  let follows := if a == "baseline" || a == "last baseline" then ofBaseline else a
  let b := (← optional? second).getD follows
  return spaced (a :: if b == a then [] else [b])

def gap : Reader Extent := Extent.read "normal" lengthPercentage

end Layout

def layoutReaders : List (String × Reader Text) :=
  [("display", Layout.display), ("visibility", oneOf "visible hidden collapse"),
    ("overflow", Pair.text id <$> Pair.read Layout.overflowWord),
    ("overflow-x", Layout.overflowWord),
    ("overflow-y", Layout.overflowWord),
    ("text-overflow", oneOf "clip ellipsis"),
    ("position", oneOf "static relative absolute fixed sticky -webkit-sticky"),
    ("z-index", oneOf "auto" <|> (integerText <$> integer)),
    ("flex-direction", Layout.flexDirection),
    ("flex-wrap", Layout.flexWrap),
    ("flex-flow", Layout.flexFlow),
    ("flex-grow", Number.text <$> number),
    ("flex-shrink", Number.text <$> number),
    ("flex-basis", Extent.text <$> lengthPercentageOrAuto),
    ("flex", Layout.flex),
    ("order", integerText <$> integer),
    ("align-content", Layout.alignContent),
    ("justify-content", Layout.justifyContent),
    ("place-content", Layout.place Layout.alignContent Layout.justifyContent "start"),
    ("align-self", Layout.alignSelf),
    ("justify-self", Layout.justifySelf),
    ("place-self", Layout.place Layout.alignSelf Layout.justifySelf "baseline"),
    ("align-items", Layout.alignItems),
    ("justify-items", Layout.justifyItems),
    ("place-items", Layout.place Layout.alignItems Layout.justifyItems "baseline"),
    ("row-gap", Extent.text <$> Layout.gap),
    ("column-gap", Extent.text <$> Layout.gap),
    ("gap", Pair.text Extent.text <$> Pair.read Layout.gap),
    ("container-type", oneOf "normal inline-size size scroll-state"),
    ("box-orient", oneOf "horizontal vertical inline-axis block-axis"),
    ("box-direction", oneOf "normal reverse"),
    ("box-ordinal-group", integerText <$> integer),
    ("box-align", oneOf "start end center baseline stretch"),
    ("box-flex", Number.text <$> number),
    ("box-flex-group", integerText <$> integer),
    ("box-pack", oneOf "start end center justify"),
    ("box-lines", oneOf "single multiple"),
    ("flex-pack", oneOf "start end center justify distribute"),
    ("flex-order", integerText <$> integer),
    ("flex-align", oneOf "start end center baseline stretch"),
    ("flex-item-align", oneOf "auto start end center baseline stretch"),
    ("flex-line-pack", oneOf "start end center justify distribute stretch"),
    ("flex-positive", Number.text <$> number),
    ("flex-negative", Number.text <$> number),
    ("flex-preferred-size", Extent.text <$> lengthPercentageOrAuto)]

end ComponentConverter.Stylesheet
