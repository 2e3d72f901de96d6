import ComponentConverter.Stylesheet.Value.Image

namespace ComponentConverter.Stylesheet

open Reader

namespace Effect

structure Shadow where
  lengths : Option (Calculation × Calculation × Calculation × Calculation)
  color : Option Color
  isInset : Bool

def lengths (allowsSpread : Bool) : Reader (Calculation × Calculation × Calculation × Calculation) := do
  let x ← length
  let y ← length
  let blur := (← optional? length).getD .zero
  let spread ← if allowsSpread then optional? length else pure none
  return (x, y, blur, spread.getD .zero)

def shadowStep (allowsInset allowsSpread : Bool) (s : Shadow) : Reader Shadow :=
  (do
    guard (allowsInset && !s.isInset)
    word "inset"
    return { s with isInset := true }) <|>
  (do return { s with lengths := ← fill s.lengths (lengths allowsSpread) }) <|>
  (do return { s with color := ← fill s.color Stylesheet.color })

def shadow (allowsInset allowsSpread : Bool) : Reader Text := do
  let s ← steps (shadowStep allowsInset allowsSpread) ⟨none, none, false⟩
  let (x, y, blur, spread) ← ofOption s.lengths
  let isPlain := blur == .zero && spread == .zero
  return spaced ((if s.isInset then ["inset".toList] else []) ++ [x.valueText, y.valueText] ++
    (if isPlain then [] else [blur.valueText]) ++ unlessUsual .zero Calculation.valueText spread ++
    ((s.color.filter (· != .current)).map Color.text).toList)

/-- Filters whose strength is a number; all of it is the usual one. -/
def strengths : List String := ["brightness", "contrast", "grayscale", "invert", "opacity", "saturate", "sepia"]

def filterFunction : Reader Text := do
  let (f, inside) ← function
  let r : Reader Text :=
    if strengths.any (·.toList == f) then do
      let s := (← optional? share).getD (.number 1)
      return if s.value == 1 then [] else s.text
    else
      match String.ofList f with
      | "blur" => do
        let l := (← optional? length).getD .zero
        return if l == .zero then [] else l.valueText
      | "hue-rotate" => do
        let a := (← optional? angleOrZero).getD (.degrees 0)
        return if a.isZero then [] else a.text false
      | "drop-shadow" => shadow false false
      | _ => failure
  return f ++ ['('] ++ (← ofOption (run? r inside)) ++ [')']

def filter : Reader Text := (urlText <$> address) <|> filterFunction

def filters : Reader Text := oneOf "none" <|> (spaced <$> many1 filter)

def fillRule : Reader Text := oneOf "nonzero evenodd"

def radius : Reader Extent := Extent.read "closest-side farthest-side" lengthPercentage

def usualRadius : Extent := .word "closest-side"

def shape : Reader Text := do
  let (f, inside) ← function
  let place : Reader (List Text) := do
    let p ← optional? do
      word "at"
      Position.read
    return ((p.filter (!·.isCenter)).map fun p => "at ".toList ++ p.text).toList
  let r : Reader Text :=
    match String.ofList f with
    | "inset" => do
      let sides ← Sides.read lengthPercentage
      let corners ← if ← holds (word "round") then Corners.read else pure Corners.none
      return spaced (sides.text Calculation.valueText ::
        unlessUsual Corners.none (fun c => "round " ++ c.text) corners)
    | "circle" => do
      let r := (← optional? radius).getD usualRadius
      return spaced (unlessUsual usualRadius Extent.text r ++ (← place))
    | "ellipse" => do
      let radii ← optional? do
        let x ← radius
        let y ← radius
        return (x, y)
      let shown := match radii with
        | some (x, y) => if x == usualRadius && y == usualRadius then [] else [x.text, y.text]
        | none => []
      return spaced (shown ++ (← place))
    | "polygon" => do
      let rule ← optional? do
        let w ← fillRule
        comma
        return w
      let points ← commaList do
        let x ← lengthPercentage
        let y ← lengthPercentage
        return spaced [x.valueText, y.valueText]
      return listed ((rule.filter (· != "nonzero".toList)).toList ++ points)
    | _ => failure
  return f ++ ['('] ++ (← ofOption (run? r inside)) ++ [')']

def boxes : String := "border-box padding-box content-box margin-box fill-box stroke-box view-box"

def clipPath : Reader Text :=
  (urlText <$> address) <|>
  (do
    let s ← shape
    let b := (← optional? (oneOf boxes)).filter (· != "border-box".toList)
    return spaced (s :: b.toList)) <|>
  (do
    let b ← oneOf boxes
    match ← optional? shape with
    | some s => return spaced (s :: unlessUsual "border-box".toList id b)
    | none => return b) <|>
  oneOf "none"

def paint : Reader Text :=
  (do
    let u ← address
    let fallback ← optional? (oneOf "none" <|> (Color.text <$> color))
    return spaced (urlText u :: fallback.toList)) <|>
  oneOf "context-fill context-stroke none" <|> (Color.text <$> color)

def unitless : Calculation → Text
  | .value (.length x unit) => if unit == "px" then Number.text x else (Quantity.length x unit).text false
  | c => c.valueText

def dashes : Reader Text :=
  oneOf "none" <|> do
    let first ← lengthPercentage
    let rest ← many do
      let _ ← holds comma
      lengthPercentage
    return spaced ((first :: rest).map unitless)

def marker : Reader Text := oneOf "none" <|> (urlText <$> address)

end Effect

def effectReaders : List (String × Reader Text) :=
  let opacity : Reader Text := do return Number.text (← share).value
  let distance : Reader Text := Calculation.valueText <$> lengthPercentage
  [("box-shadow", listed <$> commaList (Effect.shadow true true)),
    ("text-shadow", listed <$> commaList (Effect.shadow false true)),
    ("opacity", opacity),
    ("color", Color.text <$> color),
    ("filter", Effect.filters),
    ("backdrop-filter", Effect.filters),
    ("clip-path", Effect.clipPath),
    ("clip-rule", Effect.fillRule),
    ("fill", Effect.paint),
    ("fill-rule", Effect.fillRule),
    ("fill-opacity", opacity),
    ("stroke", Effect.paint),
    ("stroke-opacity", opacity),
    ("stroke-width", distance),
    ("stroke-linecap", oneOf "butt round square"),
    ("stroke-linejoin", oneOf "miter miter-clip round bevel arcs"),
    ("stroke-miterlimit", Number.text <$> number),
    ("stroke-dasharray", Effect.dashes),
    ("stroke-dashoffset", distance),
    ("marker-start", Effect.marker),
    ("marker-mid", Effect.marker),
    ("marker-end", Effect.marker),
    ("marker", Effect.marker),
    ("color-interpolation", oneOf "auto srgb linearrgb"),
    ("color-interpolation-filters", oneOf "auto srgb linearrgb"),
    ("color-rendering", oneOf "auto optimizespeed optimizequality"),
    ("shape-rendering", oneOf "auto optimizespeed crispedges geometricprecision"),
    ("text-rendering", oneOf "auto optimizespeed optimizelegibility geometricprecision"),
    ("image-rendering", oneOf "auto optimizespeed optimizequality")]

end ComponentConverter.Stylesheet
