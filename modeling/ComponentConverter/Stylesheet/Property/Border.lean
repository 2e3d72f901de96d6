import ComponentConverter.Stylesheet.Value.Image

namespace ComponentConverter.Stylesheet

open Reader

namespace Border

def width : Reader Extent := Extent.read "thin medium thick" length

def style : Reader Text := oneOf "none hidden inset groove outset ridge dotted dashed solid double"

def outlineStyle : Reader Text := oneOf "auto" <|> style

structure Line where
  width : Option Extent
  style : Option Text
  color : Option Color

def lineStep (style : Reader Text) (l : Line) : Reader Line :=
  (do return { l with width := ← fill l.width width }) <|>
  (do return { l with style := ← fill l.style style }) <|>
  (do return { l with color := ← fill l.color Stylesheet.color })

def line (style : Reader Text) : Reader Text := do
  let l ← steps (lineStep style) ⟨none, none, none⟩
  guard (l.width.isSome || l.style.isSome || l.color.isSome)
  let parts := ((l.width.filter (· != .word "medium")).map Extent.text).toList ++
    (l.style.filter (· != "none".toList)).toList ++ ((l.color.filter (· != .current)).map Color.text).toList
  return if parts.isEmpty then "none" else spaced parts

def imageRepeat : Reader Text := Pair.text id <$> Pair.read (oneOf "stretch repeat round space")

inductive Outset where
  | multiple (x : Float32)
  | length (value : Calculation)
  deriving Repr, BEq

namespace Outset

def read : Reader Outset := (.multiple <$> number) <|> (.length <$> Stylesheet.length)

def text : Outset → Text
  | .multiple x => Number.text x
  | .length c => c.valueText

def usual : Sides Outset := ⟨.multiple 0, .multiple 0, .multiple 0, .multiple 0⟩

end Outset

def imageOutset : Reader (Sides Outset) := Sides.read Outset.read

def imageWidth : Reader Text :=
  Sides.text id <$> Sides.read
    ((Number.text <$> number) <|> (Calculation.valueText <$> lengthPercentage) <|> oneOf "auto")

def imageSlice : Reader Text := do
  let before ← holds (word "fill")
  let offsets ← Sides.read share
  let after ← if before then pure true else holds (word "fill")
  return offsets.text Share.text ++ (if after then " fill".toList else [])

structure Cut where
  slice : Text
  width : Option Text
  outset : Option (Sides Outset)

namespace Cut

def usual : Cut := ⟨"100%", none, none⟩

def read : Reader Cut := do
  let slice ← imageSlice
  let sizes : Reader (Option Text × Option (Sides Outset)) := do
    slash
    let width ← optional? imageWidth
    let outset ← optional? do
      slash
      imageOutset
    guard (width.isSome || outset.isSome)
    return (width, outset)
  let (width, outset) := (← optional? sizes).getD (none, none)
  return ⟨slice, width, outset⟩

def text (c : Cut) : Text :=
  let width := c.width.filter (· != ['1'])
  let outset := c.outset.filter (· != Outset.usual)
  let isSized := width.isSome || outset.isSome
  if c.slice == usual.slice && !isSized then []
  else
    ' ' :: c.slice ++ (if isSized then " / ".toList else []) ++ width.getD [] ++
      (outset.map fun o => " / ".toList ++ o.text Outset.text).getD []

end Cut

structure Picture where
  source : Option Text
  cut : Option Cut
  repetition : Option Text
  mode : Option Text

namespace Picture

def maskMode : Reader Text := oneOf "luminance alpha"

def step (isMask : Bool) (p : Picture) : Reader Picture :=
  (do return { p with cut := ← fill p.cut Cut.read }) <|>
  (do return { p with source := ← fill p.source image }) <|>
  (do return { p with repetition := ← fill p.repetition imageRepeat }) <|>
  (do
    guard isMask
    return { p with mode := ← fill p.mode maskMode })

/-- The text of what is not usual. Each part but the source has a blank in front, even where
there is no source. -/
def text (p : Picture) : Text :=
  let part (usual : String) (t : Option Text) : Text :=
    ((t.filter (· != usual.toList)).map fun t => ' ' :: t).getD []
  (p.source.filter (· != "none".toList)).getD [] ++ (p.cut.getD Cut.usual).text ++
    part "stretch" p.repetition ++ part "alpha" p.mode

def read (isMask : Bool) : Reader Text := do
  let p ← steps (step isMask) ⟨none, none, none, none⟩
  guard (p.source.isSome || p.cut.isSome || p.repetition.isSome || p.mode.isSome)
  return p.text

def readers (stem : String) (isMask : Bool) : List (String × Reader Text) :=
  [(stem ++ "-source", image), (stem ++ "-outset", Sides.text Outset.text <$> imageOutset),
    (stem ++ "-repeat", imageRepeat),
    (stem ++ "-width", imageWidth),
    (stem ++ "-slice", imageSlice),
    (stem, read isMask)]

end Picture

end Border

def borderReaders : List (String × Reader Text) :=
  let sides : List String :=
    ["top", "bottom", "left", "right", "block-start", "block-end", "inline-start", "inline-end"]
  let corner : Reader Text := Pair.text Calculation.valueText <$> Pair.read lengthPercentage
  let color : Reader Text := Color.text <$> Stylesheet.color
  let width : Reader Text := Extent.text <$> Border.width
  (sides.flatMap fun side =>
    [("border-" ++ side ++ "-color", color), ("border-" ++ side ++ "-style", Border.style),
      ("border-" ++ side ++ "-width", width), ("border-" ++ side, Border.line Border.style)]) ++
  (["block", "inline"].flatMap fun side =>
    [("border-" ++ side ++ "-color", Pair.text Color.text <$> Pair.read Stylesheet.color),
      ("border-" ++ side ++ "-style", Pair.text id <$> Pair.read Border.style),
      ("border-" ++ side ++ "-width", Pair.text Extent.text <$> Pair.read Border.width),
      ("border-" ++ side, Border.line Border.style)]) ++
  ((["top-left", "top-right", "bottom-left", "bottom-right", "start-start", "start-end", "end-start",
      "end-end"]).map fun c => ("border-" ++ c ++ "-radius", corner)) ++
  [("border-radius", Corners.text <$> Corners.read),
    ("border-spacing", Pair.text Calculation.valueText <$> Pair.read length),
    ("border-color", Sides.text Color.text <$> Sides.read Stylesheet.color),
    ("border-style", Sides.text id <$> Sides.read Border.style),
    ("border-width", Sides.text Extent.text <$> Sides.read Border.width),
    ("border", Border.line Border.style),
    ("outline", Border.line Border.outlineStyle),
    ("outline-color", color),
    ("outline-style", Border.outlineStyle),
    ("outline-width", width),
    ("mask-border-mode", Border.Picture.maskMode)] ++
  Border.Picture.readers "border-image" false ++ Border.Picture.readers "mask-border" true ++
  Border.Picture.readers "mask-box-image" false

end ComponentConverter.Stylesheet
