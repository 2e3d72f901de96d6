import ComponentConverter.Stylesheet.Value.Sides

namespace ComponentConverter.Stylesheet

open Reader

namespace Box

def contentWords : String :=
  "min-content -webkit-min-content -moz-min-content max-content -webkit-max-content " ++
    "-moz-max-content stretch -webkit-fill-available -moz-available fit-content -webkit-fit-content " ++
    "-moz-fit-content contain"

def fitted : Reader Text := call "fit-content" do return "fit-content(" ++ (← lengthPercentage).valueText ++ [')']

def size (empty : String) : Reader Text :=
  keyword (empty :: contentWords.splitOn " ") <|> fitted <|> (Calculation.valueText <$> lengthPercentage)

def ratio : Reader Text := do
  let a ← number
  let b ← if ← holds slash then number else pure 1
  return Number.text a ++ (if b == 1 then [] else " / ".toList ++ Number.text b)

def aspectRatio : Reader Text := do
  let before ← holds (word "auto")
  let r ← optional? ratio
  let after ← if before then pure true else holds (word "auto")
  guard (after || r.isSome)
  return spaced ((if after then ["auto".toList] else []) ++ r.toList)

end Box

def flowSides : List String := ["block-start", "block-end", "inline-start", "inline-end"]

def fourSides : List String := ["top", "bottom", "left", "right"]

def roomReaders (stem : String) (r : Reader Extent) : List (String × Reader Text) :=
  ((fourSides ++ flowSides).map fun side => (stem ++ "-" ++ side, Extent.text <$> r)) ++
  ["block", "inline"].map (fun side => (stem ++ "-" ++ side, Pair.text Extent.text <$> Pair.read r)) ++
  [(stem, Sides.text Extent.text <$> Sides.read r)]

def boxReaders : List (String × Reader Text) :=
  let auto := lengthPercentageOrAuto
  (["width", "height", "min-width", "min-height", "block-size", "inline-size", "min-block-size",
      "min-inline-size"].map fun n => (n, Box.size "auto")) ++
  (["max-width", "max-height", "max-block-size", "max-inline-size"].map fun n => (n, Box.size "none")) ++
  (fourSides.map fun n => (n, Extent.text <$> auto)) ++
  roomReaders "margin" auto ++ roomReaders "padding" auto ++ roomReaders "inset" auto ++
  roomReaders "scroll-padding" auto ++ roomReaders "scroll-margin" (.measure <$> length) ++
  [("box-sizing", oneOf "content-box border-box"), ("aspect-ratio", Box.aspectRatio)]

end ComponentConverter.Stylesheet
