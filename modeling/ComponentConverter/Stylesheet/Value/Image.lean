import ComponentConverter.Stylesheet.Value.Position
import ComponentConverter.Stylesheet.Value.Raw

namespace ComponentConverter.Stylesheet

open Reader

def address : Reader Text := do
  match ← next with
  | .token p =>
    match p.token with
    | .url v => return v
    | _ => failure
  | .nested p inside _ _ =>
    match p.token with
    | .function f =>
      guard (sameLetters f "url")
      ofOption (run? string inside)
    | _ => failure

/-- A stop of a gradient: a colour, with a place or without one, or a hint of the middle between two
colours. -/
inductive GradientStop where
  | color (color : Color) (place : Option Calculation)
  | hint (place : Calculation)
  deriving Repr, BEq

namespace GradientStop

def text : GradientStop → Text
  | .color c place => spaced (c.text :: (place.map Calculation.valueText).toList)
  | .hint place => place.valueText

def continues : GradientStop → GradientStop → Bool
  | .color c (some _), .color d (some _) => c == d
  | _, _ => false

def placeText : GradientStop → Text
  | .color _ place => ((place.map Calculation.valueText).toList).flatten
  | .hint _ => []

def texts : List GradientStop → List Text
  | [] => []
  | [s] => [s.text]
  | s :: next :: rest =>
    if s.continues next then spaced [s.text, next.placeText] :: texts rest else s.text :: texts (next :: rest)

def part (place : Reader Calculation) (afterColor : Bool) : Reader (List GradientStop) :=
  let stop : Reader (List GradientStop) := do
    let c ← Stylesheet.color
    match ← optional? place with
    | some first =>
      match ← optional? place with
      | some second => return [.color c (some first), .color c (some second)]
      | none => return [.color c (some first)]
    | none => return [.color c none]
  if afterColor then (do return [.hint (← place)]) <|> stop else stop

def parts (place : Reader Calculation) : Bool → List (List Piece × Location) → Option (List GradientStop)
  | _, [] => some []
  | afterColor, (ps, _) :: rest => do
    let stops ← run? (part place afterColor) ps
    let isHint := match stops with
      | [.hint _] => true
      | _ => false
    return stops ++ (← parts place (!isHint) rest)

def list (place : Reader Calculation) : Reader (List GradientStop) := do
  let ps ← get
  let stops ← ofOption (parts place false (splitAtCommas .start ps))
  set ([] : List Piece)
  return stops.filter (· != .hint .half)

end GradientStop

inductive Direction where
  | angle (angle : Quantity)
  | across (isRight : Bool)
  | down (isBottom : Bool)
  | corner (isBottom isRight : Bool)
  deriving Repr, BEq

namespace Direction

def acrossText (isRight : Bool) : Text := (if isRight then "right" else "left").toList

def downText (isBottom : Bool) : Text := (if isBottom then "bottom" else "top").toList

/-- Reads a direction. Older forms have no word before the side. -/
def read (isOlder : Bool) : Reader Direction :=
  (.angle <$> angleOrZero) <|> do
    unless isOlder do word "to"
    match ← optional? (Placement.sideWord "left" "right") with
    | some isRight =>
      match ← optional? (Placement.sideWord "top" "bottom") with
      | some isBottom => return .corner isBottom isRight
      | none => return .across isRight
    | none =>
      let isBottom ← Placement.sideWord "top" "bottom"
      match ← optional? (Placement.sideWord "left" "right") with
      | some isRight => return .corner isBottom isRight
      | none => return .down isBottom

def isUsual : Direction → Bool
  | .down isBottom => isBottom
  | .angle (.angle x unit) => Quantity.inDegrees x unit == 180
  | _ => false

def text (isOlder : Bool) (d : Direction) : Text :=
  let toward (t : Text) : Text := if isOlder then t else "to " ++ t
  match d with
  | .angle a => a.text false
  | .across isRight => toward (acrossText isRight)
  | .down isBottom => toward (downText isBottom)
  | .corner isBottom isRight => toward (spaced [downText isBottom, acrossText isRight])

end Direction

inductive Ending where
  | circle (extent : Text)
  | radius (length : Calculation)
  | ellipse (extent : Text)
  | radii (across down : Calculation)
  deriving Repr, BEq

namespace Ending

def extents : String := "closest-side farthest-side closest-corner farthest-corner"

def usualExtent : Text := "farthest-corner"

def usual : Ending := .ellipse usualExtent

def readEllipse : Reader Ending :=
  (do
    let e ← oneOf extents
    guard !(← holds (word "circle"))
    let _ ← holds (word "ellipse")
    return .ellipse e) <|>
  (do
    let x ← lengthPercentage
    let y ← lengthPercentage
    let _ ← holds (word "ellipse")
    return .radii x y) <|>
  (do
    word "ellipse"
    (.ellipse <$> oneOf extents) <|> (do return .radii (← lengthPercentage) (← lengthPercentage)) <|>
      pure (.ellipse usualExtent))

def readCircle : Reader Ending :=
  (do
    let e ← oneOf extents
    word "circle"
    return .circle e) <|>
  (do
    let r ← Stylesheet.length
    let _ ← holds (word "circle")
    return .radius r) <|>
  (do
    word "circle"
    (.circle <$> oneOf extents) <|> (.radius <$> Stylesheet.length) <|> pure (.circle usualExtent))

def read : Reader Ending := readEllipse <|> readCircle

def text : Ending → Text
  | .circle e => spaced ("circle" :: unlessUsual usualExtent id e)
  | .radius r => r.valueText
  | .ellipse e => e
  | .radii x y => spaced [x.valueText, y.valueText]

end Ending

def gradientBody (f : Text) (isOlder : Bool) : Reader Text := do
  let place : Reader Position := do
    word "at"
    Position.read
  let placed (before : Option Text) (p : Position) : List Text :=
    let before := before.toList
    if p.isCenter then if before.isEmpty then [] else [spaced before]
    else [spaced (before ++ ["at " ++ p.text])]
  let around : Reader Text := do
    let ending ← optional? Ending.read
    let p ← optional? place
    if ending.isSome || p.isSome then comma
    let stops ← GradientStop.list lengthPercentage
    let shape := if (ending.getD .usual) == .usual then none else ending.map Ending.text
    return listed (placed shape (p.getD .center) ++ GradientStop.texts stops)
  let turning : Reader Text := do
    let start ← optional? do
      word "from"
      angleOrZero
    let p ← optional? place
    if start.isSome || p.isSome then comma
    let stops ← GradientStop.list (measure .anglePercentage)
    let shown := (start.filter (!·.isZero)).map fun a => "from ".toList ++ a.text false
    return listed (placed shown (p.getD .center) ++ GradientStop.texts stops)
  let straight : Reader Text := do
    let direction ← optional? do
      let d ← Direction.read isOlder
      comma
      return d
    let stops ← GradientStop.list lengthPercentage
    let shown := match direction with
      | some d => if d.isUsual then [] else [d.text isOlder]
      | none => []
    return listed (shown ++ GradientStop.texts stops)
  match String.ofList f with
  | "linear-gradient" | "repeating-linear-gradient" => straight
  | "radial-gradient" | "repeating-radial-gradient" => around
  | "conic-gradient" | "repeating-conic-gradient" =>
    guard !isOlder
    turning
  | _ => failure

def olderPoint : Reader Text := do
  let part (near far : String) : Reader Text :=
    (oneOf "center") <|> (do
      match ← share with
      | .percentage x => return if x == 0 then ['0'] else Number.percentage x
      | s => return s.text) <|> keyword [near, far]
  let x ← part "left" "right"
  let y ← part "top" "bottom"
  return spaced [x, y]

def olderStop : Reader Text := do
  let (f, inside) ← function
  let shown (p : Float32) (c : Color) : Text :=
    if p == 0 then "from(" ++ c.text ++ [')']
    else if p == 1 then "to(" ++ c.text ++ [')']
    else "color-stop(" ++ listed [Number.text p, c.text] ++ [')']
  match String.ofList f with
  | "from" => return shown 0 (← ofOption (run? color inside))
  | "to" => return shown 1 (← ofOption (run? color inside))
  | "color-stop" =>
    let stop : Reader Text := do
      let p ← share
      comma
      return shown p.value (← color)
    ofOption (run? stop inside)
  | _ => failure

def olderGradient : Reader Text := do
  let kind ← oneOf "linear radial"
  comma
  let first ← olderPoint
  comma
  let ends ← if kind == "linear" then do
      let second ← olderPoint
      pure [first, second]
    else do
      let r ← number
      comma
      let second ← olderPoint
      comma
      let s ← number
      pure [first, Number.text r, second, Number.text s]
  comma
  let stops ← commaList olderStop
  return listed (kind :: ends ++ stops)

def makers : List String := ["-webkit-", "-moz-", "-o-", "-ms-"]

def splitMaker (n : Text) : Text × Text :=
  match makers.find? (·.toList.isPrefixOf n) with
  | some m => (m.toList, n.drop m.length)
  | none => ([], n)

def gradient : Reader Text := do
  let (f, inside) ← function
  let (maker, plain) := splitMaker f
  if f == "-webkit-gradient" then
    return f ++ ['('] ++ (← ofOption (run? olderGradient inside)) ++ [')']
  return f ++ ['('] ++ (← ofOption (run? (gradientBody plain !maker.isEmpty) inside)) ++ [')']

def resolution : Reader Text := do
  match ← token with
  | .dimension n unit => ofOption (resolutionText? n.value unit)
  | _ => failure

def imageSet : Reader Text := do
  let (f, inside) ← function
  let (maker, plain) := splitMaker f
  guard (plain == "image-set" && (maker.isEmpty || maker == "-webkit-"))
  let kind : Reader Text := call "type" do return " type(" ++ stringText (← string) ++ [')']
  let choice : Reader Text := do
    let image ← (do
      let v ← address <|> string
      return if maker.isEmpty then stringText v else urlText v) <|> gradient
    match ← optional? resolution with
    | some r => return spaced [image, r] ++ (← optional? kind).getD []
    | none =>
      let k ← optional? kind
      let r ← optional? resolution
      return spaced [image, r.getD "1x"] ++ k.getD []
  return f ++ ['('] ++ listed (← ofOption (run? (commaList choice) inside)) ++ [')']

def image : Reader Text := oneOf "none" <|> (urlText <$> address) <|> gradient <|> imageSet

end ComponentConverter.Stylesheet
