import ComponentConverter.Stylesheet.Value.Position

namespace ComponentConverter.Stylesheet

open Reader

namespace Transform

def turnText (q : Quantity) : Text := if q.isZero then ['0'] else q.text false

def written (f : String) (arguments : List Text) : Text := f.toList ++ ['('] ++ listed arguments ++ [')']

def scaleFactor : Reader Float32 := do return (← share).value

def exactly {α : Type} (r : Reader α) : Nat → Reader (List α)
  | 0 => pure []
  | 1 => do return [← r]
  | n + 1 => do
    let a ← r
    comma
    return a :: (← exactly r n)

def oneOrTwo {α : Type} (r : Reader α) : Reader (α × Option α) := do
  let a ← r
  return (a, ← optional? (do comma; r))

def body (f : Text) : Reader Text := do
  let texts (shown : String) (r : Reader Text) (n : Nat) : Reader Text := return written shown (← exactly r n)
  let place : Reader Text := Calculation.valueText <$> lengthPercentage
  let depth : Reader Text := Calculation.valueText <$> length
  let factor : Reader Text := Number.text <$> scaleFactor
  let coefficient : Reader Text := Number.text <$> number
  let turn : Reader Text := turnText <$> angleOrZero
  match String.ofList f with
  | "matrix" => texts "matrix" coefficient 6
  | "matrix3d" => texts "matrix3d" coefficient 16
  | "translate" =>
    let (x, y) ← oneOrTwo lengthPercentage
    return written "translate" (x.valueText :: ((y.filter (!·.isZero)).map Calculation.valueText).toList)
  | "translatex" => texts "translateX" place 1
  | "translatey" => texts "translateY" place 1
  | "translatez" => texts "translateZ" depth 1
  | "translate3d" =>
    let xy ← exactly place 2
    comma
    return written "translate3d" (xy ++ [← depth])
  | "scale" =>
    let (x, y) ← oneOrTwo scaleFactor
    return written "scale" (Number.text x :: ((y.filter (· != x)).map Number.text).toList)
  | "scalex" => texts "scaleX" factor 1
  | "scaley" => texts "scaleY" factor 1
  | "scalez" => texts "scaleZ" factor 1
  | "scale3d" => texts "scale3d" factor 3
  | "rotate" => texts "rotate" turn 1
  | "rotatex" => texts "rotateX" turn 1
  | "rotatey" => texts "rotateY" turn 1
  | "rotatez" => texts "rotateZ" turn 1
  | "rotate3d" =>
    let xyz ← exactly coefficient 3
    comma
    return written "rotate3d" (xyz ++ [← turn])
  | "skew" =>
    let (x, y) ← oneOrTwo angleOrZero
    return written "skew" (turnText x :: ((y.filter (!·.isZero)).map turnText).toList)
  | "skewx" => texts "skewX" turn 1
  | "skewy" => texts "skewY" turn 1
  | "perspective" => texts "perspective" depth 1
  | _ => failure

def single : Reader Text := do
  let (f, inside) ← function
  ofOption (run? (body f) inside)

def list : Reader Text := oneOf "none" <|> (spaced <$> many1 single)

def translate : Reader Text :=
  oneOf "none" <|> do
    let x ← lengthPercentage
    let y ← optional? lengthPercentage
    let z ← if y.isSome then optional? length else pure none
    let y := y.getD .zero
    let z := z.getD .zero
    return spaced (x.valueText :: (if y.isZero && z.isZero then [] else [y.valueText]) ++
      if z.isZero then [] else [z.valueText])

def rotate : Reader Text :=
  oneOf "none" <|> do
    let before ← optional? angle
    let axis : Reader Text :=
      oneOf "x y" <|> (do word "z"; return []) <|> do
        let x ← number
        let y ← number
        let z ← number
        if x == 1 && y == 0 && z == 0 then return ['x']
        if x == 0 && y == 1 && z == 0 then return ['y']
        if x == 0 && y == 0 && z == 1 then return []
        return spaced ([x, y, z].map Number.text)
    let a := (← optional? axis).getD []
    let q ← match before with
      | some q => pure q
      | none => angle
    if a.isEmpty && q.isZero then return "none"
    return spaced ((if a.isEmpty then [] else [a]) ++ [q.text false])

def scale : Reader Text :=
  oneOf "none" <|> do
    let x ← share
    let y ← optional? share
    let z ← if y.isSome then optional? share else pure none
    let y := y.getD x
    let z := z.getD (.number 1)
    return spaced (x.text :: (if y == x && z.value == 1 then [] else [y.text]) ++
      if z.value == 1 then [] else [z.text])

end Transform

def transformReaders : List (String × Reader Text) :=
  [("transform", Transform.list), ("transform-origin", Position.text <$> Position.read),
    ("transform-style", oneOf "flat preserve-3d"),
    ("transform-box", oneOf "content-box border-box fill-box stroke-box view-box"),
    ("backface-visibility", oneOf "visible hidden"),
    ("perspective", oneOf "none" <|> (Calculation.valueText <$> length)),
    ("perspective-origin", Position.text <$> Position.read),
    ("translate", Transform.translate),
    ("rotate", Transform.rotate),
    ("scale", Transform.scale)]

end ComponentConverter.Stylesheet
