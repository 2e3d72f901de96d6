import ComponentConverter.Stylesheet.Value.Color

namespace ComponentConverter.Stylesheet

open Reader

namespace Color

def missing : Float32 := 0 / 0

def part (r : Reader Float32) : Reader Float32 := (do word "none"; return missing) <|> r

def scaledPart (full : Float32) : Reader Float32 := part do
  match ← share with
  | .number x => return x
  | .percentage x => return x * full

def shareOfOne : Reader Float32 := do return (← share).value

def opacity : Reader Float32 := do
  if ← holds slash then return ColorSpace.clampShare (← part shareOfOne) else return 1

def listedOpacity : Reader Float32 := do
  if ← isDone then return 1
  comma
  return ColorSpace.clampShare (← shareOfOne)

def lightNumber : Reader Float32 := do return (← number).round / 255

def lightPart : Reader Float32 := part (lightNumber <|> percentage)

def rgb (allowsCommas : Bool) : Reader Color := do
  let listed (light : Reader Float32) : Reader Color := do
    guard allowsCommas
    let r ← light
    comma
    let g ← light
    comma
    let b ← light
    return rounded .srgb ⟨r, g, b, ← listedOpacity⟩
  let separate : Reader Color := do
    let r ← lightPart
    let g ← lightPart
    let b ← lightPart
    return rounded .srgb ⟨r, g, b, ← opacity⟩
  listed lightNumber <|> listed percentage <|> separate

def hue : Reader Float32 := part do
  match ← optional? angle with
  | some (.angle x unit) => return Quantity.inDegrees x unit
  | _ => number

def percent : Reader Float32 := part (ColorSpace.clampShare <$> (percentage <|> (· / 100) <$> number))

def ofHue (allowsCommas : Bool) (space : ColorSpace) : Reader Color := do
  let listed : Reader Color := do
    guard allowsCommas
    let h ← hue
    comma
    let x ← ColorSpace.clampShare <$> percentage
    comma
    let y ← ColorSpace.clampShare <$> percentage
    return rounded space ⟨h, x, y, ← listedOpacity⟩
  let separate : Reader Color := do
    let h ← hue
    let x ← percent
    let y ← percent
    return rounded space ⟨h, x, y, ← opacity⟩
  listed <|> separate

def atLeastZero (x : Float32) : Float32 := if x < 0 then 0 else x

def opponent (space : ColorSpace) (light full : Float32) : Reader Color := do
  let l ← scaledPart light
  let a ← scaledPart full
  let b ← scaledPart full
  return .inSpace space ⟨atLeastZero l, a, b, ← opacity⟩

def polar (space : ColorSpace) (light full : Float32) : Reader Color := do
  let l ← scaledPart light
  let c ← scaledPart full
  let h ← hue
  return .inSpace space ⟨atLeastZero l, atLeastZero c, h, ← opacity⟩

def space (spaces : List ColorSpace) : Reader ColorSpace := do
  let n := (← name).map Char.toLower
  let n := if n == "xyz-d65".toList then "xyz".toList else n
  ofOption (spaces.find? (·.name.toList == n))

def namedSpaces : List ColorSpace := [.srgb, .linear, .displayP3, .a98, .prophoto, .rec2020, .xyzD50, .xyz]

def inNamedSpace : Reader Color := do
  let s ← space namedSpaces
  let x ← scaledPart 1
  let y ← scaledPart 1
  let z ← scaledPart 1
  return .inSpace s ⟨x, y, z, ← opacity⟩

def mixingSpaces : List ColorSpace := [.srgb, .linear, .lab, .oklab, .xyz, .xyzD50, .hsl, .hwb, .lch, .oklch]

def hueWay : Reader ColorSpace.HueWay :=
  let way : Reader ColorSpace.HueWay := do
    match String.ofList (← oneOf "shorter longer increasing decreasing specified") with
    | "longer" => return .longer
    | "increasing" => return .increasing
    | "decreasing" => return .decreasing
    | "specified" => return .specified
    | _ => return .shorter
  (do
    let w ← way
    word "hue"
    return w) <|> pure .shorter

def mixture (color : Reader Color) : Reader Color := do
  word "in"
  let s ← space mixingSpaces
  let way ← if s.hueSide = .none then pure .shorter else hueWay
  comma
  let weighed : Reader (Color × Option Float32) := do
    let before ← optional? percentage
    let c ← color
    match before with
    | some p => return (c, some p)
    | none => return (c, ← optional? percentage)
  let (a, p) ← weighed
  comma
  let (b, q) ← weighed
  let (p, q) : Float32 × Float32 :=
    match p, q with
    | none, none => (0.5, 0.5)
    | some p, none => (p, 1 - p)
    | none, some q => (1 - q, q)
    | some p, some q => (p, q)
  guard (p + q != 0)
  ofOption (mix? s way a p b q)

def byLightness (color : Reader Color) : Reader Color := do
  let light ← color
  comma
  let dark ← color
  return .byScheme (match light with | .byScheme l _ => l | c => c)
    (match dark with | .byScheme _ d => d | c => c)

def functionNames : List String :=
  ["rgb", "rgba", "hsl", "hsla", "hwb", "lab", "lch", "oklab", "oklch", "color", "color-mix", "light-dark"]

def ofParts (allowsCommas : Bool) (f : Text) : Reader Color :=
  match String.ofList f with
  | "rgb" | "rgba" => rgb allowsCommas
  | "hsl" | "hsla" => ofHue allowsCommas .hsl
  | "hwb" => ofHue false .hwb
  | "lab" => opponent .lab 100 125
  | "lch" => polar .lch 100 150
  | "oklab" => opponent .oklab 1 0.4
  | "oklch" => polar .oklch 1 0.4
  | "color" => inNamedSpace
  | _ => failure

def spaceOf? (f : Text) : Option ColorSpace :=
  match String.ofList f with
  | "rgb" | "rgba" => some .srgb
  | "hsl" | "hsla" => some .hsl
  | _ => [ColorSpace.hwb, .lab, .lch, .oklab, .oklch].find? (·.name.toList == f)

def partNames : ColorSpace → String
  | .hsl => "h s l"
  | .hwb => "h w b"
  | .lab | .oklab => "l a b"
  | .lch | .oklch => "l c h"
  | .xyz | .xyzD50 => "x y z"
  | _ => "r g b"

def partScale : ColorSpace → Coordinates
  | .srgb => ⟨255, 255, 255, 1⟩
  | .hsl | .hwb => ⟨1, 100, 100, 1⟩
  | _ => ⟨1, 1, 1, 1⟩

mutual

def substitute (numbers : List (Text × Float32)) : Piece → Piece
  | .token p =>
    match p.token with
    | .name n =>
      match numbers.find? (sameLetters ·.1 n) with
      | some (_, x) => .token { p with token := .number (Numeral.read (Number.plain x)).1 }
      | none => .token p
    | _ => .token p
  | .nested p inside stop closer => .nested p (substituteAll numbers inside) stop closer

def substituteAll (numbers : List (Text × Float32)) : List Piece → List Piece
  | [] => []
  | p :: ps => substitute numbers p :: substituteAll numbers ps

end

def relativeTo (f : Text) (origin : Color) : Reader Color := do
  let (s, scale) ← match spaceOf? f with
    | some s => pure (s, partScale s)
    | none =>
      let start ← get
      let s ← space namedSpaces
      set start
      pure (s, ⟨1, 1, 1, 1⟩)
  let c ← s.shown <$> ofOption (placeIn? s origin)
  let values := [c.first * scale.first, c.second * scale.second, c.third * scale.third, c.alpha]
  modify (substituteAll (((partNames s ++ " alpha").splitOn " ").map String.toList |>.zip values))
  ofParts false f

def relative (color : Reader Color) (f : Text) : Reader Color := do
  word "from"
  match ← color with
  | .byScheme light dark =>
    let start ← get
    let l ← relativeTo f light
    set start
    return .byScheme l (← relativeTo f dark)
  | origin => relativeTo f origin

def ofFunction (color : Reader Color) (f : Text) : Reader Color :=
  match String.ofList f with
  | "color-mix" => mixture color
  | "light-dark" => byLightness color
  | _ => relative color f <|> ofParts true f

def read : Nat → Reader Color
  | 0 => failure
  | fuel + 1 => do
    match ← next with
    | .token p =>
      match p.token with
      | .hash digits _ => ofOption (ofHex? digits)
      | .name n => ofOption (ofName? n)
      | _ => failure
    | .nested p inside _ _ =>
      match p.token with
      | .function f => ofOption (run? (ofFunction (read fuel) (f.map Char.toLower)) inside)
      | _ => failure

end Color

def color : Reader Color := Color.read depthBound

end ComponentConverter.Stylesheet
