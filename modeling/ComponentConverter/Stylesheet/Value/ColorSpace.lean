import ComponentConverter.Stylesheet.Value.Quantity

namespace ComponentConverter.Stylesheet

structure Coordinates where
  first : Float32
  second : Float32
  third : Float32
  alpha : Float32
  deriving Repr, BEq

namespace Coordinates

def map (f : Float32 → Float32) (c : Coordinates) : Coordinates :=
  { c with first := f c.first, second := f c.second, third := f c.third }

def hasMissing (c : Coordinates) : Bool := c.first.isNaN || c.second.isNaN || c.third.isNaN || c.alpha.isNaN

def resolved (c : Coordinates) : Coordinates :=
  let orZero (x : Float32) : Float32 := if x.isNaN then 0 else x
  { c.map orZero with alpha := orZero c.alpha }

def filledFrom (c other : Coordinates) : Coordinates :=
  let fill (x y : Float32) : Float32 := if x.isNaN then y else x
  ⟨fill c.first other.first, fill c.second other.second, fill c.third other.third, fill c.alpha other.alpha⟩

def transform (x y z : Float32 × Float32 × Float32) (c : Coordinates) : Coordinates :=
  let row (r : Float32 × Float32 × Float32) : Float32 :=
    r.1 * c.first + r.2.1 * c.second + r.2.2 * c.third
  { c with first := row x, second := row y, third := row z }

def hueToShare (m1 m2 h : Float32) : Float32 :=
  let h := if h < 0 then h + 3 else h
  let h := if 3 < h then h - 3 else h
  if h * 2 < 1 then m1 + (m2 - m1) * h * 2
  else if h * 2 < 3 then m2
  else if h < 2 then m1 + (m2 - m1) * (2 - h) * 2
  else m1

def ofHsl (c : Coordinates) : Coordinates :=
  let h := (c.first - 360 * (c.first / 360).floor) / 360
  let s := c.second
  let l := c.third
  let m2 := if l ≤ 0.5 then l * (s + 1) else l + s - l * s
  let m1 := l * 2 - m2
  let h3 := h * 3
  { c with first := hueToShare m1 m2 (h3 + 1), second := hueToShare m1 m2 h3, third := hueToShare m1 m2 (h3 - 1) }

def ofHwb (c : Coordinates) : Coordinates :=
  let w := c.second
  let b := c.third
  if 1 ≤ w + b then
    let gray := w / (w + b)
    { c with first := gray, second := gray, third := gray }
  else (ofHsl { c with second := 1, third := 0.5 }).map fun x => x * (1 - w - b) + w

def greatest (c : Coordinates) : Float32 :=
  if c.first < c.second then (if c.second < c.third then c.third else c.second)
  else if c.first < c.third then c.third else c.first

def least (c : Coordinates) : Float32 :=
  if c.second < c.first then (if c.third < c.second then c.third else c.second)
  else if c.third < c.first then c.third else c.first

def hue (c : Coordinates) : Float32 :=
  let top := c.greatest
  let d := top - c.least
  if d == 0 then 0 / 0
  else
    let h :=
      if top == c.first then (c.second - c.third) / d + (if c.second < c.third then 6 else 0)
      else if top == c.second then (c.third - c.first) / d + 2
      else (c.first - c.second) / d + 4
    h * 60

def toHsl (c : Coordinates) : Coordinates :=
  let top := c.greatest
  let low := c.least
  let l := (low + top) / 2
  let s := if top == low then 0 else (top - l) / (if l < 1 - l then l else 1 - l)
  { c with first := c.hue, second := s, third := l }

def toHwb (c : Coordinates) : Coordinates :=
  { c with first := c.hue, second := c.least, third := 1 - c.greatest }

def bySize (f : Float32 → Float32) (x : Float32) : Float32 := if x < 0 then -f x.abs else f x.abs

def toLight (x : Float32) : Float32 :=
  if x.abs < 0.04045 then x / 12.92 else bySize (fun x => ((x + 0.055) / 1.055).pow 2.4) x

def ofLight (x : Float32) : Float32 :=
  if 0.0031308 < x.abs then bySize (fun x => 1.055 * x.pow (1 / 2.4) - 0.055) x else 12.92 * x

def toPhotoLight (x : Float32) : Float32 :=
  if x.abs ≤ 16 / 512 then x / 16 else bySize (·.pow 1.8) x

def ofPhotoLight (x : Float32) : Float32 :=
  if 1 / 512 ≤ x.abs then bySize (·.pow (1 / 1.8)) x else 16 * x

def toScreenLight (x : Float32) : Float32 :=
  let a : Float32 := 1.09929682680944
  if x.abs < 0.018053968510807 * 4.5 then x / 4.5
  else bySize (fun x => ((x + a - 1) / a).pow (1 / 0.45)) x

def ofScreenLight (x : Float32) : Float32 :=
  let a : Float32 := 1.09929682680944
  if 0.018053968510807 < x.abs then bySize (fun x => a * x.pow 0.45 - (a - 1)) x else 4.5 * x

def cube (x : Float32) : Float32 := x * x * x

def white : Coordinates := ⟨0.3457 / 0.3585, 1, (1 - 0.3457 - 0.3585) / 0.3585, 1⟩

def toLab (c : Coordinates) : Coordinates :=
  let f (x : Float32) : Float32 :=
    if 216 / 24389 < x then x.cbrt else (24389 / 27 * x + 16) / 116
  let x := f (c.first / white.first)
  let y := f (c.second / white.second)
  let z := f (c.third / white.third)
  { c with first := 116 * y - 16, second := 500 * (x - y), third := 200 * (y - z) }

def ofLab (c : Coordinates) : Coordinates :=
  let k : Float32 := 24389 / 27
  let e : Float32 := 216 / 24389
  let y := (c.first + 16) / 116
  let x := c.second / 500 + y
  let z := y - c.third / 200
  let f (x : Float32) : Float32 := if e < cube x then cube x else (116 * x - 16) / k
  let light := if k * e < c.first then cube y else c.first / k
  { c with first := f x * white.first, second := light * white.second, third := f z * white.third }

def toOklab (c : Coordinates) : Coordinates :=
  ((c.transform (0.8190224432164319, 0.3619062562801221, -0.12887378261216414)
    (0.0329836671980271, 0.9292868468965546, 0.03614466816999844)
    (0.048177199566046255, 0.26423952494422764, 0.6335478258136937)).map Float32.cbrt).transform
    (0.2104542553, 0.7936177850, -0.0040720468) (1.9779984951, -2.4285922050, 0.4505937099)
    (0.0259040371, 0.7827717662, -0.8086757660)

def ofOklab (c : Coordinates) : Coordinates :=
  ((c.transform (0.99999999845051981432, 0.39633779217376785678, 0.21580375806075880339)
    (1.0000000088817607767, -0.1055613423236563494, -0.063854174771705903402)
    (1.0000000546724109177, -0.089484182094965759684, -1.2914855378640917399)).map cube).transform
    (1.2268798733741557, -0.5578149965554813, 0.28139105017721583)
    (-0.04057576262431372, 1.1122868293970594, -0.07171106666151701)
    (-0.07637294974672142, -0.4214933239627914, 1.5869240244272418)

def toPolar (c : Coordinates) : Coordinates :=
  let h := Float32.atan2 c.third c.second * 180 / Quantity.pi
  let strength := (c.second * c.second + c.third * c.third).sqrt
  { c with second := strength, third := if h < 0 then h + 360 else h }

def ofPolar (c : Coordinates) : Coordinates :=
  let h := c.third * Quantity.pi / 180
  { c with second := c.second * h.cos, third := c.second * h.sin }

end Coordinates

inductive ColorSpace where
  | xyz
  | xyzD50
  | linear
  | srgb
  | hsl
  | hwb
  | displayP3
  | a98
  | rec2020
  | prophoto
  | lab
  | lch
  | oklab
  | oklch
  deriving Repr, DecidableEq

namespace ColorSpace

open Coordinates

def name : ColorSpace → String
  | .xyz => "xyz"
  | .xyzD50 => "xyz-d50"
  | .linear => "srgb-linear"
  | .srgb => "srgb"
  | .hsl => "hsl"
  | .hwb => "hwb"
  | .displayP3 => "display-p3"
  | .a98 => "a98-rgb"
  | .rec2020 => "rec2020"
  | .prophoto => "prophoto-rgb"
  | .lab => "lab"
  | .lch => "lch"
  | .oklab => "oklab"
  | .oklch => "oklch"

def way : ColorSpace → List ColorSpace
  | .xyz => [.xyz]
  | .xyzD50 => [.xyzD50, .xyz]
  | .linear => [.linear, .xyz]
  | .srgb => [.srgb, .linear, .xyz]
  | .hsl => [.hsl, .srgb, .linear, .xyz]
  | .hwb => [.hwb, .srgb, .linear, .xyz]
  | .displayP3 => [.displayP3, .xyz]
  | .a98 => [.a98, .xyz]
  | .rec2020 => [.rec2020, .xyz]
  | .prophoto => [.prophoto, .xyzD50, .xyz]
  | .lab => [.lab, .xyzD50, .xyz]
  | .lch => [.lch, .lab, .xyzD50, .xyz]
  | .oklab => [.oklab, .xyz]
  | .oklch => [.oklch, .oklab, .xyz]

def ascend (s : ColorSpace) (c : Coordinates) : Coordinates :=
  let c := c.resolved
  match s with
  | .xyz => c
  | .xyzD50 =>
    c.transform (0.9554734527042182, -0.023098536874261423, 0.0632593086610217)
      (-0.028369706963208136, 1.0099954580058226, 0.021041398966943008)
      (0.012314001688319899, -0.020507696433477912, 1.3303659366080753)
  | .linear =>
    c.transform (0.41239079926595934, 0.357584339383878, 0.1804807884018343)
      (0.21263900587151027, 0.715168678767756, 0.07219231536073371)
      (0.01933081871559182, 0.11919477979462598, 0.9505321522496607)
  | .srgb => c.map toLight
  | .hsl => c.ofHsl
  | .hwb => c.ofHwb
  | .displayP3 =>
    (c.map toLight).transform (0.4865709486482162, 0.26566769316909306, 0.1982172852343625)
      (0.2289745640697488, 0.6917385218365064, 0.079286914093745)
      (0, 0.04511338185890264, 1.043944368900976)
  | .a98 =>
    (c.map (bySize (·.pow (563 / 256)))).transform
      (0.5766690429101305, 0.1855582379065463, 0.1882286462349947)
      (0.29734497525053605, 0.6273635662554661, 0.07529145849399788)
      (0.02703136138641234, 0.07068885253582723, 0.9913375368376388)
  | .rec2020 =>
    (c.map toScreenLight).transform (0.6369580483012914, 0.14461690358620832, 0.1688809751641721)
      (0.2627002120112671, 0.6779980715188708, 0.05930171646986196)
      (0, 0.028072693049087428, 1.060985057710791)
  | .prophoto =>
    (c.map toPhotoLight).transform (0.7977604896723027, 0.13518583717574031, 0.0313493495815248)
      (0.2880711282292934, 0.7118432178101014, 0.00008565396060525902) (0, 0, 0.8251046025104601)
  | .lab => c.ofLab
  | .oklab => c.ofOklab
  | .lch | .oklch => c.ofPolar

/-- Takes a colour from the next space on the way to the common one. Red, green and blue are
brought into their bounds first, where they are taken for a hue. -/
def descend (bounded : Coordinates → Coordinates) (s : ColorSpace) (c : Coordinates) : Coordinates :=
  let c := c.resolved
  match s with
  | .xyz => c
  | .xyzD50 =>
    c.transform (1.0479298208405488, 0.022946793341019088, -0.05019222954313557)
      (0.029627815688159344, 0.990434484573249, -0.01707382502938514)
      (-0.009243058152591178, 0.015055144896577895, 0.7518742899580008)
  | .linear =>
    c.transform (3.2409699419045226, -1.537383177570094, -0.4986107602930034)
      (-0.9692436362808796, 1.8759675015077202, 0.04155505740717559)
      (0.05563007969699366, -0.20397695888897652, 1.0569715142428786)
  | .srgb => c.map ofLight
  | .hsl => (bounded c).toHsl
  | .hwb => (bounded c).toHwb
  | .displayP3 =>
    (c.transform (2.493496911941425, -0.9313836179191239, -0.40271078445071684)
      (-0.8294889695615747, 1.7626640603183463, 0.023624685841943577)
      (0.03584583024378447, -0.07617238926804182, 0.9568845240076872)).map ofLight
  | .a98 =>
    (c.transform (2.0415879038107465, -0.5650069742788596, -0.34473135077832956)
      (-0.9692436362808795, 1.8759675015077202, 0.04155505740717557)
      (0.013444280632031142, -0.11836239223101838, 1.0151749943912054)).map
      (bySize (·.pow (256 / 563)))
  | .rec2020 =>
    (c.transform (1.7166511879712674, -0.35567078377639233, -0.25336628137365974)
      (-0.6666843518324892, 1.6164812366349395, 0.01576854581391113)
      (0.017639857445310783, -0.042770613257808524, 0.9421031212354738)).map ofScreenLight
  | .prophoto =>
    (c.transform (1.3457989731028281, -0.25558010007997534, -0.05110628506753401)
      (-0.5446224939028347, 1.5082327413132781, 0.02053603239147973)
      (0, 0, 1.2119675456389454)).map ofPhotoLight
  | .lab => c.toLab
  | .oklab => c.toOklab
  | .lch | .oklch => c.toPolar

def convertBy (bounded : Coordinates → Coordinates) (source target : ColorSpace) (c : Coordinates) : Coordinates :=
  let up := source.way.filter (!target.way.contains ·)
  let down := (target.way.filter (!source.way.contains ·)).reverse
  down.foldl (fun c s => descend bounded s c) (up.foldl (fun c s => ascend s c) c)

def isShare (x : Float32) : Bool := 0 ≤ x && x ≤ 1

def isInside (s : ColorSpace) (c : Coordinates) : Bool :=
  match s with
  | .linear | .srgb | .displayP3 | .a98 | .rec2020 | .prophoto =>
    isShare c.first && isShare c.second && isShare c.third
  | .hsl | .hwb => isShare c.second && isShare c.third
  | _ => true

def clampShare (x : Float32) : Float32 := if x < 0 then 0 else if 1 < x then 1 else x

def withoutTurns (h : Float32) : Float32 := Quantity.remainder h 360

def clipped (s : ColorSpace) (c : Coordinates) : Coordinates :=
  let shares := c.map clampShare
  let alpha := clampShare c.alpha
  match s with
  | .hsl | .hwb => { shares with first := withoutTurns c.first, alpha }
  | _ => { shares with alpha }

def distance (a b : Coordinates) : Float32 :=
  let square (x : Float32) : Float32 := x * x
  (square (a.first - b.first) + square (a.second - b.second) + square (a.third - b.third)).sqrt

/-- Looks for the strongest colour of a lightness and a hue inside the bounds, between a strength
that is inside and one that is not, in at most `fuel` steps. -/
def weaken (convert : ColorSpace → ColorSpace → Coordinates → Coordinates) (s : ColorSpace) :
    Nat → Float32 → Float32 → Coordinates → Coordinates
  | 0, _, _, c => convert .oklch s c
  | fuel + 1, low, high, c =>
    if 0.00001 < high - low then
      let middle := (low + high) / 2
      let c := { c with second := middle }
      let found := convert .oklch s c
      if s.isInside found then weaken convert s fuel middle high c
      else
        let near := s.clipped found
        if distance (convert s .oklab near) (convert .oklch .oklab c) < 0.02 then near
        else weaken convert s fuel low middle c
    else convert .oklch s c

def bounded (convert : ColorSpace → ColorSpace → Coordinates → Coordinates) (s : ColorSpace)
    (c : Coordinates) : Coordinates :=
  if s.isInside c then c
  else
    let p := convert s .oklch c
    if (p.first - 1).abs < 0.00001 || 1 < p.first then convert .oklch s ⟨1, 0, 0, p.alpha⟩
    else if p.first < 0.00001 then convert .oklch s ⟨0, 0, 0, p.alpha⟩
    else weaken convert s 200 0 p.second p

def convert : ColorSpace → ColorSpace → Coordinates → Coordinates := convertBy (bounded (convertBy id) .srgb)

def shown (s : ColorSpace) (c : Coordinates) : Coordinates := bounded convert s c.resolved

inductive HueSide where
  | none
  | first
  | last
  deriving Repr, DecidableEq

def hueSide : ColorSpace → HueSide
  | .hsl | .hwb => .first
  | .lch | .oklch => .last
  | _ => .none

/-- Coordinates that tell nothing about a colour are missing. -/
def withoutPowerless (s : ColorSpace) (c : Coordinates) : Coordinates :=
  let missing : Float32 := 0 / 0
  let isZero (x : Float32) : Bool := x.abs < 1.1920929e-7
  match s with
  | .lab | .oklab => if isZero c.first then { c with second := missing, third := missing } else c
  | .lch | .oklch =>
    if isZero c.first then { c with second := missing, third := missing }
    else if isZero c.second then { c with third := missing } else c
  | .hsl =>
    if isZero c.third || isZero (c.third - 1) then { c with first := missing, second := missing }
    else if isZero c.second then { c with first := missing } else c
  | .hwb => if isZero (c.second + c.third - 1) then { c with first := missing } else c
  | _ => c

inductive HueWay where
  | shorter
  | longer
  | increasing
  | decreasing
  | specified
  deriving Repr, DecidableEq

def HueWay.turned (w : HueWay) (a b : Float32) : Float32 × Float32 :=
  let inCircle (h : Float32) : Float32 := Quantity.modulo h 360
  let (a, b) := if w = .specified then (a, b) else (inCircle a, inCircle b)
  let d := b - a
  match w with
  | .shorter => if 180 < d then (a + 360, b) else if d < -180 then (a, b + 360) else (a, b)
  | .longer =>
    if 0 < d && d < 180 then (a + 360, b) else if -180 < d && d < 0 then (a, b + 360) else (a, b)
  | .increasing => if b < a then (a, b + 360) else (a, b)
  | .decreasing => if a < b then (a + 360, b) else (a, b)
  | .specified => (a, b)

def mapStrengths (s : ColorSpace) (f : Float32 → Float32) (c : Coordinates) : Coordinates :=
  match s.hueSide with
  | .none => c.map f
  | .first => { c with second := f c.second, third := f c.third }
  | .last => { c with first := f c.first, second := f c.second }

def turnHues (s : ColorSpace) (w : HueWay) (x y : Coordinates) : Coordinates × Coordinates :=
  match s.hueSide with
  | .none => (x, y)
  | .first =>
    let (g, h) := w.turned x.first y.first
    ({ x with first := g }, { y with first := h })
  | .last =>
    let (g, h) := w.turned x.third y.third
    ({ x with third := g }, { y with third := h })

/-- Mixes shares of two colours. All but hues are weighed by opacity. -/
def mix (s : ColorSpace) (w : HueWay) (x : Coordinates) (p : Float32) (y : Coordinates) (q : Float32) : Coordinates :=
  let x := x.filledFrom y
  let y := y.filledFrom x
  let (x, y) := turnHues s w x y
  let weighed (c : Coordinates) : Coordinates :=
    if c.alpha.isNaN then c else s.mapStrengths (· * c.alpha) c
  let x := weighed x
  let y := weighed y
  let total := p + q
  let (p, q) := if total == 1 then (p, q) else (p / total, q / total)
  let between (u v : Float32) : Float32 := u * p + v * q
  let c : Coordinates := ⟨between x.first y.first, between x.second y.second,
    between x.third y.third, between x.alpha y.alpha⟩
  let c := match s.hueSide with
    | .none => c
    | .first => { c with first := withoutTurns c.first }
    | .last => { c with third := withoutTurns c.third }
  if c.alpha.isNaN || c.alpha == 0 then c
  else
    { s.mapStrengths (· / c.alpha) c with alpha := c.alpha * (if 1 < total then 1 else total) }

end ColorSpace

end ComponentConverter.Stylesheet
