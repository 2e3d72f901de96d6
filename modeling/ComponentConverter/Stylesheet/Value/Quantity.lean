import ComponentConverter.Stylesheet.Reader

namespace ComponentConverter.Stylesheet

inductive Quantity where
  | length (value : Float32) (unit : Text)
  | percentage (value : Float32)
  | angle (value : Float32) (unit : Text)
  | time (value : Float32) (unit : Text)
  deriving Repr, BEq

namespace Quantity

def fixedUnits : List (String × Float32) :=
  let inch : Float32 := 96
  let centimetre : Float32 := inch / 2.54
  [("px", 1), ("in", inch), ("cm", centimetre), ("mm", centimetre / 10), ("q", centimetre / 40),
    ("pt", inch / 72), ("pc", inch / 6)]

def relativeUnits : List String :=
  ["em", "rem", "ex", "rex", "ch", "rch", "cap", "rcap", "ic", "ric", "lh", "rlh", "vw", "lvw", "svw",
    "dvw", "cqw", "vh", "lvh", "svh", "dvh", "cqh", "vi", "svi", "lvi", "dvi", "cqi", "vb", "svb", "lvb",
    "dvb", "cqb", "vmin", "svmin", "lvmin", "dvmin", "cqmin", "vmax", "svmax", "lvmax", "dvmax", "cqmax"]

def angleUnits : List String := ["deg", "grad", "rad", "turn"]

def timeUnits : List String := ["s", "ms"]

def ofUnit? (x : Float32) (unit : Text) : Option Quantity :=
  let unit := unit.map Char.toLower
  let isAmong (units : List String) : Bool := units.any (·.toList == unit)
  if isAmong (fixedUnits.map Prod.fst) || isAmong relativeUnits then some (.length x unit)
  else if isAmong angleUnits then some (.angle x unit)
  else if isAmong timeUnits then some (.time x unit)
  else none

def zero : Quantity := .length 0 "px"

def degrees (x : Float32) : Quantity := .angle x "deg"

def seconds (x : Float32) : Quantity := .time x ['s']

def value : Quantity → Float32
  | .length x _ | .percentage x | .angle x _ | .time x _ => x

def isZero (q : Quantity) : Bool := q.value == 0

def isNegative (q : Quantity) : Bool := Number.isNegative q.value

def map (f : Float32 → Float32) : Quantity → Quantity
  | .length x u => .length (f x) u
  | .percentage x => .percentage (f x)
  | .angle x u => .angle (f x) u
  | .time x u => .time (f x) u

def pi : Float32 := 3.14159265358979

/-- The remainder of a division toward nought. It is found with twice the precision, where the
product of the divisor and the quotient is exact. -/
def remainder (x y : Float32) : Float32 :=
  if y.isInf && x.isFinite then x
  else
    let q := x.toFloat / y.toFloat
    (x.toFloat - y.toFloat * (if q < 0 then q.ceil else q.floor)).toFloat32

def modulo (x y : Float32) : Float32 := remainder (remainder x y + y) y

def inDegrees (x : Float32) (unit : Text) : Float32 :=
  if unit == "rad" then x * (180 / pi)
  else if unit == "grad" then x * 180 / 200
  else if unit == "turn" then x * 360
  else x

def inPixels? (x : Float32) (unit : Text) : Option Float32 :=
  (fixedUnits.find? (·.1.toList == unit)).map fun (_, size) => if unit == "px" then x else x * size

def combine? (f : Float32 → Float32 → Float32) : Quantity → Quantity → Option Quantity
  | .length x u, .length y v =>
    if u == v then some (.length (f x y) u)
    else do return .length (f (← inPixels? x u) (← inPixels? y v)) "px"
  | .percentage x, .percentage y => some (.percentage (f x y))
  | .angle x u, .angle y v =>
    if u == v then some (.angle (f x y) u)
    else some (degrees (f (inDegrees x u) (inDegrees y v)))
  | .time x u, .time y v =>
    if u == v then some (.time (f x y) u)
    else if u == ['s'] then some (.time (f x (y / 1000)) u)
    else some (.time (f x (y * 1000)) u)
  | _, _ => none

def add? : Quantity → Quantity → Option Quantity := combine? (· + ·)

def compare? (a b : Quantity) : Option Ordering := do
  let d := (← combine? (fun x y => if x < y then -1 else if y < x then 1 else 0) a b).value
  return if d < 0 then .lt else if 0 < d then .gt else .eq

def withUnit (x : Float32) (unit : Text) : Text := Number.counted x ++ unitText unit

def angleText (x : Float32) (unit : Text) : Text :=
  if unit == "rad" then withUnit (inDegrees x unit) "deg" else withUnit x unit

def timeText (x : Float32) (unit : Text) : Text :=
  if unit == ['s'] then
    if 0 < x && x < 0.1 then Number.text (x * 1000) ++ "ms" else Number.text x ++ ['s']
  else if x == 0 || 100 ≤ x then Number.text (x / 1000) ++ ['s']
  else Number.text x ++ "ms"

/-- The text of a quantity; a length of nought needs its unit only in a calculation. -/
def text (inCalculation : Bool) : Quantity → Text
  | .length x unit => if x == 0 && !inCalculation then ['0'] else withUnit x unit
  | .percentage x => Number.percentage x
  | .angle x unit => angleText x unit
  | .time x unit => timeText x unit

end Quantity

structure Kinds where
  lengths : Bool
  percentages : Bool
  angles : Bool
  times : Bool

namespace Kinds

def none : Kinds := ⟨false, false, false, false⟩

def length : Kinds := ⟨true, false, false, false⟩

def lengthPercentage : Kinds := ⟨true, true, false, false⟩

def percentage : Kinds := ⟨false, true, false, false⟩

def angle : Kinds := ⟨false, false, true, false⟩

def anglePercentage : Kinds := ⟨false, true, true, false⟩

def time : Kinds := ⟨false, false, false, true⟩

def allow (k : Kinds) : Quantity → Bool
  | .length _ _ => k.lengths
  | .percentage _ => k.percentages
  | .angle _ _ => k.angles
  | .time _ _ => k.times

end Kinds

def quantity (k : Kinds) : Reader Quantity := do
  let found : Option Quantity :=
    match ← Reader.token with
    | .dimension n unit => Quantity.ofUnit? n.value unit
    | .percentage n => some (.percentage n.share)
    | _ => .none
  let q ← Reader.ofOption found
  guard (k.allow q)
  return q

end ComponentConverter.Stylesheet
