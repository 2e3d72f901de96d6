import ComponentConverter.Text.Basic

namespace ComponentConverter.Stylesheet

/-- The value is `digits` times ten to the `exponent`. -/
structure Decimal where
  digits : Nat
  exponent : Int
  deriving Repr, DecidableEq

structure Ratio where
  above : Nat
  below : Nat
  deriving Repr, DecidableEq

namespace Ratio

def scaled (n base : Nat) (e : Int) : Ratio :=
  if 0 ≤ e then ⟨n * base.pow e.toNat, 1⟩ else ⟨n, base.pow (-e).toNat⟩

def less (a b : Ratio) : Bool := a.above * b.below < b.above * a.below

def atMost (a b : Ratio) : Bool := a.above * b.below ≤ b.above * a.below

def quotient (a : Ratio) (e : Int) : Nat :=
  let unit := scaled 1 10 e
  a.above * unit.below / (a.below * unit.above)

end Ratio

namespace Decimal

def ratio (d : Decimal) : Ratio := .scaled d.digits 10 d.exponent

def dropZeros : Nat → Decimal → Decimal
  | 0, d => d
  | fuel + 1, d =>
    if d.digits != 0 && d.digits % 10 == 0 then dropZeros fuel ⟨d.digits / 10, d.exponent + 1⟩ else d

def count (d : Decimal) : Nat := (Nat.toDigits 10 d.digits).length

def rounded (n : Nat) (d : Decimal) : Decimal :=
  let extra := d.count - n
  if extra == 0 then d
  else
    let unit := Nat.pow 10 extra
    ⟨(d.digits + unit / 2) / unit, d.exponent + extra⟩

def places (d : Decimal) : Text × Text :=
  let d := dropZeros d.count d
  let written := Nat.toDigits 10 d.digits
  if d.digits == 0 then (['0'], [])
  else if 0 ≤ d.exponent then (written ++ List.replicate d.exponent.toNat '0', [])
  else
    let after := (-d.exponent).toNat
    let padded := List.replicate (after + 1 - written.length) '0' ++ written
    (padded.take (padded.length - after), padded.drop (padded.length - after))

end Decimal

/-- A positive number as `mantissa` times two to the `exponent`. The number below it is only half as
far away where the gap is narrow. -/
structure Binary where
  mantissa : Nat
  exponent : Int
  isNarrow : Bool
  deriving Repr, DecidableEq

namespace Binary

def ofSingle (x : Float32) : Binary :=
  let bits := x.toBits.toNat
  let fraction := bits % Nat.pow 2 23
  let exponent : Nat := bits / Nat.pow 2 23 % 256
  if exponent == 0 then ⟨fraction, -149, false⟩
  else ⟨fraction + Nat.pow 2 23, (exponent : Int) - 150, fraction == 0 && 1 < exponent⟩

def ratio (b : Binary) : Ratio := .scaled b.mantissa 2 b.exponent

/-- Whether a decimal is nearer to a number than to its neighbours. Halfway it counts for the even
one. -/
def isNamedBy (b : Binary) (d : Decimal) : Bool :=
  let low := Ratio.scaled (4 * b.mantissa - (if b.isNarrow then 1 else 2)) 2 (b.exponent - 2)
  let high := Ratio.scaled (4 * b.mantissa + 2) 2 (b.exponent - 2)
  if b.mantissa % 2 == 0 then low.atMost d.ratio && d.ratio.atMost high
  else low.less d.ratio && d.ratio.less high

def scale (b : Binary) : Int :=
  ((List.range 90).find? fun (k : Nat) => b.ratio.less (.scaled 1 10 ((k : Int) - 45))).getD 90 - 45

def named? (b : Binary) (n : Nat) : Option Decimal :=
  let exponent := b.scale - n
  let below : Decimal := ⟨b.ratio.quotient exponent, exponent⟩
  let above : Decimal := ⟨below.digits + 1, exponent⟩
  let middle : Decimal := ⟨(2 * below.digits + 1) * 5, exponent - 1⟩
  let nearer := if middle.ratio.atMost b.ratio then above else below
  if b.isNamedBy nearer then some nearer
  else if b.isNamedBy below then some below
  else if b.isNamedBy above then some above
  else none

def shortest (b : Binary) : Decimal :=
  if b.mantissa == 0 then ⟨0, 0⟩
  else
    let found := ((List.range 17).findSome? fun n => b.named? (n + 1)).getD ⟨b.mantissa, 0⟩
    found.dropZeros found.count

end Binary

end ComponentConverter.Stylesheet
