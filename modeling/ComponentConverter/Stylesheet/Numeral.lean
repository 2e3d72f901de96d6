import ComponentConverter.Stylesheet.Number

namespace ComponentConverter.Stylesheet

/-- The value is `digits` times ten to the `exponent`, up to its sign. -/
structure Numeral where
  hasSign : Bool
  isNegative : Bool
  isInteger : Bool
  digits : Nat
  exponent : Int
  deriving Repr, DecidableEq

namespace Numeral

def isDigit (c : Char) : Bool := '0' ≤ c && c ≤ '9'

def digitsValue (t : Text) : Nat := t.foldl (fun n c => n * 10 + (c.toNat - 48)) 0

def widest : Int := 400

def size (n : Numeral) : Float :=
  if n.digits == 0 then 0
  else
    let exponent := max (-widest - (Nat.toDigits 10 n.digits).length) (min widest n.exponent)
    Float.ofScientific n.digits (exponent < 0) exponent.natAbs

def exact (n : Numeral) : Float := if n.isNegative then -n.size else n.size

def value (n : Numeral) : Float32 := n.exact.toFloat32

def share (n : Numeral) : Float32 := (n.exact / 100).toFloat32

/-- The whole number that a numeral without a fraction writes, within the bounds of 32 bits. -/
def whole? (n : Numeral) : Option Int :=
  if n.isInteger then
    some (if n.isNegative then max (-2147483648) (-(n.digits : Int)) else min 2147483647 (n.digits : Int))
  else none

def written (n : Numeral) (x : Float32) : Text :=
  let sign := if n.hasSign && !Number.isNegative x then ['+'] else []
  let body := Number.plain x
  sign ++ body ++ (if !n.isInteger && Number.isWhole x && body.all (fun c => isDigit c || c == '-') then
    ".0".toList else [])

def startsAt : Text → Bool
  | c :: t =>
    let unsigned : Text → Bool
      | '.' :: d :: _ => isDigit d
      | d :: _ => isDigit d
      | [] => false
    if c == '+' || c == '-' then unsigned t else unsigned (c :: t)
  | [] => false

def read (t : Text) : Numeral × Text :=
  let (hasSign, isNegative, t) :=
    match t with
    | '+' :: t => (true, false, t)
    | '-' :: t => (true, true, t)
    | t => (false, false, t)
  let whole := t.takeWhile isDigit
  let t := t.drop whole.length
  let fraction :=
    match t with
    | '.' :: u => u.takeWhile isDigit
    | _ => []
  let t := if fraction.isEmpty then t else t.drop (fraction.length + 1)
  let (power, t) : Option Int × Text :=
    match t with
    | e :: u =>
      if e == 'e' || e == 'E' then
        let (negative, v) :=
          match u with
          | '+' :: v => (false, v)
          | '-' :: v => (true, v)
          | v => (false, v)
        let digits := v.takeWhile isDigit
        if digits.isEmpty then (none, t)
        else
          let value : Int := digitsValue digits
          (some (if negative then -value else value), v.drop digits.length)
      else (none, t)
    | [] => (none, t)
  ({ hasSign, isNegative
     isInteger := fraction.isEmpty && power.isNone
     digits := digitsValue (whole ++ fraction)
     exponent := power.getD 0 - fraction.length }, t)

end Numeral

end ComponentConverter.Stylesheet
