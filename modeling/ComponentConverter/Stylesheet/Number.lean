import ComponentConverter.Stylesheet.Digits

namespace ComponentConverter.Stylesheet

namespace Number

def isNegative (x : Float32) : Bool := Nat.pow 2 31 ≤ x.toBits.toNat

def isWhole (x : Float32) : Bool := x.floor == x

def shortest (x : Float32) : Decimal := (Binary.ofSingle x).shortest

def joined : Text × Text → Text
  | (whole, []) => whole
  | (whole, fraction) => whole ++ '.' :: fraction

def sixDigits (x : Float32) : Text :=
  let d := shortest x
  let scale : Int := d.count + d.exponent
  if d.digits == 0 then ['0']
  else if -6 < scale && scale ≤ 21 then joined (d.rounded 6).places
  else
    let leading : Decimal := ⟨d.digits, 1 - d.count⟩
    joined (leading.rounded 6).places ++ 'e' :: (toString (scale - 1)).toList

def sign (x : Float32) : Text := if isNegative x then ['-'] else []

def plain (x : Float32) : Text :=
  if x.isNaN then "NaN"
  else if x.isInf then sign x ++ "inf"
  else sign x ++ sixDigits x

def text (x : Float32) : Text :=
  if x != 0 && x.abs < 1 then sign x ++ (sixDigits x).dropWhile (· == '0') else plain x

def counted (x : Float32) : Text :=
  if isWhole x then (toString x.toInt32.toInt).toList else text x

def percentage (x : Float32) : Text := counted (x * 100) ++ ['%']

def shown (x : Float32) : Text :=
  let d := shortest x
  let scale : Int := d.count + d.exponent
  sign x ++ (if d.digits == 0 then "0.0".toList
    else if -4 < scale && scale ≤ 16 then
      match d.places with
      | (whole, []) => whole ++ ".0"
      | places => joined places
    else
      let leading : Decimal := ⟨d.digits, 1 - d.count⟩
      joined leading.places ++ 'e' :: (toString (scale - 1)).toList)

end Number

end ComponentConverter.Stylesheet
