import ComponentConverter.Stylesheet.Value.Quantity

namespace ComponentConverter.Stylesheet

/-- A term of a calculation. A `group` is one in brackets of its own, and `call` another function,
with words before its arguments. -/
inductive Calculation where
  | value (q : Quantity)
  | number (x : Float32)
  | sum (a b : Calculation)
  | product (x : Float32) (a : Calculation)
  | group (a : Calculation)
  | call (f : Text) (lead : List Text) (arguments : List Calculation)
  deriving Repr, BEq

namespace Calculation

def isZero : Calculation → Bool
  | .value q => q.isZero
  | _ => false

mutual

def sign? : Calculation → Option Bool
  | .value q => some q.isNegative
  | .number x => some (Number.isNegative x)
  | .product x a => (sign? a).map fun s => s != Number.isNegative x
  | .group a => sign? a
  | .sum _ _ => none
  | .call f _ as =>
    if f == "abs" then some false
    else if ["min", "max", "clamp", "round", "sign"].any (·.toList == f) then commonSign? as
    else none

def commonSign? : List Calculation → Option Bool
  | [] => none
  | [a] => sign? a
  | a :: as => do
    let s ← sign? a
    if (← commonSign? as) == s then some s else none

end

def isNegative (c : Calculation) : Bool := c.sign? == some true

def isPositive (c : Calculation) : Bool := c.sign? == some false

def times (x : Float32) (c : Calculation) : Calculation :=
  if x == 1 then c
  else
    match c with
    | .value q => .value (q.map (· * x))
    | .number y => .number (y * x)
    | .sum a b => .sum (times x a) (times x b)
    | .product y a => if y * x == 1 then a else .product (y * x) a
    | .group a => .group (times x a)
    | .call f lead as => .product x (.call f lead as)

def merge? : Calculation → Calculation → Option Calculation
  | .value p, .value q => (p.add? q).map .value
  | .sum a b, .value q =>
    match merge? a (.value q) with
    | some c => some (.sum c b)
    | none => (merge? b (.value q)).map (.sum a)
  | .value p, .sum a b =>
    match merge? (.value p) a with
    | some c => some (.sum c b)
    | none => (merge? (.value p) b).map (.sum a)
  | _, _ => none

def canMerge (a : Calculation) : Calculation → Bool
  | .sum b c => canMerge a b || canMerge a c
  | b => (merge? a b).isSome

def join (a b : Calculation) : Calculation :=
  if a.isZero then b
  else if b.isZero then a
  else if a.isNegative && b.isPositive then .sum b a
  else .sum a b

def addTo (a : Calculation) : Calculation → Calculation
  | .sum b c => if canMerge a (.sum b c) then addTo (addTo a b) c else join a (.sum b c)
  | .number y =>
    match a with
    | .number x => .number (x + y)
    | a => .sum a (.number y)
  | .value q =>
    match a with
    | .number x => .sum (.number x) (.value q)
    | .product x b => .sum (.product x b) (.value q)
    | .call f lead as => .sum (.call f lead as) (.value q)
    | a => (merge? a (.value q)).getD (join a (.value q))
  | b => .sum a b

def plus (a b : Calculation) : Calculation :=
  match a, b with
  | .group a, b => addTo a b
  | a, .group b => addTo a b
  | a, b => addTo a b

mutual

def text : Calculation → Text
  | .value q => q.text true
  | .number x => Number.text x
  | .sum a b =>
    if b.isNegative then text a ++ " - " ++ negated b else text a ++ " + " ++ text b
  | .product x a =>
    if x.abs < 1 then text a ++ " / " ++ Number.text (1 / x)
    else Number.text x ++ " * " ++ text a
  | .group a => "calc(" ++ text a ++ [')']
  | .call f lead as => f ++ ['('] ++ listed (lead ++ texts as) ++ [')']

def negated : Calculation → Text
  | .value q => (q.map (· * -1)).text true
  | .number x => Number.text (x * -1)
  | .product x a =>
    let y := x * -1
    if y == 1 then text a
    else if y.abs < 1 then text a ++ " / " ++ Number.text (1 / y)
    else Number.text y ++ " * " ++ text a
  | .sum a b =>
    if b.isNegative then negated a ++ " + " ++ negated b
    else negated a ++ " - " ++ text b
  | .group a => "calc(" ++ negated a ++ [')']
  | .call f lead as => "-1 * " ++ f ++ ['('] ++ listed (lead ++ texts as) ++ [')']

def texts : List Calculation → List Text
  | [] => []
  | a :: as => text a :: texts as

end

def valueText : Calculation → Text
  | .value q => q.text false
  | c => c.text

/-- Reduces the arguments of a least or greatest value: of two that can be compared one stays. -/
def reduce (wins : Ordering) (reduced : List Calculation) (a : Calculation) : List Calculation :=
  let order (b : Calculation) : Option Ordering :=
    match a, b with
    | .value p, .value q => p.compare? q
    | .number x, .number y => some (if x < y then .lt else if y < x then .gt else .eq)
    | _, _ => none
  let before := reduced.takeWhile fun b => (order b).isNone
  match reduced.drop before.length with
  | [] => reduced ++ [a]
  | b :: after => before ++ (if order b == some wins then a else b) :: after

def extreme (f : String) (wins : Ordering) (as : List Calculation) : Calculation :=
  match as.foldl (reduce wins) [] with
  | [a] => a
  | as => .call f.toList [] as

/-- A value kept between two others. If those are in the wrong order the lower one wins. -/
def clamp (low middle high : Calculation) : Calculation :=
  let order (a b : Calculation) : Option Ordering :=
    match a, b with
    | .value p, .value q => p.compare? q
    | _, _ => none
  match order middle high with
  | none => .call "clamp" [] [low, middle, high]
  | some upper =>
    let middle := if upper == .gt then high else middle
    match order middle low with
    | none => .call "max" [] [low, middle]
    | some .lt => low
    | some _ => middle

def combine? (f : Float32 → Float32 → Float32) : Calculation → Calculation → Option Calculation
  | .value p, .value q => (Quantity.combine? f p q).map .value
  | .number x, .number y => some (.number (f x y))
  | _, _ => none

def roundings : List (String × (Float32 → Float32)) :=
  [("nearest", Float32.round), ("up", Float32.ceil), ("down", Float32.floor),
    ("to-zero", fun x => if x < 0 then x.ceil else x.floor)]

def signOf (x : Float32) : Float32 := if x == 0 then x else if x < 0 then -1 else 1

def constants : List (String × Float32) :=
  [("e", 2.718281828459045), ("pi", Quantity.pi), ("infinity", 1 / 0), ("-infinity", -1 / 0), ("nan", 0 / 0)]

open Reader

def constant : Reader Float32 := do
  let n := (← name).map Char.toLower
  ofOption ((constants.find? (·.1.toList == n)).map Prod.snd)

/-- Adds terms to what was read. White space has to stand around the signs of sums, and between
terms nothing else may follow it. -/
def sumFrom (term : Reader Calculation) : Nat → Calculation → Reader Calculation
  | 0, c => pure c
  | fuel + 1, c => do
    match (← get).dropWhile Piece.isComment with
    | [] => return c
    | p :: rest =>
      if !p.isBlank then return c
      set rest
      if ← isDone then return c
      match ← token with
      | .mark '+' => sumFrom term fuel (c.plus (← term))
      | .mark '-' => sumFrom term fuel (c.plus (times (-1) (← term)))
      | _ => failure

def sumOf (term : Reader Calculation) : Reader Calculation := do
  let length := (← get).length
  sumFrom term length (← term)

def productStep (factor : Reader Calculation) (c : Calculation) : Reader Calculation := do
  match ← token with
  | .mark '*' =>
    match c, ← factor with
    | c, .number x => return c.times x
    | .number x, d => return d.times x
    | _, _ => failure
  | .mark '/' =>
    match ← factor with
    | .number x =>
      guard (x != 0)
      return c.times (1 / x)
    | _ => failure
  | _ => failure
where
  times (c : Calculation) (x : Float32) : Calculation := Calculation.times x c

def productOf (factor : Reader Calculation) : Reader Calculation := do
  let first ← factor
  steps (productStep factor) first

def onAngle? (f : Float32 → Float32) : Calculation → Option Calculation
  | .number x => some (.number (f x))
  | .value (.angle x unit) => some (.number (f (Quantity.inDegrees x unit * (Quantity.pi / 180))))
  | _ => none

def ratio? (f : Float32 → Float32 → Float32) (a b : Calculation) : Option Float32 := do
  match ← combine? f a b with
  | .number x => return x
  | .value q => return q.value
  | _ => none

def hypotenuse (x y : Float32) : Float32 := (x * x + y * y).sqrt

def functionOf (k : Kinds) (sumOfKinds : Kinds → Reader Calculation) (f : Text) : Reader Calculation := do
  let sum := sumOfKinds k
  let numeric : Reader Float32 := do
    match ← sumOfKinds .none with
    | .number x => return x
    | _ => failure
  let onNumber (g : Float32 → Float32) : Reader Calculation := return .number (g (← numeric))
  let ofAngle (g : Float32 → Float32) : Reader Calculation := do ofOption (onAngle? g (← sumOfKinds .angle))
  let toAngle (r : Reader Float32) : Reader Calculation := do
    guard k.angles
    return .value (.angle (← r) "rad")
  let quotient (kinds : Kinds) : Reader Float32 := do
    let a ← sumOfKinds kinds
    comma
    let b ← sumOfKinds kinds
    ofOption (ratio? Float32.atan2 a b)
  let pair (shown : String) (lead : List Text) (g : Float32 → Float32 → Float32) : Reader Calculation := do
    let a ← sum
    comma
    let b ← sum
    return (combine? g a b).getD (.call shown.toList lead [a, b])
  match String.ofList f with
  | "calc" =>
    match ← sum with
    | .value q => return .value q
    | .number x => return .number x
    | c => return .group c
  | "min" => return extreme "min" .lt (← commaList sum)
  | "max" => return extreme "max" .gt (← commaList sum)
  | "clamp" => do
    let low ← sum
    comma
    let middle ← sum
    comma
    return clamp low middle (← sum)
  | "round" =>
    let strategy ← optional? do
      let s ← keyword (roundings.map Prod.fst)
      comma
      return s
    let shown := strategy.getD "nearest"
    let g := ((roundings.find? (·.1.toList == shown)).map Prod.snd).getD id
    pair "round" (if shown == "nearest" then [] else [shown]) fun x y => g (x / y) * y
  | "rem" => pair "rem" [] Quantity.remainder
  | "mod" => pair "mod" [] Quantity.modulo
  | "abs" =>
    match ← sum with
    | .number x => return .number x.abs
    | .value (.percentage x) => return .call "abs" [] [.value (.percentage x)]
    | .value q => return .value (q.map Float32.abs)
    | c => return .call "abs" [] [c]
  | "sign" =>
    match ← sum with
    | .number x => return .number (signOf x)
    | .value (.percentage x) => return .call "sign" [] [.value (.percentage x)]
    | .value q => return .number (signOf q.value)
    | c => return .call "sign" [] [c]
  | "sin" => ofAngle Float32.sin
  | "cos" => ofAngle Float32.cos
  | "tan" => ofAngle Float32.tan
  | "asin" => toAngle (Float32.asin <$> numeric)
  | "acos" => toAngle (Float32.acos <$> numeric)
  | "atan" => toAngle (Float32.atan <$> numeric)
  | "atan2" =>
    toAngle (quotient .length <|> quotient .percentage <|> quotient .angle <|> quotient .time <|> quotient .none)
  | "hypot" =>
    match ← commaList sum with
    | [a] => return a
    | a :: as => return (as.foldlM (combine? hypotenuse) a).getD (.call "hypot" [] (a :: as))
    | [] => failure
  | "sqrt" => onNumber Float32.sqrt
  | "exp" => onNumber Float32.exp
  | "pow" => do
    let x ← numeric
    comma
    return .number (x.pow (← numeric))
  | "log" => do
    let x ← numeric
    match ← optional? (do comma; numeric) with
    | some b => return .number (x.log / b.log)
    | none => return .number x.log
  | _ => failure

def factor : Nat → Kinds → Reader Calculation
  | 0, _ => failure
  | fuel + 1, k =>
    let sumOfKinds (k : Kinds) : Reader Calculation := sumOf (productOf (factor fuel k))
    let nested : Reader Calculation := do
      let (f, inside) ← function
      match ← ofOption (run? (functionOf k sumOfKinds f) inside) with
      | .group c => return c
      | c => return c
    nested <|> bracket .round (sumOfKinds k) <|> (.number <$> bareNumber) <|> (.number <$> constant) <|>
      (.value <$> quantity k)

def call? (k : Kinds) : Reader Calculation := do
  let (f, inside) ← function
  ofOption (run? (functionOf k (fun k => sumOf (productOf (factor depthBound k))) f) inside)

end Calculation

open Reader

/-- A quantity, or a calculation that comes to quantities. A number alone is a length in pixels. -/
def measure (k : Kinds) : Reader Calculation :=
  Calculation.call? k <|> (.value <$> quantity k) <|> do
    guard k.lengths
    return .value (.length (← bareNumber) "px")

def length : Reader Calculation := measure .length

def lengthPercentage : Reader Calculation := measure .lengthPercentage

def settled (k : Kinds) : Reader Quantity := do
  match ← optional? (Calculation.call? k) with
  | some (.value q) => return q
  | some _ => failure
  | none => quantity k

def percentage : Reader Float32 := return (← settled .percentage).value

def angle : Reader Quantity := settled .angle

def angleOrZero : Reader Quantity := angle <|> do
  guard ((← bareNumber) == 0)
  return .degrees 0

def time : Reader Quantity := settled .time

def number : Reader Float32 := do
  match ← optional? (Calculation.call? .none) with
  | some (.number x) => return x
  | some _ => failure
  | none => bareNumber

def integer : Reader Int := do
  match ← token with
  | .number n => ofOption n.whole?
  | _ => failure

def integerText (n : Int) : Text := (toString n).toList

inductive Share where
  | number (x : Float32)
  | percentage (x : Float32)
  deriving Repr, BEq

namespace Share

def value : Share → Float32
  | .number x | .percentage x => x

def text : Share → Text
  | .number x => Number.text x
  | .percentage x => Number.percentage x

end Share

def share : Reader Share := (.number <$> number) <|> (.percentage <$> percentage)

namespace Calculation

def zero : Calculation := .value .zero

def half : Calculation := .value (.percentage 0.5)

end Calculation

end ComponentConverter.Stylesheet
