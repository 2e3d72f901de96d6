import ComponentConverter.Stylesheet.Condition
import ComponentConverter.Stylesheet.Property.Box
import ComponentConverter.Stylesheet.Value.Image

namespace ComponentConverter.Stylesheet

inductive FeatureType where
  | length
  | ratio
  | resolution
  | number
  | integer
  | boolean
  | word
  | unknown
  deriving Repr, DecidableEq

namespace FeatureType

def isOrdered : FeatureType → Bool
  | .boolean | .word => false
  | _ => true

def expected : FeatureType → Reader Text
  | .length => Calculation.valueText <$> Stylesheet.length
  | .ratio => Box.ratio
  | .resolution => Stylesheet.resolution
  | .number => Number.text <$> Stylesheet.number
  | .integer => integerText <$> Stylesheet.integer
  | .boolean => do
    let n ← Stylesheet.integer
    guard (n == 0 || n == 1)
    return integerText n
  | .word => identifierText <$> Reader.name
  | .unknown => failure

def surrounding : Reader Text := do
  let p ← Reader.next
  guard ((p.function?.map fun f => f.1 == "env".toList).getD false)
  match rawText p.stop [p] with
  | .ok t => return t
  | .error _ => failure

def any : Reader (FeatureType × Text) :=
  let strictRatio : Reader Text := do
    let a ← Stylesheet.number
    Reader.slash
    let b ← Stylesheet.number
    return Number.text a ++ (if b == 1 then [] else " / ".toList ++ Number.text b)
  ((FeatureType.ratio, ·) <$> strictRatio) <|> ((FeatureType.number, ·) <$> FeatureType.number.expected) <|>
    ((FeatureType.length, ·) <$> FeatureType.length.expected) <|>
    ((FeatureType.resolution, ·) <$> FeatureType.resolution.expected) <|>
    ((FeatureType.unknown, ·) <$> surrounding)

end FeatureType

inductive Bound where
  | equal
  | greater
  | greaterEqual
  | less
  | lessEqual
  deriving Repr, DecidableEq

namespace Bound

def opposite : Bound → Bound
  | .equal => .equal
  | .greater => .less
  | .greaterEqual => .lessEqual
  | .less => .greater
  | .lessEqual => .greaterEqual

def text : Bound → Text
  | .equal => " = "
  | .greater => " > "
  | .greaterEqual => " >= "
  | .less => " < "
  | .lessEqual => " <= "

def agree : Bound → Bound → Bool
  | .greater, b | .greaterEqual, b => b == .greater || b == .greaterEqual
  | .less, b | .lessEqual, b => b == .less || b == .lessEqual
  | .equal, _ => false

end Bound

structure FeatureName where
  text : Text
  type : FeatureType
  bound : Option Bound

namespace Feature

open Strict

abbrev Table := List (String × FeatureType)

def nameOf (known : Table) (n : Text) : FeatureName :=
  if "--".toList.isPrefixOf n then ⟨identifierText n, .unknown, none⟩
  else
    let lowered := n.map Char.toLower
    let webkit := "-webkit-".toList
    let (maker, rest) := match after? webkit lowered with
      | some rest => (webkit, rest)
      | none => ([], lowered)
    let (bound, rest) :=
      match after? "min-" rest, after? "max-" rest with
      | some r, _ => (some Bound.greaterEqual, r)
      | none, some r => (some Bound.lessEqual, r)
      | none, none => (none, rest)
    match known.find? (·.1.toList == maker ++ rest) with
    | some (_, type) => ⟨maker ++ rest, type, bound⟩
    | none => ⟨identifierText n, .unknown, none⟩

def featureName (known : Table) : Strict FeatureName := nameOf known <$> name

def sign (allowsColon : Bool) : Strict (Option Bound) := do
  let start ← place
  let p ← next
  let orEqual (plain strict : Bound) : Strict (Option Bound) := do
    if (← attempt (mark (.mark '='))).isSome then return some plain else return some strict
  match p.head with
  | .colon => if allowsColon then return none else failAt (.unexpectedToken p.head) start
  | .mark '=' => return some .equal
  | .mark '>' => orEqual .greaterEqual .greater
  | .mark '<' => orEqual .lessEqual .less
  | t => failAt (.unexpectedToken t) start

def valueFor (type : FeatureType) : Strict (FeatureType × Text) := do
  match ← attempt (value type.expected) with
  | some t => return (type, t)
  | none =>
    match ← attempt (value FeatureType.any) with
    | some v => return v
    | none => return (.word, identifierText (← name))

def fits (expected found : FeatureType) : Bool := expected == .unknown || found == .unknown || expected == found

def bracketText (t : Text) : Text := ['('] ++ t ++ [')']

def nameFirst (known : Table) : Strict Text := do
  let n ← featureName known
  match ← attempt (sign true) with
  | none => return bracketText n.text
  | some bound =>
    if bound.isSome && n.bound.isSome then fail .invalidMediaQuery
    let (type, t) ← valueFor n.type
    unless fits n.type type do fail .invalidMediaQuery
    match bound.orElse fun _ => n.bound with
    | some b =>
      unless n.type.isOrdered do fail .invalidMediaQuery
      return bracketText (n.text ++ b.text ++ t)
    | none => return bracketText (n.text ++ ": " ++ t)

def findName (known : Table) : Nat → Strict FeatureName
  | 0 => fail .invalidMediaQuery
  | fuel + 1 => do
    if ← isDone then
      skipBlank
      fail .invalidMediaQuery
    let p ← next
    match p.name? with
    | some n =>
      let n := nameOf known n
      if n.bound.isSome then fail .invalidMediaQuery
      return n
    | none => findName known fuel

def valueFirst (known : Table) : Strict Text := do
  let start ← get
  let n ← findName known (start.length + 1)
  set start
  let (type, t) ← valueFor n.type
  let first ← sign false
  let _ ← featureName known
  unless n.type.isOrdered && fits n.type type do fail .invalidMediaQuery
  let first := first.getD .equal
  match ← attempt (sign false) with
  | some last =>
    let last := last.getD .equal
    unless first.agree last do fail .invalidMediaQuery
    let (type, u) ← valueFor n.type
    unless fits n.type type do fail .invalidMediaQuery
    return bracketText (t ++ first.text ++ n.text ++ last.text ++ u)
  | none => return bracketText (n.text ++ first.opposite.text ++ t)

def read (known : Table) : Strict Condition := do
  let start ← get
  let text ← tryCatch (nameFirst known) fun fault =>
    if fault.cause == .invalidMediaQuery then throw fault
    else do
      set start
      valueFirst known
  return .feature text

end Feature

end ComponentConverter.Stylesheet
