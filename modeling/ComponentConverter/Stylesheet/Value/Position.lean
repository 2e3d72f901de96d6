import ComponentConverter.Stylesheet.Value.Sides

namespace ComponentConverter.Stylesheet

open Reader

/-- One part of a place: the middle, a distance from the start, or a side with a distance from
it. The far side is the right or the lower one. -/
inductive Placement where
  | center
  | distance (value : Calculation)
  | side (isFar : Bool) (offset : Option Calculation)
  deriving Repr, BEq

structure Position where
  across : Placement
  down : Placement
  deriving Repr, BEq

namespace Placement

def isCenter : Placement → Bool
  | .center => true
  | .distance c => c == .half
  | .side _ _ => false

def isZero : Placement → Bool
  | .distance c => c.isZero
  | _ => false

def text (near far : String) : Placement → Text
  | .center => "center"
  | .distance c => c.valueText
  | .side isFar offset =>
    spaced ((if isFar then far else near).toList :: (offset.map Calculation.valueText).toList)

def distance? : Placement → Option Calculation
  | .center => some .half
  | .distance c => some (if c.isZero then .zero else c)
  | .side false offset => some ((offset.filter (!·.isZero)).getD .zero)
  | .side true _ => none

def sideDistance (isFar : Bool) : Calculation := if isFar then .value (.percentage 1) else .zero

def sideWord (near far : String) : Reader Bool := (do word near; return false) <|> (do word far; return true)

def read (near far : String) : Reader Placement :=
  (do word "center"; return .center) <|> (.distance <$> lengthPercentage) <|> do
    let isFar ← sideWord near far
    return .side isFar (← optional? lengthPercentage)

end Placement

namespace Position

open Placement

def acrossReader : Reader Placement := Placement.read "left" "right"

def downReader : Reader Placement := Placement.read "top" "bottom"

def acrossText : Placement → Text := Placement.text "left" "right"

def downText : Placement → Text := Placement.text "top" "bottom"

def readDownFirst : Reader Position := do
  let isFar ← sideWord "top" "bottom"
  let rest : Reader (Option Calculation × Placement) := do
    let offset ← optional? lengthPercentage
    let across : Reader Placement :=
      (do let isRight ← sideWord "left" "right"; return .side isRight (← optional? lengthPercentage)) <|>
        (do word "center"; return .center)
    return (offset, ← across)
  match ← optional? rest with
  | some (offset, across) => return ⟨across, .side isFar offset⟩
  | none => return ⟨.center, .side isFar none⟩

def read : Reader Position := do
  match ← optional? acrossReader with
  | some .center =>
    match ← optional? downReader with
    | some down => return ⟨.center, down⟩
    | none => return ⟨(← optional? acrossReader).getD .center, .center⟩
  | some (.distance c) =>
    match ← optional? (sideWord "top" "bottom") with
    | some isFar => return ⟨.distance c, .side isFar none⟩
    | none =>
      match ← optional? lengthPercentage with
      | some d => return ⟨.distance c, .distance d⟩
      | none =>
        let _ ← holds (word "center")
        return ⟨.distance c, .center⟩
  | some (.side isRight offset) =>
    if ← holds (word "center") then return ⟨.side isRight offset, .center⟩
    match ← optional? (sideWord "top" "bottom") with
    | some isFar => return ⟨.side isRight offset, .side isFar (← optional? lengthPercentage)⟩
    | none => return ⟨.side isRight none, (offset.map Placement.distance).getD .center⟩
  | none => readDownFirst

def center : Position := ⟨.center, .center⟩

def isCenter (p : Position) : Bool := p.across.isCenter && p.down.isCenter

def isZero (p : Position) : Bool := p.across.isZero && p.down.isZero

def plainText (p : Position) : Text :=
  match p.across.distance?, p.down.distance? with
  | some x, some y => spaced [x.valueText, y.valueText]
  | _, _ => spaced [acrossText p.across, downText p.down]

/-- The shortest text of a place: the middle is left out, and sides are distances. -/
def text (p : Position) : Text :=
  match p.across, p.down with
  | .side true (some c), .distance d =>
    spaced [acrossText (.side true (some c)), "top", d.valueText]
  | x, y =>
    if x.isCenter && y.isCenter then acrossText x
    else
      match x, y with
      | .side true (some c), y =>
        if y.isCenter then spaced [acrossText (.side true (some c)), "center"] else plainText p
      | .distance c, .side true (some d) =>
        spaced ["left", c.valueText, downText (.side true (some d))]
      | .distance c, y => if y.isCenter then c.valueText else plainText p
      | .side isFar none, y =>
        if y.isCenter then (sideDistance isFar).valueText
        else
          match y with
          | .side isLow none => spaced [(sideDistance isFar).valueText, (sideDistance isLow).valueText]
          | _ => plainText p
      | x, .side isLow none => if x.isCenter then downText (.side isLow none) else plainText p
      | _, _ => plainText p

end Position

end ComponentConverter.Stylesheet
