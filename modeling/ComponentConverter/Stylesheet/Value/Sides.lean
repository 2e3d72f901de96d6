import ComponentConverter.Stylesheet.Value.Calculation

namespace ComponentConverter.Stylesheet

open Reader

structure Sides (α : Type) where
  top : α
  right : α
  bottom : α
  left : α
  deriving Repr, BEq

namespace Sides

variable {α : Type}

def read (r : Reader α) : Reader (Sides α) := do
  let top ← r
  let some right ← optional? r | return ⟨top, top, top, top⟩
  let some bottom ← optional? r | return ⟨top, right, top, right⟩
  let some left ← optional? r | return ⟨top, right, bottom, right⟩
  return ⟨top, right, bottom, left⟩

def text [BEq α] (shown : α → Text) (s : Sides α) : Text :=
  let hasLeft := s.right != s.left
  let hasBottom := hasLeft || s.top != s.bottom
  let hasRight := hasBottom || s.top != s.right
  spaced (shown s.top :: (if hasRight then [shown s.right] else []) ++
    (if hasBottom then [shown s.bottom] else []) ++ (if hasLeft then [shown s.left] else []))

end Sides

structure Pair (α : Type) where
  first : α
  second : α
  deriving Repr, BEq

namespace Pair

variable {α : Type}

def read (r : Reader α) : Reader (Pair α) := do
  let a ← r
  return ⟨a, (← optional? r).getD a⟩

def text [BEq α] (shown : α → Text) (p : Pair α) : Text :=
  shown p.first ++ (if p.first == p.second then [] else ' ' :: shown p.second)

end Pair

structure Corners where
  across : Sides Calculation
  down : Sides Calculation
  deriving Repr, BEq

namespace Corners

def read : Reader Corners := do
  let across ← Sides.read lengthPercentage
  if ← holds slash then return ⟨across, ← Sides.read lengthPercentage⟩
  return ⟨across, across⟩

def text (c : Corners) : Text :=
  c.across.text Calculation.valueText ++
    (if c.across == c.down then [] else " / ".toList ++ c.down.text Calculation.valueText)

def none : Corners :=
  let zero : Sides Calculation := ⟨.zero, .zero, .zero, .zero⟩
  ⟨zero, zero⟩

end Corners

inductive Extent where
  | word (word : Text)
  | measure (value : Calculation)
  deriving Repr, BEq

namespace Extent

def read (words : String) (r : Reader Calculation) : Reader Extent := (.word <$> oneOf words) <|> (.measure <$> r)

def text : Extent → Text
  | .word w => w
  | .measure c => c.valueText

def auto : Extent := .word "auto"

end Extent

def lengthPercentageOrAuto : Reader Extent := Extent.read "auto" lengthPercentage

end ComponentConverter.Stylesheet
