import ComponentConverter.Text.Basic

namespace ComponentConverter

structure Span where
  start : Nat
  stop : Nat
  deriving Repr, DecidableEq, Inhabited

namespace Span

/-- The greatest offset that fits in a place. None is cut off to it here: the places of a source of up to this size do
not go beyond. -/
def limit : Nat := 4294967295

def point (offset : Nat) : Span := ⟨offset, offset⟩

def clamped (start stop : Nat) : Span := ⟨min start limit, min stop limit⟩

def isEmpty (s : Span) : Bool := s.start == s.stop

def length? (s : Span) : Option Nat := if s.start ≤ s.stop then some (s.stop - s.start) else none

def range? (s : Span) : Option Span := if s.start ≤ s.stop then some s else none

def move (s : Span) (base : Nat) : Span := ⟨s.start + base, s.stop + base⟩

def move? (s : Span) (base : Nat) : Option Span :=
  let t := s.move base
  if t.start ≤ limit && t.stop ≤ limit then some t else none

def Within (s t : Span) : Prop := t.start ≤ s.start ∧ s.stop ≤ t.stop

instance (s t : Span) : Decidable (s.Within t) := inferInstanceAs (Decidable (_ ∧ _))

def cover (s t : Span) : Span := ⟨min s.start t.start, max s.stop t.stop⟩

/-- The part of a text that a span covers, if both ends lie between characters of it. -/
def slice? (s : Span) (t : Text) : Option Text :=
  if s.start ≤ s.stop then
    match splitBytes? s.start t with
    | some (_, rest) => (splitBytes? (s.stop - s.start) rest).map Prod.fst
    | none => none
  else none

def slice (s : Span) (t : Text) : Text := (s.slice? t).getD []

end Span

end ComponentConverter
