import ComponentConverter.Stylesheet.Property.Background
import ComponentConverter.Stylesheet.Property.Border
import ComponentConverter.Stylesheet.Property.Box
import ComponentConverter.Stylesheet.Property.Effect
import ComponentConverter.Stylesheet.Property.Font
import ComponentConverter.Stylesheet.Property.Interface
import ComponentConverter.Stylesheet.Property.Layout
import ComponentConverter.Stylesheet.Property.Motion
import ComponentConverter.Stylesheet.Property.Transform
import ComponentConverter.Stylesheet.Property.Writing

namespace ComponentConverter.Stylesheet

structure Declaration where
  name : Text
  value : Text
  isImportant : Bool
  deriving Repr

def Declaration.text (d : Declaration) : Text :=
  d.name ++ ": " ++ d.value ++ (if d.isImportant then " !important;" else ";").toList

def propertyReaders (column : Nat) : List (String × Reader Text) :=
  backgroundReaders ++ borderReaders ++ boxReaders ++ layoutReaders ++ gridReaders column ++ fontReaders ++
    writingReaders ++ motionReaders ++ transformReaders ++ effectReaders ++ interfaceReaders

def typedValue? (column : Nat) (name : Text) (ps : List Piece) : Option Text := do
  let (maker, rest) ← knownName? name
  let readers := propertyReaders column
  let (_, r) ← (readers.find? (·.1.toList == maker ++ rest)).or (readers.find? (·.1.toList == rest))
  Reader.run? r ps

def everyWords : List String := ["initial", "inherit", "unset", "revert", "revert-layer"]

def everyWord (stop : Location) (ps : List Piece) : Except Fault Text := do
  match dropBlank ps with
  | [] => throw ⟨.endOfInput, stop⟩
  | p :: rest =>
    match (p.name?.map (·.map Char.toLower)).filter fun n => everyWords.any (·.toList == n) with
    | some n =>
      expectEnd stop rest
      return n
    | none => throw ⟨.unexpectedToken p.head, placeOf stop ps⟩

/-- Reads what stands after the name of a property: a colon, a value, and a mark of
importance. The declaration is written at a given depth. -/
def declaration (depth : Nat) (name : Text) (stop : Location) (ps : List Piece) : Except Fault Declaration := do
  match dropBlank ps with
  | [] => throw ⟨.endOfInput, stop⟩
  | p :: rest =>
    unless p.is .colon do throw ⟨.unexpectedToken p.head, placeOf stop ps⟩
    let shown := propertyName name
    let isValue (p : Piece) : Bool := !p.is (.mark '!') && (isCustomName name || p.block?.isNone)
    let value := rest.takeWhile isValue
    let after := rest.dropWhile isValue
    let column := 2 * depth + shown.length + 2
    let text ←
      if sameLetters name "all" then everyWord (placeOf stop after) value
      else
        match typedValue? column name value with
        | some t => pure t
        | none => rawText (placeOf stop after) value
    let (isImportant, after) :=
      match after with
      | mark :: following =>
        if mark.is (.mark '!') then
          match dropBlank following with
          | w :: end_ =>
            if (w.name?.map (sameLetters "important")).getD false then (true, end_) else (false, after)
          | [] => (false, after)
        else (false, after)
      | [] => (false, after)
    expectEnd stop after
    return ⟨shown, text, isImportant⟩

end ComponentConverter.Stylesheet
