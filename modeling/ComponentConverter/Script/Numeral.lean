import ComponentConverter.Script.Escape

namespace ComponentConverter.Script

/-- What was read of a number: how long it is, whether it is a big integer, what it can be
understood in spite of, and what breaks it off. -/
structure Numeral where
  length : Nat
  isBig : Bool
  flaws : List Flaw
  fault : Option Flaw

def isDigitOf (base : Nat) (c : Char) : Bool := (hexValue? c).any (· < base)

def isNoGapNeighbour (base : Nat) (c : Char) : Bool :=
  if base == 16 then ['.', 'X', '_', 'x'].contains c
  else ['.', 'B', 'E', 'O', '_', 'b', 'e', 'o'].contains c

def readDigits (base : Nat) (before : Option Char) (read : Nat) : Text → Nat × List Flaw
  | [] => (0, [])
  | '_' :: t =>
    let next := t.head?
    let isFine := next.any (isDigitOf base) && !before.any (isNoGapNeighbour base) &&
      !next.any (isNoGapNeighbour base)
    let (length, flaws) := readDigits base before (read + 1) t
    (length + 1, if isFine then flaws else ⟨.numberGap, 0, read⟩ :: flaws)
  | c :: t =>
    if isDigitOf base c then
      let (length, flaws) := readDigits base (some c) (read + 1) t
      (length + 1, flaws)
    else (0, [])

def readSomeDigits (base : Nat) (t : Text) : Numeral :=
  let (length, flaws) := readDigits base none 0 t
  if (t.take length).any (isDigitOf base) then ⟨length, false, flaws, none⟩
  else ⟨length, false, flaws, some ⟨.digitExpected base, 0, length⟩⟩

def Numeral.andThen (n : Numeral) (t : Text) (next : Text → Numeral) : Numeral :=
  match n.fault with
  | some _ => n
  | none =>
    let more := next (t.drop n.length)
    ⟨n.length + more.length, more.isBig, n.flaws ++ more.flaws.map (·.move n.length),
      more.fault.map (·.move n.length)⟩

def Numeral.skip (length : Nat) : Numeral := ⟨length, false, [], none⟩

def noWord (t : Text) : Numeral :=
  ⟨0, false, [], if t.head?.any startsWord then some ⟨.nameAfterNumber, 0, 0⟩ else none⟩

def readExponent : Text → Numeral
  | e :: t =>
    if e == 'e' || e == 'E' then
      match t with
      | [] => ⟨1, false, [], some ⟨.exponentExpected, 1, 1⟩⟩
      | s :: _ =>
        (Numeral.skip (if s == '+' || s == '-' then 2 else 1)).andThen (e :: t) (readSomeDigits 10)
    else .skip 0
  | [] => .skip 0

def readFraction : Text → Numeral
  | '.' :: t =>
    let (length, flaws) := readDigits 10 none 0 t
    ⟨1 + length, false, flaws.map (·.move 1), none⟩
  | _ => .skip 0

def readPlaces (t : Text) : Numeral := ((readFraction t).andThen t readExponent).andThen t noWord

def readBased (base : Nat) (t : Text) : Numeral :=
  (readSomeDigits base t).andThen t fun rest =>
    if rest.head? == some 'n' then ⟨1, true, [], none⟩ else noWord rest

def readDecimal (t : Text) : Numeral :=
  match t with
  | '.' :: _ => readPlaces t
  | _ =>
    (readSomeDigits 10 t).andThen t fun rest =>
      if rest.head? == some 'n' then ⟨1, true, [], none⟩ else readPlaces rest

/-- Reads a number that starts with a zero and another digit. Once it was octal, unless a digit
tells otherwise. -/
def readLegacy (t : Text) : Numeral :=
  let (length, flaws) := readDigits 10 none 0 t
  if (t.take length).any fun c => c == '8' || c == '9' then
    (Numeral.mk length false (flaws ++ [⟨.legacyDecimal, 0, length⟩]) none).andThen t readPlaces
  else ⟨length, false, flaws ++ [⟨.legacyOctal, 0, length⟩], none⟩

def baseOf? (c : Char) : Option Nat :=
  if c == 'x' || c == 'X' then some 16
  else if c == 'o' || c == 'O' then some 8
  else if c == 'b' || c == 'B' then some 2
  else none

def readNumeral (t : Text) : Numeral :=
  match t with
  | '0' :: x :: _ =>
    match baseOf? x with
    | some base => (Numeral.skip 2).andThen t (readBased base)
    | none => if x.isDigit then readLegacy t else readDecimal t
  | _ => readDecimal t

end ComponentConverter.Script
