import ComponentConverter.Script.Issue
import ComponentConverter.Script.Letter

namespace ComponentConverter.Script

def isLineEnd (c : Char) : Bool := c == '\n' || c == '\r' || c == '\u2028' || c == '\u2029'

def hexValue? (c : Char) : Option Nat :=
  let n := c.toNat
  if '0' ≤ c && c ≤ '9' then some (n - 48)
  else if 'a' ≤ c && c ≤ 'f' then some (n - 87)
  else if 'A' ≤ c && c ≤ 'F' then some (n - 55)
  else none

def isHex (c : Char) : Bool := (hexValue? c).isSome

def isOctal (c : Char) : Bool := '0' ≤ c && c ≤ '7'

def numberOf (base : Nat) (digits : Text) : Nat := digits.foldl (fun n c => base * n + (hexValue? c).getD 0) 0

/-- An escape: the codes it stands for, and how many characters it takes with its backslash. A
faulty one was read up to its fault. An old octal one is understood all the same. -/
structure Escape where
  codes : List Nat
  length : Nat
  fault : Option Cause := none
  isOctal : Bool := false

def Escape.faulty (cause : Cause) (length : Nat) : Escape := ⟨[], length, some cause, false⟩

def readCodePoint : Text → Escape
  | '{' :: t =>
    let digits := t.takeWhile isHex
    let code := numberOf 16 digits
    let length := 3 + digits.length
    if digits.isEmpty then .faulty (.malformedEscape "1-6 hex characters") length
    else if 0x10FFFF < code then
      .faulty (.malformedEscape "1-6 hex characters in the range 0 to 10FFFF.") length
    else if (t.drop digits.length).head? == some '}' then ⟨[code], length + 1, none, false⟩
    else .faulty .unclosedEscape length
  | t =>
    let digits := (t.take 4).takeWhile isHex
    if digits.length == 4 then ⟨[numberOf 16 digits], 6, none, false⟩
    else .faulty (.malformedEscape "4 hex characters") (2 + digits.length)

def plainEscape : Char → Char
  | 'n' => '\n'
  | 't' => '\t'
  | 'r' => '\r'
  | 'b' => '\x08'
  | 'v' => '\x0b'
  | 'f' => '\x0c'
  | c => c

/-- Reads an octal escape after its backslash. At most three digits count, and no more than fit
into a byte. -/
def readOctal (t : Text) : Escape :=
  let digits := (t.take 3).takeWhile isOctal
  let digits := if numberOf 8 digits < 256 then digits else digits.take 2
  ⟨[numberOf 8 digits], 1 + digits.length, none, true⟩

def readEscape (inTemplate : Bool) : Text → Escape
  | [] => .faulty .stringEscape 1
  | '\r' :: '\n' :: _ => ⟨[], 3, none, false⟩
  | 'x' :: t =>
    let digits := (t.take 2).takeWhile isHex
    if digits.length == 2 then ⟨[numberOf 16 digits], 4, none, false⟩
    else .faulty (.malformedEscape "2 hex characters") (2 + digits.length)
  | 'u' :: t => readCodePoint t
  | c :: t =>
    if isLineEnd c then ⟨[], 2, none, false⟩
    else if isOctal c then
      if c == '0' && !(t.head?.any isOctal) then ⟨[0], 2, none, false⟩
      else if inTemplate then .faulty .legacyOctal 2
      else readOctal (c :: t)
    else ⟨[(plainEscape c).toNat], 2, none, false⟩

/-- The text that codes stand for. Two surrogates make one character; one alone makes none. -/
def ofCodes? : List Nat → Option Text
  | [] => some []
  | [n] => if 0xD800 ≤ n && n ≤ 0xDFFF then none else some [Char.ofNat n]
  | n :: m :: r =>
    if 0xD800 ≤ n && n ≤ 0xDBFF && 0xDC00 ≤ m && m ≤ 0xDFFF then
      (ofCodes? r).map (Char.ofNat (0x10000 + (n - 0xD800) * 0x400 + (m - 0xDC00)) :: ·)
    else if 0xD800 ≤ n && n ≤ 0xDFFF then none
    else (ofCodes? (m :: r)).map (Char.ofNat n :: ·)

/-- Something wrong in a stretch of text, with its place in characters from the start. -/
structure Flaw where
  cause : Cause
  start : Nat
  stop : Nat

def Flaw.move (f : Flaw) (n : Nat) : Flaw := { f with start := f.start + n, stop := f.stop + n }

/-- The flaw as an issue of a text whose first character is at the offset `pos`. -/
def Flaw.issue (f : Flaw) (t : Text) (pos : Nat) : Issue :=
  ⟨f.cause, ⟨pos + bytes (t.take f.start), pos + bytes (t.take f.stop)⟩⟩

/-- What was read of a string: the codes it stands for, how long it is, whether its quote closes
it, what it can be understood in spite of, and what breaks it off. -/
structure Body where
  codes : List Nat
  length : Nat
  isClosed : Bool
  flaws : List Flaw
  fault : Option Flaw

def Body.after (b : Body) (codes : List Nat) (length : Nat) : Body :=
  ⟨codes ++ b.codes, b.length + length, b.isClosed, b.flaws.map (·.move length), b.fault.map (·.move length)⟩

def readBody (quote : Char) : Nat → Text → Body
  | 0, _ => ⟨[], 0, false, [], none⟩
  | _ + 1, [] => ⟨[], 0, false, [], none⟩
  | fuel + 1, '\\' :: t =>
    let escape := readEscape false t
    match escape.fault with
    | some cause =>
      let stop := if cause == .stringEscape then 0 else escape.length
      ⟨[], escape.length, false, [], some ⟨cause, 0, stop⟩⟩
    | none =>
      let more := (readBody quote fuel (t.drop (escape.length - 1))).after escape.codes escape.length
      if escape.isOctal then { more with flaws := ⟨.legacyOctal, 0, 2⟩ :: more.flaws } else more
  | fuel + 1, c :: t =>
    if c == quote then ⟨[], 1, true, [], none⟩
    else if c == '\n' || c == '\r' then ⟨[], 0, false, [], none⟩
    else (readBody quote fuel t).after [c.toNat] 1

/-- A part of a template: how long it is with the mark that ends it, whether that mark ends the
whole template, and what is wrong with the last faulty escape in it. -/
structure Chunk where
  length : Nat
  isLast : Bool
  fault : Option Flaw

/-- Reads a template up to its end or to the next `${`. A template without an end has no part. -/
def readChunk : Nat → Text → Option Chunk
  | 0, _ => none
  | _ + 1, [] => none
  | _ + 1, '\x60' :: _ => some ⟨1, true, none⟩
  | _ + 1, '$' :: '{' :: _ => some ⟨2, false, none⟩
  | fuel + 1, '\\' :: t =>
    let escape := readEscape true t
    (readChunk fuel (t.drop (escape.length - 1))).map fun chunk =>
      let own := escape.fault.map (Flaw.mk · 0 escape.length)
      ⟨chunk.length + escape.length, chunk.isLast, (chunk.fault.map (·.move escape.length)).or own⟩
  | fuel + 1, _ :: t =>
    (readChunk fuel t).map fun chunk =>
      ⟨chunk.length + 1, chunk.isLast, chunk.fault.map (·.move 1)⟩

structure Word where
  name : Text
  length : Nat
  isEscaped : Bool
  flaws : List Flaw
  fault : Option Flaw

def Word.after (w : Word) (c : Char) (length : Nat) (isEscaped : Bool) : Word :=
  ⟨c :: w.name, w.length + length, w.isEscaped || isEscaped, w.flaws.map (·.move length), w.fault.map (·.move length)⟩

/-- Reads a word whose first character has to be `allowed`. An escape may stand for any
character, which is then told. -/
def readWord (allowed : Char → Bool) : Nat → Text → Word
  | 0, _ => ⟨[], 0, false, [], none⟩
  | _ + 1, [] => ⟨[], 0, false, [], none⟩
  | fuel + 1, '\\' :: 'u' :: t =>
    let escape := readCodePoint t
    match escape.fault with
    | some cause =>
      ⟨[], escape.length, true, [], some ⟨cause, escape.length, escape.length⟩⟩
    | none =>
      let c := Char.ofNat (escape.codes.headD 0)
      let more := (readWord continuesWord fuel (t.drop (escape.length - 2))).after c escape.length true
      if allowed c then more
      else { more with flaws := ⟨.nameCharacter, 0, escape.length⟩ :: more.flaws }
  | _ + 1, '\\' :: _ => ⟨[], 1, true, [], some ⟨.escapeExpected, 0, 0⟩⟩
  | fuel + 1, c :: t =>
    if allowed c then (readWord continuesWord fuel t).after c 1 false
    else ⟨[], 0, false, [], none⟩

end ComponentConverter.Script
