import ComponentConverter.Stylesheet.Numeral
import ComponentConverter.Text.Quoted

namespace ComponentConverter.Stylesheet

/-- A place in a text: lines are counted from zero, columns from one, in units of UTF-16. -/
structure Location where
  line : Nat
  column : Nat
  deriving Repr, DecidableEq

inductive Bracket where
  | round
  | square
  | curly
  deriving Repr, DecidableEq

inductive Comparison where
  | includes
  | dash
  | start
  | stop
  | contains
  deriving Repr, DecidableEq

inductive Token where
  | name (name : Text)
  | function (name : Text)
  | atKeyword (name : Text)
  | hash (name : Text) (isId : Bool)
  | string (value : Text)
  | brokenString (value : Text)
  | url (value : Text)
  | brokenUrl (value : Text)
  | mark (c : Char)
  | number (value : Numeral)
  | percentage (value : Numeral)
  | dimension (value : Numeral) (unit : Text)
  | space (text : Text)
  | comment (text : Text)
  | colon
  | semicolon
  | comma
  | compare (comparison : Comparison)
  | commentOpen
  | commentClose
  | opening (bracket : Bracket)
  | closing (bracket : Bracket)
  deriving Repr, DecidableEq

def isNewline (c : Char) : Bool := c == '\n' || c == '\r' || c == '\x0c'

def isGap (c : Char) : Bool := c == ' ' || c == '\t' || isNewline c

def isNameStart (c : Char) : Bool := c.isAlpha || c == '_' || c == '\x00' || 128 ≤ c.toNat

def isNamePart (c : Char) : Bool := isNameStart c || Numeral.isDigit c || c == '-'

namespace Location

def start : Location := ⟨0, 1⟩

def after : Location → Text → Location
  | p, [] => p
  | p, '\r' :: '\n' :: t => after ⟨p.line + 1, 1⟩ t
  | p, c :: t =>
    if isNewline c then after ⟨p.line + 1, 1⟩ t
    else after ⟨p.line, p.column + (if 0x10000 ≤ c.toNat then 2 else 1)⟩ t

end Location

def isEscape : Text → Bool
  | '\\' :: c :: _ => !isNewline c
  | ['\\'] => true
  | _ => false

def startsName : Text → Bool
  | '-' :: '-' :: _ => true
  | '-' :: t => isEscape t || (t.head?.map isNameStart).getD false
  | t => isEscape t || (t.head?.map isNameStart).getD false

def hexDigit? (c : Char) : Option Nat :=
  if '0' ≤ c && c ≤ '9' then some (c.toNat - 48)
  else if 'a' ≤ c && c ≤ 'f' then some (c.toNat - 87)
  else if 'A' ≤ c && c ≤ 'F' then some (c.toNat - 55)
  else none

/-- The character for a code; one that stands for no character is replaced. -/
def charOf (code : Nat) : Char :=
  let c := Char.ofNat code
  if c == '\x00' then '\ufffd' else c

def readEscape (t : Text) : Char × Text :=
  let digits := (t.take 6).takeWhile fun c => (hexDigit? c).isSome
  if digits.isEmpty then
    match t with
    | [] => ('\ufffd', [])
    | c :: rest => (if c == '\x00' then '\ufffd' else c, rest)
  else
    let code := digits.foldl (fun n c => n * 16 + (hexDigit? c).getD 0) 0
    let rest := match t.drop digits.length with
      | '\r' :: '\n' :: rest => rest
      | c :: rest => if isGap c then rest else c :: rest
      | [] => []
    (charOf code, rest)

def namePart? : Text → Option (Char × Text)
  | [] => none
  | c :: t =>
    if c == '\\' then if isEscape (c :: t) then some (readEscape t) else none
    else if isNamePart c then some (if c == '\x00' then '\ufffd' else c, t)
    else none

def readName (t : Text) : Text × Text := exhaust namePart? t.length t

/-- Reads a character of a string; an escaped line end counts for nothing. -/
def stringPart? (quote : Char) : Text → Option (Text × Text)
  | [] => none
  | c :: t =>
    if c == quote || isNewline c then none
    else if c == '\\' then
      match t with
      | [] => some ([], [])
      | '\r' :: '\n' :: rest => some ([], rest)
      | d :: rest =>
        if isNewline d then some ([], rest) else let (e, rest) := readEscape t; some ([e], rest)
    else some ([if c == '\x00' then '\ufffd' else c], t)

def readString (quote : Char) (t : Text) : Token × Text :=
  let (parts, rest) := exhaust (stringPart? quote) t.length t
  match rest with
  | c :: after => if c == quote then (.string parts.flatten, after) else (.brokenString parts.flatten, rest)
  | [] => (.string parts.flatten, [])

def urlPart? : Text → Option (Char × Text)
  | [] => none
  | c :: t =>
    if isGap c || c == ')' || c == '"' || c == '\'' || c == '(' then none
    else if c == '\x00' then some ('\ufffd', t)
    else if c.toNat ≤ 8 || c.toNat == 11 || (14 ≤ c.toNat && c.toNat ≤ 31) || c.toNat == 127 then none
    else if c == '\\' then if isEscape (c :: t) then some (readEscape t) else none
    else some (c, t)

def skipUrl : Text → Text × Text
  | [] => ([], [])
  | ')' :: t => ([], t)
  | '\\' :: ')' :: t => let (inside, rest) := skipUrl t; ('\\' :: ')' :: inside, rest)
  | '\\' :: '\\' :: t => let (inside, rest) := skipUrl t; ('\\' :: '\\' :: inside, rest)
  | c :: t => let (inside, rest) := skipUrl t; (c :: inside, rest)

def readUrl (name t : Text) : Token × Text :=
  let inside := t.dropWhile isGap
  match inside with
  | '"' :: _ | '\'' :: _ => (.function name, t)
  | _ =>
    let (value, rest) := exhaust urlPart? inside.length inside
    match rest.dropWhile isGap with
    | [] => (.url value, [])
    | ')' :: after => (.url value, after)
    | _ => let (inside, after) := skipUrl inside; (.brokenUrl inside, after)

def readNumber (t : Text) : Token × Text :=
  let (value, rest) := Numeral.read t
  match rest with
  | '%' :: after => (.percentage value, after)
  | _ =>
    if startsName rest then let (unit, after) := readName rest; (.dimension value unit, after)
    else (.number value, rest)

def readNamed (t : Text) : Token × Text :=
  let (name, rest) := readName t
  match rest with
  | '(' :: after =>
    if sameLetters name "url" then readUrl name after else (.function name, after)
  | _ => (.name name, rest)

def readToken? : Text → Option (Token × Text)
  | [] => none
  | '/' :: '*' :: t =>
    match breakOn? ['*', '/'] t with
    | some (body, rest) => some (.comment body, rest)
    | none => some (.comment t, [])
  | '<' :: '!' :: '-' :: '-' :: t => some (.commentOpen, t)
  | '-' :: '-' :: '>' :: t => some (.commentClose, t)
  | '~' :: '=' :: t => some (.compare .includes, t)
  | '|' :: '=' :: t => some (.compare .dash, t)
  | '^' :: '=' :: t => some (.compare .start, t)
  | '$' :: '=' :: t => some (.compare .stop, t)
  | '*' :: '=' :: t => some (.compare .contains, t)
  | c :: t =>
    match c with
    | '"' | '\'' => some (readString c t)
    | ':' => some (.colon, t)
    | ';' => some (.semicolon, t)
    | ',' => some (.comma, t)
    | '(' => some (.opening .round, t)
    | '[' => some (.opening .square, t)
    | '\x7b' => some (.opening .curly, t)
    | ')' => some (.closing .round, t)
    | ']' => some (.closing .square, t)
    | '\x7d' => some (.closing .curly, t)
    | _ =>
      if isGap c then some (.space (c :: t.takeWhile isGap), t.dropWhile isGap)
      else if Numeral.startsAt (c :: t) then some (readNumber (c :: t))
      else if c == '#' && (isEscape t || (t.head?.map isNamePart).getD false) then
        let (name, rest) := readName t
        some (.hash name (startsName t), rest)
      else if c == '@' && startsName t then
        let (name, rest) := readName t
        some (.atKeyword name, rest)
      else if startsName (c :: t) then some (readNamed (c :: t))
      else some (.mark c, t)

structure Placed where
  token : Token
  start : Location
  stop : Location
  source : Text
  deriving Repr

def readPlaced? : Text × Location → Option (Placed × (Text × Location))
  | (t, p) =>
    (readToken? t).map fun (token, rest) =>
      let source := t.take (t.length - rest.length)
      let stop := p.after source
      (⟨token, p, stop, source⟩, (rest, stop))

def tokens (t : Text) : List Placed × Location :=
  let (placed, last) := exhaust readPlaced? t.length (t, .start)
  (placed, last.2)

def hexEscape (c : Char) : Text := ['\\'] ++ Nat.toDigits 16 c.toNat ++ [' ']

def isControl (c : Char) : Bool := c.toNat < 32 || c.toNat == 127

def nameText (name : Text) : Text :=
  name.flatMap fun c =>
    if c == '\x00' then ['\ufffd']
    else if isControl c then hexEscape c
    else if isNamePart c then [c]
    else ['\\', c]

def identifierText : Text → Text
  | [] => []
  | ['-'] => ['\\', '-']
  | '-' :: '-' :: t => ['-', '-'] ++ nameText t
  | '-' :: c :: t =>
    if Numeral.isDigit c then '-' :: hexEscape c ++ nameText t else '-' :: nameText (c :: t)
  | c :: t => if Numeral.isDigit c then hexEscape c ++ nameText t else nameText (c :: t)

def stringText (value : Text) : Text :=
  ['"'] ++ (value.flatMap fun c =>
    if c == '"' then "\\\""
    else if c == '\\' then "\\\\"
    else if c == '\x00' then ['\ufffd']
    else if isControl c then hexEscape c
    else [c]) ++ ['"']

def urlText (value : Text) : Text := "url(" ++ stringText value ++ [')']

def Bracket.opener : Bracket → Char
  | .round => '('
  | .square => '['
  | .curly => '\x7b'

def Bracket.closer : Bracket → Char
  | .round => ')'
  | .square => ']'
  | .curly => '\x7d'

def Comparison.text : Comparison → Text
  | .includes => "~="
  | .dash => "|="
  | .start => "^="
  | .stop => "$="
  | .contains => "*="

def unitText (unit : Text) : Text :=
  match unit with
  | [c] => if c == 'e' || c == 'E' then "\\65 " else identifierText unit
  | c :: '-' :: t => if c == 'e' || c == 'E' then "\\65 -" ++ nameText t else identifierText unit
  | _ => identifierText unit

namespace Token

def text : Token → Text
  | .name n => identifierText n
  | .function n => identifierText n ++ ['(']
  | .atKeyword n => '@' :: identifierText n
  | .hash n isId => '#' :: (if isId then identifierText n else nameText n)
  | .string v | .brokenString v => stringText v
  | .url v | .brokenUrl v => urlText v
  | .mark c => [c]
  | .number v => v.written v.value
  | .percentage v => v.written (v.share * 100) ++ ['%']
  | .dimension v unit => v.written v.value ++ unitText unit
  | .space t => t
  | .comment t => "/*" ++ t ++ "*/"
  | .colon => [':']
  | .semicolon => [';']
  | .comma => [',']
  | .compare c => c.text
  | .commentOpen => "<!--"
  | .commentClose => "-->"
  | .opening b => [b.opener]
  | .closing b => [b.closer]

def shownNumber (n : Numeral) (field : String) (x : Float32) : String :=
  let whole := match n.whole? with
    | some k => "Some(" ++ toString k ++ ")"
    | none => "None"
  "has_sign: " ++ (if n.hasSign then "true" else "false") ++ ", " ++ field ++ ": " ++
    String.ofList (Number.shown x) ++ ", int_value: " ++ whole

def describe : Token → String
  | .name n => "Ident(" ++ quotedText n ++ ")"
  | .function n => "Function(" ++ quotedText n ++ ")"
  | .atKeyword n => "AtKeyword(" ++ quotedText n ++ ")"
  | .hash n true => "IDHash(" ++ quotedText n ++ ")"
  | .hash n false => "Hash(" ++ quotedText n ++ ")"
  | .string v => "String(" ++ quotedText v ++ ")"
  | .brokenString v => "BadString(" ++ quotedText v ++ ")"
  | .url v => "UnquotedUrl(" ++ quotedText v ++ ")"
  | .brokenUrl v => "BadUrl(" ++ quotedText v ++ ")"
  | .mark c => "Delim(" ++ quotedChar c ++ ")"
  | .number v => "Number \x7b " ++ shownNumber v "value" v.value ++ " \x7d"
  | .percentage v => "Percentage \x7b " ++ shownNumber v "unit_value" v.share ++ " \x7d"
  | .dimension v unit =>
    "Dimension \x7b " ++ shownNumber v "value" v.value ++ ", unit: " ++ quotedText unit ++ " \x7d"
  | .space t => "WhiteSpace(" ++ quotedText t ++ ")"
  | .comment t => "Comment(" ++ quotedText t ++ ")"
  | .colon => "Colon"
  | .semicolon => "Semicolon"
  | .comma => "Comma"
  | .compare .includes => "IncludeMatch"
  | .compare .dash => "DashMatch"
  | .compare .start => "PrefixMatch"
  | .compare .stop => "SuffixMatch"
  | .compare .contains => "SubstringMatch"
  | .commentOpen => "CDO"
  | .commentClose => "CDC"
  | .opening .round => "ParenthesisBlock"
  | .opening .square => "SquareBracketBlock"
  | .opening .curly => "CurlyBracketBlock"
  | .closing .round => "CloseParenthesis"
  | .closing .square => "CloseSquareBracket"
  | .closing .curly => "CloseCurlyBracket"

def isBlank : Token → Bool
  | .space _ | .comment _ => true
  | _ => false

def isBroken : Token → Bool
  | .brokenString _ | .brokenUrl _ | .closing _ => true
  | _ => false

end Token

end ComponentConverter.Stylesheet
