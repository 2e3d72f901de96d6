import ComponentConverter.Script.Numeral

namespace ComponentConverter.Script

inductive Kind where
  | word (name : String) (isEscaped : Bool)
  | number
  | bigint
  | string (value : Option Text)
  | template (isWhole : Bool) (fault : Option Issue)
  | mark
  | broken (issue : Issue)
  | endOfFile
  deriving Repr, DecidableEq

/-- A token; `newline` tells whether a line ends between it and the token before. -/
structure Token where
  kind : Kind
  lexeme : String
  start : Nat
  stop : Nat
  newline : Bool
  deriving Repr, DecidableEq

def Token.span (t : Token) : Span := ⟨t.start, t.stop⟩

/-- White space within a line. A byte order mark and a space without width count as such. -/
def isInlineSpace (c : Char) : Bool := (isSpace c && !isLineEnd c) || c == '\ufeff' || c == '\u200b'

/-- What stands in front of a token: the text after it, where that starts, and whether a line
ends in it. -/
structure Gap where
  rest : Text
  pos : Nat
  newline : Bool
  issues : List Issue

def skipBlank : Nat → Text → Nat → Bool → Gap
  | 0, t, pos, newline => ⟨t, pos, newline, []⟩
  | _ + 1, [], pos, newline => ⟨[], pos, newline, []⟩
  | fuel + 1, '/' :: '/' :: t, pos, newline =>
    let line := t.takeWhile (!isLineEnd ·)
    skipBlank fuel (t.drop line.length) (pos + 2 + bytes line) newline
  | fuel + 1, '/' :: '*' :: t, pos, newline =>
    match breakOn? ['*', '/'] t with
    | some (body, rest) =>
      skipBlank fuel rest (pos + 4 + bytes body) (newline || body.any isLineEnd)
    | none =>
      let stop := pos + 2 + bytes t
      ⟨[], stop, newline || t.any isLineEnd, [⟨.unterminatedComment, .point stop⟩]⟩
  | fuel + 1, c :: t, pos, newline =>
    if isLineEnd c then skipBlank fuel t (pos + c.utf8Size) true
    else if isInlineSpace c then skipBlank fuel t (pos + c.utf8Size) newline
    else ⟨c :: t, pos, newline, []⟩

def skipLine (t : Text) (pos : Nat) (newline : Bool) : Gap :=
  let line := t.takeWhile (!isLineEnd ·)
  skipBlank (t.length + 1) (t.drop line.length) (pos + bytes line) newline

/-- Skips all that separates tokens. Comments of the old kind, which start with `<!--` anywhere
and with `-->` at the start of a line, are skipped and told. -/
def skipGap : Nat → Text → Nat → Bool → Gap
  | 0, t, pos, newline => ⟨t, pos, newline, []⟩
  | fuel + 1, t, pos, newline =>
    let gap := skipBlank (t.length + 1) t pos newline
    match gap.rest, gap.newline with
    | '<' :: '!' :: '-' :: '-' :: r, _ =>
      let line := skipLine r (gap.pos + 4) gap.newline
      let rest := skipGap fuel line.rest line.pos line.newline
      let own : Issue := ⟨.legacyComment, ⟨gap.pos, line.pos⟩⟩
      { rest with issues := gap.issues ++ line.issues ++ own :: rest.issues }
    | '-' :: '-' :: '>' :: r, true =>
      let line := skipLine r (gap.pos + 3) true
      let rest := skipGap fuel line.rest line.pos line.newline
      let own : Issue := ⟨.legacyComment, ⟨gap.pos, gap.pos + 3⟩⟩
      { rest with issues := gap.issues ++ own :: line.issues ++ rest.issues }
    | _, _ => gap

def longMarks : List String :=
  [">>>=", "...", "===", "!==", "**=", "<<=", ">>=", ">>>", "&&=", "||=", "??=", "=>", "==",
    "!=", "<=", ">=", "++", "--", "**", "&&", "||", "??", "?.", "+=", "-=", "*=", "/=", "%=",
    "&=", "|=", "^=", "<<", ">>"]

def isMarkCharacter (c : Char) : Bool := "\x7b\x7d()[];,<>+-*/%&|^!~?:=.@#".toList.contains c

/-- The mark at the head of a text. A question mark before a decimal fraction stands alone. -/
def readMark (t : Text) : String :=
  match longMarks.find? fun m => m.toList.isPrefixOf t with
  | some "?." => if (t.drop 2).head?.any Char.isDigit then "?" else "?."
  | some m => m
  | none => String.ofList (t.take 1)

def reservedWords : List String :=
  ["await", "break", "case", "catch", "class", "const", "continue", "debugger", "default",
    "delete", "do", "else", "enum", "export", "extends", "false", "finally", "for", "function",
    "if", "implements", "import", "in", "instanceof", "interface", "let", "new", "null", "package",
    "private", "protected", "public", "return", "super", "switch", "this", "throw", "true", "try",
    "typeof", "var", "void", "while", "with", "yield"]

def contextualWords : List String :=
  ["abstract", "accessor", "any", "as", "assert", "asserts", "async", "bigint", "boolean",
    "constructor", "declare", "from", "get", "global", "infer", "intrinsic", "is", "keyof",
    "module", "namespace", "never", "number", "object", "of", "out", "override", "readonly",
    "require", "satisfies", "set", "static", "string", "symbol", "target", "type", "undefined",
    "unique", "unknown", "using"]

/-- A token with the text from its first character on, the text after it, and what is wrong
with it or in front of it. -/
structure Scanned where
  token : Token
  here : Text
  after : Text
  issues : List Issue

def scanHere (gap : Gap) : Scanned :=
  let here := gap.rest
  let start := gap.pos
  let issueOf (f : Flaw) : Issue := f.issue here start
  let cut (kind : Kind) (length : Nat) (flaws : List Flaw) : Scanned :=
    let lexeme := here.take length
    ⟨⟨kind, String.ofList lexeme, start, start + bytes lexeme, gap.newline⟩, here,
      here.drop length, gap.issues ++ flaws.map issueOf⟩
  match here with
  | [] => cut .endOfFile 0 []
  | c :: t =>
    if c == '"' || c == '\'' then
      let body := (readBody c (t.length + 1) t).after [] 1
      match body.fault with
      | some fault => cut (.broken (issueOf fault)) body.length body.flaws
      | none =>
        let open_ : List Flaw :=
          if body.isClosed then [] else [⟨.unterminatedString, 0, body.length⟩]
        cut (.string (ofCodes? body.codes)) body.length (body.flaws ++ open_)
    else if c == '\x60' then
      match readChunk (t.length + 1) t with
      | some chunk =>
        let fault := chunk.fault.map fun f => issueOf (f.move 1)
        cut (.template chunk.isLast fault) (chunk.length + 1) []
      | none => cut (.broken (issueOf ⟨.unterminatedTemplate, 0, here.length⟩)) here.length []
    else if c.isDigit || (c == '.' && t.head?.any Char.isDigit) then
      let n := readNumeral here
      match n.fault with
      | some fault => cut (.broken (issueOf fault)) n.length n.flaws
      | none => cut (if n.isBig then .bigint else .number) n.length n.flaws
    else if startsWord c || c == '\\' then
      let w := readWord startsWord (here.length + 1) here
      let name := String.ofList w.name
      match w.fault with
      | some fault => cut (.broken (issueOf fault)) w.length w.flaws
      | none =>
        if w.isEscaped && reservedWords.contains name then
          cut (.broken (issueOf ⟨.escapedReservedWord name, 0, w.length⟩)) w.length w.flaws
        else cut (.word name w.isEscaped) w.length w.flaws
    else if isMarkCharacter c then cut .mark (readMark here).length []
    else cut (.broken (issueOf ⟨.unexpectedCharacter c, 0, 0⟩)) 1 []

/-- Reads the next token of a text that starts at the offset `pos`; `newline` tells whether a
line has ended there. -/
def scan (t : Text) (pos : Nat) (newline : Bool) : Scanned := scanHere (skipGap (t.length + 1) t pos newline)

def Token.describe (t : Token) : String :=
  match t.kind with
  | .word name _ =>
    if reservedWords.contains name || contextualWords.contains name then name else "ident"
  | .number => "numeric literal"
  | .bigint => "bigint literal"
  | .string _ => "string literal"
  | .template true _ => "no substitution template literal"
  | .template false _ => "template head"
  | .mark => t.lexeme
  | .broken _ => "<lexing error>"
  | .endOfFile => "<eof>"

def Token.kindName (t : Token) : String :=
  match t.kind with
  | .word name _ =>
    if reservedWords.contains name || contextualWords.contains name then name else "<identifier>"
  | .number => "<number literal>"
  | .bigint => "<bigint literal>"
  | .string _ => "<string literal>"
  | _ => t.describe

end ComponentConverter.Script
