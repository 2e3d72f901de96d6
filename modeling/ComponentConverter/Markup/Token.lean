import ComponentConverter.Text.Span

namespace ComponentConverter.Markup

inductive Kind where
  | commentOpen
  | closeOpen
  | tagOpen
  | tagClose
  | selfClose
  | slash
  | equals
  | doubleQuote
  | singleQuote
  | name
  | text
  | endOfFile
  deriving Repr, DecidableEq

def Kind.describe : Kind → String
  | .commentOpen => "'<!--'"
  | .closeOpen => "'</'"
  | .tagOpen => "'<'"
  | .tagClose => "'>'"
  | .selfClose => "'/>'"
  | .slash => "'/'"
  | .equals => "'='"
  | .doubleQuote => "'\"'"
  | .singleQuote => "'''"
  | .name => "name"
  | .text => "text"
  | .endOfFile => "end of file"

def isGap (c : Char) : Bool := c == ' ' || c == '\t' || c == '\r' || c == '\n' || c == '\x0c'

def isPlain (c : Char) : Bool := !(isGap c || c == '<' || c == '>' || c == '=' || c == '"' || c == '\'' || c == '/')

def startsName (c : Char) : Bool := c.isAlpha || c == '_' || c == ':' || c == '@' || c == '#' || c == '$' || c == '['

def continuesName (c : Char) : Bool := startsName c || c.isDigit || c == '.' || c == '-' || c == ']'

def isName : Text → Bool
  | [] => false
  | c :: t => startsName c && t.all continuesName

structure Token where
  kind : Kind
  lexeme : Text
  start : Nat
  deriving Repr, DecidableEq

def Token.stop (t : Token) : Nat := t.start + bytes t.lexeme

def Token.span (t : Token) : Span := ⟨t.start, t.stop⟩

/-- The kind and the length of the token at the head of a text that does not start with a gap. -/
def Kind.read : Text → Option (Kind × Nat)
  | [] => none
  | '<' :: '!' :: '-' :: '-' :: _ => some (.commentOpen, 4)
  | '<' :: '/' :: _ => some (.closeOpen, 2)
  | '<' :: _ => some (.tagOpen, 1)
  | '>' :: _ => some (.tagClose, 1)
  | '/' :: '>' :: _ => some (.selfClose, 2)
  | '/' :: _ => some (.slash, 1)
  | '=' :: _ => some (.equals, 1)
  | '"' :: _ => some (.doubleQuote, 1)
  | '\'' :: _ => some (.singleQuote, 1)
  | c :: t =>
    let run := c :: t.takeWhile isPlain
    some (if isName run then .name else .text, run.length)

end ComponentConverter.Markup
