import ComponentConverter.Markup.Tag
import ComponentConverter.Svelte.Preferences

namespace ComponentConverter.Svelte

inductive Attribute where
  | bound (key expression : Text)
  | handler (event expression : Text)
  | plain (name value : Text)
  deriving Repr, DecidableEq

namespace Attribute

def directives : List String := ["v-if", "v-else", "v-else-if", "v-for", "v-html"]

def afterMark? (short long : String) (name : Text) : Option Text :=
  after? short.toList name <|> after? long.toList name

def ofTemplate? (a : Markup.Attribute) : Option Attribute :=
  if directives.any (·.toList == a.name) then none
  else if let some key := afterMark? ":" "v-bind:" a.name then some (.bound key a.value)
  else if let some event := afterMark? "@" "v-on:" a.name then some (.handler event a.value)
  else some (.plain a.name a.value)

def name : Attribute → Text
  | .bound key _ => key
  | .handler event _ => "on:" ++ event
  | .plain name _ => name

def braced (expression : Text) : Text := ['\x7b'] ++ expression ++ ['\x7d']

def text (p : Preferences) : Attribute → Text
  | .bound key expression =>
    if p.shorthand && key == expression then braced key
    else key ++ ['='] ++ p.quote ++ braced expression ++ p.quote
  | .handler event expression =>
    "on:" ++ event ++ ['='] ++ p.quote ++ braced expression ++ p.quote
  | .plain name value => name ++ "=\"" ++ value ++ ['"']

end Attribute

end ComponentConverter.Svelte
