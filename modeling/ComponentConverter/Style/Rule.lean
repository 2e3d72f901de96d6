import ComponentConverter.Style.Place

namespace ComponentConverter.Style

/-- The rules of a sheet. `isClosed` tells whether the brace that ends a block was there. -/
inductive Rule where
  | space (text : Text)
  | statement (text : Text)
  | style (selectors body : Text) (isClosed : Bool)
  | block (head body : Text) (isClosed : Bool)
  | group (head : Text) (rules : List Rule) (isClosed : Bool)
  | unfinished (text : Text)
  deriving Repr

/-- Rules, and the text from a closing brace on that closes none of them. -/
structure Sheet where
  rules : List Rule
  rest : Text
  deriving Repr

def groupNames : List String :=
  ["media", "supports", "layer", "container", "document", "-moz-document", "starting-style"]

def isGroup (head : Text) : Bool :=
  let name := (head.drop 1).takeWhile fun c => !(isSpace c || c = '(' || c = '\x7b')
  groupNames.any fun g => name.map Char.toLower = g.toList

def closing : Text → Bool × Text
  | '\x7d' :: t => (true, t)
  | t => (false, t)

/-- Reads rules up to a closing brace or the end. Each step takes at least one character, so the
length of the text is fuel enough. -/
def readRules : Nat → Text → List Rule × Text
  | 0, t => ([], t)
  | _ + 1, [] => ([], [])
  | _ + 1, '\x7d' :: t => ([], '\x7d' :: t)
  | fuel + 1, c :: t =>
    let followedBy (rule : Rule) (rest : Text) : List Rule × Text :=
      let (rules, last) := readRules fuel rest
      (rule :: rules, last)
    if isSpace c then
      followedBy (.space (c :: t.takeWhile isSpace)) (t.dropWhile isSpace)
    else
      match takeUntil ['\x7b', ';'] .outside (c :: t) with
      | (text, ';' :: rest) => followedBy (.statement text) rest
      | (head, '\x7b' :: rest) =>
        if c = '@' && isGroup head then
          let (rules, last) := readRules fuel rest
          let (isClosed, last) := closing last
          followedBy (.group head rules isClosed) last
        else
          let (body, last) := takeBody .plain 0 rest
          let (isClosed, last) := closing last
          followedBy (if c = '@' then .block head body isClosed else .style head body isClosed) last
      | (text, rest) => ([.unfinished text], rest)

def Sheet.read (t : Text) : Sheet :=
  let (rules, rest) := readRules t.length t
  ⟨rules, rest⟩

def brace (isClosed : Bool) : Text := if isClosed then ['\x7d'] else []

mutual

def Rule.text : Rule → Text
  | .space text => text
  | .statement text => text ++ [';']
  | .style selectors body isClosed => selectors ++ ['\x7b'] ++ body ++ brace isClosed
  | .block head body isClosed => head ++ ['\x7b'] ++ body ++ brace isClosed
  | .group head rules isClosed => head ++ ['\x7b'] ++ textOfRules rules ++ brace isClosed
  | .unfinished text => text

def textOfRules : List Rule → Text
  | [] => []
  | r :: rs => r.text ++ textOfRules rs

end

def Sheet.text (s : Sheet) : Text := textOfRules s.rules ++ s.rest

mutual

def Rule.mapSelectors (f : Text → Text) : Rule → Rule
  | .style selectors body isClosed => .style (f selectors) body isClosed
  | .group head rules isClosed => .group head (mapSelectorsOf f rules) isClosed
  | r => r

def mapSelectorsOf (f : Text → Text) : List Rule → List Rule
  | [] => []
  | r :: rs => r.mapSelectors f :: mapSelectorsOf f rs

end

def Sheet.mapSelectors (f : Text → Text) (s : Sheet) : Sheet := { s with rules := mapSelectorsOf f s.rules }

end ComponentConverter.Style
