import ComponentConverter.Style.Rule

namespace ComponentConverter.Style

/-- Replaces each selector of a list; the parts are joined anew, and the white space after them
stays. -/
def mapList (f : Text → Text) (selectors : Text) : Text :=
  let list := trimEnd selectors
  let parts := (splitCommas .outside list).map fun part => f (trim part)
  ", ".toList.intercalate parts ++ selectors.drop list.length

def global (selector : Text) : Text := ":global(" ++ selector ++ ")"

def deepCombinators : List Text := [">>>", "/deep/", "::v-deep"]

/-- The text before the first combinator outside that reaches deep, and the text after it. -/
def breakOnDeep? : Place → Text → Option (Text × Text)
  | _, [] => none
  | p, c :: t =>
    match if p = .outside then deepCombinators.find? (·.isPrefixOf (c :: t)) else none with
    | some combinator => some ([], (c :: t).drop combinator.length)
    | none => (breakOnDeep? (p.step c) t).map fun (s, r) => (c :: s, r)

def openDeep (selector : Text) : Text :=
  match breakOnDeep? .outside selector with
  | none => selector
  | some (before, after) =>
    let head := trimEnd before
    let tail := trim after
    if tail.isEmpty then head
    else if head.isEmpty then global tail
    else head ++ " " ++ global tail

def globalize (sheet : Text) : Text := ((Sheet.read sheet).mapSelectors (mapList global)).text

def deepen (sheet : Text) : Text := ((Sheet.read sheet).mapSelectors (mapList openDeep)).text

end ComponentConverter.Style
