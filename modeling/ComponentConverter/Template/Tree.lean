import ComponentConverter.Markup.Tag
import ComponentConverter.Template.Interpolation
import ComponentConverter.Template.Loop

namespace ComponentConverter.Template

open Markup

structure Tag where
  name : Text
  attributes : List Attribute
  span : Span
  deriving Repr, DecidableEq

inductive Guard where
  | unguarded
  | opens (condition : Text)
  | continues (condition : Option Text)
  deriving Repr, DecidableEq

namespace Tag

def attribute? (tag : Tag) (name : String) : Option Text := Markup.attribute? tag.attributes name

def has (tag : Tag) (name : String) : Bool := (tag.attribute? name).isSome

def loop (tag : Tag) : Option Loop := (tag.attribute? "v-for").bind Loop.parse?

def guard (tag : Tag) : Guard :=
  match tag.attribute? "v-if", tag.attribute? "v-else-if" with
  | some condition, _ => .opens condition
  | none, some condition => .continues (some condition)
  | none, none => if tag.has "v-else" then .continues none else .unguarded

def html (tag : Tag) : Option Text := tag.attribute? "v-html"

end Tag

namespace Guard

def opening? : Guard → Option Text
  | .opens condition => some condition
  | _ => none

def isBranch : Guard → Bool
  | .continues _ => true
  | _ => false

def branchCondition : Guard → Option Text
  | .continues condition => condition
  | _ => none

end Guard

mutual

inductive Element where
  | mk (tag : Tag) (children : List Node) (branches : List Element)
  deriving Repr

inductive Node where
  | element (element : Element)
  | text (raw : Text) (span : Span)
  | comment (body : Text) (span : Span)
  deriving Repr

end

namespace Element

def tag : Element → Tag
  | .mk tag _ _ => tag

def children : Element → List Node
  | .mk _ children _ => children

def branches : Element → List Element
  | .mk _ _ branches => branches

def span (e : Element) : Span := e.tag.span

def addBranch : Element → Element → Element
  | .mk tag children branches, branch => .mk tag children (branches ++ [branch])

end Element

namespace Node

def span : Node → Span
  | .element e => e.span
  | .text _ span | .comment _ span => span

/-- Text of white space only, in which no interpolation stands. -/
def isBlank : Node → Bool
  | .text raw _ => ComponentConverter.isBlank raw
  | _ => false

def isElement : Node → Bool
  | .element _ => true
  | _ => false

end Node

/-- The names of elements that have no content, in letters of any case. -/
def voidNames : List String :=
  ["area", "base", "br", "col", "embed", "frame", "hr", "img", "input", "isindex", "keygen",
    "link", "meta", "param", "source", "track", "wbr"]

def isVoid (name : Text) : Bool := voidNames.any fun v => sameLetters v.toList name

/-- Style and script elements have no place in a template, data blocks apart. -/
def isForbidden (name : Text) (attributes : List Attribute) : Bool :=
  sameLetters name "style" || (sameLetters name "script" &&
      (attribute? attributes "type").all (· == "text/javascript".toList))

end ComponentConverter.Template
