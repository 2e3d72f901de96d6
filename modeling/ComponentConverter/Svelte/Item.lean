import ComponentConverter.Svelte.Attribute
import ComponentConverter.Template.Tree

namespace ComponentConverter.Svelte

open Template

inductive Delimiter where
  | each (source item : Text) (index : Option Text)
  | endEach
  | ifTrue (condition : Text)
  | elseIf (condition : Text)
  | otherwise
  | endIf
  deriving Repr, DecidableEq

inductive Item where
  | delimiter (depth : Nat) (delimiter : Delimiter)
  | openTag (depth : Nat) (name : Text) (attributes : List Attribute) (isClosed : Bool)
  | closeTag (depth : Nat) (name : Text)
  | html (depth : Nat) (expression : Text)
  | dynamic (depth : Nat) (parts : List Part)
  | static (text : Text)
  | comment (depth : Nat) (body : Text)
  deriving Repr, DecidableEq

def eachHead (tag : Tag) : Option Delimiter := tag.loop.map fun l => .each l.source l.item l.iterators.head?

/-- The delimiter before an element with a condition; an element that is a last resort is one
whatever else it says. -/
def branchHead (tag : Tag) : Option Delimiter :=
  match tag.guard with
  | .unguarded => none
  | .opens condition => some (.ifTrue condition)
  | .continues none => some .otherwise
  | .continues (some condition) =>
    some (if tag.has "v-else" then .otherwise else .elseIf condition)

def innerDepth (depth : Nat) (tag : Tag) : Nat :=
  depth + (if tag.loop.isSome then 1 else 0) + (if (branchHead tag).isSome then 1 else 0)

def heads (depth : Nat) (tag : Tag) : List Item :=
  let below := if tag.loop.isSome then depth + 1 else depth
  ((eachHead tag).map (Item.delimiter depth)).toList ++ ((branchHead tag).map (Item.delimiter below)).toList

def tails (inner : Nat) (tag : Tag) : List Item :=
  let opens := tag.guard.opening?.isSome
  let outer := if opens then inner - 1 else inner
  (if opens then [.delimiter outer .endIf] else []) ++
    (if tag.loop.isSome then [.delimiter (outer - 1) .endEach] else [])

mutual

def itemsOfElement (depth : Nat) : Element → List Item
  | .mk tag children branches =>
    let inner := innerDepth depth tag
    let isClosed := children.isEmpty && (tag.html.isSome || isVoid tag.name)
    let content :=
      match tag.html with
      | some expression => [.html (inner + 1) expression]
      | none => itemsOfNodes (inner + 1) children
    heads depth tag ++ [.openTag inner tag.name (tag.attributes.filterMap Attribute.ofTemplate?) isClosed] ++
      (if isClosed then [] else content ++ [.closeTag inner tag.name]) ++
      itemsOfBranches (inner - 1) branches ++
      tails inner tag

def itemsOfNodes (depth : Nat) : List Node → List Item
  | [] => []
  | .element e :: ns => itemsOfElement depth e ++ itemsOfNodes depth ns
  | .text raw _ :: ns =>
    (match Part.split? raw with
      | some parts => Item.dynamic depth parts
      | none => .static raw) :: itemsOfNodes depth ns
  | .comment body _ :: ns => .comment depth body :: itemsOfNodes depth ns

def itemsOfBranches (depth : Nat) : List Element → List Item
  | [] => []
  | e :: es => itemsOfElement depth e ++ itemsOfBranches depth es

end

mutual

def overruled : Element → List Tag
  | .mk tag children branches =>
    (if tag.html.isSome then if children.isEmpty then [] else [tag]
      else overruledInNodes children) ++ overruledInBranches branches

def overruledInNodes : List Node → List Tag
  | [] => []
  | .element e :: ns => overruled e ++ overruledInNodes ns
  | _ :: ns => overruledInNodes ns

def overruledInBranches : List Element → List Tag
  | [] => []
  | e :: es => overruled e ++ overruledInBranches es

end

end ComponentConverter.Svelte
