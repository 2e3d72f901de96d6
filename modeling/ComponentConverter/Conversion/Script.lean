import ComponentConverter.Component
import ComponentConverter.Conversion.Failure
import ComponentConverter.Options.Collect
import ComponentConverter.Script.Modules

namespace ComponentConverter.Conversion

open Script

structure Scripts where
  module : Option Text
  instanceScript : Option Text
  deriving Repr, DecidableEq

def isTyped (lang : Option Text) : Bool := lang == some "ts".toList || lang == some "typescript".toList

def isDefaultExport (n : Node) : Bool :=
  match n.form with
  | .exportDefault | .exportDefaultDeclaration => true
  | _ => false

/-- The members of the options object, also inside parentheses, type assertions and calls with
one argument. -/
def optionsOf? : Node → Option (List Node)
  | .mk .object _ members => some members
  | .mk .parentheses _ [inner] => optionsOf? inner
  | .mk (.assertion _) _ (inner :: _) => optionsOf? inner
  | .mk .call _ [_, .mk .spread _ _] => none
  | .mk .call _ [_, .mk .typeArguments _ _] => none
  | .mk .call _ [_, argument] => optionsOf? argument
  | .mk .call _ [_, .mk .typeArguments _ _, .mk .spread _ _] => none
  | .mk .call _ [_, .mk .typeArguments _ _, argument] => optionsOf? argument
  | _ => none

def exportedOptions? (item : Node) : Option (List Node) :=
  match item with
  | .mk .exportDefault _ [value] => optionsOf? value
  | _ => none

def moduleScript (s : Source) (typed : Bool) (exported : Option Node) : Text :=
  let head := if typed then "<script context=\"module\" lang=\"ts\">" else "<script context=\"module\">"
  let code := without s.text ⟨0, bytes s.text⟩ (exported.map Node.span).toList
  head.toList ++ "\n" ++ trim code ++ "\n</script>\n\n"

def instanceScript (s : Source) (typed : Bool) (item : Node) : Noted (Option Text) :=
  match exportedOptions? item with
  | some members => do return some ((← Options.collect s members).render typed)
  | none => do
    s.warn .invalidDefaultExport
      "default export is not an options object, ignoring it" item.span
    return none

/-- The text after a byte order mark, which counts for nothing at the start of a script. -/
def afterMark (t : Text) : Text :=
  match t with
  | '\ufeff' :: rest => rest
  | _ => t

def scripts (block : Block) : Except Failure (Noted Scripts) := do
  let typed := isTyped block.lang
  let source : Source := ⟨block.content, block.contentSpan.start⟩
  let place (i : Issue) : Issue := { i with span := source.locate i.span }
  let tree ← (Script.parse (afterMark block.content) typed).mapError fun i => .script (place i)
  let exports := tree.items.filter isDefaultExport
  if let some second := exports[1]? then
    throw (.multipleDefaultExports (source.locate second.span))
  let exported := exports.head?
  let others := tree.items.length - exports.length
  return do
    for issue in tree.issues do
      source.warn .recoveredScriptError
        ("syntax error in script: " ++ issue.message.toList) issue.span
    let moduleText := if others = 0 then none else some (moduleScript source typed exported)
    let instanceText ← match exported with
      | some item => instanceScript source typed item
      | none => pure none
    return ⟨moduleText, instanceText⟩

end ComponentConverter.Conversion
