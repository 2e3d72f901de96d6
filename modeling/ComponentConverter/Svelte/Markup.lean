import ComponentConverter.Svelte.Item

namespace ComponentConverter.Svelte

open Template

def Delimiter.text : Delimiter → Text
  | .each source item index =>
    "\x7b#each " ++ source ++ " as " ++ item ++ (index.elim [] fun i => ", ".toList ++ i) ++ ['\x7d']
  | .endEach => "\x7b/each\x7d"
  | .ifTrue condition => "\x7b#if " ++ condition ++ ['\x7d']
  | .elseIf condition => "\x7b:else if " ++ condition ++ ['\x7d']
  | .otherwise => "\x7b:else\x7d"
  | .endIf => "\x7b/if\x7d"

def partText : Part → Text
  | .literal text => text
  | .binding expression => Attribute.braced expression

def attributesText (p : Preferences) (depth : Nat) (name : Text) (attributes : List Attribute) : Text :=
  if attributes.isEmpty then []
  else
    let separator := ['\n'] ++ p.indentation depth ++ List.replicate (name.length + 2) ' '
    [' '] ++ separator.intercalate (attributes.map (·.text p))

/-- The text of an item. All but static text is a line of its own. -/
def Item.text (p : Preferences) : Item → Text
  | .delimiter depth d => p.indentation depth ++ d.text ++ ['\n']
  | .openTag depth name attributes isClosed =>
    p.indentation depth ++ ['<'] ++ name ++ attributesText p depth name attributes ++
      (if isClosed then "/>\n" else ">\n").toList
  | .closeTag depth name => p.indentation depth ++ "</" ++ name ++ ">\n"
  | .html depth expression =>
    p.indentation depth ++ "\x7b@html " ++ expression ++ "\x7d\n"
  | .dynamic depth parts => p.indentation depth ++ trim (parts.flatMap partText) ++ ['\n']
  | .static text => trim text
  | .comment depth body => p.indentation depth ++ "<!--" ++ body ++ "-->\n"

def markup (p : Preferences) (root : Element) : Text := (itemsOfElement 0 root).flatMap (·.text p)

structure Document where
  moduleScript : Option Text
  instanceScript : Option Text
  styles : List Text
  template : Option Text
  deriving Repr, DecidableEq

def Document.text (d : Document) : Text :=
  d.moduleScript.getD [] ++ d.instanceScript.getD [] ++ d.styles.flatten ++ d.template.getD []

end ComponentConverter.Svelte
