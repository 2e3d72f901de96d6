import ComponentConverter.Conversion.Script
import ComponentConverter.Conversion.Styles
import ComponentConverter.Svelte.Markup
import ComponentConverter.Template.Parse

namespace ComponentConverter.Conversion

def overruledWarnings (base : Nat) (root : Template.Element) : List Diagnostic :=
  (Svelte.overruled root).map fun tag =>
    .warning .htmlChildrenIgnored ("<" ++ tag.name ++
      "> has children and a v-html directive, its children will be ignored")
      (some (tag.span.move base))

def template (p : Svelte.Preferences) (block : Block) : Except Failure (Noted (Option Text)) :=
  let base := block.contentSpan.start
  match Template.parse block.content p.comments with
  | (root, []) =>
    .ok ⟨root.map (Svelte.markup p), root.elim [] (overruledWarnings base)⟩
  | (_, faults) => .error (.template (faults.map fun f => { f with span := f.span.move base }))

def onBlock {α : Type} (missing : α) (f : Block → Except Failure (Noted α)) : Option Block → Except Failure (Noted α)
  | some block => f block
  | none => .ok (pure missing)

def convert (p : Svelte.Preferences) (source : Text) : Except Failure (Noted Text) :=
  match Component.parse source with
  | (component, []) => do
    let scripts ← onBlock ⟨none, none⟩ scripts component.script
    let template ← onBlock none (template p) component.template
    return do
      let scripts ← scripts
      let styles ← Noted.traverse style component.styles
      let template ← template
      return (Svelte.Document.mk scripts.module scripts.instanceScript styles template).text
  | (_, faults) => .error (.component faults)

end ComponentConverter.Conversion
