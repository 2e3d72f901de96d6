import ComponentConverter.Proofs.ItemReading
import ComponentConverter.Proofs.KeptComments

namespace ComponentConverter.Svelte

open List Template

/-- A text without its white space and double quotes. -/
def ink (t : Text) : Text := t.filter fun c => !(isSpace c || c == '"')

/-- Preferences that differ in layout only: in the white space that indents a level, and in quotes. -/
structure Preferences.DifferInLayout (p q : Preferences) : Prop where
  indent : isBlank p.indent = true ∧ isBlank q.indent = true
  shorthand : p.shorthand = q.shorthand
  comments : p.comments = q.comments

section Ink

variable {p q : Preferences}

@[simp] theorem ink_append (s t : Text) : ink (s ++ t) = ink s ++ ink t := filter_append ..

theorem ink_flatMap {α : Type} (f : α → Text) (as : List α) : ink (as.flatMap f) = as.flatMap fun a => ink (f a) :=
  filter_flatMap ..

theorem ink_blank {t : Text} (h : isBlank t = true) : ink t = [] := by
  rw [ink, filter_eq_nil_iff]
  intro c hc
  simp [all_eq_true.mp h c hc]

@[simp] theorem ink_quote (p : Preferences) : ink p.quote = [] := by
  rw [Preferences.quote]
  split
  · rfl
  · rfl

theorem ink_intercalate {separator : Text} (h : ink separator = []) (ts : List Text) :
    ink (separator.intercalate ts) = ts.flatMap ink := by
  cases ts with
  | nil => rfl
  | cons t ts => simp [intercalate_cons, ink_flatMap, h]

theorem ink_attribute (h : p.shorthand = q.shorthand) (a : Attribute) : ink (a.text p) = ink (a.text q) := by
  cases a with
  | bound key expression =>
    rw [Attribute.text_bound, Attribute.text_bound, h]
    split
    · rfl
    · simp only [ink_append, ink_quote]
  | handler event expression => simp only [Attribute.text_handler, ink_append, ink_quote]
  | plain name value => rfl

theorem ink_attributesText (h : p.DifferInLayout q) (depth : Nat) (name : Text) (as : List Attribute) :
    ink (attributesText p depth name as) = ink (attributesText q depth name as) := by
  have hseparator {r : Preferences} (hr : isBlank r.indent = true) :
      ink (['\n'] ++ r.indentation depth ++ replicate (name.length + 2) ' ') = [] :=
    ink_blank (isBlank_margin hr depth name)
  unfold attributesText
  split
  · rfl
  · rw [ink_append, ink_append, ink_intercalate (hseparator h.indent.1), ink_intercalate (hseparator h.indent.2),
      flatMap_map, flatMap_map]
    simp only [ink_attribute h.shorthand]

theorem ink_item (h : p.DifferInLayout q) (x : Item) : ink (x.text p) = ink (x.text q) := by
  have hindent (depth : Nat) : ink (p.indentation depth) = ink (q.indentation depth) := by
    rw [ink_blank (isBlank_indentation h.indent.1 depth), ink_blank (isBlank_indentation h.indent.2 depth)]
  cases x with
  | openTag depth name as isClosed => simp only [Item.text, ink_append, hindent, ink_attributesText h]
  | static text => rfl
  | _ => simp only [Item.text, ink_append, hindent]

theorem ink_markup (h : p.DifferInLayout q) (root : Element) : ink (markup p root) = ink (markup q root) := by
  rw [markup, markup, ink_flatMap, ink_flatMap]
  simp only [ink_item h]

end Ink

end ComponentConverter.Svelte

namespace ComponentConverter.Conversion

open Svelte

variable {p q : Preferences}

theorem template_layout (h : p.DifferInLayout q) (block : Option Block) :
    (∃ failure, onBlock none (template p) block = .error failure ∧ onBlock none (template q) block = .error failure) ∨
      ∃ t u notes, onBlock none (template p) block = .ok ⟨t, notes⟩ ∧ onBlock none (template q) block = .ok ⟨u, notes⟩ ∧
        ink (t.getD []) = ink (u.getD []) := by
  cases block with
  | none => exact .inr ⟨none, none, [], rfl, rfl, rfl⟩
  | some b =>
    rcases hp : Template.parse b.content p.comments with ⟨root, _ | ⟨fault, faults⟩⟩
    · have hq : Template.parse b.content q.comments = (root, []) := by rw [← h.comments, hp]
      refine .inr ⟨_, _, _, template_of_faultless hp, template_of_faultless hq, ?_⟩
      cases root with
      | none => rfl
      | some root => exact ink_markup h root
    · have hq : Template.parse b.content q.comments = (root, fault :: faults) := by rw [← h.comments, hp]
      exact .inl ⟨_, template_of_faults hp, template_of_faults hq⟩

/-- Layout is cosmetic. Two layouts are refused alike or tell the same, with the same scripts and styles
in front of markup of the same ink. -/
theorem layout_cosmetic (h : p.DifferInLayout q) (source : Text) :
    (∃ failure, convert p source = .error failure ∧ convert q source = .error failure) ∨
      ∃ c s notes m n, Component.parse source = (c, []) ∧ onBlock ⟨none, none⟩ scripts c.script = .ok s ∧
        let parts := lead s.value (Noted.traverse style c.styles).value
        convert p source = .ok ⟨parts ++ m, notes⟩ ∧ convert q source = .ok ⟨parts ++ n, notes⟩ ∧
          ink (parts ++ m) = ink (parts ++ n) := by
  rcases hc : Component.parse source with ⟨c, _ | ⟨fault, faults⟩⟩
  · cases hs : onBlock ⟨none, none⟩ scripts c.script with
    | error failure => exact .inl ⟨failure, convert_of_scripts_error hc hs, convert_of_scripts_error hc hs⟩
    | ok s =>
      rcases template_layout h c.template with ⟨failure, ht, hu⟩ | ⟨t, u, notes, ht, hu, hink⟩
      · exact .inl ⟨failure, convert_of_template_error hc hs ht, convert_of_template_error hc hs hu⟩
      · refine .inr ⟨c, s, _, t.getD [], u.getD [], rfl, hs, convert_of_ok hc hs ht, convert_of_ok hc hs hu, ?_⟩
        rw [ink_append, ink_append, hink]
  · refine .inl ⟨.component (fault :: faults), ?_, ?_⟩ <;>
    · rw [convert, hc]

theorem layout_cosmetic_tabs :
    let source := "<style lang='scss'>a</style><template><p :a='b' @c='d'><i>e</i></p></template>"
    let tabs : Preferences := ⟨['\t'], false, true, false⟩
    let sheet := "<style lang=\"scss\">\na\n</style>\n\n"
    Preferences.standard.DifferInLayout tabs ∧
      ∃ x y, convert .standard source = .ok x ∧ convert tabs source = .ok y ∧ ink x.value = ink y.value ∧
        x.notes = y.notes ∧
        x.value = (sheet ++ "<p a=\"\x7bb\x7d\"\n   on:c=\"\x7bd\x7d\">\n  <i>\ne  </i>\n</p>\n").toList ∧
        y.value = (sheet ++ "<p a=\x7bb\x7d\n   on:c=\x7bd\x7d>\n\t<i>\ne\t</i>\n</p>\n").toList := by
  intro source tabs sheet
  have h : Preferences.standard.DifferInLayout tabs := ⟨⟨rfl, rfl⟩, rfl, rfl⟩
  obtain ⟨hx, hy⟩ : (convert .standard source).toOption.map Noted.value =
      some (sheet ++ "<p a=\"\x7bb\x7d\"\n   on:c=\"\x7bd\x7d\">\n  <i>\ne  </i>\n</p>\n").toList ∧
      (convert tabs source).toOption.map Noted.value =
        some (sheet ++ "<p a=\x7bb\x7d\n   on:c=\x7bd\x7d>\n\t<i>\ne\t</i>\n</p>\n").toList := by decide +kernel
  obtain ⟨x, hx, hvalue⟩ := eq_ok_of_toOption hx
  obtain ⟨y, hy, hvalue'⟩ := eq_ok_of_toOption hy
  refine ⟨h, x, y, hx, hy, ?_⟩
  rcases layout_cosmetic h source with ⟨failure, hf, -⟩ | ⟨_, _, notes, _, _, _, _, hp, hq, hink⟩
  · rw [hx] at hf
    cases hf
  · rw [hx] at hp
    rw [hy] at hq
    cases hp
    cases hq
    exact ⟨hink, rfl, hvalue, hvalue'⟩

end ComponentConverter.Conversion
