import ComponentConverter.Template.Chain
import ComponentConverter.Proofs.PieceReading

namespace ComponentConverter.Template

open Markup

mutual

inductive RawElement where
  | mk (name : Text) (attributes : List (Text × Text)) (children : List RawNode)

inductive RawNode where
  | element (element : RawElement)
  | text (text : Text)
  | comment (body : Text)

end

def writeAttributes (attributes : List (Text × Text)) : Text :=
  attributes.flatMap fun (name, value) => ' ' :: (name ++ '=' :: '"' :: (value ++ ['"']))

mutual

/-- Start tag, children and closing tag. Void elements have no closing tag. -/
def RawElement.write : RawElement → Text
  | .mk name attributes children =>
    '<' :: (name ++ (writeAttributes attributes ++ '>' :: (writeNodes children ++
      if isVoid name then [] else '<' :: '/' :: (name ++ ['>']))))

def writeNodes : List RawNode → Text
  | [] => []
  | .element e :: ns => e.write ++ writeNodes ns
  | .text t :: ns => t ++ writeNodes ns
  | .comment body :: ns => "<!--" ++ (body ++ ("-->" ++ writeNodes ns))

end

/-- No `<` is followed by a letter, by `/` and a letter, or by `!--`. -/
def MarkupFree (t : Text) : Prop :=
  ¬ ['<', '!', '-', '-'] <:+: t ∧ ∀ c : Char, c.isAlpha = true → ¬ ['<', c] <:+: t ∧ ¬ ['<', '/', c] <:+: t

def RawNode.isText : RawNode → Bool
  | .text _ => true
  | _ => false

/-- Attributes with different names that continue no chain, values without double quotes, and
a loop that can be read. -/
def AttributesWritable (attributes : List (Text × Text)) : Prop :=
  (attributes.map Prod.fst).Nodup ∧ ∀ a ∈ attributes,
      isName a.1 = true ∧ a.1 ≠ "v-else" ∧ a.1 ≠ "v-else-if" ∧ '"' ∉ a.2 ∧
        (a.1 = "v-for" → (Loop.parse? a.2).isSome = true)

mutual

def RawElement.Writable : RawElement → Prop
  | .mk name attributes children =>
    TagName name ∧ sameLetters name "style" = false ∧
      sameLetters name "script" = false ∧ AttributesWritable attributes ∧
      (isVoid name = true → children = []) ∧ NodesWritable children

/-- Texts are not empty, hold no markup and do not follow each other. -/
def NodesWritable : List RawNode → Prop
  | [] => True
  | .element e :: ns => e.Writable ∧ NodesWritable ns
  | .text t :: ns => (t ≠ [] ∧ MarkupFree t ∧ ∀ n ∈ ns.head?, n.isText = false) ∧ NodesWritable ns
  | .comment body :: ns => ¬ "-->" <:+: body ∧ NodesWritable ns

end

theorem startsMarkup_append {v : Text} (h : startsMarkup v = true) (r : Text) : startsMarkup (v ++ r) = true := by
  rw [startsMarkup.eq_def] at h
  split at h
  · rfl
  · exact h
  next c t _ _ => exact startsMarkup_letter _ h
  · simp at h

theorem MarkupFree.not_startsMarkup {t : Text} (h : MarkupFree t) (r : Text) {v : Text}
    (hv : v <:+ t) (hne : v ≠ []) : startsMarkup (v ++ '<' :: r) = false := by
  obtain ⟨hc, ha⟩ := h
  have hin : ∀ s u, v = s ++ u → s <:+: t := fun s u he =>
    List.IsInfix.trans ⟨[], u, by rw [he]; rfl⟩ hv.isInfix
  rw [Bool.eq_false_iff]
  intro hs
  rw [startsMarkup.eq_def] at hs
  split at hs
  next r' heq =>
    rcases v with _ | ⟨x, _ | ⟨y, _ | ⟨z, _ | ⟨w, v⟩⟩⟩⟩ <;> simp at heq hne
    obtain ⟨rfl, rfl, rfl, rfl, -⟩ := heq
    exact hc (hin _ v rfl)
  next c r' heq =>
    rcases v with _ | ⟨x, _ | ⟨y, _ | ⟨z, v⟩⟩⟩ <;> simp at heq hne
    · obtain ⟨-, -, rfl, -⟩ := heq
      simp at hs
    · obtain ⟨rfl, rfl, rfl, -⟩ := heq
      exact (ha z hs).2 (hin _ v rfl)
  next c r' _ _ heq =>
    rcases v with _ | ⟨x, _ | ⟨y, v⟩⟩ <;> simp at heq hne
    · obtain ⟨-, rfl, -⟩ := heq
      simp at hs
    · obtain ⟨rfl, rfl, -⟩ := heq
      exact (ha y hs).1 (hin _ v rfl)
  · simp at hs

theorem beforeMarkup_eq_self_iff (t : Text) : beforeMarkup t = t ↔ MarkupFree t := by
  obtain ⟨r, ht, hr, hs⟩ := beforeMarkup_spec t
  constructor
  · intro h
    obtain rfl : r = [] := by rw [h] at ht; simpa using ht
    have hnone : ∀ s, s <:+: t → startsMarkup s = false := by
      rintro s ⟨a, b, rfl⟩
      cases s with
      | nil => rfl
      | cons c s =>
        have hsuf : c :: s ++ b <:+ beforeMarkup (a ++ (c :: s) ++ b) := by
          rw [h, List.append_assoc]
          exact List.suffix_append a _
        have hb := hs _ hsuf (by simp)
        rw [List.append_nil] at hb
        rw [Bool.eq_false_iff]
        intro hc
        rw [startsMarkup_append hc b] at hb
        simp at hb
    have hcontra : ∀ s, startsMarkup s = true → ¬ s <:+: t := by
      intro s hst hi
      rw [hnone s hi] at hst
      simp at hst
    exact ⟨hcontra _ rfl, fun c hc => ⟨hcontra _ (startsMarkup_letter [] hc), hcontra _ hc⟩⟩
  · intro h
    rcases hr with rfl | hr
    · rw [List.append_nil] at ht
      exact ht.symm
    · have hsuf : r <:+ t := ⟨_, ht.symm⟩
      have hne : r ≠ [] := by rintro rfl; simp [startsMarkup] at hr
      have hf := h.not_startsMarkup [] hsuf hne
      rw [startsMarkup_append hr] at hf
      simp at hf

/-- What is seen of a node. A text is dynamic if there are interpolations in it. -/
inductive View where
  | element (name : Text) (attributes : List Attribute) (loop : Option Loop) (guard : Guard)
      (html : Option Text) (children branches : List View)
  | dynamic (parts : List Part)
  | static (text : Text)
  | comment (body : Text)

def View.isBlank : View → Bool
  | .static text => ComponentConverter.isBlank text
  | _ => false

def textView (raw : Text) : View :=
  match Part.split? raw with
  | some parts => .dynamic parts
  | none => .static raw

mutual

def Element.view : Element → View
  | .mk tag children branches =>
    .element tag.name tag.attributes tag.loop tag.guard tag.html (nodeViews children)
      (branchViews branches)

def nodeViews : List Node → List View
  | [] => []
  | .element e :: ns => e.view :: nodeViews ns
  | .text raw _ :: ns => textView raw :: nodeViews ns
  | .comment body _ :: ns => .comment body :: nodeViews ns

def branchViews : List Element → List View
  | [] => []
  | b :: bs => b.view :: branchViews bs

end

/-- White space is one blank, and none at both ends of a list of children. -/
def trimBlanks (views : List View) : List View :=
  ((views.dropWhile View.isBlank).reverse.dropWhile View.isBlank).reverse

def RawNode.textView (t : Text) : View :=
  if isBlank t then .static [' '] else Template.textView t

/-- An element opens a chain of conditions if it has a condition of its own. -/
def RawElement.guard (attributes : List (Text × Text)) : Guard :=
  match attributes.lookup "v-if".toList with
  | some condition => .opens condition
  | none => .unguarded

mutual

/-- What is to be seen of an element, its annotations read from the attributes. -/
def RawElement.view : RawElement → View
  | .mk name attributes children =>
    .element name (attributes.map fun (name, value) => ⟨name, value⟩)
      ((attributes.lookup "v-for".toList).bind Loop.parse?) (RawElement.guard attributes)
      (attributes.lookup "v-html".toList) (trimBlanks (rawViews children)) []

def rawViews : List RawNode → List View
  | [] => []
  | .element e :: ns => e.view :: rawViews ns
  | .text t :: ns => RawNode.textView t :: rawViews ns
  | .comment body :: ns => .comment body :: rawViews ns

end

end ComponentConverter.Template
