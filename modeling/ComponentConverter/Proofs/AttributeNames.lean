import Mathlib.Data.List.Pairwise
import ComponentConverter.Proofs.LiteralContent

namespace ComponentConverter.Svelte

open List Template
open Attribute (ofTemplate?)

/-- The name in the text of an attribute, which is all of it if the text is in braces. -/
def writtenName : Text → Text
  | '\x7b' :: t => t.dropLast
  | t => t.takeWhile (· != '=')

/-- All names in a template that are written as `name`. -/
def spellings (name : Text) : List Text :=
  [":" ++ name, "v-bind:" ++ name] ++ ((after? "on:" name).elim [] fun event => ["@" ++ event, "v-on:" ++ event]) ++
    if isStatic ⟨name, []⟩ then [name] else []

section Names

variable {p : Preferences}

theorem writtenName_append {name t : Text} (h : ∀ c ∈ name, inName c = true) :
    writtenName (name ++ '=' :: t) = name := by
  have hne : ∀ c ∈ name, (c != '=') = true := by
    intro c hc
    rw [bne_iff_ne]
    rintro rfl
    exact absurd (h _ hc) (by decide)
  have htake : (name ++ '=' :: t).takeWhile (· != '=') = name := by
    rw [takeWhile_append_of_pos hne, takeWhile_cons_of_neg (by decide), append_nil]
  rw [writtenName.eq_2]
  · exact htake
  · intro u hu
    cases name with
    | nil => cases hu
    | cons c name =>
      obtain ⟨rfl, -⟩ := List.cons.inj hu
      exact absurd (h '\x7b' mem_cons_self) (by decide)

theorem writtenName_text {a : Attribute} (h : a.Named) : writtenName (a.text p) = a.name := by
  cases a with
  | bound key expression =>
    rw [Attribute.text_bound]
    split
    · rw [Attribute.braced, append_assoc, singleton_append, writtenName, dropLast_concat]
      rfl
    · simp only [append_assoc]
      exact writtenName_append h
  | handler event expression =>
    have hname : ∀ c ∈ "on:" ++ event, inName c = true := by
      intro c hc
      rcases mem_append.mp hc with hc | hc
      · exact all_eq_true.mp (by decide : "on:".toList.all inName = true) c hc
      · exact h c hc
    rw [Attribute.text_handler, Attribute.name]
    simp only [append_assoc] at hname ⊢
    exact writtenName_append hname
  | plain name value =>
    rw [Attribute.text_plain, append_assoc, append_assoc]
    exact writtenName_append h.2

variable {a : Markup.Attribute}

theorem ofTemplate?_bound {key : Text} (h : a.name = ":" ++ key ∨ a.name = "v-bind:" ++ key) :
    ofTemplate? a = some (.bound key a.value) := by
  obtain ⟨name, value⟩ := a
  rcases h with rfl | rfl <;> rfl

theorem ofTemplate?_handler {event : Text} (h : a.name = "@" ++ event ∨ a.name = "v-on:" ++ event) :
    ofTemplate? a = some (.handler event a.value) := by
  obtain ⟨name, value⟩ := a
  rcases h with rfl | rfl <;> rfl

theorem mem_spellings_iff {name : Text} : a.name ∈ spellings name ↔ ∃ x, ofTemplate? a = some x ∧ x.name = name := by
  rw [spellings, mem_append, mem_append]
  constructor
  · rintro ((h | h) | h)
    · exact ⟨_, ofTemplate?_bound (by simpa using h), rfl⟩
    · cases hevent : after? "on:" name with
      | none =>
        rw [hevent] at h
        cases h
      | some event =>
        rw [hevent] at h
        exact ⟨_, ofTemplate?_handler (by simpa using h), (eq_append_of_after? hevent).symm⟩
    · split at h
      next hs =>
        obtain rfl := mem_singleton.mp h
        exact ⟨_, ofTemplate?_static hs, rfl⟩
      · cases h
  · rintro ⟨x, hx, rfl⟩
    rcases ofTemplate?_cases hx with ⟨key, rfl, hkey⟩ | ⟨event, rfl, hevent⟩ | ⟨hs, rfl⟩
    · exact .inl (.inl (by simpa [Attribute.name] using hkey))
    · refine .inl (.inr ?_)
      have hafter : after? "on:" ("on:" ++ event) = some event := rfl
      rw [Attribute.name, hafter]
      simpa using hevent
    · refine .inr ?_
      have hs' : isStatic ⟨a.name, []⟩ = true := hs
      rw [Attribute.name, if_pos hs']
      exact mem_singleton_self _

end Names

section Elements

/-- Two attributes are told apart by what they are written as: no name has both among its spellings
unless they have one name. -/
def ToldApart (a b : Markup.Attribute) : Prop :=
  ∀ name, a.name ∈ spellings name → b.name ∈ spellings name → a.name = b.name

instance : Std.Symm ToldApart where
  symm _ _ h name ha hb := (h name hb ha).symm

theorem nodup_names_iff {as : List Markup.Attribute} (h : (as.map Markup.Attribute.name).Nodup) :
    ((as.filterMap ofTemplate?).map Attribute.name).Nodup ↔ ∀ a ∈ as, ∀ b ∈ as, ToldApart a b := by
  have hpairs : ((as.filterMap ofTemplate?).map Attribute.name).Nodup ↔
      as.Pairwise fun a b => ∀ x, ofTemplate? a = some x → ∀ y, ofTemplate? b = some y → x.name ≠ y.name := by
    rw [List.Nodup, pairwise_map, pairwise_filterMap]
  rw [List.Nodup, pairwise_map] at h
  rw [hpairs]
  constructor
  · intro hp
    have htold : as.Pairwise ToldApart := by
      refine hp.imp ?_
      intro a b hab name ha hb
      obtain ⟨x, hx, rfl⟩ := mem_spellings_iff.mp ha
      obtain ⟨y, hy, hname⟩ := mem_spellings_iff.mp hb
      exact absurd hname.symm (hab x hx y hy)
    exact htold.forall_of_forall fun a ha name _ _ => rfl
  · intro htold
    refine h.imp_of_mem ?_
    intro a b ha hb hne x hx y hy hname
    exact hne (htold a ha b hb y.name (mem_spellings_iff.mpr ⟨x, hx, hname⟩)
      (mem_spellings_iff.mpr ⟨y, hy, rfl⟩))

theorem parse_attributes_named {source : Text} {keepComments : Bool} {root x : Element}
    (h : parse source keepComments = (some root, [])) (hx : x ∈ root.elements) :
    ∀ a ∈ x.tag.attributes.filterMap ofTemplate?, a.Named := by
  cases x with
  | mk tag children branches =>
    have hitem := named_ownItems (parse_sited h _ hx) 0 (.openTag (innerDepth 0 tag) tag.name
      (tag.attributes.filterMap ofTemplate?) (isClosed tag children)) (by simp [ownItems])
    exact hitem.2

/-- The attributes of an element are written under distinct names just when no two of them are
spellings of one name. -/
theorem written_names_nodup_iff {source : Text} {keepComments : Bool} {root : Element}
    (h : parse source keepComments = (some root, [])) (p : Preferences) :
    ∀ x ∈ root.elements, ((x.tag.attributes.filterMap ofTemplate?).map fun a => writtenName (a.text p)).Nodup ↔
        ∀ a ∈ x.tag.attributes, ∀ b ∈ x.tag.attributes, ToldApart a b := by
  intro x hx
  have hnames := parse_attributes_named h hx
  have hwritten : (x.tag.attributes.filterMap ofTemplate?).map (fun a => writtenName (a.text p)) =
      (x.tag.attributes.filterMap ofTemplate?).map Attribute.name :=
    map_congr_left fun a ha => writtenName_text (hnames a ha)
  rw [hwritten]
  exact nodup_names_iff (parse_proper (by rw [h]) x hx).names

/-- Distinct names in the template, and distinct names as they are written. -/
theorem written_names_nodup_bound : ∃ root,
    parse "<a :title='t' @click='f' on:input='g' title-x='h'></a>" false = (some root, []) ∧
    ∀ x ∈ root.elements, ((x.tag.attributes.filterMap ofTemplate?).map fun a =>
          writtenName (a.text .standard)).Nodup ↔
        ∀ a ∈ x.tag.attributes, ∀ b ∈ x.tag.attributes, ToldApart a b := by
  obtain ⟨root, h⟩ : ∃ root, parse "<a :title='t' @click='f' on:input='g' title-x='h'></a>" false = (some root, []) :=
    ⟨_, rfl⟩
  exact ⟨root, h, written_names_nodup_iff h .standard⟩

/-- Two ways to bind one name, and an event that is handled beside a plain attribute: each time the
written element has two attributes of one name. -/
theorem written_names_repeated : (∃ root, parse "<a :title='t' v-bind:title='u'></a>" false = (some root, []) ∧
      (root.tag.attributes.filterMap ofTemplate?).map (fun a => writtenName (a.text .standard)) =
        ["title".toList, "title".toList]) ∧
    ∃ root, parse "<a @click='f' on:click='g'></a>" false = (some root, []) ∧
      (root.tag.attributes.filterMap ofTemplate?).map (fun a => writtenName (a.text .standard)) =
        ["on:click".toList, "on:click".toList] :=
  ⟨⟨_, rfl, rfl⟩, ⟨_, rfl, rfl⟩⟩

end Elements

end ComponentConverter.Svelte
