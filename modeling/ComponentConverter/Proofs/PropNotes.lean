import ComponentConverter.Proofs.EmittedStatements
import ComponentConverter.Proofs.Trimming
import Mathlib.Data.List.TakeWhile

namespace ComponentConverter.Options

open List Script

/-- The texts of the source that the comment behind the declaration of a prop copies. -/
def copiedTexts (s : Source) (field : Member) : List Text :=
  match field.bare? with
  | some (.mk (.name type) _ _) => [type.toList]
  | some n@(.mk .array _ _) => (n.elements.map elementValue).map fun t => s.textOf t.span
  | some (.mk .object _ fields) => ((PropSpec.ofFields fields).type.map fun t => s.textOf t.span).toList
  | _ => []

def OneLine (t : Text) : Prop := ∀ c ∈ t, isLineEnd c = false

instance (t : Text) : Decidable (OneLine t) :=
  decidable_of_iff (t.all (!isLineEnd ·)) (by simp only [all_eq_true, Bool.not_eq_true', OneLine])

def firstLine (t : Text) : Text := t.takeWhile (!isLineEnd ·)

def spill (t : Text) : Text := t.dropWhile (!isLineEnd ·)

section Lines

variable {t u : Text}

@[simp] theorem oneLine_nil : OneLine [] := fun _ hc => nomatch hc

@[simp] theorem oneLine_append : OneLine (t ++ u) ↔ OneLine t ∧ OneLine u := forall_mem_append

theorem oneLine_intercalate {separator : Text} (hs : OneLine separator) (ts : List Text) :
    OneLine (separator.intercalate ts) ↔ ∀ t ∈ ts, OneLine t := by
  cases ts with
  | nil => simp
  | cons t ts =>
    have hrest : OneLine (ts.flatMap (separator ++ ·)) ↔ ∀ u ∈ ts, OneLine u := by
      simp only [OneLine] at hs ⊢
      grind
    rw [intercalate_cons, oneLine_append, hrest, forall_mem_cons]

theorem oneLine_noteOf (remarks : List Text) : OneLine (noteOf remarks) ↔ ∀ t ∈ remarks, OneLine t := by
  unfold noteOf
  split
  next h => simp [List.isEmpty_iff.mp h]
  · rw [oneLine_append, oneLine_intercalate (by decide), and_iff_right (by decide)]

theorem spill_eq_nil_iff : spill t = [] ↔ OneLine t := by simp [spill, OneLine]

theorem firstLine_append_spill (t : Text) : firstLine t ++ spill t = t := takeWhile_append_dropWhile

theorem firstLine_append_end (t rest : Text) : firstLine (t ++ '\n' :: rest) = firstLine t := by
  induction t with
  | nil => rfl
  | cons c t ih =>
    unfold firstLine at ih ⊢
    rw [cons_append, takeWhile_cons, takeWhile_cons, ih]

/-- The reader passes a comment up to the first line end in it and goes on from there. -/
theorem skipBlank_comment (body rest : Text) (fuel pos : Nat) (newline : Bool) :
    skipBlank (fuel + 2) (" // " ++ body ++ '\n' :: rest) pos newline =
      skipBlank fuel (spill body ++ '\n' :: rest) (pos + bytes (" // " ++ firstLine body)) newline := by
  have hline : (' ' :: (body ++ '\n' :: rest)).takeWhile (!isLineEnd ·) = ' ' :: firstLine body := by
    exact congrArg _ (firstLine_append_end body rest)
  have hrest : (body ++ '\n' :: rest).drop (firstLine body).length = spill body ++ '\n' :: rest := by
    have hdrop := @drop_left _ (firstLine body) (spill body ++ '\n' :: rest)
    rwa [← append_assoc, firstLine_append_spill] at hdrop
  have hpos : pos + ' '.utf8Size + 2 + bytes (' ' :: firstLine body) = pos + bytes (" // " ++ firstLine body) := by
    rw [bytes_append, show bytes (' ' :: firstLine body) = 1 + bytes (firstLine body) from rfl,
      show bytes " // " = 4 from rfl, show ' '.utf8Size = 1 from rfl]
    omega
  change skipBlank (fuel + 2) (' ' :: '/' :: '/' :: ' ' :: (body ++ '\n' :: rest)) pos newline = _
  rw [skipBlank_character rfl rfl, if_neg (by decide), if_pos (by decide), skipBlank_line, hline, length_cons,
    drop_succ_cons, hrest, hpos]

end Lines

theorem oneLine_propNote (s : Source) (field : Member) :
    OneLine (propNote s field) ↔ ∀ t ∈ copiedTexts s field, OneLine t := by
  unfold propNote copiedTexts
  generalize field.bare? = value
  split
  · rw [oneLine_append, and_iff_right (by decide), forall_mem_singleton]
  · rw [oneLine_append, oneLine_intercalate (by decide), and_iff_right (by decide)]
  next fields =>
    rw [oneLine_noteOf, PropSpec.remarks, forall_mem_append, forall_mem_append, and_assoc]
    refine and_iff_left ⟨?_, ?_⟩
    · split
      · exact forall_mem_singleton.mpr (by decide)
      · simp
    · split
      · exact forall_mem_singleton.mpr (by decide)
      · simp
  · simp

theorem semicolon_of_declaresProp {s : Source} {field : Member} {st : Statement} (h : DeclaresProp s field st) :
    ";" <:+ st.text := by
  cases h with
  | bare => exact ⟨_, rfl⟩
  | prop => exact ⟨_, rfl⟩

/-- Behind the declaration of a prop comes nothing or one comment. It has one line exactly if the texts that it copies
have, and the reader goes on from the first line end in it. -/
theorem prop_note_contained_iff {s : Source} {m : Member} {members : List Node} {text : Text}
    (ho : m.object? = some members) (h : text ∈ (props s m).value) :
    ∃ field ∈ fieldsOf s "props" members, ∃ st note, DeclaresProp s field st ∧ ";" <:+ st.text ∧
      text = st.text ++ note ∧ IsComment note ∧
      (OneLine note ↔ ∀ t ∈ copiedTexts s field, OneLine t) ∧ (spill note = [] ↔ OneLine note) ∧
      (note ≠ [] → ∀ rest fuel pos newline, skipBlank (fuel + 2) (note ++ '\n' :: rest) pos newline =
        skipBlank fuel (spill note ++ '\n' :: rest) (pos + bytes (firstLine note)) newline) := by
  have hprops : props s m = Member.declarations s "props" (declaredProp s) members := by
    unfold Member.object? at ho
    unfold props
    split at ho
    next hb =>
      cases ho
      rw [hb]
    · cases ho
  rw [hprops] at h
  obtain ⟨field, hf, htext⟩ := mem_declarations.mp h
  obtain ⟨st, hst, htext⟩ := declaredProp_eq htext
  refine ⟨field, hf, st, propNote s field, hst, semicolon_of_declaresProp hst, htext, isComment_propNote s field,
    oneLine_propNote s field, spill_eq_nil_iff, ?_⟩
  intro hne rest fuel pos newline
  obtain hnil | ⟨body, hbody⟩ := isComment_propNote s field
  · exact absurd hnil hne
  · rw [← hbody]
    exact skipBlank_comment body rest fuel pos newline

theorem prop_note_contained_required :
    let script := "export default \x7b props: \x7b a: \x7b type: String, required: true \x7d \x7d \x7d".toList
    let s : Source := ⟨script, 0⟩
    let text := "export let a; // String, required".toList
    ∃ m ∈ fieldsOf s "default export" (optionsIn script), ∃ members, m.object? = some members ∧
      text ∈ (props s m).value ∧ ∃ field ∈ fieldsOf s "props" members, ∃ st note, DeclaresProp s field st ∧
        text = st.text ++ note ∧ (OneLine note ↔ ∀ t ∈ copiedTexts s field, OneLine t) := by
  intro script s text
  have hm : ∃ m ∈ fieldsOf s "default export" (optionsIn script), m.object?.isSome ∧ text ∈ (props s m).value := by
    decide +kernel
  obtain ⟨m, hm, ho, ht⟩ := hm
  obtain ⟨members, ho⟩ := Option.isSome_iff_exists.mp ho
  obtain ⟨field, hf, st, note, hst, -, htext, -, hnote, -⟩ := prop_note_contained_iff ho ht
  exact ⟨m, hm, members, ho, ht, field, hf, st, note, hst, htext, hnote⟩

/-- A type of two lines, the second of which is read as code. -/
theorem prop_note_spills :
    let script := "export default \x7b props: \x7b a: \x7b type: [String,\nNumber] \x7d \x7d \x7d".toList
    let note := " // [String,\nNumber]".toList
    (collect ⟨script, 0⟩ (optionsIn script)).value.props = ["export let a;".toList ++ note] ∧ ¬ OneLine note ∧
      (skipBlank 4 (note ++ "\n".toList) 0 false).rest = "Number]\n".toList := by
  decide +kernel

end ComponentConverter.Options
