import ComponentConverter.Proofs.PieceMarks
import ComponentConverter.Proofs.TreeShape

namespace ComponentConverter.Template

open List Markup Component

variable {b : Build} {tag : StartTag} {stop start : Nat} {name s : Text} {p : Piece} {pieces : List Piece}

namespace Build

def names (b : Build) : List Text := b.opened.map OpenElement.name

theorem names_push (b : Build) (n : Node) : (b.push n).names = b.names := by
  rw [push]
  split <;> simp_all [names]

theorem faultless_of_report {faults : List Fault} (h : (b.report faults).faults = []) : b.faults = [] ∧ faults = [] :=
  append_eq_nil_iff.mp h

theorem pushElement_eq_push {tag : Tag} {children : List Node} (h : (b.pushElement tag children).faults = []) :
    b.faults = [] ∧ b.pushElement tag children = b.push (.element (.mk tag children [])) := by
  rw [pushElement] at h ⊢
  split at h
  · cases (faultless_of_report h).2
  next hforbidden =>
    rw [if_neg hforbidden]
    rw [faults_push] at h
    split at h
    · split at h
      · cases (faultless_of_report h).2
      next hloop => exact ⟨h, by rw [if_neg hloop]⟩
    · exact ⟨h, rfl⟩

theorem close_eq_push {e : OpenElement} {outer : List OpenElement} {closing : List Fault}
    (h : (b.close e outer closing stop).faults = []) :
    b.faults = [] ∧ (chainBranches e.children.reverse).2 = [] ∧ closing = [] ∧
      b.close e outer closing stop = push { b with opened := outer }
        (.element (.mk ⟨e.name, e.attributes, ⟨e.start, stop⟩⟩ (chainBranches e.children.reverse).1 [])) := by
  have hclose : b.close e outer closing stop =
      (report { b with opened := outer } ((chainBranches e.children.reverse).2 ++ closing)).pushElement
        ⟨e.name, e.attributes, ⟨e.start, stop⟩⟩ (chainBranches e.children.reverse).1 := rfl
  rw [hclose] at h ⊢
  obtain ⟨hreport, heq⟩ := pushElement_eq_push h
  obtain ⟨hb, hall⟩ := faultless_of_report hreport
  obtain ⟨hchained, hclosing⟩ := append_eq_nil_iff.mp hall
  rw [heq, hall, report_nil]
  exact ⟨hb, hchained, hclosing, rfl⟩

end Build

/-- What a piece makes of the names of the open elements, unless it closes none of them. -/
def Piece.turn (names : List Text) : Piece → Option (List Text)
  | .opening name _ tag _ =>
    some (if tag.tagEnd = .opened ∧ isVoid name = false then name :: names else names)
  | .closing tag _ =>
    match names with
    | [] => none
    | name :: outer => if sameLetters tag.name name then some outer else none
  | _ => some names

namespace Build

variable {keepComments : Bool} {last : Nat}

/-- What a step without faults does. -/
inductive Advance (keepComments : Bool) (b : Build) : Piece → Build → Prop
  | text (raw : Text) (span : Span) : Advance keepComments b (.text raw span) (b.push (.text raw span))
  | kept (note : Comment) (h : keepComments = true) :
      Advance keepComments b (.comment note) (b.push (.comment note.body note.span))
  | passed (note : Comment) (h : keepComments = false) : Advance keepComments b (.comment note) b
  | childless {name : Text} {start stop : Nat} {tag : StartTag} (h : ¬ (tag.tagEnd = .opened ∧ isVoid name = false)) :
      Advance keepComments b (.opening name start tag stop)
        (b.push (.element (.mk ⟨name, tag.attributes, ⟨start, stop⟩⟩ [] [])))
  | enters {name : Text} {start stop : Nat} {tag : StartTag} (h : tag.tagEnd = .opened ∧ isVoid name = false) :
      Advance keepComments b (.opening name start tag stop)
        { b with opened := ⟨name, tag.attributes, start, []⟩ :: b.opened }
  | leaves {tag : ClosingTag} {stop : Nat} {e : OpenElement} {outer : List OpenElement}
      (ho : b.opened = e :: outer) (hs : sameLetters tag.name e.name = true)
      (hc : (chainBranches e.children.reverse).2 = []) :
      Advance keepComments b (.closing tag stop)
        (push { b with opened := outer }
          (.element (.mk ⟨e.name, e.attributes, ⟨e.start, stop⟩⟩ (chainBranches e.children.reverse).1 [])))

theorem advance_opening (h : (b.step keepComments last (.opening name start tag stop)).faults = []) :
    b.faults = [] ∧ (tag.faults = [] ∧ tag.tagEnd ≠ .cutOff) ∧ Advance keepComments b (.opening name start tag stop)
        (b.step keepComments last (.opening name start tag stop)) := by
  rw [step] at h ⊢
  have hchildless (h : ((b.report tag.faults).pushElement ⟨name, tag.attributes, ⟨start, stop⟩⟩ []).faults = []) :
      b.faults = [] ∧ tag.faults = [] ∧ (b.report tag.faults).pushElement ⟨name, tag.attributes, ⟨start, stop⟩⟩ [] =
        b.push (.element (.mk ⟨name, tag.attributes, ⟨start, stop⟩⟩ [] [])) := by
    obtain ⟨hreport, heq⟩ := pushElement_eq_push h
    obtain ⟨hb, hf⟩ := faultless_of_report hreport
    rw [hf, report_nil] at heq ⊢
    exact ⟨hb, rfl, heq⟩
  cases hend : tag.tagEnd with
  | cutOff =>
    simp only [hend] at h
    cases (faultless_of_report (pushElement_eq_push h).1).2
  | selfClosed =>
    simp only [hend] at h ⊢
    obtain ⟨hb, hf, heq⟩ := hchildless h
    rw [heq]
    exact ⟨hb, ⟨hf, by simp⟩, .childless (by simp [hend])⟩
  | opened =>
    simp only [hend] at h ⊢
    split at h
    next hv =>
      obtain ⟨hb, hf, heq⟩ := hchildless h
      rw [if_pos hv, heq]
      exact ⟨hb, ⟨hf, by simp⟩, .childless (by simp [hv])⟩
    next hv =>
      obtain ⟨hb, hf⟩ := faultless_of_report h
      rw [if_neg hv, hf, report_nil]
      exact ⟨hb, ⟨rfl, by simp⟩, .enters ⟨hend, by simpa using hv⟩⟩

theorem advance_of_step (h : (b.step keepComments last p).faults = []) :
    b.faults = [] ∧ p.Faultless ∧ Advance keepComments b p (b.step keepComments last p) := by
  cases p with
  | text raw span =>
    rw [step, faults_push] at h
    exact ⟨h, trivial, .text raw span⟩
  | nameless fault => cases (faultless_of_report h).2
  | comment note =>
    rw [step] at h ⊢
    cases keepComments with
    | true =>
      obtain ⟨hb, hf⟩ := faultless_of_report ((faults_push _ _).symm.trans h)
      rw [hf, report_nil]
      exact ⟨hb, hf, .kept note rfl⟩
    | false =>
      obtain ⟨hb, hf⟩ := faultless_of_report h
      rw [hf, report_nil]
      exact ⟨hb, hf, .passed note rfl⟩
  | opening name start tag stop => exact advance_opening h
  | closing tag stop =>
    rw [step] at h ⊢
    cases ho : b.opened with
    | nil =>
      simp only [ho] at h
      cases (append_eq_nil_iff.mp (faultless_of_report h).2).2
    | cons e outer =>
      simp only [ho] at h ⊢
      obtain ⟨hb, hchained, hclosing, heq⟩ := close_eq_push h
      obtain ⟨hf, hm⟩ := append_eq_nil_iff.mp hclosing
      have hs : sameLetters tag.name e.name = true := by
        rw [mismatch] at hm
        split at hm
        next hs => exact hs
        · cases hm
      rw [heq]
      exact ⟨hb, hf, .leaves ho hs hchained⟩

theorem names_advance {b' : Build} (h : Advance keepComments b p b') : p.turn b.names = some b'.names := by
  cases h with
  | text raw span | kept note _ =>
    rw [names_push]
    rfl
  | passed note _ => rfl
  | childless h => rw [Piece.turn, if_neg h, names_push]
  | enters h =>
    rw [Piece.turn, if_pos h]
    rfl
  | leaves ho hs hc =>
    rw [names_push, names, ho, map_cons, Piece.turn, if_pos hs]
    rfl

end Build

/-- Among some names, the one of templates is the only one that starts like it. -/
def Distinct (names : List Text) : Prop := ∀ name ∈ names, likeTemplate name = true → name = "template"

theorem likeTemplate_template : likeTemplate "template" = true := by decide

theorem likeTemplate_of_sameLetters {t : Text} (h : sameLetters s t = true) : likeTemplate s = likeTemplate t := by
  have hm : s.map Char.toLower = t.map Char.toLower := of_decide_eq_true h
  rw [likeTemplate, likeTemplate, hm]

/-- If a template is opened, its tag is neither cut off nor closed by itself, and it is not void. -/
theorem opens_template (hf : (Piece.opening name start tag stop).Faultless)
    (hu : (Piece.opening name start tag stop).Unambiguous) (ht : name = "template") :
    tag.tagEnd = .opened ∧ isVoid name = false := by
  subst ht
  refine ⟨?_, by decide⟩
  cases hend : tag.tagEnd with
  | opened => rfl
  | selfClosed => exact absurd hend (hu.1 likeTemplate_template).2
  | cutOff => exact absurd hend hf.2

theorem eq_template_iff {t : Text} (h : sameLetters s t = true)
    (hs : likeTemplate s = true → s = "template") (ht : likeTemplate t = true → t = "template") :
    s = "template" ↔ t = "template" := by
  have hl := likeTemplate_of_sameLetters h
  constructor
  · rintro rfl
    exact ht (by rw [← hl]; exact likeTemplate_template)
  · rintro rfl
    exact hs (by rw [hl]; exact likeTemplate_template)

theorem level_turn {names turned : List Text} (hf : p.Faultless)
    (hu : p.Unambiguous) (hn : Distinct names) (h : p.turn names = some turned) :
    level (names.count "template".toList) p.marks = some (turned.count "template".toList) ∧ Distinct turned := by
  cases p with
  | text raw span | comment note | nameless fault =>
    obtain rfl : names = turned := Option.some.inj h
    exact ⟨rfl, hn⟩
  | opening name start tag stop =>
    obtain rfl := Option.some.inj h
    rw [Piece.marks]
    by_cases ht : name = "template"
    · rw [if_pos ht, if_pos (opens_template hf hu ht), ht, count_cons_self]
      exact ⟨rfl, forall_mem_cons.mpr ⟨fun _ => rfl, hn⟩⟩
    · rw [if_neg ht]
      split
      · rw [count_cons_of_ne ht]
        exact ⟨rfl, forall_mem_cons.mpr ⟨fun hl => (hu.1 hl).1, hn⟩⟩
      · exact ⟨rfl, hn⟩
  | closing tag stop =>
    cases names with
    | nil => simp [Piece.turn] at h
    | cons name outer =>
      obtain ⟨hname, houter⟩ := forall_mem_cons.mp hn
      rw [Piece.turn] at h
      split at h
      next hs =>
        obtain rfl := Option.some.inj h
        have ht := eq_template_iff hs hu hname
        refine ⟨?_, houter⟩
        rw [Piece.marks]
        by_cases hm : name = "template"
        · rw [if_pos (ht.mpr hm), hm, count_cons_self]
          rfl
        · rw [if_neg (mt ht.mp hm), count_cons_of_ne hm]
          rfl
      · simp at h

namespace Build

variable {keepComments : Bool} {last : Nat}

theorem faultless_of_foldl (h : (pieces.foldl (step keepComments last) b).faults = []) :
    b.faults = [] ∧ ∀ p ∈ pieces, p.Faultless := by
  induction pieces generalizing b with
  | nil => exact ⟨h, by simp⟩
  | cons p pieces ih =>
    obtain ⟨hs, hps⟩ := ih h
    obtain ⟨hb, hp, -⟩ := advance_of_step hs
    exact ⟨hb, forall_mem_cons.mpr ⟨hp, hps⟩⟩

theorem level_foldl (h : (pieces.foldl (step keepComments last) b).faults = [])
    (hu : ∀ p ∈ pieces, p.Unambiguous) (hn : Distinct b.names) :
    level (b.names.count "template".toList) (pieces.flatMap Piece.marks) =
      some ((pieces.foldl (step keepComments last) b).names.count "template".toList) := by
  induction pieces generalizing b with
  | nil => rfl
  | cons p pieces ih =>
    obtain ⟨hup, hu⟩ := forall_mem_cons.mp hu
    rw [foldl_cons] at h ⊢
    obtain ⟨-, hp, ha⟩ := advance_of_step (faultless_of_foldl h).1
    obtain ⟨hl, hd⟩ := level_turn hp hup hn (names_advance ha)
    rw [flatMap_cons, level_append, hl]
    exact ih h hu hd

theorem faultless_of_finish {es : List OpenElement}
    (h : (b.finish last stop es).faults = []) : b.faults = [] ∧ (es = [] ∨ b.opened = []) := by
  induction es generalizing b with
  | nil => exact ⟨h, .inl rfl⟩
  | cons e es ih =>
    rw [finish] at h
    split at h
    next ho => exact ⟨h, .inr ho⟩
    · cases (close_eq_push (ih h).1).2.2.1

theorem ofSource_faultless {source : Text} (h : (parse source keepComments).2 = []) :
    (ofSource source keepComments).faults = [] := by
  rw [parse_eq] at h
  dsimp only at h
  split at h
  · simp at h
  · exact (append_eq_nil_iff.mp (append_eq_nil_iff.mp h).1).1

end Build

/-- A text between template tags makes up a template block exactly if its marks are balanced. For
a template without faults they are, if each of its template tags is unambiguous. -/
theorem template_end_agrees {t : Text} {keepComments : Bool} (h : (parse t keepComments).2 = []) :
    (Holds t ↔ Balanced (Component.marks t)) ∧ ((∀ p ∈ (Piece.all t).1, p.Unambiguous) → Holds t) := by
  refine ⟨holds_iff_balanced t, fun hu => ?_⟩
  obtain ⟨hf, ho⟩ := Build.faultless_of_finish (Build.ofSource_faultless h)
  have hl := Build.level_foldl hf hu (by simp [Build.names, Distinct])
  rw [← marks_all (Build.faultless_of_foldl hf).2 hu, Build.names, Build.names, or_self_iff.mp ho]
    at hl
  exact (holds_iff_balanced t).mpr ((level_zero_iff_balanced _).mp hl)

theorem template_end_agrees_nested :
    let t := "<div><template v-if=\"a\"><!-- <p> --><p></p></template></div>".toList
    (parse t true).2 = [] ∧ (∀ p ∈ (Piece.all t).1, p.Unambiguous) ∧ Holds t := by
  intro t
  obtain ⟨h, hu⟩ : (parse t true).2 = [] ∧ ∀ p ∈ (Piece.all t).1, p.Unambiguous := by decide +kernel
  exact ⟨h, hu, (template_end_agrees h).2 hu⟩

/-- A template closed by itself, a longer name and a tag in a comment all move the end of the
block. -/
theorem template_end_moved : ((parse "<div><template v-slot:x/></div>" false).2 = [] ∧
        ¬ Holds "<div><template v-slot:x/></div>") ∧
      ((parse "<template-list></template-list>" false).2 = [] ∧ ¬ Holds "<template-list></template-list>") ∧
      (parse "<div><!-- </template> --></div>" false).2 = [] ∧
        ¬ Holds "<div><!-- </template> --></div>" := by
  decide +kernel

end ComponentConverter.Template
