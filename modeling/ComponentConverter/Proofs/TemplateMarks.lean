import ComponentConverter.Component
import ComponentConverter.Proofs.TagReading

namespace ComponentConverter.Component

open List Markup

variable {v r : Text} {c : Char} {s : Section} {component : Component} {block : Block}

inductive Mark where
  | opens
  | closes
  deriving Repr, DecidableEq

def endsName (c : Char) : Bool := isSpace c || c == '>' || c == '/'

/-- The mark at the head of a text: `</template`, whatever follows, or `<template` and the end of
that name. -/
def markAt? (t : Text) : Option Mark :=
  if templateClosing.isPrefixOf t then some .closes
  else if ((after? templateOpening t).bind List.head?).any endsName then some .opens
  else none

def marks : Text → List Mark
  | [] => []
  | c :: t => (markAt? (c :: t)).toList ++ marks t

/-- As many closings as openings, and nowhere more closings before. -/
def Balanced (ms : List Mark) : Prop :=
  ms.count .closes = ms.count .opens ∧ ∀ k, (ms.take k).count .closes ≤ (ms.take k).count .opens

/-- How many templates are open after some marks, unless one of them closes none. -/
def level : Nat → List Mark → Option Nat
  | depth, [] => some depth
  | depth, .opens :: ms => level (depth + 1) ms
  | 0, .closes :: _ => none
  | depth + 1, .closes :: ms => level depth ms

theorem level_append (depth : Nat) (ms ns : List Mark) :
    level depth (ms ++ ns) = (level depth ms).bind (level · ns) := by
  induction ms generalizing depth with
  | nil => rfl
  | cons m ms ih =>
    cases m with
    | opens => exact ih (depth + 1)
    | closes =>
      cases depth with
      | zero => rfl
      | succ depth => exact ih depth

theorem forall_take_cons {m : Mark} {ms : List Mark} {P : List Mark → Prop} :
    (∀ k, P ((m :: ms).take k)) ↔ P [] ∧ ∀ k, P (m :: ms.take k) := by
  constructor
  · intro h
    exact ⟨h 0, fun k => h (k + 1)⟩
  · rintro ⟨h0, h⟩ k
    cases k with
    | zero => exact h0
    | succ k => exact h k

theorem level_eq_zero_iff (depth : Nat) (ms : List Mark) :
    level depth ms = some 0 ↔ ms.count .closes = depth + ms.count .opens ∧
      ∀ k, (ms.take k).count .closes ≤ depth + (ms.take k).count .opens := by
  induction ms generalizing depth with
  | nil => simpa [level] using eq_comm
  | cons m ms ih =>
    rw [forall_take_cons (P := fun l => l.count .closes ≤ depth + l.count .opens)]
    cases m with
    | opens =>
      have hc : ∀ l : List Mark, (Mark.opens :: l).count .closes = l.count .closes := by simp
      have ho : ∀ l : List Mark, (Mark.opens :: l).count .opens = l.count .opens + 1 := by simp
      simp only [level, ih, hc, ho, count_nil]
      constructor
      · rintro ⟨h, hk⟩
        exact ⟨by omega, by omega, fun k => by have := hk k; omega⟩
      · rintro ⟨h, -, hk⟩
        exact ⟨by omega, fun k => by have := hk k; omega⟩
    | closes =>
      have hc : ∀ l : List Mark, (Mark.closes :: l).count .closes = l.count .closes + 1 := by
        simp
      have ho : ∀ l : List Mark, (Mark.closes :: l).count .opens = l.count .opens := by simp
      simp only [hc, ho, count_nil]
      cases depth with
      | zero =>
        simp only [level, reduceCtorEq, false_iff]
        rintro ⟨-, -, hk⟩
        have h0 := hk 0
        simp at h0
      | succ depth =>
        rw [level, ih]
        constructor
        · rintro ⟨h, hk⟩
          exact ⟨by omega, by omega, fun k => by have := hk k; omega⟩
        · rintro ⟨h, -, hk⟩
          exact ⟨by omega, fun k => by have := hk k; omega⟩

theorem level_zero_iff_balanced (ms : List Mark) : level 0 ms = some 0 ↔ Balanced ms := by
  rw [level_eq_zero_iff, Balanced]
  simp

instance (ms : List Mark) : Decidable (Balanced ms) := decidable_of_iff _ (level_zero_iff_balanced ms)

/-- A text that does not go on with what is missing of a tag cut off before it. -/
def Severs (r : Text) : Prop := ∀ x, x ≠ [] → x <+: r → ¬ x <:+ "/template"

theorem severs_cons {y : Char} (hy : y ∉ "/template".toList) (r : Text) : Severs (y :: r) := by
  intro x hne hp hs
  cases x with
  | nil => exact hne rfl
  | cons z x =>
    obtain ⟨rfl, -⟩ := cons_prefix_cons.mp hp
    exact hy (hs.subset mem_cons_self)

theorem severs_nil : Severs [] := by
  intro x hne hp
  exact absurd (prefix_nil.mp hp) hne

theorem severs_selfClose (r : Text) : Severs ('/' :: '>' :: r) := by
  intro x hne hp hs
  rcases x with _ | ⟨y, _ | ⟨z, x⟩⟩
  · exact hne rfl
  · obtain ⟨rfl, -⟩ := cons_prefix_cons.mp hp
    exact absurd hs (by decide)
  · obtain ⟨rfl, hz⟩ := cons_prefix_cons.mp hp
    obtain ⟨rfl, -⟩ := cons_prefix_cons.mp hz
    exact absurd (hs.subset (mem_cons_of_mem _ mem_cons_self)) (by decide)

theorem prefix_of_prefix_append {pat : Text} (hr : Severs r) (hv : v ≠ [])
    (ht : pat.tail <:+ "/template") (h : pat <+: v ++ r) : pat <+: v := by
  by_cases hl : pat.length ≤ v.length
  · exact prefix_of_prefix_length_le h (prefix_append v r) hl
  · obtain ⟨x, rfl⟩ := prefix_of_prefix_length_le (prefix_append v r) h (by omega)
    have hx : x ≠ [] := by
      rintro rfl
      simp at hl
    have hs : x <:+ (v ++ x).tail := by
      rw [tail_append_of_ne_nil hv]
      exact suffix_append _ x
    exact absurd (hs.trans ht) (hr x hx ((prefix_append_right_inj v).mp h))

theorem isPrefixOf_append {pat : Text} (hr : Severs r) (hv : v ≠ []) (ht : pat.tail <:+ "/template") :
    pat.isPrefixOf (v ++ r) = pat.isPrefixOf v := by
  rw [Bool.eq_iff_iff, isPrefixOf_iff_prefix, isPrefixOf_iff_prefix]
  exact ⟨prefix_of_prefix_append hr hv ht, fun h => h.trans (prefix_append v r)⟩

theorem severs_lt (r : Text) : Severs ('<' :: r) := severs_cons (by decide) r

theorem opensTemplate_append_lt (hv : v ≠ []) (r : Text) (hc : templateClosing.isPrefixOf v = false) :
    opensTemplate (v ++ '<' :: r) = (markAt? v == some .opens) := by
  rw [opensTemplate, markAt?, hc, after?, isPrefixOf_append (severs_lt r) hv (by decide)]
  cases hp : templateOpening.isPrefixOf v with
  | false => rfl
  | true =>
    have hl := (List.isPrefixOf_iff_prefix.mp hp).length_le
    rw [drop_append_of_le_length hl]
    cases v.drop templateOpening.length with
    | nil => rfl
    | cons c t =>
      simp only [cons_append, Bool.true_and, Bool.false_eq_true, if_false, if_true,
        Option.bind_some, head?_cons, Option.any_some, endsName]
      cases isSpace c || c == '>' || c == '/' <;> rfl

theorem templateContent?_cons (depth : Nat) (c : Char) (t : Text) : templateContent? depth (c :: t) =
      if templateClosing.isPrefixOf (c :: t) then
        match depth with
        | 0 => some []
        | depth + 1 => (templateContent? depth t).map (c :: ·)
      else if opensTemplate (c :: t) then (templateContent? (depth + 1) t).map (c :: ·)
      else (templateContent? depth t).map (c :: ·) := by
  cases depth <;> rfl

theorem markAt?_eq_closes_iff (t : Text) : markAt? t = some .closes ↔ templateClosing.isPrefixOf t = true := by
  rw [markAt?]
  split
  next h => simp [h]
  next h =>
    split <;> simp [h]

/-- The scanner takes a text for the content of a template exactly if the marks in it lead back to
the level where they start. -/
theorem templateContent?_eq_some_iff (t r : Text) (depth : Nat) :
    templateContent? depth (t ++ (templateClosing ++ r)) = some t ↔ level depth (marks t) = some 0 := by
  obtain ⟨u, hu⟩ : ∃ u, templateClosing ++ r = '<' :: u := ⟨_, rfl⟩
  have hend : templateClosing.isPrefixOf ('<' :: u) = true := by
    rw [← hu, isPrefixOf_iff_prefix]
    exact prefix_append _ r
  rw [hu]
  induction t generalizing depth with
  | nil =>
    rw [nil_append, templateContent?_cons, if_pos hend]
    cases depth with
    | zero => exact iff_of_true rfl rfl
    | succ depth =>
      have hl : level (depth + 1) (marks []) ≠ some 0 := by simp [marks, level]
      simpa using hl
  | cons c t ih =>
    have hne : c :: t ≠ [] := by simp
    have hclosing := @isPrefixOf_append _ _ templateClosing (severs_lt u) hne (by decide)
    rw [cons_append] at hclosing
    rw [cons_append, templateContent?_cons, hclosing, marks]
    by_cases hc : templateClosing.isPrefixOf (c :: t) = true
    · rw [if_pos hc, (markAt?_eq_closes_iff _).mpr hc]
      cases depth with
      | zero => simp [level]
      | succ depth => simpa [level] using ih depth
    · have hopen := opensTemplate_append_lt hne u (Bool.eq_false_iff.mpr hc)
      rw [cons_append] at hopen
      rw [if_neg hc, hopen]
      cases hm : markAt? (c :: t) with
      | none => simpa using ih depth
      | some m =>
        cases m with
        | opens => simpa [level] using ih (depth + 1)
        | closes => exact absurd ((markAt?_eq_closes_iff _).mp hm) hc

theorem markAt?_eq_none {t : Text} (hc : ¬ templateClosing <+: t) (ho : ¬ templateOpening <+: t) :
    markAt? t = none := by
  rw [← isPrefixOf_iff_prefix, Bool.not_eq_true] at hc ho
  rw [markAt?, hc, after?, ho]
  rfl

theorem markAt?_cons_of_ne (hc : c ≠ '<') (t : Text) : markAt? (c :: t) = none := by
  refine markAt?_eq_none ?_ ?_ <;> exact fun h => hc (cons_prefix_cons.mp h).1.symm

theorem marks_cons_of_ne (hc : c ≠ '<') (t : Text) : marks (c :: t) = marks t := by
  rw [marks, markAt?_cons_of_ne hc]
  rfl

theorem marks_append_of_not_mem {s : Text} (h : '<' ∉ s) (r : Text) : marks (s ++ r) = marks r := by
  induction s with
  | nil => rfl
  | cons c s ih =>
    simp only [mem_cons, not_or] at h
    rw [cons_append, marks_cons_of_ne (Ne.symm h.1), ih h.2]

def Mentions (t : Text) : Prop := templateOpening <:+: t ∨ templateClosing <:+: t

instance (t : Text) : Decidable (Mentions t) :=
  decidable_of_iff
    ((breakOn? templateOpening t).isSome = true ∨ (breakOn? templateClosing t).isSome = true)
    (or_congr isSome_breakOn?_iff isSome_breakOn?_iff)

/-- Where no tag is mentioned there is no mark, if no tag is cut off at the end either. -/
theorem marks_append_of_not_mentions (hv : ¬ Mentions v) (hr : Severs r) : marks (v ++ r) = marks r := by
  induction v with
  | nil => rfl
  | cons c v ih =>
    have hne : c :: v ≠ [] := by simp
    have hm : markAt? (c :: v ++ r) = none := by
      apply markAt?_eq_none
      · intro h
        exact hv (.inr (prefix_of_prefix_append hr hne (by decide) h).isInfix)
      · intro h
        exact hv (.inl (prefix_of_prefix_append hr hne (by decide) h).isInfix)
    have hv' : ¬ Mentions v := fun h => hv (h.imp infix_cons infix_cons)
    rw [cons_append] at hm
    rw [cons_append, marks, hm, ih hv']
    rfl

def enclosed (t : Text) : Text := "<template>" ++ (t ++ "</template>")

/-- A text between template tags makes up a block: nothing is wrong with it, and the text is the
content of the block. -/
def Holds (t : Text) : Prop :=
  (parse (enclosed t)).2 = [] ∧ (parse (enclosed t)).1.template.map Block.content = some t

theorem ofSections_template (h : component.template = some block) (sections : List Section) :
    (ofSections component sections).1.template = some block := by
  induction sections generalizing component with
  | nil => exact h
  | cons s rest ih =>
    rw [ofSections]
    cases hb : s.block with
    | none => exact ih h
    | some tb =>
      apply ih
      rw [store]
      split
      · simp [h]
      · split
        · split <;> exact h
        · split <;> exact h

theorem ofSections_faults {rest : List Section} (h : (ofSections component (s :: rest)).2 = []) : s.faults = [] := by
  rw [ofSections] at h
  simp only [append_eq_nil_iff] at h
  exact h.1.1

theorem readSection_enclosed (t : Text) : readSection (.start (enclosed t)) =
      match templateContent? 0 (t ++ "</template>") with
      | none => some (unclosedBlock "template" 0 [] ⟨t ++ "</template>", 10⟩)
      | some content =>
        let (closing, after) :=
          ((Cursor.mk (t ++ "</template>") 10).advanceTo (10 + bytes content)).closingTag
        some (⟨some ("template",
          ⟨content, ⟨10, 10 + bytes content⟩, [], ⟨0, after.pos⟩⟩), closing.faults⟩, after) := by
  have hopen := Cursor.next_mark ("template" ++ '>' :: (t ++ "</template>")) 0
    (y := '<') (k := .tagOpen) rfl rfl rfl
  have hname : (Cursor.mk ("template" ++ '>' :: (t ++ "</template>")) 1).next =
      some (⟨.name, "template", 1⟩, ⟨'>' :: (t ++ "</template>"), 9⟩) :=
    Cursor.next_name (g := []) (l := "template") (r := '>' :: (t ++ "</template>"))
      (p := 1) (by simp) rfl (by rintro c ⟨⟩; rfl)
  have htag : (Cursor.mk ('>' :: (t ++ "</template>")) 9).startTag = (⟨[], .opened, []⟩, ⟨t ++ "</template>", 10⟩) :=
    @Cursor.startTag_written [] (by simp) (by simp) _ 9
  have hstart : Cursor.start (enclosed t) = ⟨'<' :: ("template" ++ '>' :: (t ++ "</template>")), 0⟩ := rfl
  rw [hstart, readSection, Cursor.kind_of_next hopen]
  rw [readBlock, Cursor.current_of_next hopen, Cursor.advance_of_next hopen]
  rw [if_pos (Cursor.kind_of_next hname), Cursor.current_of_next hname, Cursor.advance_of_next hname, htag]
  dsimp only
  rw [content?, if_pos rfl]
  cases templateContent? 0 (t ++ "</template>") <;> rfl

theorem parse_enclosed {t : Text} {d : Cursor} (h : readSection (.start (enclosed t)) = some (s, d)) :
    ∃ rest, parse (enclosed t) = ofSections ⟨none, none, []⟩ (s :: rest) := by
  obtain ⟨n, hn⟩ : ∃ n, (enclosed t).length = n + 1 := ⟨_, rfl⟩
  refine ⟨(exhaust readSection n d).1, ?_⟩
  rw [parse, hn, exhaust, h]

theorem template_ofSections (h : s.block = some ("template".toList, block)) (rest : List Section) :
    (ofSections ⟨none, none, []⟩ (s :: rest)).1.template = some block := by
  rw [ofSections, h]
  exact ofSections_template rfl rest

theorem closingTag_enclosed (t : Text) (p : Nat) :
    ∃ span q, ((Cursor.mk (t ++ "</template>") p).advanceTo (p + bytes t)).closingTag =
      (⟨"template", span, []⟩, ⟨[], q⟩) := by
  obtain ⟨u, g, -, hg, ha⟩ := Cursor.advanceTo_of_cut (p := p)
    (Cursor.cut_of_head t "/template>")
  obtain ⟨span, hc⟩ := @Cursor.closingTag_written g "template" hg rfl [] (p + bytes u)
  exact ⟨span, _, ha ▸ hc⟩

theorem holds_iff_content (t : Text) : Holds t ↔ templateContent? 0 (t ++ "</template>") = some t := by
  have hread := readSection_enclosed t
  constructor
  · rintro ⟨hf, hc⟩
    cases ht : templateContent? 0 (t ++ "</template>") with
    | none =>
      rw [ht] at hread
      obtain ⟨rest, hp⟩ := parse_enclosed hread
      rw [hp] at hf
      exact absurd (ofSections_faults hf) (by simp)
    | some content =>
      rw [ht] at hread
      obtain ⟨rest, hp⟩ := parse_enclosed hread
      rw [hp, template_ofSections rfl rest] at hc
      exact hc
  · intro ht
    obtain ⟨span, q, hclose⟩ := closingTag_enclosed t 10
    rw [ht] at hread
    dsimp only at hread
    rw [hclose] at hread
    have hstop : readSection ⟨[], q⟩ = none := rfl
    have hlen : 1 ≤ (enclosed t).length := Nat.succ_le_succ (Nat.zero_le _)
    rw [Holds, parse, exhaust_eq_of_run (.single hread) hstop hlen]
    exact ⟨rfl, rfl⟩

theorem holds_iff_balanced (t : Text) : Holds t ↔ Balanced (marks t) := by
  rw [holds_iff_content, ← level_zero_iff_balanced, ← templateContent?_eq_some_iff t ['>'] 0]
  rfl

instance (t : Text) : Decidable (Holds t) := decidable_of_iff _ (holds_iff_balanced t).symm

end ComponentConverter.Component
