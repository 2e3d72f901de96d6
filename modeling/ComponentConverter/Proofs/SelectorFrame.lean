import ComponentConverter.Proofs.ByteScanning
import ComponentConverter.Proofs.Trimming

namespace ComponentConverter.Style

open Lexis
open List hiding head

mutual

def Rule.selectors : Rule → List Text
  | .style selectors _ _ => [selectors]
  | .group _ rules _ => selectorsOf rules
  | _ => []

def selectorsOf : List Rule → List Text
  | [] => []
  | r :: rs => r.selectors ++ selectorsOf rs

end

/-- A text with passages that an opening brace follows: what stands before the first, and each
passage with what stands after its brace. -/
structure Cuts where
  before : Text
  passages : List (Text × Text)

namespace Cuts

def text (f : Text → Text) (k : Cuts) : Text := k.before ++ k.passages.flatMap fun p => f p.1 ++ '\x7b' :: p.2

def prepend (t : Text) (k : Cuts) : Cuts := { k with before := t ++ k.before }

theorem text_prepend (f : Text → Text) (t : Text) (k : Cuts) : (k.prepend t).text f = t ++ k.text f := by
  simp [text, prepend]

end Cuts

mutual

/-- Cuts a rule at its selectors; `k` are the cuts of what follows. -/
def Rule.cuts : Rule → Cuts → Cuts
  | .style selectors body isClosed, k =>
    ⟨[], (selectors, body ++ brace isClosed ++ k.before) :: k.passages⟩
  | .group head rules isClosed, k =>
    (cutsOf rules (k.prepend (brace isClosed))).prepend (head ++ ['\x7b'])
  | .space text, k => k.prepend text
  | .statement text, k => k.prepend (text ++ [';'])
  | .block head body isClosed, k => k.prepend (head ++ ['\x7b'] ++ body ++ brace isClosed)
  | .unfinished text, k => k.prepend text

def cutsOf : List Rule → Cuts → Cuts
  | [], k => k
  | r :: rs, k => r.cuts (cutsOf rs k)

end

mutual

theorem text_cuts (f : Text → Text) (r : Rule) (k : Cuts) :
    (r.cuts k).text f = (r.mapSelectors f).text ++ k.text f := by
  cases r with
  | style selectors body isClosed =>
    simp [Rule.cuts, Cuts.text, Rule.mapSelectors, Rule.text]
  | group head rules isClosed =>
    rw [Rule.cuts, Cuts.text_prepend, text_cutsOf, Cuts.text_prepend]
    simp [Rule.mapSelectors, Rule.text]
  | space text | statement text | block head body isClosed | unfinished text =>
    rw [Rule.cuts, Cuts.text_prepend]
    rfl

theorem text_cutsOf (f : Text → Text) (rules : List Rule) (k : Cuts) :
    (cutsOf rules k).text f = textOfRules (mapSelectorsOf f rules) ++ k.text f := by
  cases rules with
  | nil => rfl
  | cons r rs =>
    rw [cutsOf, text_cuts, text_cutsOf, mapSelectorsOf, textOfRules, append_assoc]

end

mutual

theorem passages_cuts (r : Rule) (k : Cuts) :
    (r.cuts k).passages.map Prod.fst = r.selectors ++ k.passages.map Prod.fst := by
  cases r with
  | group head rules isClosed =>
    exact passages_cutsOf rules _
  | _ => rfl

theorem passages_cutsOf (rules : List Rule) (k : Cuts) :
    (cutsOf rules k).passages.map Prod.fst = selectorsOf rules ++ k.passages.map Prod.fst := by
  cases rules with
  | nil => rfl
  | cons r rs => rw [cutsOf, passages_cuts, passages_cutsOf, selectorsOf, append_assoc]

end

def Sheet.cuts (s : Sheet) : Cuts := cutsOf s.rules ⟨s.rest, []⟩

theorem text_mapSelectors (f : Text → Text) (s : Sheet) : (s.mapSelectors f).text = s.cuts.text f := by
  rw [Sheet.cuts, text_cutsOf]
  simp [Sheet.text, Sheet.mapSelectors, Cuts.text]

mutual

theorem mapSelectors_id (r : Rule) : r.mapSelectors id = r := by
  cases r with
  | group head rules isClosed => rw [Rule.mapSelectors, mapSelectorsOf_id]
  | _ => rfl

theorem mapSelectorsOf_id (rules : List Rule) : mapSelectorsOf id rules = rules := by
  cases rules with
  | nil => rfl
  | cons r rs => rw [mapSelectorsOf, mapSelectors_id, mapSelectorsOf_id]

end

theorem text_read (t : Text) : (Sheet.read t).cuts.text id = t := by
  rw [Sheet.cuts, text_cutsOf, mapSelectorsOf_id]
  simpa [Cuts.text] using (reads_read t).text_eq

theorem Cuts.infix_text {k : Cuts} {p : Text} (h : p ∈ k.passages.map Prod.fst) : p <:+: k.text id := by
  obtain ⟨⟨q, v⟩, hmem, rfl⟩ := mem_map.mp h
  obtain ⟨before, after, hsplit⟩ := append_of_mem hmem
  rw [Cuts.text, hsplit, flatMap_append, flatMap_cons]
  refine ⟨k.before ++ before.flatMap fun p => id p.1 ++ '\x7b' :: p.2,
    '\x7b' :: v ++ after.flatMap fun p => id p.1 ++ '\x7b' :: p.2, ?_⟩
  simp

section Lists

variable {f : Text → Text} {t p : Text} {parts : List Text}

theorem Lexis.Parts.join {σ : Type} {L : Lexis σ} (h : L.Parts t parts) : [','].intercalate parts = t := by
  induction h with
  | last h => simp [(scan_eq_iff.mp h).1, List.intercalate]
  | @more t u r parts h hr ih =>
    rw [(scan_eq_iff.mp h).1, ← ih, intercalate_cons]
    cases hr <;> simp [intercalate_cons]

theorem infix_intercalate {separator part : Text} (h : part ∈ parts) : part <:+: separator.intercalate parts := by
  cases parts with
  | nil => cases h
  | cons first parts =>
    rw [intercalate_cons]
    rcases mem_cons.mp h with rfl | h
    · exact (prefix_append _ _).isInfix
    · obtain ⟨before, after, rfl⟩ := append_of_mem h
      refine ⟨first ++ before.flatMap (separator ++ ·) ++ separator, after.flatMap (separator ++ ·), ?_⟩
      simp

/-- One list of selectors is the image of another: the parts between its commas are trimmed,
mapped and joined anew, and the white space at its end stays. -/
def ListImage (f : Text → Text) (p q : Text) : Prop :=
  ∃ parts space, isBlank space = true ∧ splitCommas .outside (trimEnd p) = parts ∧
    p = [','].intercalate parts ++ space ∧
    q = ", ".toList.intercalate (parts.map fun part => f (trim part)) ++ space

theorem listImage_mapList (f : Text → Text) (p : Text) : ListImage f p (mapList f p) := by
  obtain ⟨space, hp, hspace⟩ := trimEnd_spec p
  refine ⟨_, space, all_eq_true.mpr hspace, rfl, ?_, ?_⟩
  · rw [(parts_splitCommas _).join]
    exact hp
  · have hdrop : p.drop (trimEnd p).length = space := by
      rw [congrArg (List.drop _) hp, drop_left]
    rw [mapList, hdrop]

def solid (t : Text) : Text := t.filter (!isSpace ·)

theorem solid_append (s t : Text) : solid (s ++ t) = solid s ++ solid t := filter_append ..

theorem solid_blank (h : isBlank t = true) : solid t = [] := by
  rw [solid, filter_eq_nil_iff]
  intro c hc
  simp [all_eq_true.mp h c hc]

theorem solid_trim (t : Text) : solid (trim t) = solid t := by
  obtain ⟨a, b, ha, hb, ht⟩ := trim_spec t
  rw [congrArg solid ht, solid_append, solid_append, solid_blank ha, solid_blank hb]
  simp

theorem solid_intercalate {separator separator' : Text} {g : Text → Text}
    (hs : solid separator = solid separator') (hg : ∀ part ∈ parts, solid (g part) = solid part) :
    solid (separator.intercalate (parts.map g)) = solid (separator'.intercalate parts) := by
  cases parts with
  | nil => rfl
  | cons first parts =>
    rw [forall_mem_cons] at hg
    rw [map_cons, intercalate_cons, intercalate_cons, solid_append, solid_append, hg.1]
    congr 1
    induction parts with
    | nil => rfl
    | cons part parts ih =>
      rw [forall_mem_cons] at hg
      rw [map_cons, flatMap_cons, flatMap_cons, solid_append, solid_append,
        solid_append, solid_append, hs, hg.2.1, ih ⟨hg.1, hg.2.2⟩]

theorem solid_mapList (hf : ∀ part ∈ splitCommas .outside (trimEnd p), solid (f (trim part)) = solid part) :
    solid (mapList f p) = solid p := by
  obtain ⟨parts, space, -, rfl, hp, hq⟩ := listImage_mapList f p
  have hjoin : solid (", ".toList.intercalate
      ((splitCommas .outside (trimEnd p)).map fun part => f (trim part))) =
      solid ([','].intercalate (splitCommas .outside (trimEnd p))) :=
    solid_intercalate (by decide) hf
  rw [hq, congrArg solid hp, solid_append, solid_append, hjoin]

end Lists

theorem solid_text {g : Text → Text} (k : Cuts) (hg : ∀ p ∈ k.passages.map Prod.fst, solid (g p) = solid p) :
    solid (k.text g) = solid (k.text id) := by
  obtain ⟨before, passages⟩ := k
  rw [Cuts.text, Cuts.text, solid_append, solid_append]
  congr 1
  induction passages with
  | nil => rfl
  | cons p passages ih =>
    rw [map_cons, forall_mem_cons] at hg
    rw [flatMap_cons, flatMap_cons, solid_append, solid_append, solid_append, solid_append, hg.1, ih hg.2]
    rfl

theorem openDeep_eq_self {s : Text} (h : ∀ combinator ∈ deepCombinators, ¬ combinator <:+: s) : openDeep s = s := by
  have hnone : breakOnDeep? .outside s = none := by
    rw [breakOnDeep?_eq_scan, Option.map_eq_none_iff]
    cases hd : deepAt? (literal.scan .reach Place.outside.state s).2 with
    | none => rfl
    | some combinator =>
      obtain ⟨hmem, r, hr⟩ := mem_of_deepAt? hd
      refine absurd ?_ (h combinator hmem)
      refine ⟨(literal.scan .reach Place.outside.state s).1, r, ?_⟩
      rw [append_assoc, ← hr, scan_append]
  rw [openDeep, hnone]

theorem solid_deepen {css : Text} (h : ∀ combinator ∈ deepCombinators, ¬ combinator <:+: css) :
    solid (deepen css) = solid css := by
  have hpart (p part : Text) (hp : p ∈ (Sheet.read css).cuts.passages.map Prod.fst)
      (hpart : part ∈ splitCommas .outside (trimEnd p)) : trim part <:+: css := by
    obtain ⟨a, b, -, -, htrim⟩ := trim_spec part
    obtain ⟨space, hspace, -⟩ := trimEnd_spec p
    have hpart' : trim part <:+: part := ⟨a, b, htrim.symm⟩
    have hlist : part <:+: trimEnd p := by
      rw [← (parts_splitCommas (trimEnd p)).join]
      exact infix_intercalate hpart
    have hend : trimEnd p <:+: p := ⟨[], space, by simpa using hspace.symm⟩
    have hcss : p <:+: css := text_read css ▸ Cuts.infix_text hp
    exact hpart'.trans (hlist.trans (hend.trans hcss))
  have hlists : ∀ p ∈ (Sheet.read css).cuts.passages.map Prod.fst, solid (mapList openDeep p) = solid p := by
    intro p hp
    apply solid_mapList
    intro part hmem
    rw [openDeep_eq_self, solid_trim]
    intro combinator hc hin
    exact h combinator hc (hin.trans (hpart p part hp hmem))
  calc solid (deepen css)
      = solid ((Sheet.read css).cuts.text (mapList openDeep)) := by rw [deepen, text_mapSelectors]
    _ = solid ((Sheet.read css).cuts.text id) := solid_text _ hlists
    _ = solid css := by rw [text_read]

/-- A scan over the bytes of a text finds offsets at which the text can be cut, and cuts it as the
scan over its characters does. -/
structure CutBetweenCharacters (t : Text) : Prop where
  head : splitBytes? (takeUntil ['\x7b', ';'] .outside (byteText t)).1.length t =
    some (takeUntil ['\x7b', ';'] .outside t)
  body : splitBytes? (takeBody .plain 0 (byteText t)).1.length t = some (takeBody .plain 0 t)
  selectors : splitCommas .outside (byteText t) = (splitCommas .outside t).map byteText
  reach : breakOnDeep? .outside (byteText t) = (breakOnDeep? .outside t).map (Prod.map byteText byteText)

theorem splitBytes?_of_append {t u r : Text} (h : t = u ++ r) : splitBytes? (byteText u).length t = some (u, r) := by
  rw [length_byteText, h, splitBytes?_append]

theorem cutBetweenCharacters (t : Text) : CutBetweenCharacters t := by
  refine ⟨?_, ?_, splitCommas_byteText t, breakOnDeep?_byteText t⟩
  · rw [takeUntil_byteText (all_eq_true.mp rfl)]
    apply splitBytes?_of_append
    rw [takeUntil_eq_scan, scan_append]
  · rw [takeBody_byteText]
    apply splitBytes?_of_append
    rw [takeBody_eq_scan, scan_append]

/-- Rewriting selectors touches selectors only. Reading a sheet comes to an end by itself, at the end
or at a brace that closes nothing; its cuts lie between characters; and the rewritten sheet is the
sheet with each list of selectors replaced by its image. -/
theorem selectors_rewritten_only (css : Text) : (∀ t, CutBetweenCharacters t) ∧
      (∀ n, css.length ≤ n → readRules n css = ((Sheet.read css).rules, (Sheet.read css).rest)) ∧
      ((Sheet.read css).rest = [] ∨ ∃ t, (Sheet.read css).rest = '\x7d' :: t) ∧
      (∃ k : Cuts, k.passages.map Prod.fst = selectorsOf (Sheet.read css).rules ∧
        css = k.text id ∧ globalize css = k.text (mapList global) ∧
        deepen css = k.text (mapList openDeep)) ∧
      (∀ f p, ListImage f p (mapList f p)) ∧
      ((∀ combinator ∈ deepCombinators, ¬ combinator <:+: css) → solid (deepen css) = solid css) := by
  refine ⟨cutBetweenCharacters, ?_, (reads_read css).rest_cases,
    ⟨(Sheet.read css).cuts, ?_, ?_, ?_, ?_⟩, listImage_mapList, solid_deepen⟩
  · intro n hn
    exact readRules_of_reads (reads_read css) hn
  · rw [Sheet.cuts, passages_cutsOf]
    simp
  · exact (text_read css).symm
  · exact text_mapSelectors _ _
  · exact text_mapSelectors _ _

/-- A sheet with a brace and a string that do not end. -/
theorem selectors_rewritten_only_unclosed : deepen "ä ,b\x7bc:'\x7d" = "ä, b\x7bc:'\x7d" ∧
      solid (deepen "ä ,b\x7bc:'\x7d") = solid "ä ,b\x7bc:'\x7d" := by
  refine ⟨by decide +kernel, (selectors_rewritten_only _).2.2.2.2.2 ?_⟩
  decide +kernel

end ComponentConverter.Style
