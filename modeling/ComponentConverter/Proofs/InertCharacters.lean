import ComponentConverter.Proofs.HiddenCharacters
import ComponentConverter.Proofs.SelectorFrame

namespace ComponentConverter.Style

open Lexis
open List hiding head

variable {t u r : Text} {m : Marks}
variable {stops : List Char} {x : Text}

section Pieces

/-- Taken literally, a piece does not end before `next`, and leaves neither a string nor a bracket
open if anything is next. -/
def Kept (m : Marks) (piece next : Text) : Prop :=
  literal.Passes m literal.outside piece next ∧ (next ≠ [] → literal.after m literal.outside piece = literal.outside)

mutual

def Rule.IsKept : Rule → Prop
  | .space _ => True
  | .statement text => Kept .head text [';']
  | .style selectors body isClosed =>
    Kept .head selectors ['\x7b'] ∧ Kept .body body (brace isClosed)
  | .block head body isClosed => Kept .head head ['\x7b'] ∧ Kept .body body (brace isClosed)
  | .group head rules _ => Kept .head head ['\x7b'] ∧ RulesKept rules
  | .unfinished text => Kept .head text []

def RulesKept : List Rule → Prop
  | [] => True
  | r :: rs => r.IsKept ∧ RulesKept rs

end

def SelectorsKept : List Text → Prop
  | [] => True
  | part :: parts => Kept .selector part (if parts.isEmpty then [] else [',']) ∧ SelectorsKept parts

/-- The text before the first combinator that reaches deep is kept. -/
def DeepKept (selector : Text) : Prop :=
  Kept .reach (full.scan .reach full.outside selector).1 (full.scan .reach full.outside selector).2

theorem stopsAt_literal (s : Mode × Nat) (hr : r ≠ []) :
    literal.stopsAt m s r = true ↔ s = literal.outside ∧ m.stop r = true := by
  obtain ⟨c, r, rfl⟩ := exists_cons_of_ne_nil hr
  obtain ⟨mode, depth⟩ := s
  simp [stopsAt, literal, outside]

theorem scan_literal_iff (ht : t = u ++ r) (hr : r ≠ [] → m.stop r = true) :
    literal.scan m literal.outside t = (u, r) ↔ Kept m u r := by
  rw [scan_eq_iff, Kept]
  constructor
  · rintro ⟨-, hp, hs⟩
    exact ⟨hp, fun hne => ((stopsAt_literal _ hne).mp (hs hne)).1⟩
  · rintro ⟨hp, hs⟩
    exact ⟨ht, hp, fun hne => (stopsAt_literal _ hne).mpr ⟨hs hne, hr hne⟩⟩

/-- Where one character tells that a scan stops, what follows a piece does not matter. -/
theorem passes_congr (hm : m.stop = startsWithOne stops) (s : Mode × Nat)
    (u r r' : Text) : literal.Passes m s u r ↔ literal.Passes m s u r' := by
  induction u generalizing s with
  | nil => exact Iff.rfl
  | cons c u ih =>
    rw [Passes, Passes, stopsAt, stopsAt, hm, ih]
    exact Iff.rfl

theorem scan_iff_kept {σ : Type} {L : Lexis σ}
    (hm : m.stop = startsWithOne stops) (h : L.scan m L.outside t = (u, r)) :
    literal.scan m literal.outside t = (u, r) ↔ Kept m u (r.take 1) := by
  have hstop : r ≠ [] → m.stop r = true := by
    intro hne
    obtain ⟨c, r, rfl⟩ := exists_cons_of_ne_nil hne
    rw [hm]
    simpa [startsWithOne] using mem_of_scan_eq hm h
  rw [scan_literal_iff (scan_eq_iff.mp h).1 hstop, Kept, Kept]
  refine and_congr (passes_congr hm _ _ _ _) ?_
  cases r <;> simp

end Pieces

section Readings

variable {σ : Type} {L : Lexis σ} {rules : List Rule} {rest : Text} {parts : List Text}

theorem take_one_of_closing {b : Bool} (hr : r = [] ∨ ∃ x, r = '\x7d' :: x)
    (h : closing r = (b, x)) : r.take 1 = brace b := by
  rcases hr with rfl | ⟨y, rfl⟩
  · cases h
    rfl
  · cases h
    rfl

theorem head_iff_kept (h : L.head t = (u, r)) :
    literal.head t = (u, r) ↔ Kept .head u (r.take 1) := scan_iff_kept rfl h

theorem body_iff_kept {b : Bool} (h : L.body t = (u, r)) (hr : closing r = (b, x)) :
    literal.body t = (u, r) ↔ Kept .body u (brace b) := by
  rw [← take_one_of_closing (body_cases h) hr]
  exact scan_iff_kept rfl h

theorem Lexis.Reads.kept (h : literal.Reads t rules rest) : RulesKept rules := by
  induction h with
  | nil | brace => trivial
  | space hc h ih => exact ⟨trivial, ih⟩
  | statement hc hu h ih => exact ⟨(head_iff_kept hu).mp hu, ih⟩
  | unfinished hc hu => exact ⟨(head_iff_kept hu).mp hu, trivial⟩
  | style hc hat hu hb hw h ih =>
    exact ⟨⟨(head_iff_kept hu).mp hu, (body_iff_kept hb hw).mp hb⟩, ih⟩
  | block hg hu hb hw h ih =>
    exact ⟨⟨(head_iff_kept hu).mp hu, (body_iff_kept hb hw).mp hb⟩, ih⟩
  | group hg hu hin hw h ihin ih => exact ⟨⟨(head_iff_kept hu).mp hu, ihin⟩, ih⟩

theorem Lexis.Reads.literal (h : L.Reads t rules rest) (hk : RulesKept rules) : literal.Reads t rules rest := by
  induction h with
  | nil => exact .nil
  | brace t => exact .brace t
  | space hc h ih => exact .space hc (ih hk.2)
  | statement hc hu h ih => exact .statement hc ((head_iff_kept hu).mpr hk.1) (ih hk.2)
  | unfinished hc hu => exact .unfinished hc ((head_iff_kept hu).mpr hk.1)
  | style hc hat hu hb hw h ih =>
    exact .style hc hat ((head_iff_kept hu).mpr hk.1.1) ((body_iff_kept hb hw).mpr hk.1.2) hw (ih hk.2)
  | block hg hu hb hw h ih =>
    exact .block hg ((head_iff_kept hu).mpr hk.1.1) ((body_iff_kept hb hw).mpr hk.1.2) hw (ih hk.2)
  | group hg hu hin hw h ihin ih =>
    exact .group hg ((head_iff_kept hu).mpr hk.1.1) (ihin hk.1.2) hw (ih hk.2)

theorem Lexis.Parts.ne_nil (h : L.Parts t parts) : parts.isEmpty = false := by
  cases h <;> rfl

theorem Lexis.Parts.kept (h : literal.Parts t parts) : SelectorsKept parts := by
  induction h with
  | last h => exact ⟨(scan_iff_kept rfl h).mp h, trivial⟩
  | more h hr ih =>
    rw [SelectorsKept, hr.ne_nil]
    exact ⟨(scan_iff_kept rfl h).mp h, ih⟩

theorem Lexis.Parts.literal (h : L.Parts t parts) (hk : SelectorsKept parts) : literal.Parts t parts := by
  induction h with
  | last h => exact .last ((scan_iff_kept rfl h).mpr hk.1)
  | more h hr ih =>
    rw [SelectorsKept, hr.ne_nil] at hk
    exact .more ((scan_iff_kept rfl h).mpr hk.1) (ih hk.2)

end Readings

section Deep

variable {σ σ' : Type} {L : Lexis σ} {L' : Lexis σ'}

/-- The text before the first combinator outside that reaches deep. -/
def Lexis.beforeDeep? (L : Lexis σ) (t : Text) : Option Text :=
  match L.scan .reach L.outside t with
  | (_, []) => none
  | (u, _ :: _) => some u

theorem fst_breakOnDeep? (t : Text) : (breakOnDeep? .outside t).map Prod.fst = literal.beforeDeep? t := by
  rw [breakOnDeep?_eq_scan, show Place.outside.state = literal.outside from rfl, beforeDeep?]
  rcases hs : literal.scan .reach literal.outside t with ⟨u, _ | ⟨c, r⟩⟩
  · rfl
  · have hstop := (scan_eq_iff.mp hs).2.2 (cons_ne_nil c r)
    rw [stopsAt, stop_reach, Bool.and_eq_true] at hstop
    obtain ⟨combinator, hd⟩ := Option.isSome_iff_exists.mp hstop.2
    simp [hd]

theorem beforeDeep?_veil (t : Text) : literal.beforeDeep? (veil t) = (full.beforeDeep? t).map veil := by
  have hscan : literal.scan .reach literal.outside (veil t) = _ := scan_veiled veiled_reach full.outside t
  rw [beforeDeep?, beforeDeep?, hscan]
  rcases full.scan .reach full.outside t with ⟨u, _ | ⟨c, r⟩⟩ <;> rfl

theorem scan_eq_of_beforeDeep? (h : L.beforeDeep? t = L'.beforeDeep? t) :
    L.scan .reach L.outside t = L'.scan .reach L'.outside t := by
  have ht := scan_append L .reach L.outside t
  have ht' := scan_append L' .reach L'.outside t
  rw [beforeDeep?, beforeDeep?] at h
  generalize L.scan .reach L.outside t = p at h ht ⊢
  generalize L'.scan .reach L'.outside t = p' at h ht' ⊢
  obtain ⟨u, _ | ⟨c, r⟩⟩ := p <;> obtain ⟨u', _ | ⟨c', r'⟩⟩ := p'
  · simp only [append_nil] at ht ht'
    rw [ht, ht']
  · cases h
  · cases h
  · cases h
    rw [← ht', append_cancel_left_eq] at ht
    exact Prod.ext rfl ht

theorem prefix_of_beforeDeep? (h : L.beforeDeep? t = some u) : u <+: t := by
  have ht := scan_append L .reach L.outside t
  rw [beforeDeep?] at h
  generalize L.scan .reach L.outside t = p at h ht
  obtain ⟨v, _ | ⟨c, r⟩⟩ := p
  · cases h
  · cases h
    exact ⟨c :: r, ht⟩

theorem deepKept_iff (t : Text) : DeepKept t ↔ full.beforeDeep? t = (breakOnDeep? .outside t).map Prod.fst := by
  have hspec := scan_spec full .reach full.outside t
  have hstop (hne : (full.scan .reach full.outside t).2 ≠ []) :
      Marks.reach.stop (full.scan .reach full.outside t).2 = true := by
    have hs := hspec.2.2 hne
    obtain ⟨c, r, hr⟩ := exists_cons_of_ne_nil hne
    rw [hr, stopsAt, Bool.and_eq_true] at hs
    rw [hr]
    exact hs.2
  rw [DeepKept, ← scan_literal_iff hspec.1 hstop, fst_breakOnDeep?]
  constructor
  · intro h
    rw [beforeDeep?, beforeDeep?, h]
  · intro h
    exact (scan_eq_of_beforeDeep? h).symm

end Deep

section Veiled

def Sheet.mapTexts (f : Text → Text) (s : Sheet) : Sheet := ⟨mapTextsOf f s.rules, f s.rest⟩

theorem eq_of_veil_eq {u u' r r' : Text} (h : veil u = veil u') (ht : u ++ r = u' ++ r') : u = u' ∧ r = r' := by
  apply append_inj ht
  rw [← length_veil, h, length_veil]

mutual

theorem rule_eq_of_veiled {x y : Rule} {r r' : Text} (h : x.mapTexts veil = y.mapTexts veil)
    (ht : x.text ++ r = y.text ++ r') : x = y ∧ r = r' := by
  -- Rules of two kinds stay two; in rules of one kind the pieces are equally long.
  cases x <;> cases y <;>
    simp only [Rule.mapTexts, Rule.text, append_assoc, reduceCtorEq, Rule.space.injEq,
      Rule.statement.injEq, Rule.style.injEq, Rule.block.injEq, Rule.group.injEq,
      Rule.unfinished.injEq] at h ht
  case space.space | unfinished.unfinished =>
    obtain ⟨rfl, rfl⟩ := eq_of_veil_eq h ht
    exact ⟨rfl, rfl⟩
  case statement.statement =>
    obtain ⟨rfl, hr⟩ := eq_of_veil_eq h ht
    exact ⟨rfl, append_cancel_left hr⟩
  case style.style | block.block =>
    obtain ⟨hu, hb, rfl⟩ := h
    obtain ⟨rfl, hbody⟩ := eq_of_veil_eq hu ht
    obtain ⟨rfl, hr⟩ := eq_of_veil_eq hb (append_cancel_left hbody)
    exact ⟨rfl, append_cancel_left hr⟩
  case group.group =>
    obtain ⟨hu, hrules, rfl⟩ := h
    obtain ⟨rfl, hinner⟩ := eq_of_veil_eq hu ht
    obtain ⟨rfl, hr⟩ := rules_eq_of_veiled hrules (append_cancel_left hinner)
    exact ⟨rfl, append_cancel_left hr⟩

theorem rules_eq_of_veiled {xs ys : List Rule} {r r' : Text} (h : mapTextsOf veil xs = mapTextsOf veil ys)
    (ht : textOfRules xs ++ r = textOfRules ys ++ r') : xs = ys ∧ r = r' := by
  cases xs <;> cases ys <;>
    simp only [mapTextsOf, textOfRules, append_assoc, reduceCtorEq, List.cons.injEq] at h ht
  case nil.nil => exact ⟨rfl, ht⟩
  case cons.cons =>
    obtain ⟨rfl, hrules⟩ := rule_eq_of_veiled h.1 ht
    obtain ⟨rfl, hr⟩ := rules_eq_of_veiled h.2 hrules
    exact ⟨rfl, hr⟩

end

theorem parts_eq_of_veiled {ps qs : List Text} (h : full.Parts t ps) (h' : literal.Parts t qs)
    (hv : ps.map veil = qs.map veil) : ps = qs := by
  induction h generalizing qs with
  | last h =>
    cases h' with
    | last h' =>
      have ht := (scan_eq_iff.mp h).1
      rw [(scan_eq_iff.mp h').1, append_nil, append_nil] at ht
      rw [ht]
    | more h' hr' => cases hr' <;> simp at hv
  | more h hr ih =>
    cases h' with
    | last h' => cases hr <;> simp at hv
    | more h' hr' =>
      rw [map_cons, map_cons, List.cons.injEq] at hv
      have ht := (scan_eq_iff.mp h).1
      rw [(scan_eq_iff.mp h').1] at ht
      obtain ⟨rfl, hrest⟩ := eq_of_veil_eq hv.1.symm ht
      obtain ⟨-, rfl⟩ := hrest
      rw [ih hr' hv.2]

theorem beforeDeep?_eq_of_veiled (h : (full.beforeDeep? t).map veil = (literal.beforeDeep? t).map veil) :
    full.beforeDeep? t = literal.beforeDeep? t := by
  cases hf : full.beforeDeep? t with
  | none =>
    rw [hf, Option.map_none, eq_comm, Option.map_eq_none_iff] at h
    exact h.symm
  | some u =>
    rw [hf, Option.map_some, eq_comm, Option.map_eq_some_iff] at h
    obtain ⟨v, hl, hv⟩ := h
    obtain ⟨r, hr⟩ := prefix_of_beforeDeep? hf
    obtain ⟨r', hr'⟩ := prefix_of_beforeDeep? hl
    rw [hl, (eq_of_veil_eq hv.symm (hr.trans hr'.symm)).1]

theorem exists_read_veil (t : Text) :
    ∃ rules rest, full.Reads t rules rest ∧ Sheet.read (veil t) = ⟨mapTextsOf veil rules, veil rest⟩ := by
  obtain ⟨rules, rest, h⟩ := exists_reads full t
  exact ⟨rules, rest, h, read_of_reads h.veil⟩

theorem exists_splitCommas_veil (t : Text) :
    ∃ parts, full.Parts t parts ∧ splitCommas .outside (veil t) = parts.map veil := by
  obtain ⟨parts, h⟩ := exists_parts full t
  exact ⟨parts, h, splitCommas_of_parts h.veil⟩

end Veiled

section Agreement

/-- The sheet is divided as escapes, comments and addresses ask. -/
structure DividedInFull (css : Text) : Prop where
  rules : full.Reads css (Sheet.read css).rules (Sheet.read css).rest
  selectors : ∀ p ∈ selectorsOf (Sheet.read css).rules, full.Parts (trimEnd p) (splitCommas .outside (trimEnd p))
  reach : ∀ p ∈ selectorsOf (Sheet.read css).rules, ∀ part ∈ splitCommas .outside (trimEnd p),
    full.beforeDeep? (trim part) = (breakOnDeep? .outside (trim part)).map Prod.fst

/-- The sheet is divided as with letters in place of the hidden characters. -/
structure DividedAsVeiled (css : Text) : Prop where
  rules : Sheet.read (veil css) = (Sheet.read css).mapTexts veil
  selectors : ∀ p ∈ selectorsOf (Sheet.read css).rules,
    splitCommas .outside (trimEnd (veil p)) = (splitCommas .outside (trimEnd p)).map veil
  reach : ∀ p ∈ selectorsOf (Sheet.read css).rules, ∀ part ∈ splitCommas .outside (trimEnd p),
    (breakOnDeep? .outside (trim (veil part))).map Prod.fst =
      (breakOnDeep? .outside (trim part)).map fun b => veil b.1

/-- Taken literally, every piece of the sheet is kept. -/
def Undisturbed (css : Text) : Prop :=
  ∃ rules rest, full.Reads css rules rest ∧ RulesKept rules ∧
    ∀ list ∈ selectorsOf rules, ∃ parts, full.Parts (trimEnd list) parts ∧
      SelectorsKept parts ∧ ∀ part ∈ parts, DeepKept (trim part)

variable {css : Text}

theorem fst_breakOnDeep?_veil (t : Text) :
    (breakOnDeep? .outside (trim (veil t))).map Prod.fst = (full.beforeDeep? (trim t)).map veil := by
  rw [fst_breakOnDeep?, trim_veil, beforeDeep?_veil]

theorem map_fst_breakOnDeep? (t : Text) :
    ((breakOnDeep? .outside t).map fun b => veil b.1) = (literal.beforeDeep? t).map veil := by
  rw [← fst_breakOnDeep?, Option.map_map]
  rfl

theorem DividedInFull.asVeiled (h : DividedInFull css) : DividedAsVeiled css where
  rules := read_of_reads h.rules.veil
  selectors p hp := by
    rw [trimEnd_veil]
    exact splitCommas_of_parts (h.selectors p hp).veil
  reach p hp part hpart := by
    rw [fst_breakOnDeep?_veil, map_fst_breakOnDeep?, h.reach p hp part hpart, fst_breakOnDeep?]

theorem DividedAsVeiled.inFull (h : DividedAsVeiled css) : DividedInFull css where
  rules := by
    obtain ⟨rules, rest, hread, hveil⟩ := exists_read_veil css
    rw [h.rules, Sheet.mapTexts, Sheet.mk.injEq] at hveil
    have htext := (reads_read css).text_eq.trans hread.text_eq.symm
    obtain ⟨hrules, hrest⟩ := rules_eq_of_veiled hveil.1 htext
    rwa [hrules, hrest]
  selectors p hp := by
    obtain ⟨parts, hparts, hveil⟩ := exists_splitCommas_veil (trimEnd p)
    rw [← trimEnd_veil, h.selectors p hp] at hveil
    rwa [← parts_eq_of_veiled hparts (parts_splitCommas _) hveil.symm]
  reach p hp part hpart := by
    have hreach := h.reach p hp part hpart
    rw [fst_breakOnDeep?_veil, map_fst_breakOnDeep?] at hreach
    rw [fst_breakOnDeep?]
    exact beforeDeep?_eq_of_veiled hreach

theorem DividedInFull.undisturbed (h : DividedInFull css) : Undisturbed css := by
  refine ⟨_, _, h.rules, (reads_read css).kept, fun p hp => ?_⟩
  refine ⟨_, h.selectors p hp, (parts_splitCommas _).kept, fun part hpart => ?_⟩
  exact (deepKept_iff _).mpr (h.reach p hp part hpart)

theorem Undisturbed.inFull (h : Undisturbed css) : DividedInFull css := by
  obtain ⟨rules, rest, hread, hkept, hlists⟩ := h
  have hsheet : Sheet.read css = ⟨rules, rest⟩ := read_of_reads (hread.literal hkept)
  have hsplit (p : Text) (hp : p ∈ selectorsOf rules) : full.Parts (trimEnd p) (splitCommas .outside (trimEnd p)) ∧
        ∀ part ∈ splitCommas .outside (trimEnd p), DeepKept (trim part) := by
    obtain ⟨parts, hparts, hk, hdeep⟩ := hlists p hp
    rw [splitCommas_of_parts (hparts.literal hk)]
    exact ⟨hparts, hdeep⟩
  refine ⟨?_, ?_, ?_⟩
  · rwa [hsheet]
  · rw [hsheet]
    exact fun p hp => (hsplit p hp).1
  · rw [hsheet]
    exact fun p hp part hpart => (deepKept_iff _).mp ((hsplit p hp).2 part hpart)

mutual

theorem mapTexts_veil_veil (x : Rule) : (x.mapTexts veil).mapTexts veil = x.mapTexts veil := by
  cases x with
  | group head rules isClosed => simp only [Rule.mapTexts, veil_veil, mapTextsOf_veil_veil rules]
  | _ => simp only [Rule.mapTexts, veil_veil]

theorem mapTextsOf_veil_veil (xs : List Rule) : mapTextsOf veil (mapTextsOf veil xs) = mapTextsOf veil xs := by
  cases xs with
  | nil => rfl
  | cons x xs => simp only [mapTextsOf, mapTexts_veil_veil x, mapTextsOf_veil_veil xs]

end

mutual

theorem selectors_mapTexts (f : Text → Text) (x : Rule) : (x.mapTexts f).selectors = x.selectors.map f := by
  cases x with
  | group head rules isClosed => simp only [Rule.mapTexts, Rule.selectors, selectorsOf_mapTextsOf f rules]
  | _ => rfl

theorem selectorsOf_mapTextsOf (f : Text → Text) (xs : List Rule) :
    selectorsOf (mapTextsOf f xs) = (selectorsOf xs).map f := by
  cases xs with
  | nil => rfl
  | cons x xs =>
    simp only [mapTextsOf, selectorsOf, map_append, selectors_mapTexts f x, selectorsOf_mapTextsOf f xs]

end

theorem veil_eq_of_mem_map {ts : List Text} (h : t ∈ ts.map veil) : veil t = t := by
  obtain ⟨u, -, rfl⟩ := mem_map.mp h
  exact veil_veil u

theorem dividedAsVeiled_of_veil_eq (h : veil css = css) : DividedAsVeiled css := by
  obtain ⟨rules, rest, -, hsheet⟩ := exists_read_veil css
  rw [h] at hsheet
  have hlist {p : Text} (hp : p ∈ selectorsOf (Sheet.read css).rules) :
      veil p = p ∧ ∃ parts : List Text, splitCommas .outside (trimEnd p) = parts.map veil := by
    rw [hsheet, selectorsOf_mapTextsOf] at hp
    have hveil := veil_eq_of_mem_map hp
    obtain ⟨parts, -, hsplit⟩ := exists_splitCommas_veil (trimEnd p)
    rw [← trimEnd_veil, hveil] at hsplit
    exact ⟨hveil, parts, hsplit⟩
  refine ⟨?_, fun p hp => ?_, fun p hp part hpart => ?_⟩
  · rw [h, hsheet, Sheet.mapTexts, mapTextsOf_veil_veil, veil_veil]
  · obtain ⟨hveil, parts, hsplit⟩ := hlist hp
    rw [hveil, hsplit, map_map]
    exact map_congr_left fun part _ => (veil_veil part).symm
  · obtain ⟨-, parts, hsplit⟩ := hlist hp
    rw [hsplit] at hpart
    have htrim : trim part = veil (trim part) := by rw [← trim_veil, veil_eq_of_mem_map hpart]
    have hdeep : literal.beforeDeep? (trim part) = (full.beforeDeep? (trim part)).map veil := by
      rw [← beforeDeep?_veil, ← htrim]
    rw [fst_breakOnDeep?_veil, map_fst_breakOnDeep?, hdeep, Option.map_map]
    exact congrArg (fun f => Option.map f _) (funext fun u => (veil_veil u).symm)

/-- Rules, selectors and combinators are found where they are for a reader that knows escapes,
comments and addresses, and where they are with letters in place of what these hide, exactly if every piece of the
sheet is kept when it is taken literally; so always if nothing is hidden. -/
theorem dividedInFull_iff (css : Text) :
    (DividedInFull css ↔ DividedAsVeiled css) ∧ (DividedInFull css ↔ Undisturbed css) ∧
      (veil css = css → DividedInFull css) :=
  ⟨⟨DividedInFull.asVeiled, DividedAsVeiled.inFull⟩, ⟨DividedInFull.undisturbed, Undisturbed.inFull⟩,
    fun h => (dividedAsVeiled_of_veil_eq h).inFull⟩

/-- A comment with braces that close one another does no harm in a body. -/
theorem dividedInFull_braces : DividedInFull ".a\x7b/*\x7b;\x7d*/\x7d" := by
  apply (dividedInFull_iff _).2.1.mpr
  have hhead : literal.head ".a\x7b".toList = (".a".toList, "\x7b".toList) := rfl
  have hbody : literal.body "/*\x7b;\x7d*/\x7d".toList = ("/*\x7b;\x7d*/".toList, "\x7d".toList) := rfl
  have hlist : literal.Parts ".a" [".a"] := .last rfl
  refine ⟨[.style ".a" "/*\x7b;\x7d*/" true], [], .style ⟨rfl, by decide⟩ (by decide) rfl rfl rfl .nil,
    ⟨⟨(head_iff_kept hhead).mp hhead, (body_iff_kept hbody rfl).mp hbody⟩, trivial⟩,
    List.forall_mem_singleton.mpr ⟨[".a"], .last rfl, hlist.kept, ?_⟩⟩
  exact List.forall_mem_singleton.mpr ((deepKept_iff _).mpr rfl)

/-- A quote in a comment or in an address takes the rest of the sheet with it, and an escaped comma
divides a selector. -/
theorem not_dividedInFull : ¬ DividedInFull ".b\x7b/*'*/\x7d.a\x7b\x7d" ∧
      ¬ DividedInFull ".b\x7bc:url(/*')\x7d.a\x7b\x7d" ∧ ¬ DividedInFull ".a\\,b\x7b\x7d" := by
  refine ⟨?_, ?_, ?_⟩
  · intro h
    have hlength := congrArg (fun sheet => sheet.rules.length) h.asVeiled.rules
    revert hlength
    decide +kernel
  · intro h
    have hlength := congrArg (fun sheet => sheet.rules.length) h.asVeiled.rules
    revert hlength
    decide +kernel
  · intro h
    have hlist : ".a\\,b".toList ∈ selectorsOf (Sheet.read ".a\\,b\x7b\x7d".toList).rules := List.mem_cons_self ..
    have hlength := congrArg List.length (h.asVeiled.selectors _ hlist)
    revert hlength
    decide +kernel

end Agreement

end ComponentConverter.Style
