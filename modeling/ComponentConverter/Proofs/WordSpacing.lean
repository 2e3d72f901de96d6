import ComponentConverter.Proofs.Trimming
import ComponentConverter.Svelte.Markup

namespace ComponentConverter

open List

def startsBlank (t : Text) : Bool := t.head?.any isSpace

def endsBlank (t : Text) : Bool := t.getLast?.any isSpace

section Blank

variable {t u : Text}

theorem startsBlank_append (h : t ≠ []) : startsBlank (t ++ u) = startsBlank t := by
  cases t with
  | nil => exact absurd rfl h
  | cons c t => rfl

theorem endsBlank_append (h : u ≠ []) : endsBlank (t ++ u) = endsBlank u := by
  rw [endsBlank, getLast?_append, getLast?_eq_some_getLast h, endsBlank, getLast?_eq_some_getLast h]
  rfl

theorem isBlank_of_startsBlank_false (h : startsBlank t = false) (hne : t ≠ []) : isBlank t = false := by
  cases t with
  | nil => exact absurd rfl hne
  | cons c t =>
    have hc : isSpace c = false := h
    simp [isBlank, hc]

theorem endsBlank_of_isBlank (h : isBlank t = true) (hne : t ≠ []) : endsBlank t = true := by
  rw [endsBlank, getLast?_eq_some_getLast hne]
  exact all_eq_true.mp h _ (getLast_mem hne)

theorem trim_eq_nil_iff : trim t = [] ↔ isBlank t = true := by
  refine ⟨fun h => ?_, trim_blank⟩
  obtain ⟨a, b, ha, hb, ht⟩ := trim_spec t
  rw [h, append_nil] at ht
  rw [ht, isBlank_append, ha, hb]
  rfl

theorem startsBlank_trimStart (t : Text) : startsBlank (trimStart t) = false := by
  rw [startsBlank, trimStart]
  have h := head?_dropWhile_not isSpace t
  cases hd : (t.dropWhile isSpace).head? with
  | none => rfl
  | some c =>
    rw [hd] at h
    simpa using h

theorem startsBlank_trim (t : Text) : startsBlank (trim t) = false := by
  obtain ⟨b, hb, -⟩ := trimEnd_spec (trimStart t)
  rw [← trim] at hb
  by_cases hnil : trim t = []
  · rw [hnil]
    rfl
  · rw [← startsBlank_append hnil (u := b), ← hb, startsBlank_trimStart]

theorem endsBlank_trim (t : Text) : endsBlank (trim t) = false := by
  have h := startsBlank_trimStart (trimStart t).reverse
  rwa [startsBlank, ← getLast?_reverse] at h

theorem isBlank_trim (h : isBlank t = false) : isBlank (trim t) = false := by
  apply isBlank_of_startsBlank_false (startsBlank_trim t)
  intro hnil
  rw [trim_eq_nil_iff.mp hnil] at h
  cases h

end Blank

namespace Svelte

open Template

/-- A stretch of text: a character of a word or an interpolation, characters between words, a comment,
or the edge of an element. -/
inductive Stretch where
  | ink (part : Template.Part)
  | gap (text : Text)
  | note (text : Text)
  | edge (text : Text)
  deriving DecidableEq

namespace Stretch

def text : Stretch → Text
  | .ink part => partText part
  | .gap t | .note t | .edge t => t

def ink? : Stretch → Option Part
  | .ink part => some part
  | _ => none

def isGap : Stretch → Bool
  | .gap _ => true
  | _ => false

/-- Whether what follows a stretch stands apart from the ink before it. -/
def next (apart : Bool) : Stretch → Bool
  | .ink _ => false
  | .gap t => apart || t.any isSpace
  | .note _ => apart
  | .edge _ => true

def ofChar (c : Char) : Stretch := if isSpace c then .gap [c] else .ink (.literal [c])

def ofPart : Template.Part → List Stretch
  | .literal t => t.map ofChar
  | .binding expression => [.ink (.binding expression)]

end Stretch

open Stretch (ink? isGap ofChar ofPart)

/-- The ink of a row, each with whether it stands apart from the ink before it. -/
def spacing : Bool → List Stretch → List (Template.Part × Bool)
  | _, [] => []
  | apart, x :: s => (x.ink?.map fun part => (part, apart)).toList ++ spacing (x.next apart) s

def apartAfter (apart : Bool) (s : List Stretch) : Bool := s.foldl Stretch.next apart

/-- What stands apart in one row does so in the other. -/
def KeepsApart (source written : List (Template.Part × Bool)) : Prop :=
  ∀ (i : Nat) (part : Template.Part), source[i]? = some (part, true) → written[i]? = some (part, true)

def trimGaps (s : List Stretch) : List Stretch := ((s.dropWhile isGap).reverse.dropWhile isGap).reverse

section Rows

variable {apart : Bool} {s t : List Stretch}

theorem spacing_append (apart : Bool) (s t : List Stretch) :
    spacing apart (s ++ t) = spacing apart s ++ spacing (apartAfter apart s) t := by
  induction s generalizing apart with
  | nil => rfl
  | cons x s ih => rw [cons_append, spacing, ih, spacing, append_assoc]; rfl

theorem apartAfter_append (apart : Bool) (s t : List Stretch) :
    apartAfter apart (s ++ t) = apartAfter (apartAfter apart s) t := foldl_append

theorem map_fst_spacing (apart : Bool) (s : List Stretch) : (spacing apart s).map Prod.fst = s.filterMap ink? := by
  induction s generalizing apart with
  | nil => rfl
  | cons x s ih =>
    rw [spacing, map_append, ih, filterMap_cons]
    cases x <;> rfl

theorem spacing_gaps (apart : Bool) (h : ∀ x ∈ s, x.isGap = true) : spacing apart s = [] := by
  induction s generalizing apart with
  | nil => rfl
  | cons x s ih =>
    obtain ⟨hx, hs⟩ := forall_mem_cons.mp h
    cases x with
    | gap u => exact ih _ hs
    | ink part | note u | edge u => cases hx

theorem spacing_dropWhile (s : List Stretch) : spacing true (s.dropWhile isGap) = spacing true s := by
  induction s with
  | nil => rfl
  | cons x s ih =>
    cases x with
    | gap u => exact ih
    | ink part | note u | edge u => rfl

theorem spacing_dropWhile_end (apart : Bool) (s : List Stretch) :
    spacing apart (s.reverse.dropWhile isGap).reverse = spacing apart s := by
  have hs : s = (s.reverse.dropWhile isGap).reverse ++ (s.reverse.takeWhile isGap).reverse := by
    rw [← reverse_append, takeWhile_append_dropWhile, reverse_reverse]
  have hgaps : ∀ x ∈ (s.reverse.takeWhile isGap).reverse, x.isGap = true := by
    intro x hx
    exact all_eq_true.mp all_takeWhile x (mem_reverse.mp hx)
  calc spacing apart (s.reverse.dropWhile isGap).reverse
      = spacing apart ((s.reverse.dropWhile isGap).reverse ++ (s.reverse.takeWhile isGap).reverse) := by
        rw [spacing_append, spacing_gaps _ hgaps, append_nil]
    _ = spacing apart s := by rw [← hs]

theorem spacing_trimGaps (s : List Stretch) : spacing true (trimGaps s) = spacing true s := by
  rw [trimGaps, spacing_dropWhile_end, spacing_dropWhile]

theorem filterMap_trimGaps (s : List Stretch) : (trimGaps s).filterMap ink? = s.filterMap ink? := by
  rw [← map_fst_spacing true, spacing_trimGaps, map_fst_spacing]

theorem keepsApart_append {s₁ s₂ w₁ w₂ : List (Template.Part × Bool)} (hl : s₁.length = w₁.length) :
    KeepsApart (s₁ ++ s₂) (w₁ ++ w₂) ↔ KeepsApart s₁ w₁ ∧ KeepsApart s₂ w₂ := by
  constructor
  · intro h
    refine ⟨fun i part hi => ?_, fun i part hi => ?_⟩
    · have hlt : i < s₁.length := (List.getElem?_eq_some_iff.mp hi).1
      have hw := h i part (by rw [getElem?_append_left hlt, hi])
      rwa [getElem?_append_left (hl ▸ hlt)] at hw
    · have hs : (s₁ ++ s₂)[s₁.length + i]? = some (part, true) := by
        rw [getElem?_append_right (by omega), Nat.add_sub_cancel_left, hi]
      have hw := h _ part hs
      rwa [hl, getElem?_append_right (by omega), Nat.add_sub_cancel_left] at hw
  · rintro ⟨h₁, h₂⟩ i part hi
    rcases Nat.lt_or_ge i s₁.length with hlt | hge
    · rw [getElem?_append_left hlt] at hi
      rw [getElem?_append_left (hl ▸ hlt), h₁ i part hi]
    · rw [getElem?_append_right hge] at hi
      rw [getElem?_append_right (hl ▸ hge), ← hl, h₂ _ part hi]

theorem keepsApart_refl (s : List (Template.Part × Bool)) : KeepsApart s s := fun _ _ h => h

theorem keepsApart_cons {part : Template.Part} {a b : Bool} (rest : List (Template.Part × Bool)) :
    KeepsApart ((part, a) :: rest) ((part, b) :: rest) ↔ (a = true → b = true) := by
  constructor
  · rintro h rfl
    simpa using h 0 part rfl
  · intro h i q hi
    cases i with
    | zero =>
      obtain ⟨rfl, rfl⟩ := Prod.mk.inj (Option.some.inj hi)
      rw [h rfl]
      rfl
    | succ i => exact hi

end Rows

section Plain

/-- Stretches of text children: single characters of white space, and ink with no white space at
its ends. -/
def Stretch.Plain : Stretch → Prop
  | .ink part =>
    partText part ≠ [] ∧ startsBlank (partText part) = false ∧ endsBlank (partText part) = false
  | .gap t => ∃ c, t = [c] ∧ isSpace c = true
  | _ => False

variable {s : List Stretch}

theorem plain_ofPart (part : Template.Part) : ∀ x ∈ ofPart part, x.Plain := by
  cases part with
  | literal t =>
    intro x hx
    obtain ⟨c, -, rfl⟩ := mem_map.mp hx
    rw [ofChar]
    cases hc : isSpace c with
    | true => exact ⟨c, rfl, hc⟩
    | false => exact ⟨cons_ne_nil _ _, hc, hc⟩
  | binding e =>
    intro x hx
    obtain rfl := mem_singleton.mp hx
    refine ⟨by simp [partText, Attribute.braced], ?_, ?_⟩
    · rw [partText, Attribute.braced, append_assoc, startsBlank_append (by simp)]
      rfl
    · rw [partText, Attribute.braced, endsBlank_append (by simp)]
      rfl

theorem text_ofPart (part : Template.Part) : (ofPart part).flatMap Stretch.text = partText part := by
  cases part with
  | binding e => exact append_nil _
  | literal t =>
    rw [ofPart, flatMap_map, partText]
    have hchar : ∀ c : Char, (ofChar c).text = [c] := by
      intro c
      rw [ofChar]
      split <;> rfl
    simp [hchar]

theorem text_parts (parts : List Template.Part) :
    (parts.flatMap ofPart).flatMap Stretch.text = parts.flatMap partText := by
  rw [flatMap_assoc]
  simp only [text_ofPart]

theorem plain_parts (parts : List Template.Part) : ∀ x ∈ parts.flatMap ofPart, x.Plain := by
  intro x hx
  obtain ⟨part, -, hmem⟩ := mem_flatMap.mp hx
  exact plain_ofPart part x hmem

theorem Stretch.Plain.text_ne_nil {x : Stretch} (h : x.Plain) : x.text ≠ [] := by
  cases x with
  | ink part => exact h.1
  | gap t =>
    obtain ⟨c, rfl, -⟩ := h
    exact cons_ne_nil _ _
  | note t | edge t => exact h.elim

/-- Where a row of gaps ends, its white space ends. The text of a stretch may be taken backwards. -/
theorem flatMap_dropWhile {f : Stretch → Text} (hgap : ∀ x ∈ s, x.isGap = true → isBlank (f x) = true)
    (hink : ∀ x ∈ s, x.isGap = false → f x ≠ [] ∧ startsBlank (f x) = false) :
    (s.dropWhile isGap).flatMap f = (s.flatMap f).dropWhile isSpace := by
  induction s with
  | nil => rfl
  | cons x s ih =>
    have ih := ih (fun y hy => hgap y (mem_cons_of_mem x hy))
      (fun y hy => hink y (mem_cons_of_mem x hy))
    cases hx : x.isGap with
    | true =>
      have hblank := hgap x mem_cons_self hx
      rw [dropWhile_cons_of_pos hx, ih, flatMap_cons, dropWhile_append_of_pos (all_eq_true.mp hblank)]
    | false =>
      obtain ⟨hne, hstart⟩ := hink x mem_cons_self hx
      rw [dropWhile_cons_of_neg (by simp [hx]), flatMap_cons]
      cases hf : f x with
      | nil => exact absurd hf hne
      | cons c u =>
        rw [hf] at hstart
        have hc : isSpace c = false := hstart
        rw [cons_append, dropWhile_cons_of_neg (by simp [hc])]

theorem text_trimGaps (h : ∀ x ∈ s, x.Plain) : (trimGaps s).flatMap Stretch.text = trim (s.flatMap Stretch.text) := by
  have hgap : ∀ x ∈ s, x.isGap = true → isBlank x.text = true := by
    intro x hx hg
    cases x with
    | gap t =>
      obtain ⟨c, rfl, hc⟩ := h _ hx
      simp [Stretch.text, isBlank, hc]
    | ink part | note t | edge t => cases hg
  have hink : ∀ x ∈ s, x.isGap = false → x.text ≠ [] ∧ startsBlank x.text = false ∧ endsBlank x.text = false := by
    intro x hx hg
    cases x with
    | ink part => exact h _ hx
    | gap t => cases hg
    | note t | edge t => exact (h _ hx).elim
  have hsub : ∀ x ∈ (s.dropWhile isGap).reverse, x ∈ s :=
    fun x hx => (dropWhile_sublist _).subset (mem_reverse.mp hx)
  have hstart := flatMap_dropWhile hgap fun x hx hg => ⟨(hink x hx hg).1, (hink x hx hg).2.1⟩
  -- The end of a row is the start of the reversed row, with each text reversed.
  have hend := flatMap_dropWhile (s := (s.dropWhile isGap).reverse)
    (f := fun x => x.text.reverse)
    (fun x hx hg => by
      rw [isBlank, all_reverse]
      exact hgap x (hsub x hx) hg)
    (fun x hx hg => by
      obtain ⟨hne, -, hl⟩ := hink x (hsub x hx) hg
      refine ⟨by simpa using hne, ?_⟩
      rwa [startsBlank, head?_reverse])
  have hrev : ∀ r : List Stretch, (r.reverse).flatMap Stretch.text = (r.flatMap fun x => x.text.reverse).reverse := by
    intro r
    rw [reverse_flatMap]
    simp [Function.comp_def]
  rw [trimGaps, hrev, hend, trim, trimEnd, trimStart, ← hstart]
  congr 2
  rw [← reverse_eq_iff, ← hrev, reverse_reverse]

theorem plain_trimGaps (h : ∀ x ∈ s, x.Plain) : ∀ x ∈ trimGaps s, x.Plain := by
  intro x hx
  rw [trimGaps, mem_reverse] at hx
  have hmem := (dropWhile_sublist _).subset hx
  rw [mem_reverse] at hmem
  exact h x ((dropWhile_sublist _).subset hmem)

theorem apartAfter_plain (apart : Bool) (h : ∀ x ∈ s, x.Plain) (hne : s ≠ []) :
    apartAfter apart s = endsBlank (s.flatMap Stretch.text) := by
  obtain ⟨r, x, rfl⟩ : ∃ r x, s = r ++ [x] := ⟨_, _, (dropLast_concat_getLast hne).symm⟩
  have hx := h x (mem_append_right r mem_cons_self)
  rw [apartAfter_append, flatMap_append, flatMap_singleton, endsBlank_append hx.text_ne_nil]
  cases x with
  | ink part => exact hx.2.2.symm
  | gap t =>
    obtain ⟨c, rfl, hc⟩ := hx
    simp [apartAfter, Stretch.next, Stretch.text, endsBlank, hc]
  | note t | edge t => exact hx.elim

theorem spacing_of_blank (h : ∀ x ∈ s, x.Plain) (hb : isBlank (s.flatMap Stretch.text) = true)
    (apart : Bool) : spacing apart s = [] := by
  refine spacing_gaps apart fun x hx => ?_
  cases x with
  | gap t => rfl
  | ink part =>
    have hp := h _ hx
    have hpart : isBlank (partText part) = true := by
      rw [isBlank, all_eq_true] at hb ⊢
      exact fun c hc => hb c (mem_flatMap.mpr ⟨_, hx, hc⟩)
    rw [isBlank_of_startsBlank_false hp.2.1 hp.1] at hpart
    cases hpart
  | note t | edge t => exact (h _ hx).elim

/-- The ink in front stands apart if it did before or if there is white space in front of it, and the
rest is the same in both cases. -/
theorem spacing_of_not_blank (h : ∀ x ∈ s, x.Plain) (hb : isBlank (s.flatMap Stretch.text) = false) :
    ∃ part rest, ∀ apart, spacing apart s = (part, apart || startsBlank (s.flatMap Stretch.text)) :: rest := by
  induction s with
  | nil => cases hb
  | cons x s ih =>
    obtain ⟨hx, hs⟩ := forall_mem_cons.mp h
    cases x with
    | ink part =>
      refine ⟨part, spacing false s, fun apart => ?_⟩
      have hstart : startsBlank (partText part) = false := hx.2.1
      rw [flatMap_cons, startsBlank_append hx.text_ne_nil, Stretch.text, hstart, Bool.or_false]
      rfl
    | gap t =>
      obtain ⟨c, rfl, hc⟩ := hx
      have hrest : isBlank (s.flatMap Stretch.text) = false := by
        simpa [isBlank, Stretch.text, hc] using hb
      obtain ⟨part, rest, hspacing⟩ := ih hs hrest
      refine ⟨part, rest, fun apart => ?_⟩
      have hstart : startsBlank ((Stretch.gap [c] :: s).flatMap Stretch.text) = true := hc
      have hnext : (Stretch.gap [c]).next apart = true := by simp [Stretch.next, hc]
      rw [hstart, Bool.or_true, spacing, hnext, hspacing]
      rfl
    | note t | edge t => exact hx.elim

theorem spacing_plain (h : ∀ x ∈ s, x.Plain) (hb : isBlank (s.flatMap Stretch.text) = false) : ∃ part rest, ∀ apart,
      spacing apart s = (part, apart || startsBlank (s.flatMap Stretch.text)) :: rest ∧
        spacing apart (trimGaps s) = (part, apart) :: rest := by
  have htext := text_trimGaps h
  have htrim : isBlank ((trimGaps s).flatMap Stretch.text) = false := by
    rw [htext]
    exact isBlank_trim hb
  obtain ⟨part, rest, hs⟩ := spacing_of_not_blank h hb
  obtain ⟨part', rest', ht⟩ := spacing_of_not_blank (plain_trimGaps h) htrim
  simp only [htext, startsBlank_trim, Bool.or_false] at ht
  obtain ⟨hpart, rfl⟩ : (part', true) = (part, true) ∧ rest' = rest := by
    have heq := spacing_trimGaps s
    rw [hs, ht, Bool.true_or] at heq
    exact List.cons.inj heq
  obtain ⟨rfl, -⟩ := Prod.mk.inj hpart
  exact ⟨part', rest', fun apart => ⟨hs apart, ht apart⟩⟩

end Plain

def Item.content : Item → Text
  | .static t => t
  | .dynamic _ parts => parts.flatMap partText
  | _ => []

def Item.stretches : Item → List Stretch
  | .static t => ofPart (.literal t)
  | .dynamic _ parts => parts.flatMap ofPart
  | .comment _ body => [.note body]
  | _ => [.edge []]

def Item.writtenStretches (p : Preferences) : Item → List Stretch
  | .static t => trimGaps (ofPart (.literal t))
  | .dynamic depth parts =>
    .gap (p.indentation depth) :: (trimGaps (parts.flatMap ofPart) ++ [.gap ['\n']])
  | .comment depth body =>
    [.gap (p.indentation depth), .note ("<!--" ++ body ++ "-->"), .gap ['\n']]
  | item => [.edge (item.text p)]

def stretches (items : List Item) : List Stretch := items.flatMap Item.stretches

def writtenStretches (p : Preferences) (items : List Item) : List Stretch := items.flatMap (Item.writtenStretches p)

/-- Text that is written with no white space in front of its first word. -/
def Item.followsClosely (p : Preferences) : Item → Bool
  | .static t => !isBlank t
  | .dynamic depth parts => !(p.indentation depth).any isSpace && !isBlank (parts.flatMap partText)
  | _ => false

def Item.isBlankText : Item → Bool
  | .static t => isBlank t
  | _ => false

/-- A static text and a text behind it that is written right after it, with white space between their
words that is not written. -/
structure Joined (p : Preferences) (t : Text) (between : List Item) (x : Item) : Prop where
  words : isBlank t = false
  blank : ∀ y ∈ between, y.isBlankText = true
  close : x.followsClosely p = true
  space : (endsBlank t = true ∨ ∃ y ∈ between, y.content ≠ []) ∨ startsBlank x.content = true

section Items

variable {p : Preferences} {items : List Item} {x : Item}

theorem Item.text_writtenStretches (p : Preferences) (x : Item) :
    (x.writtenStretches p).flatMap Stretch.text = x.text p := by
  cases x with
  | static t =>
    rw [writtenStretches, text_trimGaps (plain_ofPart _), text_ofPart]
    rfl
  | dynamic depth parts =>
    rw [writtenStretches, flatMap_cons, flatMap_append, text_trimGaps (plain_parts parts),
      text_parts, Item.text, append_assoc]
    rfl
  | comment depth body => simp [writtenStretches, Stretch.text, Item.text]
  | delimiter _ _ | openTag _ _ _ _ | closeTag _ _ | html _ _ => exact append_nil _

theorem text_writtenStretches (p : Preferences) (items : List Item) :
    (writtenStretches p items).flatMap Stretch.text = items.flatMap (·.text p) := by
  rw [writtenStretches, flatMap_assoc]
  simp only [Item.text_writtenStretches]

theorem Item.filterMap_ink? (p : Preferences) (x : Item) :
    (x.writtenStretches p).filterMap ink? = x.stretches.filterMap ink? := by
  cases x with
  | static t => exact filterMap_trimGaps _
  | dynamic depth parts =>
    rw [writtenStretches, filterMap_cons]
    simp only [ink?, filterMap_append, filterMap_trimGaps]
    exact append_nil _
  | comment _ _ | delimiter _ _ | openTag _ _ _ _ | closeTag _ _ | html _ _ => rfl

theorem map_fst_written (p : Preferences) (items : List Item) (a b : Bool) :
    (spacing a (writtenStretches p items)).map Prod.fst = (spacing b (stretches items)).map Prod.fst := by
  rw [map_fst_spacing, map_fst_spacing, writtenStretches, stretches, filterMap_flatMap, filterMap_flatMap]
  simp only [Item.filterMap_ink?]

theorem length_spacing_item (p : Preferences) (x : Item) (a b : Bool) :
    (spacing a x.stretches).length = (spacing b (x.writtenStretches p)).length := by
  rw [← length_map Prod.fst, map_fst_spacing, ← Item.filterMap_ink? p, ← map_fst_spacing b, length_map]

theorem keepsApart_items (p : Preferences) (items : List Item) (a b : Bool) :
    KeepsApart (spacing a (stretches items)) (spacing b (writtenStretches p items)) ↔
      ∀ before x after, items = before ++ x :: after →
        KeepsApart (spacing (apartAfter a (stretches before)) x.stretches)
          (spacing (apartAfter b (writtenStretches p before)) (x.writtenStretches p)) := by
  induction items generalizing a b with
  | nil => exact ⟨fun _ before x after h => by simp at h, fun _ => keepsApart_refl _⟩
  | cons y items ih =>
    rw [stretches, writtenStretches, flatMap_cons, flatMap_cons, spacing_append, spacing_append,
      keepsApart_append (length_spacing_item p y a b), ← stretches, ← writtenStretches, ih]
    constructor
    · rintro ⟨hy, hitems⟩ before x after h
      cases before with
      | nil =>
        obtain ⟨rfl, -⟩ := List.cons.inj h
        exact hy
      | cons z before =>
        obtain ⟨rfl, hrest⟩ := List.cons.inj h
        have hx := hitems before x after hrest
        rwa [← apartAfter_append, ← apartAfter_append] at hx
    · intro h
      refine ⟨h [] y items rfl, fun before x after hitems => ?_⟩
      have hx := h (y :: before) x after (by rw [hitems]; rfl)
      rwa [stretches, writtenStretches, flatMap_cons, flatMap_cons, apartAfter_append, apartAfter_append] at hx

/-- The first word of an item is at risk only if it is written with no white space in front. -/
theorem keepsApart_item (p : Preferences) (x : Item) (a b : Bool) :
    KeepsApart (spacing a x.stretches) (spacing b (x.writtenStretches p)) ↔
      (x.followsClosely p = true → (a || startsBlank x.content) = true → b = true) := by
  -- Text with words, in front of which `c` is known of the written side.
  have hwords : ∀ {s : List Stretch} (c : Bool), (∀ y ∈ s, y.Plain) → isBlank (s.flatMap Stretch.text) = false →
      (KeepsApart (spacing a s) (spacing c (trimGaps s)) ↔
        ((a || startsBlank (s.flatMap Stretch.text)) = true → c = true)) := by
    intro s c hs hb
    obtain ⟨part, rest, hspacing⟩ := spacing_plain hs hb
    rw [(hspacing a).1, (hspacing c).2, keepsApart_cons]
  cases x with
  | static t =>
    have htext := text_ofPart (.literal t)
    cases hb : isBlank t with
    | true =>
      have hnone := spacing_of_blank (plain_ofPart (.literal t)) (htext.symm ▸ hb)
      simp [Item.stretches, hnone, Item.followsClosely, hb, KeepsApart]
    | false =>
      rw [Item.stretches, Item.writtenStretches, hwords b (plain_ofPart _) (htext.symm ▸ hb), htext]
      simp [Item.followsClosely, hb, Item.content, partText]
  | dynamic depth parts =>
    have htext := text_parts parts
    cases hb : isBlank (parts.flatMap partText) with
    | true =>
      have hnone := spacing_of_blank (plain_parts parts) (htext.symm ▸ hb)
      simp [Item.stretches, hnone, Item.followsClosely, hb, KeepsApart]
    | false =>
      have hwritten : spacing b ((Item.dynamic depth parts).writtenStretches p) =
          spacing (b || (p.indentation depth).any isSpace)
            (trimGaps (parts.flatMap ofPart)) := by
        rw [Item.writtenStretches, spacing, spacing_append]
        exact append_nil _
      rw [hwritten, Item.stretches, hwords _ (plain_parts parts) (htext.symm ▸ hb), htext]
      cases hi : (p.indentation depth).any isSpace with
      | true => simp [Item.followsClosely, hi]
      | false => simp [Item.followsClosely, hb, hi, Item.content]
  | comment _ _ | delimiter _ _ | openTag _ _ _ _ | closeTag _ _ | html _ _ =>
    simp [Item.stretches, Item.followsClosely, spacing, ink?, KeepsApart]

theorem apartAfter_static {t : Text} (a : Bool) (h : t ≠ []) :
    apartAfter a (Item.static t).stretches = endsBlank t := by
  rw [Item.stretches, apartAfter_plain a (plain_ofPart _) (by simpa [ofPart] using h), text_ofPart]
  rfl

theorem apartAfter_written_static {t : Text} (b : Bool) (h : isBlank t = false) :
    apartAfter b ((Item.static t).writtenStretches p) = false := by
  have htext := (Item.static t).text_writtenStretches p
  rw [Item.writtenStretches] at htext ⊢
  rw [apartAfter_plain b (plain_trimGaps (plain_ofPart _)), htext]
  · exact endsBlank_trim t
  · intro hnil
    rw [hnil] at htext
    rw [trim_eq_nil_iff.mp htext.symm] at h
    cases h

theorem exists_static_of_isBlankText (h : x.isBlankText = true) : ∃ t, x = .static t ∧ isBlank t = true := by
  cases x with
  | static t => exact ⟨t, rfl, h⟩
  | dynamic _ _ | comment _ _ | delimiter _ _ | openTag _ _ _ _ | closeTag _ _ | html _ _ => cases h

theorem written_of_isBlankText (h : x.isBlankText = true) : x.writtenStretches p = [] := by
  obtain ⟨t, rfl, ht⟩ := exists_static_of_isBlankText h
  have htext := (Item.static t).text_writtenStretches p
  rw [Item.text, trim_blank ht, flatMap_eq_nil_iff] at htext
  refine eq_nil_iff_forall_not_mem.mpr fun y hy => ?_
  exact (plain_trimGaps (plain_ofPart _) y hy).text_ne_nil (htext y hy)

theorem apartAfter_written_cases (b : Bool) (x : Item) :
    (∃ t, x = .static t ∧ isBlank t = false) ∨ x.isBlankText = true ∨ apartAfter b (x.writtenStretches p) = true := by
  cases x with
  | static t =>
    cases hb : isBlank t with
    | true => exact .inr (.inl hb)
    | false => exact .inl ⟨t, rfl, hb⟩
  | dynamic depth parts =>
    refine .inr (.inr ?_)
    rw [Item.writtenStretches, ← cons_append, apartAfter_append]
    exact Bool.or_true _
  | comment depth body => exact .inr (.inr (Bool.or_true _))
  | delimiter _ _ | openTag _ _ _ _ | closeTag _ _ | html _ _ => exact .inr (.inr rfl)

theorem apartAfter_written_blank (b : Bool) (h : ∀ x ∈ items, x.isBlankText = true) :
    apartAfter b (writtenStretches p items) = b := by
  have hnil : writtenStretches p items = [] := flatMap_eq_nil_iff.mpr fun x hx => written_of_isBlankText (h x hx)
  rw [hnil]
  rfl

theorem apartAfter_blank (a : Bool) (h : ∀ x ∈ items, x.isBlankText = true) :
    apartAfter a (stretches items) = true ↔ a = true ∨ ∃ x ∈ items, x.content ≠ [] := by
  induction items generalizing a with
  | nil => simp [stretches, apartAfter]
  | cons x items ih =>
    obtain ⟨hx, hitems⟩ := forall_mem_cons.mp h
    rw [stretches, flatMap_cons, apartAfter_append, ← stretches, ih _ hitems]
    obtain ⟨t, rfl, ht⟩ := exists_static_of_isBlankText hx
    by_cases hnil : t = []
    · subst hnil
      simp [Item.stretches, ofPart, apartAfter, Item.content]
    · rw [apartAfter_static a hnil, endsBlank_of_isBlank ht hnil]
      simp [Item.content, hnil]

/-- Behind items with a static text that has words and then white space only, nothing is written
that keeps the next word apart. -/
theorem apartAfter_written_iff (b : Bool) (items : List Item) :
    apartAfter b (writtenStretches p items) = false ↔ (b = false ∧ ∀ x ∈ items, x.isBlankText = true) ∨
        ∃ before t between, items = before ++ .static t :: between ∧ isBlank t = false ∧
          ∀ x ∈ between, x.isBlankText = true := by
  constructor
  · intro h
    induction items generalizing b with
    | nil => exact .inl ⟨h, by simp⟩
    | cons x items ih =>
      rw [writtenStretches, flatMap_cons, apartAfter_append] at h
      rcases ih _ h with ⟨hx, hitems⟩ | ⟨before, t, between, rfl, ht, hb⟩
      · rcases apartAfter_written_cases (p := p) b x with ⟨t, rfl, ht⟩ | hblank | htrue
        · exact .inr ⟨[], t, items, rfl, ht, hitems⟩
        · rw [written_of_isBlankText hblank] at hx
          exact .inl ⟨hx, forall_mem_cons.mpr ⟨hblank, hitems⟩⟩
        · rw [htrue] at hx
          cases hx
      · exact .inr ⟨x :: before, t, between, rfl, ht, hb⟩
  · rintro (⟨rfl, hitems⟩ | ⟨before, t, between, rfl, ht, hb⟩)
    · exact apartAfter_written_blank false hitems
    · rw [writtenStretches, flatMap_append, flatMap_cons, apartAfter_append, apartAfter_append,
        apartAfter_written_static _ ht]
      exact apartAfter_written_blank false hb

theorem apartAfter_static_blank {before between : List Item} {t : Text} (a : Bool) (ht : isBlank t = false)
    (hb : ∀ x ∈ between, x.isBlankText = true) :
    apartAfter a (stretches (before ++ .static t :: between)) = true ↔
      endsBlank t = true ∨ ∃ x ∈ between, x.content ≠ [] := by
  have hne : t ≠ [] := by
    rintro rfl
    cases ht
  rw [stretches, flatMap_append, flatMap_cons, apartAfter_append, apartAfter_append, apartAfter_static _ hne]
  exact apartAfter_blank _ hb

theorem keepsApart_written_iff (p : Preferences) (items : List Item) :
    KeepsApart (spacing true (stretches items)) (spacing true (writtenStretches p items)) ↔
      ¬ ∃ before t between x after, items = before ++ .static t :: (between ++ x :: after) ∧
        Joined p t between x := by
  rw [keepsApart_items]
  simp only [keepsApart_item]
  constructor
  · rintro h ⟨before, t, between, x, after, hitems, hj⟩
    have hsplit : items = (before ++ .static t :: between) ++ x :: after := by simp [hitems]
    have hlost := (apartAfter_written_iff (p := p) true _).mpr
      (.inr ⟨before, t, between, rfl, hj.words, hj.blank⟩)
    have hspace := hj.space
    rw [← @apartAfter_static_blank before between t true hj.words hj.blank] at hspace
    have hkept := h _ x after hsplit hj.close (by rw [Bool.or_eq_true]; exact hspace)
    rw [hlost] at hkept
    cases hkept
  · intro h before x after hitems hclose hspace
    cases hkept : apartAfter true (writtenStretches p before) with
    | true => rfl
    | false =>
      rcases (apartAfter_written_iff true before).mp hkept with
        ⟨hfalse, -⟩ | ⟨start, t, between, rfl, ht, hb⟩
      · cases hfalse
      · rw [Bool.or_eq_true, apartAfter_static_blank true ht hb] at hspace
        exact absurd ⟨start, t, between, x, after, by simp [hitems], ht, hb, hclose, hspace⟩ h

end Items

end Svelte

end ComponentConverter
