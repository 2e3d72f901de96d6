import ComponentConverter.Proofs.BalancedText
import ComponentConverter.Proofs.Trimming

namespace ComponentConverter.Style

open Lexis
open List hiding head

def brackets : List (Char × Char) := [('(', ')'), ('[', ']')]

def braces : List (Char × Char) := [('\x7b', '\x7d')]

structure Selector where
  text : Text
  ne_nil : text ≠ []
  trimmed : trim text = text
  start : ∀ c ∈ text.head?, c ≠ '@' ∧ c ≠ '\x7d'
  balanced : Balanced brackets [',', '\x7b', ';'] text

/-- What stands before the block of a rule with an at sign. `apart` separates the name from the prelude by white space or
by an opening parenthesis: `@media"x"`, with a string right behind the name, is outside. -/
structure AtHead where
  name : Text
  params : Text
  plain : ∀ c ∈ name, isSpace c = false ∧ c ∉ special brackets ['\x7b', ';']
  apart : ∀ c ∈ params.head?, isSpace c = true ∨ c = '('
  balanced : Balanced brackets ['\x7b', ';'] params

namespace AtHead

def text (h : AtHead) : Text := '@' :: (h.name ++ h.params)

/-- The block holds rules. Names are compared without regard to case. -/
def HoldsRules (h : AtHead) : Prop := ∃ g ∈ groupNames, h.name.map Char.toLower = g.toList

end AtHead

/-- A body whose strings end and whose braces close. -/
def Body : Type := { t : Text // Balanced braces [] t }

def Blank : Type := { t : Text // isBlank t = true }

inductive Item where
  | space (text : Blank)
  | statement (text : Text) (start : ∀ c ∈ text.head?, Begins c)
      (balanced : Balanced brackets ['\x7b', ';'] text)
  | style (first : Selector) (others : List Selector) (gap : Blank) (body : Body)
  | block (head : AtHead) (h : ¬ head.HoldsRules) (body : Body)
  | group (head : AtHead) (h : head.HoldsRules) (items : List Item)

def textOfSelectors (first : Selector) (others : List Selector) : Text :=
  ", ".toList.intercalate (first.text :: others.map Selector.text)

def enclosed (head body : Text) : Text := head ++ '\x7b' :: (body ++ ['\x7d'])

theorem enclosed_append (head body t : Text) : enclosed head body ++ t = head ++ '\x7b' :: (body ++ '\x7d' :: t) := by
  simp [enclosed]

mutual

def Item.text : Item → Text
  | .space text => text.val
  | .statement text _ _ => text ++ [';']
  | .style first others gap body => enclosed (textOfSelectors first others ++ gap.val) body.val
  | .block head _ body => enclosed head.text body.val
  | .group head _ items => enclosed head.text (textOfItems items)

def textOfItems : List Item → Text
  | [] => []
  | i :: is => i.text ++ textOfItems is

end

section Selectors

theorem Selector.trimEnd_text (s : Selector) : trimEnd s.text = s.text := by
  have h := s.trimmed
  rwa [trim, trimStart_eq_self s.trimmed] at h

theorem Selector.begins (s : Selector) : ∃ c t, s.text = c :: t ∧ Begins c ∧ c ≠ '@' := by
  cases hs : s.text with
  | nil => exact absurd hs s.ne_nil
  | cons c t =>
    have hstart := s.start c (by simp [hs])
    have hspace : isSpace c = false := by
      have htrim := trimStart_eq_self s.trimmed
      rw [hs, trimStart, dropWhile_cons] at htrim
      cases hc : isSpace c with
      | false => rfl
      | true =>
        have hlen : (t.dropWhile isSpace).length ≤ t.length := (dropWhile_sublist isSpace).length_le
        rw [if_pos hc] at htrim
        rw [htrim, length_cons] at hlen
        omega
    exact ⟨c, t, rfl, ⟨hspace, hstart.2⟩, hstart.1⟩

theorem global_eq (t : Text) : global t = [':', 'g', 'l', 'o', 'b', 'a', 'l'] ++ '(' :: (t ++ [')']) := rfl

theorem balanced_global {t : Text} (h : Balanced brackets [',', '\x7b', ';'] t) :
    Balanced brackets [',', '\x7b', ';'] (global t) := by
  rw [global_eq]
  have hname : Balanced brackets [',', '\x7b', ';'] [':', 'g', 'l', 'o', 'b', 'a', 'l'] := .of_plain rfl
  have hparen : Balanced brackets [',', '\x7b', ';'] ('(' :: (t ++ ')' :: [])) :=
    .nested (p := ('(', ')')) (by decide) (h.mono (nil_subset _)) .nil
  exact hname.append hparen

def Selector.marked (s : Selector) : Selector where
  text := global s.text
  ne_nil := by simp [global_eq]
  trimmed := by
    have hstart : trimStart (global s.text) = global s.text := by
      rw [global_eq]
      rfl
    rw [trim, hstart]
    apply trimEnd_eq_self
    intro c hc
    have hlast : (global s.text).getLast? = some ')' := getLast?_concat
    obtain rfl : ')' = c := by simpa [hlast] using hc
    decide
  start := by
    intro c hc
    obtain rfl : ':' = c := by simpa [global_eq] using hc
    decide
  balanced := balanced_global s.balanced

end Selectors

mutual

/-- The item with the selectors of style rules marked global, inside groups too. -/
def Item.marked : Item → Item
  | .style first others gap body => .style first.marked (others.map Selector.marked) gap body
  | .group head h items => .group head h (markedItems items)
  | i => i

def markedItems : List Item → List Item
  | [] => []
  | i :: is => i.marked :: markedItems is

end

section Scanning

variable {u r : Text} {stops : List Char}

theorem counts_upTo (hs : ∀ c ∈ stops, c ∉ quotes ++ ['(', '[']) : (Marks.upTo stops).Counts brackets stops where
  opening := rfl
  closing := rfl
  stop := rfl
  open_apart c hc := by
    refine ⟨fun hmem => hs c hmem (mem_append_right _ hc), fun hq => ?_⟩
    simp only [brackets, map_cons, map_nil, mem_cons, not_mem_nil, or_false] at hc
    rcases hc with rfl | rfl <;> exact absurd hq (by decide)
  close_apart c hc := by
    simp only [brackets, map_cons, map_nil, mem_cons, not_mem_nil, or_false] at hc
    rcases hc with rfl | rfl <;> exact ⟨by decide, by decide⟩
  unquoted c hc hq := hs c hc (mem_append_left _ hq)

theorem counts_body : Marks.body.Counts braces ['\x7d'] where
  opening := rfl
  closing := rfl
  stop := rfl
  open_apart := forall_mem_singleton.mpr ⟨by decide, by decide⟩
  close_apart := forall_mem_singleton.mpr ⟨by decide, by decide⟩
  unquoted := forall_mem_singleton.mpr (by decide)

/-- A scan that looks for `stops` takes a balanced text that one of them follows, or nothing. -/
theorem scan_balanced {m : Marks} {pairs : List (Char × Char)} {stops' : List Char}
    (h : Balanced pairs stops' u) (hm : m.Counts pairs stops)
    (hs : ∀ c ∈ stops, c ∈ stops' ∨ c ∈ pairs.map Prod.snd) (hr : ∀ c ∈ r.head?, c ∈ stops) :
    literal.scan m literal.outside (u ++ r) = (u, r) := by
  have hpass := h.passes (d := 0) hm (.inr hs) r
  refine scan_passes hpass.1 fun hne => ?_
  obtain ⟨c, r, rfl⟩ := exists_cons_of_ne_nil hne
  rw [outside, show literal.start = .plain from rfl, hpass.2, stopsAt, hm.stop]
  simpa [literal, startsWithOne] using hr c rfl

theorem head_balanced {c : Char} (h : Balanced brackets ['\x7b', ';'] u) (hc : c ∈ ['\x7b', ';']) :
    literal.head (u ++ c :: r) = (u, c :: r) :=
  scan_balanced h (counts_upTo (by simp [quotes])) (fun _ => .inl) (by simpa using hc)

theorem body_balanced (body : Body) : literal.body (body.val ++ '\x7d' :: r) = (body.val, '\x7d' :: r) :=
  scan_balanced body.property counts_body (by simp [braces]) (by simp)

theorem selector_balanced (h : Balanced brackets [',', '\x7b', ';'] u)
    (hr : ∀ c ∈ r.head?, c = ',') : literal.scan .selector literal.outside (u ++ r) = (u, r) :=
  scan_balanced h (counts_upTo (by simp [quotes])) (by simp) (by simpa using hr)

end Scanning

section Lists

variable {first : Selector} {others : List Selector} {gap : Text}

theorem textOfSelectors_eq (first : Selector) (others : List Selector) :
    textOfSelectors first others = first.text ++ others.flatMap fun s => ',' :: ' ' :: s.text := by
  rw [textOfSelectors, intercalate_cons, flatMap_map]
  rfl

theorem parts_textOfSelectors (first : Selector) (others : List Selector) :
    literal.Parts (textOfSelectors first others) (first.text :: others.map fun s => ' ' :: s.text) := by
  rw [textOfSelectors_eq]
  generalize hu : first.text = u
  have hb : Balanced brackets [',', '\x7b', ';'] u := hu ▸ first.balanced
  clear hu
  induction others generalizing u with
  | nil => exact .last (selector_balanced hb (by simp))
  | cons s others ih =>
    have hspace : Balanced brackets [',', '\x7b', ';'] (' ' :: s.text) := .char (by decide) s.balanced
    exact .more (selector_balanced hb (by simp)) (ih _ hspace)

theorem balanced_blank (gap : Blank) : Balanced brackets ['\x7b', ';'] gap.val := by
  have hspecial : (special brackets ['\x7b', ';']).all (!isSpace ·) = true := rfl
  apply Balanced.of_plain
  rw [all_eq_true]
  intro c hc
  have hspace : isSpace c = true := all_eq_true.mp gap.property c hc
  have hne : c ∉ special brackets ['\x7b', ';'] := by
    intro hmem
    simpa [hspace] using all_eq_true.mp hspecial c hmem
  simpa using hne

theorem balanced_textOfSelectors (first : Selector) (others : List Selector) :
    Balanced brackets ['\x7b', ';'] (textOfSelectors first others) := by
  have hs (s : Selector) : Balanced brackets ['\x7b', ';'] s.text := s.balanced.mono (by decide)
  rw [textOfSelectors_eq]
  refine (hs first).append ?_
  induction others with
  | nil => exact .nil
  | cons s others ih =>
    have hcomma : Balanced brackets ['\x7b', ';'] [',', ' '] := .of_plain rfl
    exact (hcomma.append (hs s)).append ih

theorem trimEnd_textOfSelectors (first : Selector) (others : List Selector) :
    trimEnd (textOfSelectors first others) = textOfSelectors first others := by
  rw [textOfSelectors_eq]
  refine trimEnd_append_eq first.trimEnd_text ?_
  induction others with
  | nil => rfl
  | cons s others ih =>
    have hs : trimEnd (',' :: ' ' :: s.text) = ',' :: ' ' :: s.text := by
      have happend := trimEnd_append [',', ' '] s.text
      rw [s.trimEnd_text, if_neg s.ne_nil] at happend
      exact happend
    exact trimEnd_append_eq hs ih

theorem mapList_textOfSelectors (first : Selector) (others : List Selector) (gap : Blank) :
    mapList global (textOfSelectors first others ++ gap.val) =
      textOfSelectors first.marked (others.map Selector.marked) ++ gap.val := by
  have hlist : trimEnd (textOfSelectors first others ++ gap.val) = textOfSelectors first others := by
    rw [trimEnd_append, if_pos (trimEnd_blank gap.property), trimEnd_textOfSelectors]
  have hparts := splitCommas_of_parts (parts_textOfSelectors first others)
  have htrim (s : Selector) : trim (' ' :: s.text) = s.text := s.trimmed
  simp only [mapList, hlist, hparts, drop_left]
  simp [textOfSelectors, first.trimmed, htrim, Selector.marked, Function.comp_def]

end Lists

section Heads

theorem AtHead.balanced_text (h : AtHead) : Balanced brackets ['\x7b', ';'] h.text := by
  have hname : Balanced brackets ['\x7b', ';'] h.name := by
    apply Balanced.of_plain
    rw [all_eq_true]
    intro c hc
    simpa using (h.plain c hc).2
  exact .char (by decide) (hname.append h.balanced)

theorem AtHead.takeWhile_name (h : AtHead) :
    (h.name ++ h.params).takeWhile (fun c => !(isSpace c || c = '(' || c = '\x7b')) = h.name := by
  rw [takeWhile_append_of_pos]
  · cases hp : h.params with
    | nil => simp
    | cons c t =>
      have hc := h.apart c (by simp [hp])
      rw [takeWhile_cons_of_neg, append_nil]
      rcases hc with hc | rfl
      · simp [hc]
      · decide
  · intro c hc
    obtain ⟨hspace, hplain⟩ := h.plain c hc
    simp only [special, brackets, map_cons, mem_append, mem_cons, not_or] at hplain
    simp [hspace, hplain]

theorem AtHead.isGroup_text (h : AtHead) : isGroup h.text = true ↔ h.HoldsRules := by
  have hname : h.text.drop 1 = h.name ++ h.params := rfl
  simp only [isGroup, hname, h.takeWhile_name, any_eq_true, decide_eq_true_eq, HoldsRules]

end Heads

def markedText (rules : List Rule) : Text := textOfRules (mapSelectorsOf (mapList global) rules)

def ReadsAs (s out : Text) : Prop :=
  ∀ t rules rest, literal.Reads t rules rest →
    ∃ rules', literal.Reads (s ++ t) rules' rest ∧ markedText rules' = out ++ markedText rules

section Reading

variable {s s' out out' t rest : Text} {rules : List Rule}

theorem readsAs_nil : ReadsAs [] [] := fun _ rules _ h => ⟨rules, h, rfl⟩

theorem ReadsAs.append (h : ReadsAs s out) (h' : ReadsAs s' out') : ReadsAs (s ++ s') (out ++ out') := by
  intro t rules rest ht
  obtain ⟨rules₁, h₁, hout₁⟩ := h' t rules rest ht
  obtain ⟨rules₂, h₂, hout₂⟩ := h _ rules₁ rest h₁
  refine ⟨rules₂, ?_, ?_⟩
  · rw [append_assoc]
    exact h₂
  · rw [hout₂, hout₁, append_assoc]

theorem readsAs_space {c : Char} (hc : isSpace c = true) : ReadsAs [c] [c] := by
  intro t rules rest h
  -- White space before other white space joins it; before anything else it is a rule of its own.
  have hone (hdrop : t.dropWhile isSpace = t) (htake : t.takeWhile isSpace = []) :
      ∃ rules', literal.Reads (c :: t) rules' rest ∧ markedText rules' = c :: markedText rules := by
    have hread := Reads.space (L := literal) (t := t) hc (hdrop.symm ▸ h)
    rw [htake] at hread
    exact ⟨_, hread, rfl⟩
  cases h with
  | @space d t _ rules hd h =>
    have hread : literal.Reads (c :: d :: t) (.space (c :: d :: t.takeWhile isSpace) :: rules) rest := by
      rw [← takeWhile_cons_of_pos hd]
      rw [← dropWhile_cons_of_pos hd] at h
      exact .space hc h
    exact ⟨_, hread, rfl⟩
  | nil => exact hone rfl rfl
  | brace => exact hone rfl rfl
  | statement hd | unfinished hd | style hd =>
    exact hone (dropWhile_cons_of_neg (by simp [hd.1])) (takeWhile_cons_of_neg (by simp [hd.1]))
  | block | group => exact hone rfl rfl

theorem readsAs_blank (hs : isBlank s = true) : ReadsAs s s := by
  induction s with
  | nil => exact readsAs_nil
  | cons c s ih =>
    rw [isBlank, all_cons, Bool.and_eq_true] at hs
    exact (readsAs_space hs.1).append (ih hs.2)

theorem readsAs_statement (hstart : ∀ c ∈ s.head?, Begins c)
    (hs : Balanced brackets ['\x7b', ';'] s) : ReadsAs (s ++ [';']) (s ++ [';']) := by
  intro t rules rest h
  have hhead : literal.head (s ++ [';'] ++ t) = (s, ';' :: t) := by
    rw [append_assoc]
    exact head_balanced hs (by decide)
  refine ⟨.statement s :: rules, ?_, rfl⟩
  cases s with
  | nil => exact .statement ⟨by decide, by decide⟩ hhead h
  | cons c s => exact .statement (hstart c rfl) hhead h

theorem readsAs_style (first : Selector) (others : List Selector) (gap : Blank) (body : Body) :
    ReadsAs (enclosed (textOfSelectors first others ++ gap.val) body.val)
      (enclosed (textOfSelectors first.marked (others.map Selector.marked) ++ gap.val) body.val) := by
  intro t rules rest h
  obtain ⟨c, u, hfirst, hc, hat⟩ := first.begins
  have hhead : literal.head (enclosed (textOfSelectors first others ++ gap.val) body.val ++ t) =
      (textOfSelectors first others ++ gap.val, '\x7b' :: (body.val ++ '\x7d' :: t)) := by
    rw [enclosed_append]
    exact head_balanced ((balanced_textOfSelectors first others).append (balanced_blank gap)) (by decide)
  refine ⟨.style (textOfSelectors first others ++ gap.val) body.val true :: rules, ?_, ?_⟩
  · obtain ⟨v, hv⟩ : ∃ v, enclosed (textOfSelectors first others ++ gap.val) body.val ++ t = c :: v := by
      simp [enclosed, textOfSelectors_eq, hfirst]
    rw [hv] at hhead ⊢
    exact .style hc hat hhead (body_balanced body) rfl h
  · simp [markedText, mapSelectorsOf, Rule.mapSelectors, textOfRules, Rule.text, brace, enclosed,
      mapList_textOfSelectors]

theorem head_enclosed (head : AtHead) (body t : Text) :
    literal.head (enclosed head.text body ++ t) = (head.text, '\x7b' :: (body ++ '\x7d' :: t)) := by
  rw [enclosed_append]
  exact head_balanced head.balanced_text (by decide)

theorem readsAs_block {head : AtHead} (hg : ¬ head.HoldsRules) (body : Body) :
    ReadsAs (enclosed head.text body.val) (enclosed head.text body.val) := by
  intro t rules rest h
  have hgroup : isGroup head.text = false := by
    rw [← Bool.not_eq_true, head.isGroup_text]
    exact hg
  refine ⟨.block head.text body.val true :: rules, ?_, ?_⟩
  · exact .block hgroup (head_enclosed head body.val t) (body_balanced body) rfl h
  · simp [markedText, mapSelectorsOf, Rule.mapSelectors, textOfRules, Rule.text, brace, enclosed]

theorem readsAs_group {head : AtHead} (hg : head.HoldsRules) (h : ReadsAs s out) :
    ReadsAs (enclosed head.text s) (enclosed head.text out) := by
  intro t rules rest ht
  obtain ⟨inner, hin, hout⟩ := h ('\x7d' :: t) [] _ (.brace t)
  refine ⟨.group head.text inner true :: rules, ?_, ?_⟩
  · exact .group (head.isGroup_text.mpr hg) (head_enclosed head s t) hin rfl ht
  · have hinner : textOfRules (mapSelectorsOf (mapList global) inner) = out := by
      simpa [markedText, mapSelectorsOf, textOfRules] using hout
    simp [markedText, mapSelectorsOf, Rule.mapSelectors, textOfRules, Rule.text, brace, enclosed, hinner]

mutual

theorem readsAs_item (i : Item) : ReadsAs i.text i.marked.text := by
  cases i with
  | space text => exact readsAs_blank text.property
  | statement text start balanced => exact readsAs_statement start balanced
  | style first others gap body => exact readsAs_style first others gap body
  | block head h body => exact readsAs_block h body
  | group head h items =>
    exact readsAs_group h (readsAs_items items)

theorem readsAs_items (items : List Item) : ReadsAs (textOfItems items) (textOfItems (markedItems items)) := by
  cases items with
  | nil => exact readsAs_nil
  | cons i items => exact (readsAs_item i).append (readsAs_items items)

end

end Reading

/-- Marking the selectors of a written sheet is marking the selectors of its rules, and changes
nothing else. -/
theorem globalize_textOfItems (items : List Item) :
    globalize (textOfItems items) = textOfItems (markedItems items) := by
  obtain ⟨rules, hread, hout⟩ := readsAs_items items [] [] [] .nil
  rw [List.append_nil] at hread
  rw [globalize, read_of_reads hread]
  simpa [Sheet.mapSelectors, Sheet.text, markedText, mapSelectorsOf, textOfRules] using hout

/-- A group with its name in capitals, a comma and a brace in a string inside brackets. -/
theorem globalize_textOfItems_group :
    ∃ items, textOfItems items = "@MEDIA (a)\x7b.b[c=\"\x7d,\"], .d \x7be:\"\x7b\"\x7d\x7d" ∧
      globalize (textOfItems items) =
        "@MEDIA (a)\x7b:global(.b[c=\"\x7d,\"]), :global(.d) \x7be:\"\x7b\"\x7d\x7d" := by
  have hparams : Balanced brackets ['\x7b', ';'] [' ', '(', 'a', ')'] :=
    .char (by decide) (.nested (p := ('(', ')')) (s := ['a']) (by simp [brackets]) (.of_plain rfl) .nil)
  have hvalue : Balanced brackets [] ['c', '=', '"', '\x7d', ',', '"'] :=
    .append (s := ['c', '=']) (.of_plain rfl)
      (.string (q := '"') (s := ['\x7d', ',', '"']) (by decide)
        (.char (by decide) (by decide) (.char (by decide) (by decide) .close)) .nil)
  have hfirst : Balanced brackets [',', '\x7b', ';'] ['.', 'b', '[', 'c', '=', '"', '\x7d', ',', '"', ']'] :=
    .append (s := ['.', 'b']) (.of_plain rfl)
      (.nested (p := ('[', ']')) (s := ['c', '=', '"', '\x7d', ',', '"']) (by simp [brackets]) hvalue .nil)
  have hbody : Balanced braces [] ['e', ':', '"', '\x7b', '"'] :=
    .append (s := ['e', ':']) (.of_plain rfl)
      (.string (q := '"') (s := ['\x7b', '"']) (by decide) (.char (by decide) (by decide) .close) .nil)
  have hname : ∀ c ∈ ['M', 'E', 'D', 'I', 'A'], isSpace c = false ∧ c ∉ special brackets ['\x7b', ';'] := by
    simp [isSpace, special, quotes, brackets]
  refine ⟨[.group ⟨_, _, hname, by simp [isSpace], hparams⟩ ⟨"media", by decide, rfl⟩
    [.style ⟨_, by simp, rfl, by simp, hfirst⟩ [⟨['.', 'd'], by simp, rfl, by simp, .of_plain rfl⟩]
      ⟨[' '], rfl⟩ ⟨_, hbody⟩]], rfl, ?_⟩
  rw [globalize_textOfItems]
  rfl

end ComponentConverter.Style
