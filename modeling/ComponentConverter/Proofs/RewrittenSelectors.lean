import ComponentConverter.Proofs.DeepCombinators
import ComponentConverter.Proofs.InertCharacters

namespace ComponentConverter.Style

open List Lexis Surroundings

variable {a first : Text} {c : Char} {others : List Text}

def singles (list : Text) : List Text := (splitCommas .outside list).map trim

def singlesOf (rules : List Rule) : List Text := (selectorsOf rules).flatMap singles

structure Trimmed (t : Text) : Prop where
  start : ∀ c ∈ t.head?, isSpace c = false
  stop : ∀ c ∈ t.getLast?, isSpace c = false

/-- The first character is one that a style rule can start with. -/
def Heading (t : Text) : Prop := ∀ c ∈ t.head?, c ≠ '@' ∧ c ≠ '\x7d'

structure Keeps (f : Text → Text) : Prop where
  settled : ∀ s, Settled s → Settled (f s)
  trimmed : ∀ s, Trimmed s → Trimmed (f s)
  heading : ∀ s, Heading s → Heading (f s)

section Trimmed

variable {s t : Text}

theorem getLast?_trimEnd (t : Text) : ∀ c ∈ (trimEnd t).getLast?, isSpace c = false := by
  intro c hc
  rw [trimEnd, getLast?_reverse] at hc
  have hn := head?_dropWhile_not isSpace t.reverse
  rw [hc] at hn
  exact hn

theorem head?_append_left (h : s ≠ []) : (s ++ t).head? = s.head? := by
  cases s with
  | nil => exact absurd rfl h
  | cons c s => rfl

theorem head?_trimEnd (h : trimEnd t ≠ []) : (trimEnd t).head? = t.head? := by
  obtain ⟨b, hb, -⟩ := trimEnd_spec t
  rw [congrArg List.head? hb, head?_append_left h]

theorem trimmed_trim (t : Text) : Trimmed (trim t) := by
  refine ⟨?_, getLast?_trimEnd _⟩
  intro c hc
  have hne : trimEnd (trimStart t) ≠ [] := by
    intro hnil
    rw [trim, hnil] at hc
    cases hc
  have hn := head?_dropWhile_not isSpace t
  rw [trim, head?_trimEnd hne] at hc
  rw [← trimStart, hc] at hn
  exact hn

theorem Trimmed.trim_blank_append {b : Text} (h : Trimmed t) (ha : isBlank a = true) (hb : isBlank b = true) :
    trim (a ++ t ++ b) = t :=
  trim_surrounded ha hb (trim_eq_self h.start h.stop)

theorem getLast?_append_global (s t : Text) : (s ++ global t).getLast? = some ')' := by
  have hlast : (global t).getLast? = some ')' := getLast?_concat
  rw [getLast?_append, hlast, Option.some_or]

end Trimmed

section Opening

variable {s before k rest : Text}

theorem FirstDeep.settled (h : FirstDeep s before k rest) (hs : Settled s) : Settled before ∧ Settled rest := by
  obtain ⟨hclear, hafter⟩ := hs
  rw [h.split, ← append_assoc] at hclear hafter
  rw [clear_append_iff, h.after_combinator, clear_append_iff] at hclear
  rw [Surroundings.after_append, h.after_combinator] at hafter
  exact ⟨⟨hclear.1.1, h.outside⟩, hclear.2, hafter⟩

theorem settled_reachInto (hb : Settled before) (hr : Settled rest) : Settled (reachInto before rest) := by
  rw [reachInto]
  split
  · exact hb.trimEnd
  · split
    · exact hr.trim.global
    · exact (hb.trimEnd.append (settled_blank rfl)).append hr.trim.global

theorem head?_reachInto (before rest : Text) :
    (reachInto before rest).head? = before.head? ∨ (reachInto before rest).head? = none ∨
      (reachInto before rest).head? = some ':' := by
  by_cases hnil : trimEnd before = []
  · rw [reachInto, hnil]
    split
    · exact .inr (.inl rfl)
    · exact .inr (.inr rfl)
  · refine .inl ?_
    rw [reachInto, if_neg (c := (trimEnd before).isEmpty) (by simpa using hnil)]
    split
    · exact head?_trimEnd hnil
    · rw [append_assoc, head?_append_left hnil, head?_trimEnd hnil]

theorem getLast?_reachInto (before rest : Text) : ∀ c ∈ (reachInto before rest).getLast?, isSpace c = false := by
  have hmark : ∀ t, ∀ c ∈ (t ++ global (trim rest)).getLast?, isSpace c = false := by
    intro t c hc
    rw [getLast?_append_global] at hc
    cases hc
    decide
  rw [reachInto]
  split
  · exact getLast?_trimEnd before
  · split
    · exact hmark []
    · exact hmark _

theorem FirstDeep.forall_head? {P : Char → Prop} (h : FirstDeep s before k rest) (hs : ∀ c ∈ s.head?, P c)
    (hmark : P ':') : ∀ c ∈ (reachInto before rest).head?, P c := by
  intro c hc
  rcases head?_reachInto before rest with hhead | hhead | hhead
  · apply hs
    rw [hhead] at hc
    rw [h.split]
    cases before with
    | nil => cases hc
    | cons d before => exact hc
  · rw [hhead] at hc
    cases hc
  · rw [hhead] at hc
    cases hc
    exact hmark

theorem keeps_openDeep : Keeps openDeep where
  settled s hs := by
    rcases openDeep_cases s with ⟨hopen, -⟩ | ⟨before, k, rest, h, hopen⟩
    · rwa [hopen]
    · rw [hopen]
      obtain ⟨hb, hr⟩ := h.settled hs
      exact settled_reachInto hb hr
  trimmed s hs := by
    rcases openDeep_cases s with ⟨hopen, -⟩ | ⟨before, k, rest, h, hopen⟩
    · rwa [hopen]
    · rw [hopen]
      exact ⟨h.forall_head? hs.start (by decide), getLast?_reachInto before rest⟩
  heading s hs := by
    rcases openDeep_cases s with ⟨hopen, -⟩ | ⟨before, k, rest, h, hopen⟩
    · rwa [hopen]
    · rw [hopen]
      exact h.forall_head? hs (by decide)

end Opening

section Lists

variable {t u space : Text} {parts : List Text} {f : Text → Text}

/-- A text that leaves nothing open, with none of the characters that end a head. -/
def Whole (t : Text) : Prop := Clear ['\x7b', ';'] top t ∧ top.after t = top

theorem Whole.append {s t : Text} (hs : Whole s) (ht : Whole t) : Whole (s ++ t) := by
  refine ⟨clear_append_iff.mpr ⟨hs.1, ?_⟩, ?_⟩
  · rw [hs.2]
    exact ht.1
  · rw [Surroundings.after_append, hs.2, ht.2]

theorem whole_of_settled (h : Settled t) : Whole t := ⟨h.1.mono (by decide), h.2⟩

theorem head_whole (h : Whole u) (hc : c ∈ ['\x7b', ';']) (r : Text) : literal.head (u ++ c :: r) = (u, c :: r) :=
  scan_upTo_iff.mpr ⟨rfl, h.1, fun _ => ⟨h.2, c, hc, rfl⟩⟩

theorem whole_of_head {r : Text} (h : literal.head t = (u, c :: r)) : Whole u := by
  obtain ⟨-, hclear, hstop⟩ := scan_upTo_iff.mp h
  exact ⟨hclear, (hstop (cons_ne_nil c r)).1⟩

theorem settled_parts (h : literal.Parts t parts) (ht : Whole t) : ∀ s ∈ parts, Settled s := by
  induction h with
  | last h =>
    obtain ⟨rfl, hclear, -⟩ := scan_upTo_iff.mp h
    rw [append_nil] at ht
    exact forall_mem_singleton.mpr ⟨hclear.append_stops ht.1, ht.2⟩
  | more h hr ih =>
    obtain ⟨rfl, hclear, hstop⟩ := scan_upTo_iff.mp h
    have hout := (hstop (cons_ne_nil _ _)).1
    obtain ⟨hbraces, hafter⟩ := ht
    rw [clear_append_iff, hout, clear_cons_iff] at hbraces
    rw [Surroundings.after_append, hout, Surroundings.after_cons] at hafter
    exact forall_mem_cons.mpr ⟨⟨hclear.append_stops hbraces.1, hout⟩, ih ⟨hbraces.2.2, hafter⟩⟩

theorem settled_singles (h : Whole t) : ∀ s ∈ singles t, Settled s := by
  intro s hs
  obtain ⟨part, hpart, rfl⟩ := mem_map.mp hs
  exact (settled_parts (parts_splitCommas t) h part hpart).trim

theorem trimmed_singles (t : Text) : ∀ s ∈ singles t, Trimmed s := by
  intro s hs
  obtain ⟨part, -, rfl⟩ := mem_map.mp hs
  exact trimmed_trim part

theorem trim_append_blank {t b : Text} (hb : isBlank b = true) : trim (t ++ b) = trim t := by
  obtain ⟨a, c, ha, hc, ht⟩ := trim_spec t
  have hblank : isBlank (c ++ b) = true := by rw [isBlank_append, hc, hb]; rfl
  rw [congrArg (fun s => trim (s ++ b)) ht, append_assoc]
  exact (trimmed_trim t).trim_blank_append ha hblank

theorem singles_append_blank {b : Text} (hb : isBlank b = true) (t : Text) : singles (t ++ b) = singles t := by
  have hparts : ∀ {t parts}, literal.Parts t parts →
      ∃ parts', literal.Parts (t ++ b) parts' ∧ parts'.map trim = parts.map trim := by
    intro t parts h
    induction h with
    | last h =>
      obtain ⟨rfl, hclear, -⟩ := scan_upTo_iff.mp h
      rw [append_nil]
      refine ⟨_, .last (scan_upTo_iff.mpr ⟨(append_nil _).symm, ?_, by simp⟩), ?_⟩
      · refine clear_append_iff.mpr ⟨hclear, ?_⟩
        rintro u c v rfl - hc
        obtain rfl := mem_singleton.mp hc
        exact absurd (all_eq_true.mp hb ',' (by simp)) (by decide)
      · simp [trim_append_blank hb]
    | more h hr ih =>
      obtain ⟨rfl, hclear, hstop⟩ := scan_upTo_iff.mp h
      obtain ⟨parts', hparts', htrim⟩ := ih
      refine ⟨_, .more (scan_upTo_iff.mpr ⟨by simp, hclear, fun _ => ?_⟩) hparts', ?_⟩
      · exact ⟨(hstop (cons_ne_nil _ _)).1, ',', by simp, rfl⟩
      · simp [htrim]
  obtain ⟨parts', hparts', htrim⟩ := hparts (parts_splitCommas t)
  rw [singles, splitCommas_of_parts hparts', htrim, singles]

theorem singles_joined (ha : isBlank a = true)
    (hspace : isBlank space = true) (hs : ∀ s ∈ first :: others, Settled s ∧ Trimmed s) :
    singles (a ++ (first ++ (others.flatMap (", ".toList ++ ·) ++ space))) = first :: others := by
  obtain ⟨parts, hparts, htrim⟩ : ∃ parts,
      literal.Parts (a ++ (first ++ (others.flatMap (", ".toList ++ ·) ++ space))) parts ∧
        parts.map trim = first :: others := by
    induction others generalizing a first with
    | nil =>
      obtain ⟨hsettled, htrimmed⟩ := hs first mem_cons_self
      have hwhole := ((settled_blank ha).append hsettled).append (settled_blank hspace)
      refine ⟨_, .last (scan_upTo_iff.mpr ⟨(append_nil _).symm, ?_, by simp⟩), ?_⟩
      · simpa using hwhole.1.mono (by decide)
      · simpa using htrimmed.trim_blank_append ha hspace
    | cons second others ih =>
      obtain ⟨⟨hsettled, htrimmed⟩, hs⟩ := forall_mem_cons.mp hs
      obtain ⟨parts, hparts, htrim⟩ := ih (a := [' ']) rfl hs
      have hfirst := (settled_blank ha).append hsettled
      refine ⟨(a ++ first) :: parts, .more (scan_upTo_iff.mpr ⟨?_, ?_, fun _ => ?_⟩) hparts, ?_⟩
      · simp
      · exact hfirst.1.mono (by decide)
      · exact ⟨hfirst.2, ',', by simp, rfl⟩
      · have hone := htrimmed.trim_blank_append ha (b := []) rfl
        rw [append_nil] at hone
        rw [map_cons, hone, htrim]
  rw [singles, splitCommas_of_parts hparts, htrim]

theorem mapList_eq (f : Text → Text) (t : Text) : ∃ first others space,
    singles t = first :: others ∧ isBlank space = true ∧
      mapList f t = f first ++ ((others.map f).flatMap (", ".toList ++ ·) ++ space) := by
  obtain ⟨parts, space, hspace, hparts, -, himage⟩ := listImage_mapList f t
  obtain ⟨b, hb, hblank⟩ := trimEnd_spec t
  have hsingles : singles t = parts.map trim :=
    calc singles t = singles (trimEnd t ++ b) := congrArg singles hb
      _ = singles (trimEnd t) := singles_append_blank (all_eq_true.mpr hblank) _
      _ = parts.map trim := congrArg (List.map trim) hparts
  have hnonempty := parts_splitCommas (trimEnd t)
  rw [hparts] at hnonempty
  cases parts with
  | nil => cases hnonempty
  | cons part parts =>
    refine ⟨trim part, parts.map trim, space, hsingles, hspace, ?_⟩
    rw [himage, map_cons, intercalate_cons, map_map, append_assoc]
    rfl

theorem head?_singles (ht : ∀ c ∈ t.head?, isSpace c = false)
    (h : singles t = first :: others) : ∀ c ∈ first.head?, c ∈ t.head? := by
  have hparts := parts_splitCommas t
  rw [singles] at h
  generalize splitCommas .outside t = parts at h hparts
  cases parts with
  | nil => cases hparts
  | cons part parts =>
    obtain ⟨rfl, -⟩ := List.cons.inj h
    have hpart : part <+: t := by
      cases hparts with
      | last hscan => exact ⟨[], (scan_eq_iff.mp hscan).1.symm⟩
      | more hscan hr => exact ⟨_, (scan_eq_iff.mp hscan).1.symm⟩
    obtain ⟨r, rfl⟩ := hpart
    intro c hc
    cases part with
    | nil => cases hc
    | cons d part =>
      have hstart : trimStart (d :: part) = d :: part := dropWhile_cons_of_neg (by simp [ht d rfl])
      have hne : trimEnd (d :: part) ≠ [] := by
        intro hnil
        rw [trim, hstart, hnil] at hc
        cases hc
      rwa [trim, hstart, head?_trimEnd hne] at hc

/-- A rewritten list, without the white space that may have come to stand in front of it. -/
theorem mapList_read (hf : Keeps f) (ht : Whole t) (hstart : ∀ c ∈ t.head?, Begins c ∧ c ≠ '@') :
    ∃ w v, mapList f t = w ++ v ∧ isBlank w = true ∧ Whole v ∧
      (∀ c ∈ v.head?, Begins c ∧ c ≠ '@') ∧ singles v = (singles t).map f := by
  obtain ⟨first, others, space, hsingles, hspace, hlist⟩ := mapList_eq f t
  have hkept : ∀ s ∈ f first :: others.map f, Settled s ∧ Trimmed s := by
    rw [← map_cons, ← hsingles]
    intro s hs
    obtain ⟨s, hmem, rfl⟩ := mem_map.mp hs
    exact ⟨hf.settled s (settled_singles ht s hmem), hf.trimmed s (trimmed_singles t s hmem)⟩
  have hwhole : ∀ {others : List Text}, (∀ s ∈ others, Settled s ∧ Trimmed s) →
      Whole (others.flatMap (", ".toList ++ ·) ++ space) := by
    intro others ho
    induction others with
    | nil => exact whole_of_settled (settled_blank hspace)
    | cons s others ih =>
      obtain ⟨hs, ho⟩ := forall_mem_cons.mp ho
      have hcomma : Whole ", ".toList :=
        ⟨clear_cons_iff.mpr ⟨fun _ => by decide, clear_cons_iff.mpr ⟨fun _ => by decide, clear_nil⟩⟩, rfl⟩
      rw [flatMap_cons, append_assoc]
      exact (hcomma.append (whole_of_settled hs.1)).append (ih ho)
  obtain ⟨hfirst, hothers⟩ := forall_mem_cons.mp hkept
  rw [hlist, hsingles, map_cons]
  by_cases hnil : f first = [] ∧ others = []
  · obtain ⟨hnil, rfl⟩ := hnil
    refine ⟨space, [], by simp [hnil], hspace, ⟨clear_nil, rfl⟩, by simp, ?_⟩
    rw [hnil]
    rfl
  · refine ⟨[], _, rfl, rfl, (whole_of_settled hfirst.1).append (hwhole hothers), ?_,
      singles_joined (a := []) rfl hspace hkept⟩
    intro c hc
    cases hhead : f first with
    | nil =>
      rw [hhead] at hc
      cases others with
      | nil => exact absurd ⟨hhead, rfl⟩ hnil
      | cons second others =>
        cases hc
        exact ⟨⟨by decide, by decide⟩, by decide⟩
    | cons d rest =>
      rw [hhead] at hc
      obtain rfl : d = c := Option.some.inj hc
      have hd : d ∈ (f first).head? := by rw [hhead]; rfl
      have hheading : Heading first := by
        intro c hc
        have hmem := head?_singles (fun c hc => (hstart c hc).1.1) hsingles c hc
        exact ⟨(hstart c hmem).2, (hstart c hmem).1.2⟩
      obtain ⟨hat, hbrace⟩ := hf.heading first hheading d hd
      exact ⟨⟨hfirst.2.start d hd, hbrace⟩, hat⟩

end Lists

section Sheets

variable {t u v w x r rest rest' body : Text} {rules : List Rule} {f : Text → Text} {b : Bool}

theorem singlesOf_cons (rule : Rule) (rules : List Rule) :
    singlesOf (rule :: rules) = rule.selectors.flatMap singles ++ singlesOf rules := by
  rw [singlesOf, selectorsOf, flatMap_append]
  rfl

theorem reads_dropWhile (h : literal.Reads t rules rest) :
    ∃ rules', literal.Reads (t.dropWhile isSpace) rules' rest ∧ singlesOf rules' = singlesOf rules := by
  cases h with
  | space hc h =>
    rw [dropWhile_cons_of_pos hc]
    exact ⟨_, h, rfl⟩
  | nil => exact ⟨_, .nil, rfl⟩
  | brace t => exact ⟨_, .brace t, rfl⟩
  | statement hc hu h =>
    rw [dropWhile_cons_of_neg (by simp [hc.1])]
    exact ⟨_, .statement hc hu h, rfl⟩
  | unfinished hc hu =>
    rw [dropWhile_cons_of_neg (by simp [hc.1])]
    exact ⟨_, .unfinished hc hu, rfl⟩
  | style hc hat hu hb hw h =>
    rw [dropWhile_cons_of_neg (by simp [hc.1])]
    exact ⟨_, .style hc hat hu hb hw h, rfl⟩
  | block hg hu hb hw h => exact ⟨_, .block hg hu hb hw h, rfl⟩
  | group hg hu hin hw h => exact ⟨_, .group hg hu hin hw h, rfl⟩

theorem reads_blank_append (hw : isBlank w = true) (h : literal.Reads t rules rest) :
    ∃ rules', literal.Reads (w ++ t) rules' rest ∧ singlesOf rules' = singlesOf rules := by
  cases w with
  | nil => exact ⟨rules, h, rfl⟩
  | cons c w =>
    obtain ⟨rules', hread, hsingles⟩ := reads_dropWhile h
    rw [isBlank, all_cons, Bool.and_eq_true] at hw
    rw [← dropWhile_append_of_pos (all_eq_true.mp hw.2)] at hread
    exact ⟨_, .space hw.1 hread, by rw [singlesOf_cons, hsingles]; rfl⟩

/-- What may come to stand after rules: nothing after nothing, a brace after a brace. -/
def Follows (rest rest' : Text) : Prop := rest = [] ∧ rest' = [] ∨ ∃ x x', rest = '\x7d' :: x ∧ rest' = '\x7d' :: x'

def rewrittenText (f : Text → Text) (rules : List Rule) : Text := textOfRules (mapSelectorsOf (mapList f) rules)

theorem rewrittenText_cons (f : Text → Text) (r : Rule) (rules : List Rule) (rest : Text) :
    rewrittenText f (r :: rules) ++ rest = (r.mapSelectors (mapList f)).text ++ (rewrittenText f rules ++ rest) :=
  append_assoc ..

theorem follows_brace (hcases : w = [] ∨ ∃ y, w = '\x7d' :: y) (hw : closing w = (b, x)) (hr : b = false → r = []) :
    Follows w (brace b ++ r) ∧ closing (brace b ++ r) = (b, r) := by
  rcases hcases with rfl | ⟨y, rfl⟩
  · obtain ⟨rfl, -⟩ := Prod.mk.inj hw
    rw [hr rfl]
    exact ⟨.inl ⟨rfl, rfl⟩, rfl⟩
  · obtain ⟨rfl, -⟩ := Prod.mk.inj hw
    exact ⟨.inr ⟨_, _, rfl, rfl⟩, rfl⟩

theorem body_again (hb : literal.body v = (body, w)) (hf : Follows w r) : literal.body (body ++ r) = (body, r) := by
  obtain ⟨-, hpass, hstop⟩ := scan_eq_iff.mp hb
  rcases hf with ⟨rfl, rfl⟩ | ⟨y, y', rfl, rfl⟩
  · exact scan_passes hpass fun h => absurd rfl h
  · have hfound := hstop (cons_ne_nil _ _)
    exact scan_passes ((passes_congr rfl _ _ _ _).mp hpass) fun _ => hfound

/-- Nothing comes after a rule that is not closed. -/
theorem rewrittenText_of_unclosed (hw : closing w = (b, x)) (hcases : w = [] ∨ ∃ y, w = '\x7d' :: y)
    (h : literal.Reads x rules rest) (hr : Follows rest rest') (f : Text → Text) (hb : b = false) :
    rewrittenText f rules ++ rest' = [] := by
  subst hb
  rcases hcases with rfl | ⟨y, rfl⟩
  · obtain ⟨-, rfl⟩ := Prod.mk.inj hw
    cases h
    rcases hr with ⟨-, rfl⟩ | ⟨x, x', hx, -⟩
    · rfl
    · cases hx
  · cases hw

theorem head_again {d : Char} (hu : literal.head (c :: t) = (u, d :: v)) (hd : d ∈ ['\x7b', ';']) (r : Text) :
    ∃ t', u ++ d :: r = c :: t' ∧ literal.head (c :: t') = (u, d :: r) := by
  have hhead := head_whole (whole_of_head hu) hd r
  have heq := eq_of_head hu
  cases u with
  | nil =>
    obtain ⟨rfl, -⟩ := List.cons.inj heq
    exact ⟨r, rfl, hhead⟩
  | cons e u =>
    obtain ⟨rfl, -⟩ := List.cons.inj heq
    exact ⟨u ++ d :: r, rfl, hhead⟩

theorem begins_of_head (hc : Begins c) (hat : c ≠ '@') (hu : literal.head (c :: t) = (u, v)) :
    ∀ d ∈ u.head?, Begins d ∧ d ≠ '@' := by
  intro d hd
  obtain ⟨u, rfl⟩ := head?_eq_some_iff.mp hd
  obtain ⟨rfl, -⟩ := List.cons.inj (eq_of_head hu)
  exact ⟨hc, hat⟩

theorem reads_style_rewritten (hf : Keeps f) (hu : Whole u) (hstart : ∀ c ∈ u.head?, Begins c ∧ c ≠ '@')
    (hb : literal.body (body ++ (brace b ++ r)) = (body, brace b ++ r)) (hw : closing (brace b ++ r) = (b, r))
    (h : literal.Reads r rules rest) :
    ∃ rules', literal.Reads (mapList f u ++ '\x7b' :: (body ++ (brace b ++ r))) rules' rest ∧
      singlesOf rules' = (singles u).map f ++ singlesOf rules := by
  obtain ⟨w, v, hlist, hblank, hwhole, hv, hsingles⟩ := mapList_read hf hu hstart
  have hhead := head_whole hwhole (c := '\x7b') (by simp) (body ++ (brace b ++ r))
  have hread : literal.Reads (v ++ '\x7b' :: (body ++ (brace b ++ r))) (.style v body b :: rules) rest := by
    cases v with
    | nil => exact .style ⟨by decide, by decide⟩ (by decide) hhead hb hw h
    | cons c v => exact .style (hv c rfl).1 (hv c rfl).2 hhead hb hw h
  obtain ⟨rules', hread', hsingles'⟩ := reads_blank_append hblank hread
  refine ⟨rules', ?_, ?_⟩
  · rwa [hlist, append_assoc]
  · rw [hsingles', singlesOf_cons, Rule.selectors, flatMap_singleton, hsingles]

theorem reads_rewritten (hf : Keeps f) (h : literal.Reads t rules rest) (hr : Follows rest rest') :
    ∃ rules', literal.Reads (rewrittenText f rules ++ rest') rules' rest' ∧
      singlesOf rules' = (singlesOf rules).map f := by
  induction h generalizing rest' with
  | nil =>
    rcases hr with ⟨-, rfl⟩ | ⟨x, x', hx, -⟩
    · exact ⟨[], .nil, rfl⟩
    · cases hx
  | brace t =>
    rcases hr with ⟨hnil, -⟩ | ⟨x, x', -, rfl⟩
    · cases hnil
    · exact ⟨[], .brace x', rfl⟩
  | @space c t rest rules hc h ih =>
    obtain ⟨rules', hread, hsingles⟩ := ih hr
    have hblank : isBlank (c :: t.takeWhile isSpace) = true := by
      rw [isBlank, all_cons, hc]
      exact all_takeWhile
    obtain ⟨rules'', hread', hsingles'⟩ := reads_blank_append hblank hread
    rw [rewrittenText_cons]
    exact ⟨rules'', hread', hsingles'.trans hsingles⟩
  | @statement c t u v rest rules hc hu h ih =>
    obtain ⟨rules', hread, hsingles⟩ := ih hr
    rw [rewrittenText_cons]
    generalize rewrittenText f rules ++ rest' = after at hread ⊢
    obtain ⟨t', ht', hhead⟩ := head_again hu (by simp) after
    have hread' := Lexis.Reads.statement hc hhead hread
    refine ⟨.statement u :: rules', ?_, hsingles⟩
    simpa [Rule.mapSelectors, Rule.text, ← ht'] using hread'
  | @unfinished c t u hc hu =>
    rcases hr with ⟨-, rfl⟩ | ⟨x, x', hx, -⟩
    · have htext : rewrittenText f [.unfinished u] ++ [] = c :: t := by
        rw [rewrittenText_cons, eq_of_head hu]
        rfl
      rw [htext]
      exact ⟨_, .unfinished hc hu, rfl⟩
    · cases hx
  | @style c t u v body w x rest isClosed rules hc hat hu hb hw h ih =>
    obtain ⟨rules', hread, hsingles⟩ := ih hr
    have hnil := rewrittenText_of_unclosed hw (body_cases hb) h hr f
    rw [rewrittenText_cons]
    generalize rewrittenText f rules ++ rest' = after at hread hnil ⊢
    obtain ⟨hfollows, hclosing⟩ := follows_brace (body_cases hb) hw hnil
    obtain ⟨rules'', hread', hsingles'⟩ := reads_style_rewritten hf (whole_of_head hu)
      (begins_of_head hc hat hu) (body_again hb hfollows) hclosing hread
    refine ⟨rules'', ?_, ?_⟩
    · simpa [Rule.mapSelectors, Rule.text] using hread'
    · rw [hsingles', hsingles, singlesOf_cons, Rule.selectors, flatMap_singleton, map_append]
  | @block t u v body w x rest isClosed rules hg hu hb hw h ih =>
    obtain ⟨rules', hread, hsingles⟩ := ih hr
    have hnil := rewrittenText_of_unclosed hw (body_cases hb) h hr f
    rw [rewrittenText_cons]
    generalize rewrittenText f rules ++ rest' = after at hread hnil ⊢
    obtain ⟨hfollows, hclosing⟩ := follows_brace (body_cases hb) hw hnil
    obtain ⟨t', ht', hhead⟩ := head_again hu (by simp) (body ++ (brace isClosed ++ after))
    have hread' := Lexis.Reads.block hg hhead (body_again hb hfollows) hclosing hread
    refine ⟨.block u body isClosed :: rules', ?_, hsingles⟩
    simpa [Rule.mapSelectors, Rule.text, ← ht'] using hread'
  | @group t u v w x rest isClosed inner rules hg hu hin hw h ihin ih =>
    obtain ⟨rules', hread, hsingles⟩ := ih hr
    have hnil := rewrittenText_of_unclosed hw hin.rest_cases h hr f
    rw [rewrittenText_cons]
    generalize rewrittenText f rules ++ rest' = after at hread hnil ⊢
    obtain ⟨hfollows, hclosing⟩ := follows_brace hin.rest_cases hw hnil
    obtain ⟨inner', hinner, hsingles'⟩ := ihin hfollows
    obtain ⟨t', ht', hhead⟩ := head_again hu (by simp) (rewrittenText f inner ++ (brace isClosed ++ after))
    have hread' := Lexis.Reads.group hg hhead hinner hclosing hread
    refine ⟨.group u inner' isClosed :: rules', ?_, ?_⟩
    · simpa [Rule.mapSelectors, Rule.text, rewrittenText, ← ht'] using hread'
    · rw [singlesOf_cons, singlesOf_cons, Rule.selectors, Rule.selectors, hsingles, map_append]
      congr 1

end Sheets

def selectorsIn (css : Text) : List Text := singlesOf (Sheet.read css).rules

theorem selectorsIn_rewritten {f : Text → Text} (hf : Keeps f) (css : Text) :
    selectorsIn ((Sheet.read css).mapSelectors (mapList f)).text = (selectorsIn css).map f := by
  have hread := reads_read css
  have hr : Follows (Sheet.read css).rest (Sheet.read css).rest := by
    rcases hread.rest_cases with h | ⟨x, h⟩
    · exact .inl ⟨h, h⟩
    · exact .inr ⟨x, x, h, h⟩
  obtain ⟨rules', hread', hsingles⟩ := reads_rewritten hf hread hr
  have htext : ((Sheet.read css).mapSelectors (mapList f)).text =
      rewrittenText f (Sheet.read css).rules ++ (Sheet.read css).rest := rfl
  rw [selectorsIn, htext, read_of_reads hread', hsingles, selectorsIn]

/-- The selectors of an opened sheet are the selectors of the sheet, opened one by one. None of them
shows a combinator that reaches deep just when no selector of the sheet had more than one, or one
inside parentheses; and a selector without one is as it was. -/
theorem deep_combinators_opened_iff (css : Text) : selectorsIn (deepen css) = (selectorsIn css).map openDeep ∧
      ((∀ s ∈ selectorsIn (deepen css), ¬ Shows top s) ↔ ∀ s ∈ selectorsIn css, DeepOnce s) ∧
      ∀ s ∈ selectorsIn css, ¬ Shows top s → openDeep s = s := by
  have hselectors : selectorsIn (deepen css) = (selectorsIn css).map openDeep :=
    selectorsIn_rewritten keeps_openDeep css
  refine ⟨hselectors, ?_, fun s _ hs => openDeep_of_not_shows hs⟩
  rw [hselectors, forall_mem_map]
  exact forall_congr' fun s => forall_congr' fun _ => not_shows_openDeep_iff s

/-- Of two combinators the second stays, and one in parentheses stays as well. -/
theorem deep_combinators_left :
    (selectorsIn (deepen ".a >>> .b >>> .c \x7b\x7d".toList) = [".a :global(.b >>> .c)".toList] ∧
      Shows top ".a :global(.b >>> .c)") ∧
    selectorsIn (deepen ":not(.a /deep/ .b) \x7b\x7d".toList) = [":not(.a /deep/ .b)".toList] ∧
      Shows top ":not(.a /deep/ .b)" := by
  refine ⟨⟨by decide +kernel, ?_⟩, by decide +kernel, ?_⟩
  · exact ⟨".a :global(.b ", ">>>", by decide, by decide +kernel, rfl, by decide +kernel⟩
  · exact ⟨":not(.a ", "/deep/", by decide, by decide +kernel, rfl, by decide +kernel⟩

end ComponentConverter.Style
