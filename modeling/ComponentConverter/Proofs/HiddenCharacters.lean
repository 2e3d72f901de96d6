import ComponentConverter.Proofs.SheetReading
import ComponentConverter.Proofs.Trimming

namespace ComponentConverter.Style

open Lexis
open List hiding head

inductive Context where
  | plain
  | word (read : Text)
  | slash
  | escaped
  | comment
  | star
  | quoted (quote : Char)
  | quotedEscaped (quote : Char)
  | urlStart
  | url
  | urlEscaped
  deriving Repr, DecidableEq

def inert : List Char := ['"', '\'', ',', ';', '\x7b', '\x7d', '[', ']', '(', ')']

/-- A word with an at sign or a number sign is the name of no function. -/
def inWord (c : Char) : Bool := !isSpace c && (c.isAlphanum || ['-', '_', '@', '#'].contains c || 128 ≤ c.toNat)

namespace Context

def enter (c : Char) : Context :=
  if c = '"' || c = '\'' then .quoted c
  else if c = '\\' then .escaped
  else if c = '/' then .slash
  else if inWord c then .word [c]
  else .plain

def inUrl (c : Char) : Context :=
  if c = ')' then .plain else if c = '\\' then .urlEscaped else .url

def step : Context → Char → Context
  | .plain, c => enter c
  | .word read, c =>
    if inWord c then .word (read ++ [c])
    else if c = '(' && read.map Char.toLower = "url" then .urlStart
    else enter c
  | .slash, c => if c = '*' then .comment else enter c
  | .escaped, _ => .word ['\\']
  | .comment, c => if c = '*' then .star else .comment
  | .star, c => if c = '/' then .plain else if c = '*' then .star else .comment
  | .quoted q, c => if c = '\\' then .quotedEscaped q else if c = q then .plain else .quoted q
  | .quotedEscaped q, _ => .quoted q
  | .urlStart, c =>
    if isSpace c then .urlStart else if c = '"' || c = '\'' then .quoted c else inUrl c
  | .url, c => inUrl c
  | .urlEscaped, _ => .url

def mode : Context → Mode
  | .quoted q => .quoted q
  | .quotedEscaped q => .escaped q
  | _ => .plain

/-- An escape outside a string, a comment or an address without quotes keeps a character from
dividing a sheet. -/
def hides : Context → Char → Bool
  | .escaped, c | .comment, c | .star, c | .urlEscaped, c => inert.contains c
  | .urlStart, c => inert.contains c && !(['"', '\'', ')'].contains c)
  | .url, c => inert.contains c && c != ')'
  | _, _ => false

def veiled (s : Context) (c : Char) : Char := if s.hides c then 'a' else c

end Context

open Context (enter hides inUrl)

/-- Escapes, comments and addresses without quotes, `url(…)`, are known. `/*` starts a comment
everywhere outside strings and such addresses. -/
def Lexis.full : Lexis Context := ⟨.plain, Context.step, fun s c => s.mode == .plain && !s.hides c⟩

def veilFrom : Context → Text → Text
  | _, [] => []
  | s, c :: t => s.veiled c :: veilFrom (s.step c) t

/-- The text with the hidden characters that would divide it replaced by letters. -/
def veil (t : Text) : Text := veilFrom .plain t

variable {s : Context} {c : Char} {t u r : Text} {m : Marks}

theorem hides_eq_false (hc : c ∉ inert) : s.hides c = false := by
  cases s <;> simp [hides, hc]

theorem veiled_of_not_mem (hc : c ∉ inert) : s.veiled c = c := by
  simp [Context.veiled, hides_eq_false hc]

theorem veiled_of_hides (h : s.hides c = true) : s.veiled c = 'a' := if_pos h

theorem veiled_of_not_hides (h : s.hides c = false) : s.veiled c = c := by
  simp [Context.veiled, h]

theorem mode_of_hides (h : s.hides c = true) : s.mode = .plain ∧ c ∈ inert := by
  cases s with
  | escaped | comment | star | urlEscaped => exact ⟨rfl, by simpa [hides] using h⟩
  | urlStart | url =>
    rw [hides, Bool.and_eq_true] at h
    exact ⟨rfl, by simpa using h.1⟩
  | plain | word read | slash | quoted q | quotedEscaped q => cases h

theorem isSpace_of_inert (hc : c ∈ inert) : isSpace c = false := by
  have hall : inert.all (!isSpace ·) = true := rfl
  simpa using all_eq_true.mp hall c hc

theorem mode_enter (c : Char) : (enter c).mode = Mode.step .plain c := by
  rw [enter, Mode.step]
  by_cases hq : (c = '"' || c = '\'') = true
  · rw [if_pos hq, if_pos hq]
    rfl
  · rw [if_neg hq, if_neg hq]
    by_cases hb : c = '\\'
    · rw [if_pos hb]
      rfl
    · rw [if_neg hb]
      split
      · rfl
      · split <;> rfl

theorem mode_inUrl (c : Char) : (inUrl c).mode = .plain := by
  rw [inUrl]
  split
  · rfl
  · split <;> rfl

theorem inUrl_of_mem (hc : c ∈ inert) (hclose : c ≠ ')') : inUrl c = .url := by
  have hescape : c ≠ '\\' := by
    rintro rfl
    exact absurd hc (by decide)
  rw [inUrl, if_neg hclose, if_neg hescape]

theorem step_plain_of_ne (hc : ∀ q, q = '"' ∨ q = '\'' → c ≠ q) : Mode.step .plain c = .plain := by
  simp [Mode.step, hc '"' (.inl rfl), hc '\'' (.inr rfl)]

/-- No quote starts a string here. -/
def Context.Silent : Context → Prop
  | .escaped | .comment | .star | .url | .urlEscaped => True
  | _ => False

theorem Context.Silent.mode_step_eq (hs : s.Silent) (c : Char) : (s.step c).mode = .plain := by
  cases s with
  | escaped | urlEscaped => rfl
  | comment =>
    rw [Context.step]
    split <;> rfl
  | star =>
    rw [Context.step]
    split
    · rfl
    · split <;> rfl
  | url => exact mode_inUrl c
  | plain | word | slash | quoted | quotedEscaped | urlStart => cases hs

theorem Context.Silent.mode_step (hs : s.Silent) (c : Char) : (s.step c).mode = s.mode.step (s.veiled c) := by
  have hmode : s.mode = .plain := by cases s <;> first | rfl | cases hs
  have hquote (q : Char) (hq : q = '"' ∨ q = '\'') : s.hides q = true := by
    rcases hq with rfl | rfl <;> cases s <;> first | rfl | cases hs
  rw [hs.mode_step_eq, hmode, step_plain_of_ne]
  rintro q hq rfl
  by_cases h : s.hides c = true
  · rw [veiled_of_hides h] at hq
    exact absurd hq (by decide)
  · rw [veiled_of_not_hides (by simpa using h)] at hq
    exact h (hquote c hq)

/-- A reader that knows strings only is in step with the context on the veiled text. -/
theorem mode_step (s : Context) (c : Char) : (s.step c).mode = s.mode.step (s.veiled c) := by
  cases s with
  | plain => exact mode_enter c
  | word read =>
    rw [veiled_of_not_hides rfl, Context.step]
    by_cases hw : inWord c = true
    · rw [if_pos hw]
      refine (step_plain_of_ne ?_).symm
      rintro q hq rfl
      rcases hq with rfl | rfl <;> cases hw
    · rw [if_neg hw]
      by_cases hc : (c = '(' && read.map Char.toLower = "url") = true
      · rw [if_pos hc]
        obtain ⟨rfl, -⟩ : c = '(' ∧ _ := by simpa using hc
        rfl
      · rw [if_neg hc]
        exact mode_enter c
  | slash =>
    rw [veiled_of_not_hides rfl, Context.step]
    by_cases hc : c = '*'
    · rw [if_pos hc, hc]
      rfl
    · rw [if_neg hc]
      exact mode_enter c
  | escaped | comment | star | url | urlEscaped =>
    exact Context.Silent.mode_step (by trivial) c
  | quoted q =>
    rw [veiled_of_not_hides rfl, Context.step, Context.mode, Mode.step]
    by_cases hb : c = '\\'
    · rw [if_pos hb, if_pos hb]
      rfl
    · rw [if_neg hb, if_neg hb]
      split <;> rfl
  | quotedEscaped q => rfl
  | urlStart =>
    rw [Context.step, show Context.urlStart.mode = .plain from rfl]
    by_cases hspace : isSpace c = true
    · have hc : c ∉ inert := fun hc => by simp [isSpace_of_inert hc] at hspace
      rw [if_pos hspace, veiled_of_not_mem hc]
      refine (step_plain_of_ne ?_).symm
      rintro q hq rfl
      rcases hq with rfl | rfl <;> cases hspace
    · rw [if_neg hspace]
      by_cases hq : (c = '"' || c = '\'') = true
      · have hsame : Context.urlStart.hides c = false := by
          have hq : c = '"' ∨ c = '\'' := by simpa using hq
          rcases hq with rfl | rfl <;> rfl
        rw [if_pos hq, veiled_of_not_hides hsame, Mode.step, if_pos hq]
        rfl
      · rw [if_neg hq, mode_inUrl]
        by_cases h : Context.urlStart.hides c = true
        · rw [veiled_of_hides h]
          rfl
        · rw [veiled_of_not_hides (by simpa using h), Mode.step, if_neg hq]

theorem step_veiled (s : Context) (c : Char) : s.step (s.veiled c) = s.step c := by
  by_cases h : s.hides c = true
  · obtain ⟨-, hc⟩ := mode_of_hides h
    have hstar : c ≠ '*' := by
      rintro rfl
      exact absurd hc (by decide)
    have hslash : c ≠ '/' := by
      rintro rfl
      exact absurd hc (by decide)
    rw [veiled_of_hides h]
    cases s with
    | escaped => rfl
    | comment => simp [Context.step, hstar]
    | star => simp [Context.step, hstar, hslash]
    | urlEscaped => rfl
    | urlStart =>
      have hclose : (c = '"' || c = '\'') = false ∧ c ≠ ')' := by
        simp [hides] at h
        simp [h]
      rw [Context.step, Context.step, isSpace_of_inert hc, hclose.1, inUrl_of_mem hc hclose.2]
      rfl
    | url =>
      have hclose : c ≠ ')' := by
        rintro rfl
        cases h
      rw [Context.step, Context.step, inUrl_of_mem hc hclose]
      rfl
    | plain | word read | slash | quoted q | quotedEscaped q => cases h
  · rw [veiled_of_not_hides (by simpa using h)]

theorem veilFrom_veilFrom (s : Context) (t : Text) : veilFrom s (veilFrom s t) = veilFrom s t := by
  induction t generalizing s with
  | nil => rfl
  | cons c t ih =>
    have hc : s.veiled (s.veiled c) = s.veiled c := by
      by_cases h : s.hides c = true
      · rw [veiled_of_hides h]
        exact veiled_of_not_mem (by decide)
      · have hsame : s.veiled c = c := veiled_of_not_hides (by simpa using h)
        rw [hsame, hsame]
    rw [veilFrom, veilFrom, step_veiled, ih, hc]

theorem veil_veil (t : Text) : veil (veil t) = veil t := veilFrom_veilFrom .plain t

theorem length_veilFrom (s : Context) (t : Text) : (veilFrom s t).length = t.length := by
  induction t generalizing s with
  | nil => rfl
  | cons c t ih => rw [veilFrom, length_cons, length_cons, ih]

theorem length_veil (t : Text) : (veil t).length = t.length := length_veilFrom .plain t

/-- A scan that looks for, opens and closes only what can be hidden, or looks for what is never
hidden. -/
structure Marks.Veiled (m : Marks) : Prop where
  opening : m.opening ⊆ inert
  closing : m.closing ⊆ inert
  stop : ∀ s c t, m.stop (veilFrom s (c :: t)) = (!s.hides c && m.stop (c :: t))

def view (s : Context × Nat) : Mode × Nat := (s.1.mode, s.2)

theorem next_veiled (hm : m.Veiled) (s : Context × Nat) (c : Char) :
    literal.next m (view s) (s.1.veiled c) = view (full.next m s c) := by
  refine Prod.ext (mode_step s.1 c).symm ?_
  by_cases h : s.1.hides c = true
  · have ho : 'a' ∉ m.opening := fun ha => absurd (hm.opening ha) (by decide)
    have hc : 'a' ∉ m.closing := fun ha => absurd (hm.closing ha) (by decide)
    simp [Lexis.next, view, full, veiled_of_hides h, h, ho, hc]
  · simp [Lexis.next, view, full, literal, veiled_of_not_hides (by simpa using h), h]

theorem stopsAt_veiled (hm : m.Veiled) (s : Context × Nat) (c : Char) (t : Text) :
    literal.stopsAt m (view s) (veilFrom s.1 (c :: t)) = full.stopsAt m s (c :: t) := by
  have hstop := hm.stop s.1 c t
  rw [veilFrom] at hstop ⊢
  rw [stopsAt, stopsAt, hstop]
  cases hmode : s.1.mode == .plain <;> cases hh : s.1.hides c <;> simp [literal, full, view, hh]

theorem scan_veiled (hm : m.Veiled) (s : Context × Nat) (t : Text) :
    literal.scan m (view s) (veilFrom s.1 t) = (veilFrom s.1 (full.scan m s t).1,
        veilFrom (full.after m s (full.scan m s t).1).1 (full.scan m s t).2) := by
  induction t generalizing s with
  | nil => rfl
  | cons c t ih =>
    have hstop := stopsAt_veiled hm s c t
    rw [veilFrom] at hstop ⊢
    rw [scan, scan, hstop, next_veiled hm]
    by_cases hs : full.stopsAt m s (c :: t) = true
    · rw [if_pos hs, if_pos hs]
      rfl
    · rw [if_neg hs, if_neg hs]
      have ih := ih (full.next m s c)
      rw [show (full.next m s c).1 = s.1.step c from rfl] at ih
      rw [ih]
      rfl

section Borders

variable {stops : List Char}

theorem startsWithOne_veiled (hs : stops ⊆ inert) (s : Context) (c : Char) (t : Text) :
    startsWithOne stops (veilFrom s (c :: t)) = (!s.hides c && startsWithOne stops (c :: t)) := by
  rw [veilFrom, startsWithOne, startsWithOne]
  by_cases h : s.hides c = true
  · have ha : 'a' ∉ stops := fun ha => absurd (hs ha) (by decide)
    simp [veiled_of_hides h, h, ha]
  · simp [veiled_of_not_hides (by simpa using h), h]

theorem veiled_upTo (hs : stops ⊆ inert) : (Marks.upTo stops).Veiled :=
  ⟨show ['(', '['] ⊆ inert by decide, show [')', ']'] ⊆ inert by decide, startsWithOne_veiled hs⟩

theorem veiled_body : Marks.body.Veiled := ⟨by decide, by decide, startsWithOne_veiled (by decide)⟩

theorem isPrefixOf_veilFrom {p : Text} (hp : ∀ c ∈ p, c ∉ inert ∧ c ≠ 'a') (s : Context) (t : Text) :
    p.isPrefixOf (veilFrom s t) = p.isPrefixOf t := by
  induction p generalizing s t with
  | nil => rfl
  | cons x p ih =>
    rw [forall_mem_cons] at hp
    cases t with
    | nil => rfl
    | cons c t =>
      have hx : (x == s.veiled c) = (x == c) := by
        by_cases h : s.hides c = true
        · have hne : x ≠ c := by
            rintro rfl
            exact hp.1.1 (mode_of_hides h).2
          rw [veiled_of_hides h, beq_false_of_ne hp.1.2, beq_false_of_ne hne]
        · rw [veiled_of_not_hides (by simpa using h)]
      rw [veilFrom, List.isPrefixOf, List.isPrefixOf, hx, ih hp.2]

theorem veiled_reach : Marks.reach.Veiled := by
  refine ⟨by decide, by decide, ?_⟩
  intro s c t
  have hplain : ∀ p ∈ deepCombinators, p ≠ [] ∧ ∀ x ∈ p, x ∉ inert ∧ x ≠ 'a' := by
    simp [deepCombinators, inert]
  have hsame : Marks.reach.stop (veilFrom s (c :: t)) = Marks.reach.stop (c :: t) := by
    rw [Bool.eq_iff_iff, Marks.reach, any_eq_true, any_eq_true]
    refine exists_congr fun p => and_congr_right fun hp => ?_
    rw [isPrefixOf_veilFrom (hplain p hp).2]
  by_cases h : s.hides c = true
  · have hstop : Marks.reach.stop (c :: t) = false := by
      rw [Marks.reach, any_eq_false]
      intro p hp hstarts
      obtain ⟨x, p, rfl⟩ := exists_cons_of_ne_nil (hplain p hp).1
      simp only [List.isPrefixOf, Bool.and_eq_true, beq_iff_eq] at hstarts
      exact ((hplain _ hp).2 x (mem_cons_self ..)).1 (hstarts.1 ▸ (mode_of_hides h).2)
    rw [hsame, hstop, Bool.and_false]
  · simp [hsame, h]

def borders : List Char := [',', ';', '\x7b', '\x7d']

theorem veilFrom_border (h : full.acts s c = true) (hc : c ∈ borders) (t : Text) :
    veilFrom s (c :: t) = c :: veil t := by
  simp only [borders, mem_cons, not_mem_nil, or_false] at hc
  cases s with
  | plain | word read | slash => rcases hc with rfl | rfl | rfl | rfl <;> rfl
  | escaped | comment | star | urlStart | url | urlEscaped =>
    rcases hc with rfl | rfl | rfl | rfl <;> cases h
  | quoted q | quotedEscaped q => simp [full, Context.mode] at h

theorem veil_border (hc : c ∈ borders) (t : Text) : veil (c :: t) = c :: veil t :=
  veilFrom_border (s := .plain) rfl hc t

theorem scan_veil (hm : m.Veiled) (hstop : m.stop = startsWithOne stops)
    (hs : stops ⊆ borders) (h : full.scan m full.outside t = (u, r)) :
    literal.scan m literal.outside (veil t) = (veil u, veil r) := by
  have hscan := scan_veiled hm full.outside t
  rw [h] at hscan
  refine hscan.trans (Prod.ext rfl ?_)
  cases r with
  | nil => rfl
  | cons c r =>
    have hc := hs (mem_of_scan_eq hstop h)
    have hstops := (scan_eq_iff.mp h).2.2 (cons_ne_nil c r)
    rw [stopsAt, Bool.and_eq_true, Bool.and_eq_true] at hstops
    exact (veilFrom_border hstops.1.1 hc r).trans (veil_border hc r).symm

theorem head_veil (h : full.head t = (u, r)) : literal.head (veil t) = (veil u, veil r) :=
  scan_veil (veiled_upTo (by decide)) rfl (by decide) h

theorem body_veil (h : full.body t = (u, r)) : literal.body (veil t) = (veil u, veil r) :=
  scan_veil veiled_body rfl (by decide) h

/-- The selectors of a veiled list are the veiled selectors of the list. -/
theorem Lexis.Parts.veil {parts : List Text} (h : full.Parts t parts) : literal.Parts (veil t) (parts.map veil) := by
  induction h with
  | last h => exact .last (scan_veil (veiled_upTo (by decide)) rfl (by decide) h)
  | more h hr ih =>
    have hscan := scan_veil (veiled_upTo (by decide)) rfl (by decide) h
    exact .more hscan ih

end Borders

section Spaces

theorem veil_cons_space (hc : isSpace c = true) (t : Text) : veil (c :: t) = c :: veil t := by
  have hne (d : Char) (hd : isSpace d = false) : c ≠ d := by
    rintro rfl
    simp [hd] at hc
  have henter : enter c = .plain := by
    simp [enter, inWord, hc, hne '"' rfl, hne '\'' rfl, hne '\\' rfl, hne '/' rfl]
  rw [veil, veilFrom, Context.step, henter, veiled_of_not_hides rfl, veil]

theorem takeWhile_veil (t : Text) : (veil t).takeWhile isSpace = t.takeWhile isSpace := by
  induction t with
  | nil => rfl
  | cons c t ih =>
    by_cases hc : isSpace c = true
    · rw [veil_cons_space hc, takeWhile_cons_of_pos hc, takeWhile_cons_of_pos hc, ih]
    · rw [veil, veilFrom, veiled_of_not_hides rfl, takeWhile_cons_of_neg hc, takeWhile_cons_of_neg hc]

theorem dropWhile_veil (t : Text) : (veil t).dropWhile isSpace = veil (t.dropWhile isSpace) := by
  induction t with
  | nil => rfl
  | cons c t ih =>
    by_cases hc : isSpace c = true
    · rw [veil_cons_space hc, dropWhile_cons_of_pos hc, dropWhile_cons_of_pos hc, ih]
    · rw [veil, veilFrom, veiled_of_not_hides rfl, dropWhile_cons_of_neg hc,
        dropWhile_cons_of_neg hc, veil, veilFrom, veiled_of_not_hides rfl]

theorem veil_takeWhile (t : Text) : veil (t.takeWhile isSpace) = t.takeWhile isSpace := by
  induction t with
  | nil => rfl
  | cons c t ih =>
    by_cases hc : isSpace c = true
    · rw [takeWhile_cons_of_pos hc, veil_cons_space hc, ih]
    · rw [takeWhile_cons_of_neg hc]
      rfl

theorem isSpace_veiled (s : Context) (c : Char) : isSpace (s.veiled c) = isSpace c := by
  by_cases h : s.hides c = true
  · rw [veiled_of_hides h, isSpace_of_inert (mode_of_hides h).2]
    rfl
  · rw [veiled_of_not_hides (by simpa using h)]

theorem trimEnd_veilFrom (s : Context) (t : Text) : trimEnd (veilFrom s t) = veilFrom s (trimEnd t) := by
  induction t generalizing s with
  | nil => rfl
  | cons c t ih =>
    have hveil := trimEnd_append [s.veiled c] (veilFrom (s.step c) t)
    have htext := trimEnd_append [c] t
    have hnil : trimEnd (veilFrom (s.step c) t) = [] ↔ trimEnd t = [] := by
      rw [ih, ← length_eq_zero_iff, length_veilFrom, length_eq_zero_iff]
    rw [singleton_append] at hveil htext
    rw [veilFrom, hveil, htext]
    by_cases ht : trimEnd t = []
    · rw [if_pos ht, if_pos (hnil.mpr ht)]
      by_cases hc : isSpace c = true
      · have hc' : isSpace (s.veiled c) = true := by rw [isSpace_veiled, hc]
        have hblank (d : Char) (hd : isSpace d = true) : trimEnd [d] = [] :=
          trimEnd_blank (by simpa [isBlank] using hd)
        rw [hblank c hc, hblank _ hc']
        rfl
      · have hc' : ¬ isSpace (s.veiled c) = true := by rwa [isSpace_veiled]
        have hself (d : Char) (hd : ¬ isSpace d = true) : trimEnd [d] = [d] := trimEnd_eq_self (by simpa using hd)
        rw [hself c hc, hself _ hc']
        rfl
    · rw [if_neg ht, if_neg (mt hnil.mp ht), ih]
      rfl

theorem trimEnd_veil (t : Text) : trimEnd (veil t) = veil (trimEnd t) := trimEnd_veilFrom .plain t

theorem trim_veil (t : Text) : trim (veil t) = veil (trim t) := by
  rw [trim, trimStart, dropWhile_veil, trimEnd_veil, trim, trimStart]

end Spaces

section Names

/-- A name with one of these is the name of no group. -/
def Odd (name : Text) : Prop := '\\' ∈ name ∨ '/' ∈ name

def inName (c : Char) : Bool := !(isSpace c || c = '(' || c = '\x7b')

theorem isGroup_eq (u : Text) :
    isGroup ('@' :: u) = groupNames.any fun g => (u.takeWhile inName).map Char.toLower = g.toList := rfl

theorem not_isGroup_of_odd (h : Odd (u.takeWhile inName)) : isGroup ('@' :: u) = false := by
  have hplain : ∀ g ∈ groupNames, '\\' ∉ g.toList ∧ '/' ∉ g.toList := by decide
  rw [isGroup_eq, any_eq_false]
  intro g hg hname
  rw [decide_eq_true_eq] at hname
  rcases h with h | h
  · exact (hplain g hg).1 (hname ▸ mem_map_of_mem (f := Char.toLower) h)
  · exact (hplain g hg).2 (hname ▸ mem_map_of_mem (f := Char.toLower) h)

def Context.Unhidden : Context → Prop
  | .plain | .word _ | .quoted _ | .quotedEscaped _ => True
  | _ => False

theorem unhidden_enter (hb : c ≠ '\\') (hc : c ≠ '/') : (enter c).Unhidden := by
  rw [enter, if_neg hb, if_neg hc]
  split
  · trivial
  · split <;> trivial

theorem Context.Unhidden.step (hs : s.Unhidden) (hn : inName c = true) (hb : c ≠ '\\') (hc : c ≠ '/') :
    (s.step c).Unhidden := by
  have hopen : c ≠ '(' := by
    rintro rfl
    cases hn
  cases s with
  | plain => exact unhidden_enter hb hc
  | word read =>
    simp only [Context.step, hopen, if_false]
    split
    · trivial
    · exact unhidden_enter hb hc
  | quoted q =>
    rw [Context.step, if_neg hb]
    split <;> trivial
  | quotedEscaped q => trivial
  | slash | escaped | comment | star | urlStart | url | urlEscaped => cases hs

theorem takeWhile_name_veilFrom (hs : s.Unhidden) (t : Text) : (veilFrom s t).takeWhile inName = t.takeWhile inName ∨
      Odd ((veilFrom s t).takeWhile inName) ∧ Odd (t.takeWhile inName) := by
  induction t generalizing s with
  | nil => exact .inl rfl
  | cons c t ih =>
    have hveiled : s.veiled c = c := by
      cases s with
      | plain | word read | quoted q | quotedEscaped q => rfl
      | slash | escaped | comment | star | urlStart | url | urlEscaped => cases hs
    rw [veilFrom, hveiled]
    by_cases hc : inName c = true
    · rw [takeWhile_cons_of_pos hc, takeWhile_cons_of_pos hc]
      by_cases hodd : c = '\\' ∨ c = '/'
      · right
        rcases hodd with rfl | rfl
        · exact ⟨.inl (mem_cons_self ..), .inl (mem_cons_self ..)⟩
        · exact ⟨.inr (mem_cons_self ..), .inr (mem_cons_self ..)⟩
      · rw [not_or] at hodd
        have hstep : (s.step c).Unhidden := hs.step hc hodd.1 hodd.2
        refine (ih hstep).imp (congrArg _) fun h => ⟨?_, ?_⟩
        · exact h.1.imp (mem_cons_of_mem _) (mem_cons_of_mem _)
        · exact h.2.imp (mem_cons_of_mem _) (mem_cons_of_mem _)
    · rw [takeWhile_cons_of_neg hc, takeWhile_cons_of_neg hc]
      exact .inl rfl

theorem isGroup_veil (u : Text) : isGroup (veil ('@' :: u)) = isGroup ('@' :: u) := by
  rw [show veil ('@' :: u) = '@' :: veilFrom (.word ['@']) u from rfl]
  rcases takeWhile_name_veilFrom (s := .word ['@']) trivial u with h | ⟨h, h'⟩
  · rw [isGroup_eq, isGroup_eq, h]
  · exact (not_isGroup_of_odd h).trans (not_isGroup_of_odd h').symm

end Names

section Sheets

mutual

def Rule.mapTexts (f : Text → Text) : Rule → Rule
  | .space text => .space (f text)
  | .statement text => .statement (f text)
  | .style selectors body isClosed => .style (f selectors) (f body) isClosed
  | .block head body isClosed => .block (f head) (f body) isClosed
  | .group head rules isClosed => .group (f head) (mapTextsOf f rules) isClosed
  | .unfinished text => .unfinished (f text)

def mapTextsOf (f : Text → Text) : List Rule → List Rule
  | [] => []
  | r :: rs => r.mapTexts f :: mapTextsOf f rs

end

theorem closing_veil {b : Bool} {x : Text} (hr : r = [] ∨ ∃ x, r = '\x7d' :: x)
    (h : closing r = (b, x)) : closing (veil r) = (b, veil x) := by
  rcases hr with rfl | ⟨y, rfl⟩
  · cases h
    rfl
  · cases h
    rfl

theorem head_at {σ : Type} {L : Lexis σ} (h : L.head ('@' :: t) = (u, r)) : ∃ v, u = '@' :: v := by
  cases u with
  | nil =>
    have hr := (scan_eq_iff.mp h).1
    rw [nil_append] at hr
    rw [← hr] at h
    exact absurd (mem_of_scan_eq rfl h) (by decide)
  | cons c v =>
    have hc := (scan_eq_iff.mp h).1
    rw [cons_append, List.cons.injEq] at hc
    exact ⟨v, by rw [hc.1]⟩

/-- The rules of a veiled sheet are the veiled rules of the sheet. -/
theorem Lexis.Reads.veil {rules : List Rule} {rest : Text} (h : full.Reads t rules rest) :
    literal.Reads (veil t) (mapTextsOf veil rules) (veil rest) := by
  induction h with
  | nil => exact .nil
  | brace t => exact .brace _
  | @space c t rest rules hc h ih =>
    have hspace : Style.veil (c :: t.takeWhile isSpace) = c :: (Style.veil t).takeWhile isSpace := by
      rw [veil_cons_space hc, veil_takeWhile, takeWhile_veil]
    rw [veil_cons_space hc, mapTextsOf, Rule.mapTexts, hspace]
    rw [← dropWhile_veil] at ih
    exact .space hc ih
  | statement hc hu h ih => exact .statement hc (head_veil hu) ih
  | unfinished hc hu => exact .unfinished hc (head_veil hu)
  | style hc hat hu hb hw h ih =>
    exact .style hc hat (head_veil hu) (body_veil hb) (closing_veil (body_cases hb) hw) ih
  | block hg hu hb hw h ih =>
    obtain ⟨v, rfl⟩ := head_at hu
    exact .block ((isGroup_veil v).trans hg) (head_veil hu) (body_veil hb)
      (closing_veil (body_cases hb) hw) ih
  | group hg hu hin hw h ihin ih =>
    obtain ⟨v, rfl⟩ := head_at hu
    exact .group ((isGroup_veil v).trans hg) (head_veil hu) ihin
      (closing_veil hin.rest_cases hw) ih

end Sheets

end ComponentConverter.Style
