import ComponentConverter.Script.Modules
import ComponentConverter.Proofs.TokenEnds

namespace ComponentConverter.Script

open List Read

variable {c : Char} {w r : Text}

def State.bumped (s : State) : State :=
  let next := scan s.after s.token.stop false
  { s with
    token := next.token, here := next.here, after := next.after, lastStart := s.token.start,
    lastStop := s.token.stop, issues := next.issues.reverse ++ s.issues }

def Context.takingIn (c : Context) : Context := { c with withIn := true }

namespace State

def inside (s : State) (c : Context) : State := { s with context := c }

/-- The reader where an expression that can be the head of an arrow function starts. -/
def arrowFrom (s : State) (start : Nat) : State := { s with arrowStart := some start }

def under (s : State) (labels : List String) : State := { s with labels := labels }

variable (s : State) (c d : Context) (start : Nat) (labels : List String)

@[simp] theorem bumped_lastStop : s.bumped.lastStop = s.token.stop := rfl

@[simp] theorem bumped_context : s.bumped.context = s.context := (rfl)

@[simp] theorem bumped_typed : s.bumped.typed = s.typed := rfl

@[simp] theorem inside_token : (s.inside c).token = s.token := rfl

@[simp] theorem inside_context : (s.inside c).context = c := rfl

@[simp] theorem inside_lastStop : (s.inside c).lastStop = s.lastStop := rfl

@[simp] theorem inside_bumped : (s.inside c).bumped = s.bumped.inside c := rfl

@[simp] theorem inside_inside : (s.inside c).inside d = s.inside d := rfl

@[simp] theorem inside_self {c : Context} (h : s.context = c) : s.inside c = s := by
  rw [← h]
  rfl

@[simp] theorem arrowFrom_token : (s.arrowFrom start).token = s.token := rfl

@[simp] theorem arrowFrom_bumped : (s.arrowFrom start).bumped = s.bumped.arrowFrom start := rfl

@[simp] theorem arrowFrom_inside : (s.arrowFrom start).inside c = (s.inside c).arrowFrom start := rfl

@[simp] theorem under_token : (s.under labels).token = s.token := rfl

@[simp] theorem under_context : (s.under labels).context = s.context := (rfl)

@[simp] theorem under_inside : (s.under labels).inside c = (s.inside c).under labels := rfl

end State

namespace Read

variable {α β : Type} {s t : State}

@[simp] theorem bind_run (x : Read α) (f : α → Read β) (s : State) : (x >>= f) s = match x s with
      | .ok a t => f a t
      | .error e t => .error e t := by
  change EStateM.bind x f s = _
  unfold EStateM.bind
  cases x s <;> rfl

theorem bind_eq_ok {x : Read α} {f : α → Read β} {b : β} :
    (x >>= f) s = .ok b t ↔ ∃ a u, x s = .ok a u ∧ f a u = .ok b t := by
  rw [bind_run]
  cases x s with
  | ok a u =>
    constructor
    · intro h
      exact ⟨a, u, rfl, h⟩
    · rintro ⟨_, _, ⟨⟩, h⟩
      exact h
  | error e u => simp

@[simp] theorem pure_run (a : α) (s : State) : (pure a : Read α) s = .ok a s := rfl

@[simp] theorem map_run (f : α → β) (x : Read α) (s : State) : (f <$> x) s = match x s with
      | .ok a t => .ok (f a) t
      | .error e t => .error e t := bind_run x (fun a => pure (f a)) s

theorem map_eq_ok {f : α → β} {x : Read α} {b : β} : (f <$> x) s = .ok b t ↔ ∃ a, x s = .ok a t ∧ f a = b := by
  rw [map_run]
  cases x s with
  | ok a u =>
    constructor
    · rintro ⟨⟩
      exact ⟨a, rfl, rfl⟩
    · rintro ⟨_, ⟨⟩, rfl⟩
      rfl
  | error e u => simp

theorem map_some_eq_ok {x : Read α} {a : α} : (some <$> x) s = .ok (some a) t ↔ x s = .ok a t := by
  rw [map_eq_ok]
  simp

@[simp] theorem ite_run (c : Prop) [Decidable c] (x y : Read α) (s : State) :
    (if c then x else y) s = if c then x s else y s := by
  split <;> rfl

@[simp] theorem get_run (s : State) : (get : Read State) s = .ok s s := rfl

@[simp] theorem modify_run (f : State → State) (s : State) : (modify f : Read Unit) s = .ok () (f s) := rfl

@[simp] theorem token_run (s : State) : token s = .ok s.token s := rfl

@[simp] theorem typed_run (s : State) : typed s = .ok s.typed s := rfl

@[simp] theorem context_run (s : State) : context s = .ok s.context s := rfl

@[simp] theorem bump_run (s : State) : bump s = .ok () s.bumped := rfl

@[simp] theorem peek_run (s : State) : peek s = .ok s.bumped.token s := rfl

@[simp] theorem position_run (s : State) : position s = .ok s.token.start s := rfl

@[simp] theorem is_run (m : String) (s : State) : is m s = .ok (s.token.isMark m) s := rfl

@[simp] theorem isWord_run (w : String) (s : State) : isWord w s = .ok (s.token.isWord w) s := rfl

@[simp] theorem isEnd_run (s : State) : isEnd s = .ok s.token.isEnd s := rfl

@[simp] theorem isOneOf_run (ms : List String) (s : State) : isOneOf ms s = .ok (ms.any s.token.isMark) s := rfl

@[simp] theorem close_run (form : Form) (start : Nat) (children : List Node) (s : State) :
    close form start children s = .ok (.mk form ⟨start, s.lastStop⟩ children) s := rfl

@[simp] theorem eat_run (m : String) (s : State) :
    eat m s = if s.token.isMark m then .ok true s.bumped else .ok false s := by
  rw [eat, bind_run, is_run]
  dsimp only
  split <;> rfl

@[simp] theorem eatWord_run (w : String) (s : State) :
    eatWord w s = if s.token.isWord w then .ok true s.bumped else .ok false s := by
  rw [eatWord, bind_run, isWord_run]
  dsimp only
  split <;> rfl

@[simp] theorem isLess_run (s : State) : isLess s = .ok (s.token.isMark "<") s := rfl

@[simp] theorem opensTypes_run (s : State) : opensTypes s = .ok (s.token.isMark "<" || s.token.isMark "<<") s := rfl

@[simp] theorem within_run (change : Context → Context) (r : Read α) (s : State) :
    within change r s = match r (s.inside (change s.context)) with
      | .ok a t => .ok a (t.inside s.context)
      | .error e t => .error e (t.inside s.context) := rfl

@[simp] theorem allowingIn_run (r : Read α) (s : State) : allowingIn r s = match r (s.inside s.context.takingIn) with
      | .ok a t => .ok a (t.inside s.context)
      | .error e t => .error e (t.inside s.context) := rfl

@[simp] theorem recover_run (r : Read α) (handle : Issue → Read α) (s : State) : recover r handle s = match r s with
      | .ok a t => .ok a t
      | .error e t => handle e t := rfl

theorem failAt_run {α : Type} (cause : Cause) (span : Span) (s : State) :
    ∃ e t, (failAt cause span : Read α) s = .error e t := by
  cases h : (failAt cause span : Read α) s with
  | error e t => exact ⟨e, t, rfl⟩
  | ok a t =>
    obtain ⟨own, u, -, h⟩ := bind_eq_ok.mp h
    cases own with
    | none => cases h
    | some own =>
      obtain ⟨_, _, _, h⟩ := bind_eq_ok.mp h
      cases h

theorem fail_run {α : Type} (cause : Cause) (s : State) : ∃ e t, (fail cause : Read α) s = .error e t :=
  failAt_run cause s.token.span s

theorem within_eq_ok {change : Context → Context} {r : Read α} {a : α} :
    within change r s = .ok a t ↔ ∃ u, r (s.inside (change s.context)) = .ok a u ∧ t = u.inside s.context := by
  rw [within_run]
  cases r (s.inside (change s.context)) with
  | error e u => simp
  | ok b u =>
    constructor
    · rintro ⟨⟩
      exact ⟨u, rfl, rfl⟩
    · rintro ⟨_, ⟨⟩, rfl⟩
      rfl

theorem many_of_none {step : Read (Option α)} (h : step s = .ok none s) : many step s = .ok [] s := by
  rw [many, bind_run, get_run]
  dsimp only
  rw [repeatUpTo, bind_run, h]
  rfl

theorem repeatUpTo_eq_ok {step : Read (Option α)} {n : Nat} {as : List α} :
    repeatUpTo step (n + 1) s = .ok as t ↔ (as = [] ∧ step s = .ok none t) ∨
        ∃ a rest u, as = a :: rest ∧ step s = .ok (some a) u ∧ repeatUpTo step n u = .ok rest t := by
  rw [repeatUpTo, bind_run]
  cases step s with
  | error e u => simp
  | ok first u =>
    cases first with
    | none => simp
    | some a =>
      simp only [bind_eq_ok]
      constructor
      · rintro ⟨rest, v, hrest, ⟨⟩⟩
        exact .inr ⟨a, rest, u, rfl, rfl, hrest⟩
      · rintro (⟨_, h⟩ | ⟨_, rest, _, rfl, ⟨⟩, hrest⟩)
        · simp at h
        · exact ⟨rest, t, hrest, rfl⟩

theorem many_single_iff {step : Read (Option α)} {a : α} :
    many step s = .ok [a] t ↔ ∃ u, step s = .ok (some a) u ∧ step u = .ok none t := by
  constructor
  · intro h
    obtain ⟨h, -⟩ | ⟨_, _, u, ⟨⟩, hs, h⟩ := repeatUpTo_eq_ok.mp h
    · simp at h
    · obtain ⟨-, hu⟩ | ⟨_, _, _, h, -⟩ := repeatUpTo_eq_ok.mp h
      · exact ⟨u, hs, hu⟩
      · simp at h
  · rintro ⟨u, hs, hu⟩
    exact repeatUpTo_eq_ok.mpr (.inr ⟨a, [], u, rfl, hs, repeatUpTo_eq_ok.mpr (.inl ⟨rfl, hu⟩)⟩)

theorem iterateUpTo_eq_ok {step : α → Read (Option α)} {n : Nat} {a b : α} :
    iterateUpTo step (n + 1) a s = .ok b t ↔ (a = b ∧ step a s = .ok none t) ∨
        ∃ c u, step a s = .ok (some c) u ∧ iterateUpTo step n c u = .ok b t := by
  rw [iterateUpTo, bind_run]
  cases step a s with
  | error e u => simp
  | ok next u =>
    cases next with
    | none => simp
    | some c =>
      constructor
      · intro h
        exact .inr ⟨c, u, rfl, h⟩
      · rintro (⟨_, h⟩ | ⟨_, _, ⟨⟩, h⟩)
        · simp at h
        · exact h

theorem iterateUpTo_keeps {step : α → Read (Option α)} {P : α → State → Prop}
    (hnext : ∀ a u b v, P a u → step a u = .ok (some b) v → P b v)
    (hlast : ∀ a u v, P a u → step a u = .ok none v → P a v) {n : Nat} {a b : α} (ha : P a s)
    (h : iterateUpTo step n a s = .ok b t) : P b t := by
  induction n generalizing a s with
  | zero =>
    obtain ⟨rfl, rfl⟩ : a = b ∧ s = t := by simpa [iterateUpTo] using h
    exact ha
  | succ n ih =>
    obtain ⟨rfl, hstop⟩ | ⟨c, u, hstep, h⟩ := iterateUpTo_eq_ok.mp h
    · exact hlast a s t ha hstop
    · exact ih (hnext a s c u ha hstep) h

theorem iterate_keeps {step : α → Read (Option α)} {P : α → State → Prop}
    (hnext : ∀ a u b v, P a u → step a u = .ok (some b) v → P b v)
    (hlast : ∀ a u v, P a u → step a u = .ok none v → P a v) {a b : α} (ha : P a s)
    (h : iterate step a s = .ok b t) : P b t := by
  exact iterateUpTo_keeps hnext hlast ha h

theorem iterate_of_none {step : α → Read (Option α)} {a : α} (h : step a s = .ok none s) :
    iterate step a s = .ok a s := by
  rw [iterate, bind_run, get_run]
  dsimp only
  rw [iterateUpTo, bind_run, h]
  rfl

end Read

section Words

def isPlainWord : Text → Bool
  | [] => false
  | c :: t => startsWord c && t.all continuesWord

theorem ne_of_startsWord {c d : Char} (h : startsWord c = true) (hd : startsWord d = false) : c ≠ d := by
  rintro rfl
  simp [hd] at h

theorem isDigit_of_startsWord (h : startsWord c = true) : c.isDigit = false := by
  rw [Bool.eq_false_iff]
  intro hd
  rw [startsWord] at h
  delta Char.isAlpha Char.isUpper Char.isLower at h
  simp only [Char.isDigit, Bool.and_eq_true, Bool.or_eq_true, decide_eq_true_eq, beq_iff_eq,
    UInt32.le_iff_toNat_le] at h hd
  rcases h with ((h | rfl) | rfl) | ⟨h, -⟩
  · simp at h hd
    omega
  · simp at hd
  · simp at hd
  · simp at hd
    omega

theorem isGapCharacter_of_startsWord (h : startsWord c = true) : isGapCharacter c = false := by
  have hs : isSpace c = false := not_isSpace startsWord_spaces h
  have hmark := ne_of_startsWord h (by decide +kernel : startsWord '\ufeff' = false)
  have hzero := ne_of_startsWord h (by decide +kernel : startsWord '\u200b' = false)
  have hl : isLineEnd c = false := by
    rw [Bool.eq_false_iff]
    intro hl
    simp only [isLineEnd, Bool.or_eq_true, beq_iff_eq] at hl
    rcases hl with ((rfl | rfl) | rfl) | rfl <;> simp [isSpace] at hs
  simp [isGapCharacter, isInlineSpace, hs, hl, hmark, hzero]

theorem readWord_append (hw : w.all continuesWord = true) (hr : wordEnds continuesWord r)
    {fuel : Nat} (hf : w.length < fuel) :
    readWord continuesWord fuel (w ++ r) = ⟨w, w.length, false, [], none⟩ := by
  induction w generalizing fuel with
  | nil => exact readWord_of_ends hr fuel
  | cons c w ih =>
    obtain ⟨fuel, rfl⟩ : ∃ n, fuel = n + 1 := ⟨fuel - 1, by omega⟩
    obtain ⟨hc, hw⟩ : continuesWord c = true ∧ w.all continuesWord = true := by simpa using hw
    have hb : c ≠ '\\' := by
      rintro rfl
      revert hc
      decide
    rw [cons_append, readWord_plain hb, if_pos hc, ih hw (by simpa using hf)]
    rfl

end Words

section Heads

variable {newline : Bool} {t : Text}

theorem scan_here (h : opensGap newline t = false) (pos : Nat) :
    scan t pos newline = scanHere ⟨t, pos, newline, []⟩ := by
  rw [scan, skipGap_of_not_opensGap h]

theorem scan_blank (h : opensGap newline t = false) (pos : Nat) :
    scan (' ' :: t) pos newline = scanHere ⟨t, pos + 1, newline, []⟩ := by
  rw [opensGap, Bool.or_eq_false_iff, Bool.or_eq_false_iff] at h
  obtain ⟨⟨hb, ho⟩, hc⟩ := h
  have hblank : skipBlank ((' ' :: t).length + 1) (' ' :: t) pos newline = ⟨t, pos + 1, newline, []⟩ := by
    exact skipBlank_of_not_opensBlank hb _ _ _
  rw [scan, skipGap, hblank]
  dsimp only
  split
  · simp at ho
  · simp at hc
  · rfl

theorem opensGap_word (hw : isPlainWord w = true) (r : Text) : opensGap newline (w ++ r) = false := by
  cases w with
  | nil => simp [isPlainWord] at hw
  | cons c w =>
    have hc : startsWord c = true := by
      rw [isPlainWord, Bool.and_eq_true] at hw
      exact hw.1
    have hslash := ne_of_startsWord hc (by decide : startsWord '/' = false)
    have hless := ne_of_startsWord hc (by decide : startsWord '<' = false)
    have hminus := ne_of_startsWord hc (by decide : startsWord '-' = false)
    simp [opensGap, opensBlank, opensLine, opensBlock, List.isPrefixOf, isGapCharacter_of_startsWord hc,
      hslash.symm, hless.symm, hminus.symm]

theorem scanHere_word (hw : isPlainWord w = true) (hr : wordEnds continuesWord r) (pos : Nat) (newline : Bool) :
    scanHere ⟨w ++ r, pos, newline, []⟩ =
      ⟨⟨.word (String.ofList w) false, String.ofList w, pos, pos + bytes w, newline⟩, w ++ r, r, []⟩ := by
  cases w with
  | nil => simp [isPlainWord] at hw
  | cons c w =>
    obtain ⟨hc, hw⟩ : startsWord c = true ∧ w.all continuesWord = true := by
      simpa [isPlainWord] using hw
    have hword : readWord startsWord ((c :: w ++ r).length + 1) (c :: w ++ r) =
        ⟨c :: w, w.length + 1, false, [], none⟩ := by
      rw [cons_append, readWord_plain (ne_of_startsWord hc (by decide)), if_pos hc,
        readWord_append hw hr (by simp +arith)]
      rfl
    have hquote : (c == '"' || c == '\'') = false := by
      simp [ne_of_startsWord hc (by decide : startsWord '"' = false),
        ne_of_startsWord hc (by decide : startsWord '\'' = false)]
    have htick : (c == '\x60') = false := by
      simp [ne_of_startsWord hc (by decide : startsWord '\x60' = false)]
    have hdot : (c == '.') = false := by
      simp [ne_of_startsWord hc (by decide : startsWord '.' = false)]
    rw [cons_append] at hword ⊢
    simp only [scanHere, hquote, htick, hdot, isDigit_of_startsWord hc, hc, hword]
    simp

def frameMarks : Text := [';', ':', '(', '=', '*']

theorem readMark_lone (hc : c ∈ frameMarks) (hr : c = '=' ∨ c = '*' → r.head? = some ' ') :
    readMark (c :: r) = String.ofList [c] := by
  -- a longer mark has a second character, and it is no blank
  have hlong : ∀ m ∈ longMarks, (m.toList.head?.all fun a => a ∉ frameMarks || a = '=' || a = '*') = true ∧
      m.toList.tail.head?.any (· ≠ ' ') = true := by decide +kernel
  have hnone : longMarks.find? (fun m => m.toList.isPrefixOf (c :: r)) = none := by
    rw [find?_eq_none]
    intro m hm hprefix
    obtain ⟨hfirst, hsecond⟩ := hlong m hm
    generalize m.toList = s at hprefix hfirst hsecond
    rcases s with _ | ⟨a, _ | ⟨b, t⟩⟩
    · cases hsecond
    · cases hsecond
    · obtain ⟨rfl, u, rfl⟩ := cons_prefix_cons.mp (List.isPrefixOf_iff_prefix.mp hprefix)
      simp_all
  rw [readMark_none hnone]
  rfl

theorem opensGap_mark (hc : c ∈ frameMarks) (r : Text) : opensGap newline (c :: r) = false := by
  simp only [frameMarks, mem_cons, not_mem_nil, or_false] at hc
  rcases hc with rfl | rfl | rfl | rfl | rfl <;>
    simp [opensGap, opensBlank, opensLine, opensBlock, List.isPrefixOf, isGapCharacter, isLineEnd,
      isInlineSpace, isSpace]

theorem scanHere_mark (hc : c ∈ frameMarks)
    (hr : c = '=' ∨ c = '*' → r.head? = some ' ') (pos : Nat) (newline : Bool) :
    scanHere ⟨c :: r, pos, newline, []⟩ = ⟨⟨.mark, String.ofList [c], pos, pos + 1, newline⟩, c :: r, r, []⟩ := by
  have hl : (readMark (c :: r)).length = 1 := by
    rw [readMark_lone hc hr]
    simp
  have hword : frameMarks.any startsWord = false := by decide
  have hplain := any_eq_false.mp hword c hc
  simp only [frameMarks, mem_cons, not_mem_nil, or_false] at hc
  rcases hc with rfl | rfl | rfl | rfl | rfl <;> simp [scanHere, hl] <;> rfl

end Heads

def opened (text : Text) (typed : Bool) : State :=
  let first := scan text 0 true
  { token := first.token, here := first.here, after := first.after, lastStart := 0,
    lastStop := 0, issues := first.issues.reverse, context := {}, labels := [],
    arrowStart := none, trailingCommas := [], typed := typed }

theorem moduleItems_single_iff {g : Grammar} {s : State} (hs : s.token.isEnd = false) {item : Node} {t : State} :
    moduleItems g s = .ok [item] t ↔ g.item s = .ok item t ∧ t.token.isEnd = true := by
  rw [moduleItems, many_single_iff]
  simp only [bind_run, isEnd_run, ite_run, pure_run, hs, Bool.false_eq_true, if_false]
  constructor
  · rintro ⟨u, hu, ht⟩
    cases hi : g.item s with
    | error e v => simp [hi] at hu
    | ok n v =>
      obtain ⟨rfl, rfl⟩ : n = item ∧ v = u := by simpa [hi] using hu
      split at ht
      next he =>
        obtain rfl : v = t := by simpa using ht
        exact ⟨rfl, he⟩
      · cases hv : g.item v <;> simp [hv] at ht
  · rintro ⟨hi, ht⟩
    exact ⟨t, by rw [hi], by rw [if_pos ht]⟩

def Module.ofRun : EStateM.Result Issue State (List Node) → Except Issue Module
  | .ok items s => .ok ⟨items, s.issues.reverse⟩
  | .error issue _ => .error issue

theorem parse_single_iff {text : Text} {typed : Bool} {item : Node} (hd : ['#', '!'].isPrefixOf text = false)
    (hs : (opened text typed).token.isEnd = false) :
    parse text typed = .ok ⟨[item], []⟩ ↔
      ∃ t, itemRule (grammar (8 * text.length + 63)) (opened text typed) = .ok item t ∧
        t.token.isEnd = true ∧ t.issues = [] := by
  have hskip : skipDirective text = text := by
    rw [skipDirective, hd]
    rfl
  have hparse : parse text typed = Module.ofRun (moduleItems (grammar (8 * text.length + 64)) (opened text typed)) := by
    rw [parse, hskip, Nat.sub_self]
    rfl
  have hsingle (t : State) := @moduleItems_single_iff (grammar (8 * text.length + 64)) _ hs item t
  rw [hparse]
  constructor
  · intro h
    cases hitems : moduleItems (grammar (8 * text.length + 64)) (opened text typed) with
    | error issue t =>
      rw [hitems] at h
      cases h
    | ok items t =>
      rw [hitems] at h
      have hboth : items = [item] ∧ t.issues = [] := by simpa [Module.ofRun] using h
      rw [hboth.1] at hitems
      obtain ⟨hi, he⟩ := (hsingle t).mp hitems
      exact ⟨t, hi, he, hboth.2⟩
  · rintro ⟨t, hi, he, hn⟩
    rw [(hsingle t).mpr ⟨hi, he⟩, Module.ofRun, hn]
    rfl

end ComponentConverter.Script
