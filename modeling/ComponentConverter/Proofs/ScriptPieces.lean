import ComponentConverter.Proofs.Scanning
import ComponentConverter.Proofs.Lookahead

namespace ComponentConverter.Script

open List

variable {t u : Text} {c : Char} {fresh : Bool}

/-- What is read at a place: a blank or a comment, a token, a pattern, the part of a template after
an inner expression, or one angle bracket. -/
inductive Goal where
  | gap
  | plain
  | pattern
  | part
  | bracket
  deriving Repr, DecidableEq

def gapLength? (t : Text) : Option Nat :=
  let gap := skipBlank 1 t 0 false
  if gap.issues.isEmpty && gap.rest.length < t.length then some (t.length - gap.rest.length) else none

def Kind.isSound : Kind → Bool
  | .broken _ | .endOfFile => false
  | _ => true

def Scanned.length? (s : Scanned) : Option Nat :=
  if s.issues.isEmpty && s.token.kind.isSound then some s.token.lexeme.length else none

/-- Whether no gap stands in front of the token at the head of a text; `fresh` tells whether a line
has ended before. -/
def startsHere (fresh : Bool) (t : Text) : Bool := (scan t 0 fresh).token.start == 0

def flaggedLength? : Text → Option Nat
  | '/' :: t => (patternLength false t).map fun n => n + 1 + ((t.drop n).takeWhile continuesWord).length
  | _ => none

def templateLength? (t : Text) : Option Nat := (readChunk (t.length + 1) t).map fun chunk => chunk.length + 1

def partLength? : Text → Option Nat
  | '\x7d' :: t => templateLength? t
  | _ => none

def bracketLength? : Text → Option Nat
  | '<' :: _ | '>' :: _ => some 1
  | _ => none

/-- The length of what is read at the head of a text, if there is nothing wrong with it. -/
def Goal.length? (fresh : Bool) (t : Text) : Goal → Option Nat
  | .gap => gapLength? t
  | .plain => if startsHere fresh t then (scan t 0 fresh).length? else none
  | .pattern => if startsHere fresh t then flaggedLength? t else none
  | .part => partLength? t
  | .bracket => if startsHere fresh t then bracketLength? t else none

def isGapCharacter (c : Char) : Bool := isLineEnd c || isInlineSpace c

def opensLine (t : Text) : Bool := ['/', '/'].isPrefixOf t

def opensBlock (t : Text) : Bool := ['/', '*'].isPrefixOf t

def opensBlank (t : Text) : Bool := opensLine t || opensBlock t || t.head?.any isGapCharacter

def opensGap (fresh : Bool) (t : Text) : Bool :=
  opensBlank t || ['<', '!', '-', '-'].isPrefixOf t || (fresh && ['-', '-', '>'].isPrefixOf t)

theorem opensLine_eq_true (h : opensLine t = true) : ∃ r, t = '/' :: '/' :: r := by
  obtain ⟨r, rfl⟩ := isPrefixOf_iff_prefix.mp h
  exact ⟨r, rfl⟩

theorem opensBlock_eq_true (h : opensBlock t = true) : ∃ r, t = '/' :: '*' :: r := by
  obtain ⟨r, rfl⟩ := isPrefixOf_iff_prefix.mp h
  exact ⟨r, rfl⟩

section Gaps

variable {fuel pos : Nat} {newline : Bool} {t : Text}

theorem skipBlank_line : skipBlank (fuel + 1) ('/' :: '/' :: t) pos newline =
    skipBlank fuel (t.drop (t.takeWhile (!isLineEnd ·)).length)
      (pos + 2 + bytes (t.takeWhile (!isLineEnd ·))) newline := rfl

theorem skipBlank_block : skipBlank (fuel + 1) ('/' :: '*' :: t) pos newline =
    match breakOn? ['*', '/'] t with
    | some (body, rest) =>
      skipBlank fuel rest (pos + 4 + bytes body) (newline || body.any isLineEnd)
    | none => ⟨[], pos + 2 + bytes t, newline || t.any isLineEnd,
        [⟨.unterminatedComment, .point (pos + 2 + bytes t)⟩]⟩ := rfl

theorem skipBlank_zero : skipBlank 0 t pos newline = ⟨t, pos, newline, []⟩ := rfl

theorem skipBlank_character (h : opensLine (c :: t) = false) (h' : opensBlock (c :: t) = false) :
    skipBlank (fuel + 1) (c :: t) pos newline =
      if isLineEnd c then skipBlank fuel t (pos + c.utf8Size) true
      else if isInlineSpace c then skipBlank fuel t (pos + c.utf8Size) newline
      else ⟨c :: t, pos, newline, []⟩ := by
  rw [skipBlank.eq_def]
  split
  · simp_all
  · simp_all
  next heq =>
    obtain ⟨rfl, rfl⟩ := List.cons.inj heq
    simp [opensLine] at h
  next heq =>
    obtain ⟨rfl, rfl⟩ := List.cons.inj heq
    simp [opensBlock] at h'
  next hf heq =>
    obtain ⟨rfl, rfl⟩ := List.cons.inj heq
    obtain rfl := Nat.succ.inj hf
    rfl

theorem le_skipBlank (fuel : Nat) (t : Text) (pos : Nat) (newline : Bool) :
    pos ≤ (skipBlank fuel t pos newline).pos := by
  fun_induction skipBlank fuel t pos newline with
  | case1 | case2 | case8 => exact Nat.le_refl _
  | case5 => dsimp only; omega
  | _ => omega

theorem lt_skipBlank (h : opensBlank t = true) (fuel pos : Nat) (newline : Bool) :
    pos < (skipBlank (fuel + 1) t pos newline).pos := by
  cases hl : opensLine t with
  | true =>
    obtain ⟨r, rfl⟩ := opensLine_eq_true hl
    rw [skipBlank_line]
    exact Nat.lt_of_lt_of_le (by omega) (le_skipBlank _ _ _ _)
  | false =>
    cases hb : opensBlock t with
    | true =>
      obtain ⟨r, rfl⟩ := opensBlock_eq_true hb
      rw [skipBlank_block]
      split
      · exact Nat.lt_of_lt_of_le (by omega) (le_skipBlank _ _ _ _)
      · dsimp only; omega
    | false =>
      cases t with
      | nil => simp [opensBlank, hl, hb] at h
      | cons c t =>
        have hpos := c.utf8Size_pos
        have hlt : ∀ newline, pos < (skipBlank fuel t (pos + c.utf8Size) newline).pos :=
          fun newline => Nat.lt_of_lt_of_le (by omega) (le_skipBlank _ _ _ _)
        rw [skipBlank_character hl hb]
        split
        · exact hlt true
        next hn =>
          split
          · exact hlt newline
          next hi => simp [opensBlank, hl, hb, isGapCharacter, hn, hi] at h

theorem skipBlank_of_not_opensBlank (h : opensBlank t = false) (fuel pos : Nat) (newline : Bool) :
    skipBlank fuel t pos newline = ⟨t, pos, newline, []⟩ := by
  simp only [opensBlank, Bool.or_eq_false_iff] at h
  obtain ⟨⟨hl, hb⟩, hc⟩ := h
  cases fuel with
  | zero => rfl
  | succ fuel =>
    cases t with
    | nil => rfl
    | cons c t =>
      have hc : isLineEnd c = false ∧ isInlineSpace c = false := by
        simpa [isGapCharacter] using hc
      rw [skipBlank_character hl hb, hc.1, hc.2]
      rfl

theorem le_skipLine (t : Text) (pos : Nat) (newline : Bool) : pos ≤ (skipLine t pos newline).pos :=
  Nat.le_trans (Nat.le_add_right _ _) (le_skipBlank _ _ _ _)

theorem le_skipGap (fuel : Nat) (t : Text) (pos : Nat) (newline : Bool) : pos ≤ (skipGap fuel t pos newline).pos := by
  fun_induction skipGap fuel t pos newline with
  | case1 => exact Nat.le_refl _
  | case2 _ t pos newline _ _ _ _ _ _ ih =>
    calc pos ≤ (skipBlank (t.length + 1) t pos newline).pos := le_skipBlank _ _ _ _
      _ ≤ _ := Nat.le_add_right _ 4
      _ ≤ _ := le_skipLine _ _ _
      _ ≤ _ := ih
  | case3 _ t pos newline _ _ _ _ _ _ _ ih =>
    calc pos ≤ (skipBlank (t.length + 1) t pos newline).pos := le_skipBlank _ _ _ _
      _ ≤ _ := Nat.le_add_right _ 3
      _ ≤ _ := le_skipLine _ _ _
      _ ≤ _ := ih
  | case4 => exact le_skipBlank _ _ _ _

theorem lt_skipGap (h : opensGap fresh t = true) (fuel pos : Nat) : pos < (skipGap (fuel + 1) t pos fresh).pos := by
  have hblank := le_skipBlank (t.length + 1) t pos fresh
  rw [skipGap]
  split
  · calc pos < (skipBlank (t.length + 1) t pos fresh).pos + 4 := by omega
      _ ≤ _ := le_skipLine _ _ _
      _ ≤ _ := le_skipGap _ _ _ _
  · calc pos < (skipBlank (t.length + 1) t pos fresh).pos + 3 := by omega
      _ ≤ _ := le_skipLine _ _ _
      _ ≤ _ := le_skipGap _ _ _ _
  next hopen hclose =>
    cases hb : opensBlank t with
    | true => exact lt_skipBlank hb t.length pos fresh
    | false =>
      rw [skipBlank_of_not_opensBlank hb] at hopen hclose
      rw [opensGap, hb, Bool.false_or, Bool.or_eq_true, Bool.and_eq_true] at h
      rcases h with h | ⟨hf, h⟩
      · obtain ⟨r, hr⟩ := isPrefixOf_iff_prefix.mp h
        exact absurd hr.symm (hopen r)
      · obtain ⟨r, hr⟩ := isPrefixOf_iff_prefix.mp h
        exact absurd hf (hclose r hr.symm)

theorem skipGap_of_not_opensGap (h : opensGap fresh t = false) (fuel pos : Nat) :
    skipGap (fuel + 1) t pos fresh = ⟨t, pos, fresh, []⟩ := by
  rw [opensGap, Bool.or_eq_false_iff, Bool.or_eq_false_iff] at h
  obtain ⟨⟨hb, ho⟩, hc⟩ := h
  rw [skipGap, skipBlank_of_not_opensBlank hb]
  dsimp only
  split
  · simp at ho
  · simp at hc
  · rfl

end Gaps

theorem start_scanHere (gap : Gap) : (scanHere gap).token.start = gap.pos := by
  unfold scanHere
  dsimp only
  repeat' split
  all_goals rfl

theorem startsHere_eq (fresh : Bool) (t : Text) : startsHere fresh t = !opensGap fresh t := by
  rw [startsHere, scan, start_scanHere]
  cases h : opensGap fresh t with
  | true =>
    have hlt := lt_skipGap h t.length 0
    simp only [Bool.not_true, beq_eq_false_iff_ne]
    omega
  | false =>
    rw [skipGap_of_not_opensGap h]
    rfl

theorem gapLength?_line (t : Text) :
    gapLength? ('/' :: '/' :: t) = some ((t.takeWhile (!isLineEnd ·)).length + 2) := by
  have hle := (List.takeWhile_prefix (l := t) (!isLineEnd ·)).length_le
  rw [gapLength?, skipBlank_line, skipBlank_zero]
  simp only [isEmpty_nil, Bool.true_and, length_drop, length_cons]
  rw [if_pos (by simp; omega)]
  congr 1
  omega

theorem gapLength?_block (t : Text) :
    gapLength? ('/' :: '*' :: t) = (breakOn? ['*', '/'] t).map fun (body, _) => body.length + 4 := by
  rw [gapLength?, skipBlank_block]
  cases h : breakOn? ['*', '/'] t with
  | none => simp
  | some p =>
    have ht := eq_of_breakOn? h
    subst ht
    simp [skipBlank_zero]
    omega

theorem gapLength?_character (h : opensLine (c :: t) = false) (h' : opensBlock (c :: t) = false) :
    gapLength? (c :: t) = if isGapCharacter c then some 1 else none := by
  rw [gapLength?, skipBlank_character h h']
  cases hl : isLineEnd c with
  | true => simp [isGapCharacter, hl, skipBlank_zero]
  | false =>
    cases hi : isInlineSpace c with
    | true => simp [isGapCharacter, hl, hi, skipBlank_zero]
    | false => simp [isGapCharacter, hl, hi]

def stringLength? (quote : Char) (t : Text) : Option Nat :=
  let body := readBody quote (t.length + 1) t
  if body.fault.isNone && body.flaws.isEmpty && body.isClosed then some (body.length + 1) else none

def numeralLength? (t : Text) : Option Nat :=
  let n := readNumeral t
  if n.fault.isNone && n.flaws.isEmpty then some n.length else none

def wordLength? (t : Text) : Option Nat :=
  let w := readWord startsWord (t.length + 1) t
  if w.fault.isNone && w.flaws.isEmpty && !(w.isEscaped && reservedWords.contains (String.ofList w.name))
  then some w.length else none

def opensNumeral (c : Char) (t : Text) : Bool := c.isDigit || (c == '.' && t.head?.any Char.isDigit)

def markLength? (t : Text) : Option Nat :=
  if t.head?.any isMarkCharacter then some (readMark t).length else none

def tokenLength? (c : Char) (t : Text) : Option Nat :=
  if c == '"' || c == '\'' then stringLength? c t
  else if c == '\x60' then templateLength? t
  else if opensNumeral c t then numeralLength? (c :: t)
  else if startsWord c || c == '\\' then wordLength? (c :: t)
  else markLength? (c :: t)

theorem length?_scanned (kind : Kind) (here : Text) (n start stop : Nat) (newline : Bool)
    (flaws : List Flaw) (issueOf : Flaw → Issue) :
    Scanned.length? ⟨⟨kind, String.ofList (here.take n), start, stop, newline⟩, here, here.drop n,
      [] ++ flaws.map issueOf⟩ = if flaws.isEmpty && kind.isSound then some (here.take n).length else none := by
  simp only [Scanned.length?, nil_append, isEmpty_map, String.length_ofList]

theorem length?_broken (issue : Issue) (lexeme : String) (start stop : Nat) (newline : Bool)
    (here after : Text) (issues : List Issue) :
    Scanned.length? ⟨⟨.broken issue, lexeme, start, stop, newline⟩, here, after, issues⟩ = none := by
  simp [Scanned.length?, Kind.isSound]

theorem length?_scanHere (c : Char) (t : Text) (pos : Nat) (newline : Bool) :
    (scanHere ⟨c :: t, pos, newline, []⟩).length? = (tokenLength? c t).map fun n => ((c :: t).take n).length := by
  unfold scanHere
  dsimp only
  rw [tokenLength?, opensNumeral]
  split
  · rw [stringLength?, Body.after]
    cases (readBody c (t.length + 1) t).fault with
    | some fault => exact length?_broken _ _ _ _ _ _ _ _
    | none =>
      rw [Option.map_none, length?_scanned]
      cases (readBody c (t.length + 1) t).isClosed with
      | false => simp
      | true => simp [Kind.isSound, apply_ite]
  · split
    · rw [templateLength?]
      cases readChunk (t.length + 1) t with
      | none => exact length?_broken _ _ _ _ _ _ _ _
      | some chunk => exact length?_scanned _ _ _ _ _ _ _ _
    · split
      · rw [numeralLength?]
        cases (readNumeral (c :: t)).fault with
        | some fault => exact length?_broken _ _ _ _ _ _ _ _
        | none =>
          rw [length?_scanned]
          cases (readNumeral (c :: t)).isBig with
          | true => simp [Kind.isSound, apply_ite]
          | false => simp [Kind.isSound, apply_ite]
      · split
        · rw [wordLength?]
          cases (readWord startsWord ((c :: t).length + 1) (c :: t)).fault with
          | some fault => exact length?_broken _ _ _ _ _ _ _ _
          | none =>
            dsimp only
            split
            next hr =>
              rw [length?_broken, hr]
              simp
            next hr =>
              rw [Bool.not_eq_true] at hr
              rw [length?_scanned, hr]
              simp [Kind.isSound, apply_ite]
        · rw [markLength?, head?_cons, Option.any_some]
          split
          · exact length?_scanned _ _ _ _ _ _ _ _
          · exact length?_broken _ _ _ _ _ _ _ _

structure Piece where
  goal : Goal
  text : Text
  deriving Repr, DecidableEq

def join (ps : List Piece) : Text := ps.flatMap Piece.text

/-- The piece is what is read in front of a text. -/
def Piece.Fits (fresh : Bool) (p : Piece) (rest : Text) : Prop :=
  p.text ≠ [] ∧ p.goal.length? fresh (p.text ++ rest) = some p.text.length

/-- Whether a line has ended after a piece since the last token. -/
def Piece.leaves (fresh : Bool) (p : Piece) : Bool := p.goal == .gap && (fresh || p.text.any isLineEnd)

def Reads (fresh : Bool) : List Piece → Prop
  | [] => True
  | p :: ps => p.Fits fresh (join ps) ∧ Reads (p.leaves fresh) ps

instance (fresh : Bool) (p : Piece) (rest : Text) : Decidable (p.Fits fresh rest) :=
  inferInstanceAs (Decidable (_ ∧ _))

def Reads.decide : (fresh : Bool) → (ps : List Piece) → Decidable (Reads fresh ps)
  | _, [] => .isTrue trivial
  | fresh, p :: ps =>
    have := Reads.decide (p.leaves fresh) ps
    inferInstanceAs (Decidable (p.Fits fresh (join ps) ∧ Reads (p.leaves fresh) ps))

instance (fresh : Bool) (ps : List Piece) : Decidable (Reads fresh ps) := Reads.decide fresh ps

/-- The next characters of a text, up to the end of its line. -/
def ahead : Nat → Text → Text
  | 0, _ => []
  | _ + 1, [] => []
  | n + 1, c :: t => if c = '\n' then [c] else c :: ahead n t

theorem ahead_isPrefix (n : Nat) (t : Text) : ahead n t <+: t := by
  fun_induction ahead n t with
  | case1 => exact nil_prefix
  | case2 => exact nil_prefix
  | case3 n t => exact cons_prefix_cons.mpr ⟨rfl, nil_prefix⟩
  | case4 n c t _ ih => exact cons_prefix_cons.mpr ⟨rfl, ih⟩

theorem prefix_ahead {n : Nat} {w t : Text} (hw : w.length ≤ n) (hn : '\n' ∉ w) (h : w <+: t) : w <+: ahead n t := by
  induction w generalizing n t with
  | nil => exact nil_prefix
  | cons c w ih =>
    obtain ⟨r, rfl⟩ := h
    obtain ⟨n, rfl⟩ : ∃ m, n = m + 1 := ⟨n - 1, by simp at hw; omega⟩
    simp only [mem_cons, not_or] at hn
    rw [cons_append, ahead, if_neg (Ne.symm hn.1), cons_prefix_cons]
    exact ⟨rfl, ih (Nat.le_of_succ_le_succ hw) hn.2 (prefix_append w r)⟩

theorem head?_ahead (n : Nat) (t : Text) : (ahead (n + 1) t).head? = t.head? := by
  cases t with
  | nil => rfl
  | cons c t =>
    rw [ahead]
    split
    · rfl
    · rfl

/-- As far as readers look ahead, nothing stands in `r'` that does not stand in `r`. -/
structure Alike (r r' : Text) : Prop where
  near : ahead 3 r' <+: ahead 3 r
  fraction : r'.head? = some '.' → r.tail.head?.any Char.isDigit = true → r'.tail.head?.any Char.isDigit = true

namespace Alike

variable {r r' : Text}

theorem head (h : Alike r r') {c : Char} (hc : r'.head? = some c) : r.head? = some c := by
  obtain ⟨v, hv⟩ := h.near
  rw [← head?_ahead 2] at hc ⊢
  obtain ⟨t, ht⟩ := head?_eq_some_iff.mp hc
  rw [← hv, ht]
  rfl

theorem endsAlike (h : Alike r r') : EndsAlike r r' := fun _ hc => .inl (h.head hc)

theorem eq_nil (h : Alike [] r') : r' = [] := by
  cases r' with
  | nil => rfl
  | cons c r' => exact absurd (h.head rfl) (by simp)

theorem isPrefixOf (h : Alike r r') {w u : Text} (hu : u ≠ []) (hw : w.length ≤ 4) (hn : '\n' ∉ w)
    (hp : w.isPrefixOf (u ++ r') = true) : w.isPrefixOf (u ++ r) = true := by
  rw [List.isPrefixOf_iff_prefix] at hp ⊢
  rcases Nat.le_total w.length u.length with hl | hl
  · exact (prefix_of_prefix_length_le hp (prefix_append u r') hl).trans (prefix_append u r)
  · obtain ⟨v, rfl⟩ := prefix_of_prefix_length_le (prefix_append u r') hp hl
    have hlen := length_pos_iff.mpr hu
    rw [length_append] at hw
    rw [mem_append, not_or] at hn
    rw [prefix_append_right_inj] at hp ⊢
    exact ((prefix_ahead (by omega) hn.2 hp).trans h.near).trans (ahead_isPrefix 3 r)

theorem isPrefixOf_eq_false (h : Alike r r') {w u : Text} (hu : u ≠ []) (hw : w.length ≤ 4)
    (hn : '\n' ∉ w) (hp : w.isPrefixOf (u ++ r) = false) : w.isPrefixOf (u ++ r') = false := by
  rw [Bool.eq_false_iff] at hp ⊢
  exact fun hf => hp (h.isPrefixOf hu hw hn hf)

theorem of_ahead_eq (h : ahead 3 r = ahead 3 r') : Alike r r' := by
  have hnear : ahead 3 r' <+: ahead 3 r := h ▸ prefix_refl _
  refine ⟨hnear, fun hd hf => ?_⟩
  cases r with
  | nil => simp at hf
  | cons c r =>
    obtain rfl : c = '.' := by
      have hc := congrArg List.head? h
      rw [head?_ahead, head?_ahead, hd] at hc
      simpa using hc
    obtain ⟨d, hr, hdigit⟩ := (Option.any_eq_true _ _).mp hf
    obtain ⟨t, rfl⟩ := head?_eq_some_iff.mp hr
    have hmem : '\n' ∉ ['.', d] := by
      rintro hm
      obtain rfl : '\n' = d := by simpa using hm
      simp at hdigit
    have hp : ['.', d] <+: r' := by
      refine List.IsPrefix.trans ?_ (ahead_isPrefix 3 r')
      rw [← h]
      exact prefix_ahead (by simp) hmem ⟨t, rfl⟩
    obtain ⟨t', rfl⟩ := hp
    exact hdigit

end Alike

theorem breakOn?_local {pat u r s rest : Text} (hpat : pat ≠ [])
    (h : breakOn? pat (u ++ r) = some (s, rest)) (hl : s.length + pat.length ≤ u.length) (r' : Text) :
    ∃ rest', breakOn? pat (u ++ r') = some (s, rest') := by
  induction u generalizing s rest with
  | nil =>
    have hpos := length_pos_iff.mpr hpat
    rw [length_nil] at hl
    omega
  | cons c u ih =>
    have hp : pat.isPrefixOf (c :: (u ++ r')) = pat.isPrefixOf (c :: (u ++ r)) := by
      have hle : pat.length ≤ (c :: u).length := by omega
      rw [Bool.eq_iff_iff, isPrefixOf_iff_prefix, isPrefixOf_iff_prefix]
      constructor
      · exact fun hp => (prefix_of_prefix_length_le hp (prefix_append (c :: u) r') hle).trans
          (prefix_append (c :: u) r)
      · exact fun hp => (prefix_of_prefix_length_le hp (prefix_append (c :: u) r) hle).trans
          (prefix_append (c :: u) r')
    rw [cons_append, breakOn?_cons] at h ⊢
    rw [hp]
    split at h
    next ht =>
      obtain ⟨rfl, -⟩ := Prod.mk.inj (Option.some.inj h)
      exact ⟨_, if_pos ht⟩
    next hf =>
      obtain ⟨⟨s', r''⟩, hb, hs⟩ := Option.map_eq_some_iff.mp h
      obtain ⟨rfl, rfl⟩ := Prod.mk.inj hs
      obtain ⟨rest', hi⟩ := ih hb (by simp at hl; omega)
      exact ⟨rest', by rw [if_neg hf, hi]; rfl⟩

section Locality

variable {r r' : Text}

theorem opensBlank_local (h : Alike r r') (hu : u ≠ []) (ho : opensBlank (u ++ r) = false) :
    opensBlank (u ++ r') = false := by
  simp only [opensBlank, Bool.or_eq_false_iff] at ho ⊢
  obtain ⟨⟨hl, hb⟩, hc⟩ := ho
  refine ⟨⟨?_, ?_⟩, ?_⟩
  · exact h.isPrefixOf_eq_false hu (by simp) (by simp) hl
  · exact h.isPrefixOf_eq_false hu (by simp) (by simp) hb
  · rwa [← head?_append_of_ne_nil hu r r']

theorem opensGap_local (h : Alike r r') (hu : u ≠ [])
    (ho : opensGap fresh (u ++ r) = false) : opensGap fresh (u ++ r') = false := by
  simp only [opensGap, Bool.or_eq_false_iff, Bool.and_eq_false_iff] at ho ⊢
  obtain ⟨⟨hb, ho⟩, hf⟩ := ho
  refine ⟨⟨opensBlank_local h hu hb, ?_⟩, ?_⟩
  · exact h.isPrefixOf_eq_false hu (by simp) (by simp) ho
  · exact hf.imp_right (h.isPrefixOf_eq_false hu (by simp) (by simp))

theorem isPrefixOf_longMarks (h : Alike r r') (hu : u ≠ []) :
    ∀ w ∈ longMarks, w.toList.isPrefixOf (u ++ r') = true → w.toList.isPrefixOf (u ++ r) = true := by
  have hall : ∀ w ∈ longMarks, w.toList.length ≤ 4 ∧ '\n' ∉ w.toList := by decide
  intro w hw
  exact h.isPrefixOf hu (hall w hw).1 (hall w hw).2

theorem find?_longMarks_local (h : Alike r r') (hu : u ≠ []) {m : String}
    (hm : longMarks.find? (fun w => w.toList.isPrefixOf (u ++ r)) = some m) (hl : m.length ≤ u.length) :
    longMarks.find? (fun w => w.toList.isPrefixOf (u ++ r')) = some m := by
  rw [find?_eq_some_iff_append] at hm ⊢
  obtain ⟨hp, before, after, hlist, hnone⟩ := hm
  refine ⟨?_, before, after, hlist, fun w hw => ?_⟩
  · rw [List.isPrefixOf_iff_prefix] at hp ⊢
    exact (prefix_of_prefix_length_le hp (prefix_append u r) hl).trans (prefix_append u r')
  · have hmem : w ∈ longMarks := by rw [hlist]; exact mem_append_left _ hw
    rw [Bool.not_eq_true', Bool.eq_false_iff]
    intro hw'
    have hf := hnone w hw
    rw [isPrefixOf_longMarks h hu w hmem hw'] at hf
    simp at hf

theorem readMark_some {m : String} (h : longMarks.find? (fun w => w.toList.isPrefixOf t) = some m) :
    readMark t = if m = "?." ∧ (t.drop 2).head?.any Char.isDigit = true then "?" else m := by
  rw [readMark, h]
  split
  next heq =>
    obtain rfl := Option.some.inj heq
    simp
  next hne heq =>
    obtain rfl := Option.some.inj heq
    rw [if_neg]
    rintro ⟨rfl, -⟩
    exact hne rfl
  next heq => simp at heq

theorem readMark_none (h : longMarks.find? (fun w => w.toList.isPrefixOf t) = none) :
    readMark t = String.ofList (t.take 1) := by
  rw [readMark, h]

theorem eq_of_isPrefixOf_question : ∀ w ∈ longMarks, w.toList.isPrefixOf ('?' :: '.' :: t) = true → w = "?." := by
  simp [longMarks]

theorem readMark_question (h : t.head? = some '.' → t.tail.head?.any Char.isDigit = true)
    (hne : ∀ w ∈ longMarks, w.toList.isPrefixOf ('?' :: t) = true → w = "?.") : readMark ('?' :: t) = "?" := by
  cases hm : longMarks.find? fun w => w.toList.isPrefixOf ('?' :: t) with
  | none => exact readMark_none hm
  | some m =>
    have hp := find?_some hm
    obtain rfl := hne m (mem_of_find?_eq_some hm) hp
    obtain ⟨v, hv⟩ := isPrefixOf_iff_prefix.mp hp
    obtain rfl : '.' :: v = t := (List.cons.inj hv).2
    rw [readMark_some hm, if_pos ⟨rfl, h rfl⟩]

theorem readMark_local (h : Alike r r') (hu : u ≠ [])
    (hl : (readMark (u ++ r)).length = u.length) : readMark (u ++ r') = readMark (u ++ r) := by
  cases hm : longMarks.find? fun w => w.toList.isPrefixOf (u ++ r) with
  | none =>
    have hm' : longMarks.find? (fun w => w.toList.isPrefixOf (u ++ r')) = none := by
      rw [find?_eq_none] at hm ⊢
      exact fun w hw hp => hm w hw (isPrefixOf_longMarks h hu w hw hp)
    have hlen := length_pos_iff.mpr hu
    rw [readMark_none hm, readMark_none hm', take_append_of_le_length (by omega), take_append_of_le_length (by omega)]
  | some m =>
    rw [readMark_some hm] at hl ⊢
    split at hl
    next hc =>
      -- A question mark and the point of a number: the point stays in front of its digit.
      obtain ⟨rfl, hd⟩ := hc
      obtain ⟨x, rfl⟩ := length_eq_one_iff.mp hl.symm
      have hp := find?_some hm
      obtain ⟨v, hv⟩ := isPrefixOf_iff_prefix.mp hp
      obtain ⟨rfl, rfl⟩ := List.cons.inj hv
      rw [if_pos ⟨rfl, hd⟩]
      apply readMark_question fun hr => h.fraction hr hd
      intro w hw hp
      exact eq_of_isPrefixOf_question w hw (isPrefixOf_longMarks h hu w hw hp)
    next hc =>
      rw [if_neg hc, readMark_some (find?_longMarks_local h hu hm (by omega)), if_neg]
      rintro ⟨rfl, hd⟩
      apply hc
      have hdrop : ∀ t, (u ++ t).drop 2 = t := fun t => by
        rw [show 2 = u.length from hl, drop_left]
      rw [hdrop] at hd ⊢
      obtain ⟨d, hr, hdigit⟩ := (Option.any_eq_true _ _).mp hd
      exact ⟨rfl, by rw [h.head hr]; exact hdigit⟩

theorem stringLength?_local {quote : Char} (hl : stringLength? quote (u ++ r) = some (u.length + 1))
    (r' : Text) : stringLength? quote (u ++ r') = some (u.length + 1) := by
  rw [stringLength?] at hl ⊢
  split at hl
  next hc =>
    have hlen : (readBody quote ((u ++ r).length + 1) (u ++ r)).length + 1 = u.length + 1 := Option.some.inj hl
    rw [readBody_local (Bool.and_eq_true_iff.mp hc).2 (by omega) (by simp; omega) r', if_pos hc, hlen]
  · simp at hl

theorem templateLength?_local (hl : templateLength? (u ++ r) = some (u.length + 1)) (r' : Text) :
    templateLength? (u ++ r') = some (u.length + 1) := by
  rw [templateLength?] at hl ⊢
  obtain ⟨chunk, hc, hlen⟩ := Option.map_eq_some_iff.mp hl
  rw [readChunk_local hc (by omega) (by simp; omega) r', Option.map_some, hlen]

theorem two_le_readNumeral_point {d : Char} (hd : d.isDigit = true)
    (h : (readNumeral ('.' :: d :: t)).fault = none) : 2 ≤ (readNumeral ('.' :: d :: t)).length := by
  have hc : d ≠ '_' := by
    rintro rfl
    simp at hd
  rw [readNumeral_other (by decide), readDecimal, readPlaces] at h ⊢
  obtain ⟨hf, -⟩ := fault_andThen.mp h
  rw [length_andThen hf, length_andThen rfl, readFraction_point, readDigits_digit hc,
    if_pos (isDigitOf_of_isDigit hd)]
  dsimp only
  omega

theorem numeralLength?_local (h : Alike r r') (hl : numeralLength? (c :: (u ++ r)) = some (u.length + 1)) :
    numeralLength? (c :: (u ++ r')) = some (u.length + 1) := by
  rw [numeralLength?] at hl ⊢
  split at hl
  next hc =>
    rw [Bool.and_eq_true, Option.isNone_iff_eq_none] at hc
    have hlen : (readNumeral (c :: u ++ r)).length = u.length + 1 := Option.some.inj hl
    have hloc := readNumeral_local h.endsAlike (Nat.le_of_eq hlen) hc.1
    rw [cons_append, cons_append] at hloc
    rw [hloc, if_pos (by rw [Bool.and_eq_true, Option.isNone_iff_eq_none]; exact hc)]
    exact hl
  · simp at hl

theorem wordLength?_local (h : Alike r r') (hl : wordLength? (c :: (u ++ r)) = some (u.length + 1)) :
    wordLength? (c :: (u ++ r')) = some (u.length + 1) := by
  rw [wordLength?] at hl ⊢
  split at hl
  next hc =>
    have hlen : (readWord startsWord ((c :: (u ++ r)).length + 1) (c :: u ++ r)).length = u.length + 1 :=
      Option.some.inj hl
    have hf := hc
    rw [Bool.and_eq_true, Bool.and_eq_true, Option.isNone_iff_eq_none] at hf
    have hloc := readWord_local startsWord_blank h.endsAlike (Nat.le_of_eq hlen) hf.1.1
      (by simp +arith) (show (c :: u).length < (c :: (u ++ r')).length + 1 by simp +arith)
    rw [cons_append, cons_append] at hloc
    rw [hloc, if_pos hc]
    exact hl
  · simp at hl

theorem markLength?_local (h : Alike r r') (hl : markLength? (c :: (u ++ r)) = some (u.length + 1)) :
    markLength? (c :: (u ++ r')) = some (u.length + 1) := by
  rw [markLength?] at hl ⊢
  split at hl
  next hc =>
    have hlen : (readMark (c :: u ++ r)).length = (c :: u).length := Option.some.inj hl
    have hloc := readMark_local h (cons_ne_nil c u) hlen
    rw [cons_append, cons_append] at hloc
    rw [head?_cons] at hc ⊢
    rw [if_pos hc, hloc]
    exact hl
  · simp at hl

theorem opensNumeral_local (h : Alike r r')
    (hn : opensNumeral c (u ++ r) = false) : opensNumeral c (u ++ r') = false := by
  rw [Bool.eq_false_iff] at hn ⊢
  intro ht
  apply hn
  simp only [opensNumeral, Bool.or_eq_true, Bool.and_eq_true] at ht ⊢
  refine ht.imp_right fun ⟨hc, hd⟩ => ⟨hc, ?_⟩
  cases u with
  | cons d u => exact hd
  | nil =>
    obtain ⟨d, hr, hdigit⟩ := (Option.any_eq_true _ _).mp hd
    rw [nil_append, h.head hr]
    exact hdigit

theorem opensNumeral_of_length (ho : opensNumeral c (u ++ r) = true)
    (hl : numeralLength? (c :: (u ++ r)) = some (u.length + 1)) (r' : Text) :
    opensNumeral c (u ++ r') = true := by
  simp only [opensNumeral, Bool.or_eq_true, Bool.and_eq_true, beq_iff_eq] at ho ⊢
  refine ho.imp_right fun ⟨hc, hd⟩ => ⟨hc, ?_⟩
  cases u with
  | cons d u => exact hd
  | nil =>
    obtain ⟨d, hr, hdigit⟩ := (Option.any_eq_true _ _).mp hd
    obtain ⟨t, ht⟩ := head?_eq_some_iff.mp hr
    rw [numeralLength?, ht, hc] at hl
    split at hl
    next hf =>
      rw [Bool.and_eq_true, Option.isNone_iff_eq_none] at hf
      have hlen := Option.some.inj hl
      have htwo := two_le_readNumeral_point hdigit hf.1
      rw [length_nil] at hlen
      omega
    · simp at hl

theorem tokenLength?_local (h : Alike r r') (hl : tokenLength? c (u ++ r) = some (u.length + 1)) :
    tokenLength? c (u ++ r') = some (u.length + 1) := by
  rw [tokenLength?] at hl ⊢
  split at hl
  next hq => rw [if_pos hq, stringLength?_local hl]
  next hq =>
    rw [if_neg hq]
    split at hl
    next hb => rw [if_pos hb, templateLength?_local hl]
    next hb =>
      rw [if_neg hb]
      split at hl
      next hn =>
        rw [if_pos (opensNumeral_of_length hn hl r'), numeralLength?_local h hl]
      next hn =>
        rw [if_neg (by simp [opensNumeral_local h (by simpa using hn)])]
        split at hl
        next hw => rw [if_pos hw, wordLength?_local h hl]
        next hw => rw [if_neg hw, markLength?_local h hl]

theorem takeWhile_of_length_eq {q : Char → Bool}
    (h : (List.takeWhile q (u ++ r)).length = u.length) : List.takeWhile q (u ++ r) = u := by
  have hp := prefix_of_prefix_length_le (List.takeWhile_prefix q) (prefix_append u r)
    (Nat.le_of_eq h)
  exact hp.eq_of_length h

theorem flaggedLength?_local (h : Alike r r') (hl : flaggedLength? (c :: (u ++ r)) = some (u.length + 1)) :
    flaggedLength? (c :: (u ++ r')) = some (u.length + 1) := by
  by_cases hc : c = '/'
  · subst hc
    rw [flaggedLength?] at hl ⊢
    obtain ⟨n, hn, hlen⟩ := Option.map_eq_some_iff.mp hl
    have hle : n ≤ u.length := by omega
    rw [drop_append_of_le_length hle] at hlen
    have hflags : (List.takeWhile continuesWord (u.drop n ++ r)).length = (u.drop n).length := by
      rw [length_drop]
      omega
    have hflags' := takeWhile_of_ends (fun d hd => .inl (h.head hd)) (takeWhile_of_length_eq hflags)
    rw [patternLength_local hn hle r', Option.map_some, drop_append_of_le_length hle, hflags', length_drop]
    congr 1
    omega
  · rw [flaggedLength?] at hl
    · simp at hl
    · rintro t ht
      exact hc (List.cons.inj ht).1

theorem gapLength?_local (h : Alike r r') (hl : gapLength? (c :: (u ++ r)) = some (u.length + 1)) :
    gapLength? (c :: (u ++ r')) = some (u.length + 1) := by
  cases hline : opensLine (c :: (u ++ r)) with
  | true =>
    obtain ⟨t, ht⟩ := opensLine_eq_true hline
    obtain ⟨rfl, ht'⟩ := List.cons.inj ht
    rw [ht', gapLength?_line] at hl
    have hlen := Option.some.inj hl
    cases u with
    | nil =>
      rw [length_nil] at hlen
      omega
    | cons d u =>
      obtain ⟨rfl, rfl⟩ := List.cons.inj ht'
      have hend := takeWhile_of_ends (fun d hd => .inl (h.head hd))
        (takeWhile_of_length_eq (Nat.succ.inj (Nat.succ.inj hlen)))
      rw [cons_append, gapLength?_line, hend]
      rfl
  | false =>
    cases hblock : opensBlock (c :: (u ++ r)) with
    | true =>
      obtain ⟨t, ht⟩ := opensBlock_eq_true hblock
      obtain ⟨rfl, ht'⟩ := List.cons.inj ht
      rw [ht', gapLength?_block] at hl
      obtain ⟨⟨body, rest⟩, hb, hlen⟩ := Option.map_eq_some_iff.mp hl
      cases u with
      | nil =>
        dsimp only [length_nil] at hlen
        omega
      | cons d u =>
        obtain ⟨rfl, rfl⟩ := List.cons.inj ht'
        dsimp only [length_cons] at hlen
        obtain ⟨rest', hb'⟩ := breakOn?_local (by simp) hb (by simp; omega) r'
        rw [cons_append, gapLength?_block, hb', Option.map_some]
        exact congrArg some hlen
    | false =>
      have hu := cons_ne_nil c u
      have hline' : opensLine (c :: (u ++ r')) = false := h.isPrefixOf_eq_false hu (by simp) (by simp) hline
      have hblock' : opensBlock (c :: (u ++ r')) = false := h.isPrefixOf_eq_false hu (by simp) (by simp) hblock
      rw [gapLength?_character hline hblock] at hl
      rw [gapLength?_character hline' hblock', hl]

theorem bracketLength?_local {n : Nat} (h : bracketLength? (c :: t) = some n)
    (t' : Text) : bracketLength? (c :: t') = some n := by
  unfold bracketLength? at h ⊢
  split at h
  next heq =>
    obtain ⟨rfl, -⟩ := List.cons.inj heq
    exact h
  next heq =>
    obtain ⟨rfl, -⟩ := List.cons.inj heq
    exact h
  · simp at h

theorem partLength?_local (h : partLength? (c :: (u ++ r)) = some (u.length + 1))
    (r' : Text) : partLength? (c :: (u ++ r')) = some (u.length + 1) := by
  unfold partLength? at h ⊢
  split at h
  next heq =>
    obtain ⟨rfl, rfl⟩ := List.cons.inj heq
    exact templateLength?_local h r'
  · simp at h

theorem plain_length?_cons (fresh : Bool) (c : Char) (t : Text) : Goal.plain.length? fresh (c :: t) =
      if opensGap fresh (c :: t) then none else (tokenLength? c t).map fun n => ((c :: t).take n).length := by
  rw [Goal.length?, startsHere_eq]
  cases h : opensGap fresh (c :: t) with
  | true => rfl
  | false =>
    rw [scan, skipGap_of_not_opensGap h, length?_scanHere]
    rfl

theorem Goal.length?_local (h : Alike r r') (hr : r ≠ []) {goal : Goal}
    (hl : goal.length? fresh (c :: (u ++ r)) = some (u.length + 1)) :
    goal.length? fresh (c :: (u ++ r')) = some (u.length + 1) := by
  have hhere : startsHere fresh (c :: (u ++ r)) = true → startsHere fresh (c :: (u ++ r')) = true := by
    intro ho
    rw [startsHere_eq, Bool.not_eq_true'] at ho ⊢
    exact opensGap_local h (cons_ne_nil c u) ho
  cases goal with
  | gap => exact gapLength?_local h hl
  | plain =>
    rw [plain_length?_cons] at hl ⊢
    split at hl
    · simp at hl
    next ho =>
      rw [if_neg (by simpa using opensGap_local h (cons_ne_nil c u) (by simpa using ho))]
      obtain ⟨n, hn, hlen⟩ := Option.map_eq_some_iff.mp hl
      obtain rfl : n = u.length + 1 := by
        have hpos := length_pos_iff.mpr hr
        simp only [length_take, length_cons, length_append] at hlen
        omega
      rw [tokenLength?_local h hn]
      simp
  | pattern =>
    rw [Goal.length?] at hl ⊢
    split at hl
    next ho => rw [if_pos (hhere ho), flaggedLength?_local h hl]
    · simp at hl
  | part => exact partLength?_local hl r'
  | bracket =>
    rw [Goal.length?] at hl ⊢
    split at hl
    next ho =>
      rw [if_pos (hhere ho), bracketLength?_local hl]
    · simp at hl

theorem Piece.Fits.of_alike {p : Piece} (hp : p.Fits fresh r) (h : Alike r r') : p.Fits fresh r' := by
  obtain ⟨goal, text⟩ := p
  obtain ⟨hne, hl⟩ := hp
  cases r with
  | nil =>
    obtain rfl := h.eq_nil
    exact ⟨hne, hl⟩
  | cons d r =>
    refine ⟨hne, ?_⟩
    cases text with
    | nil => exact absurd rfl hne
    | cons c u => exact Goal.length?_local h (cons_ne_nil d r) hl

end Locality

end ComponentConverter.Script
