import ComponentConverter.Proofs.ScriptPieces

namespace ComponentConverter.Script

open List

variable {c : Char} {n fuel : Nat} {t : Text}
variable {q : Char → Bool} {quote : Char} {chunk : Chunk} {g : Text → Numeral} {fresh : Bool}

def spaces : Text :=
  ['\t', '\n', '\x0b', '\x0c', '\r', ' ', '\u0085', '\u00a0', '\u1680', '\u2000', '\u2001', '\u2002',
    '\u2003', '\u2004', '\u2005', '\u2006', '\u2007', '\u2008', '\u2009', '\u200a', '\u2028', '\u2029',
    '\u202f', '\u205f', '\u3000']

theorem mem_spaces (h : isSpace c = true) : c ∈ spaces := by
  have hn : c.toNat ∈ spaces.map Char.toNat := by
    simp only [isSpace, Bool.or_eq_true, Bool.and_eq_true, decide_eq_true_eq, beq_iff_eq] at h
    simp [spaces]
    omega
  obtain ⟨d, hd, hdc⟩ := mem_map.mp hn
  rwa [← Char.toNat_inj.mp hdc]

theorem not_isSpace (hq : spaces.any q = false) (h : q c = true) : isSpace c = false := by
  rw [Bool.eq_false_iff]
  intro hs
  exact any_eq_false.mp hq c (mem_spaces hs) h

theorem continuesWord_spaces : spaces.any continuesWord = false := by decide +kernel

theorem startsWord_spaces : spaces.any startsWord = false := by
  rw [any_eq_false]
  intro c hc hs
  exact any_eq_false.mp continuesWord_spaces c hc (by simp [continuesWord, hs])

/-- The first characters of a text, so many of them, do not end in white space. -/
def Ends (n : Nat) (t : Text) : Prop := ∀ c, (t.take n).getLast? = some c → isSpace c = false

namespace Ends

variable {n m : Nat} {c : Char} {t : Text}

theorem zero (t : Text) : Ends 0 t := by
  intro c hc
  simp at hc

theorem of_drop (hne : (t.drop n).take m ≠ []) (h : Ends m (t.drop n)) : Ends (n + m) t := by
  intro c hc
  rw [take_add, getLast?_append] at hc
  cases hl : ((t.drop n).take m).getLast? with
  | some d =>
    rw [hl] at hc
    obtain rfl : d = c := by simpa using hc
    exact h d hl
  | none => exact absurd (getLast?_eq_none_iff.mp hl) hne

theorem add (h : Ends n t) (h' : Ends m (t.drop n)) : Ends (n + m) t := by
  by_cases hne : (t.drop n).take m = []
  · intro c hc
    rw [take_add, hne, append_nil] at hc
    exact h c hc
  · exact of_drop hne h'

theorem one (h : isSpace c = false) (t : Text) : Ends 1 (c :: t) := by
  intro d hd
  obtain rfl : c = d := by simpa using hd
  exact h

theorem cons (h : isSpace c = false) (h' : Ends n t) : Ends (n + 1) (c :: t) := by
  rw [Nat.add_comm]
  exact (one h t).add h'

theorem two {d : Char} (h : isSpace d = false) (c : Char) (t : Text) : Ends 2 (c :: d :: t) :=
  of_drop (show ((c :: d :: t).drop 1).take 1 ≠ [] by simp) (one h t)

end Ends

section Delimited

theorem ends_after {n m : Nat} (hn : 1 ≤ n) (hm : 1 ≤ m)
    (hne : t.drop (n - 1) ≠ []) (h : Ends m (t.drop (n - 1))) : Ends (m + n) (c :: t) := by
  obtain ⟨n, rfl⟩ : ∃ k, n = k + 1 := ⟨n - 1, by omega⟩
  rw [Nat.add_comm]
  refine .of_drop ?_ h
  rw [drop_succ_cons, ne_eq, take_eq_nil_iff]
  rintro (h0 | h0)
  · omega
  · exact hne h0

theorem ne_nil_of_isClosed (h : (readBody quote fuel t).isClosed = true) : t ≠ [] := by
  rintro rfl
  cases fuel with
  | zero => simp [readBody] at h
  | succ fuel => simp [readBody] at h

theorem ends_readBody (hq : isSpace quote = false)
    (h : (readBody quote fuel t).isClosed = true) : Ends (readBody quote fuel t).length t := by
  induction fuel generalizing t with
  | zero => simp [readBody] at h
  | succ fuel ih =>
    cases t with
    | nil => simp [readBody] at h
    | cons c t =>
      by_cases hc : c = '\\'
      · subst hc
        have he := fault_of_isClosed h
        have hpos := one_le_readEscape false t
        rw [readBody_escape quote fuel he, isClosed_afterEscape] at h
        rw [readBody_escape quote fuel he, length_afterEscape]
        exact ends_after hpos (one_le_readBody h) (ne_nil_of_isClosed h) (ih h)
      · rw [readBody_plain hc] at h ⊢
        split
        next hcq =>
          rw [beq_iff_eq] at hcq
          exact .one (by rwa [hcq]) t
        next hcq =>
          rw [if_neg hcq] at h
          split
          next hn => exact .zero _
          next hn =>
            rw [if_neg hn] at h
            exact ends_after (Nat.le_refl 1) (one_le_readBody h) (ne_nil_of_isClosed h) (ih h)

theorem ne_nil_of_readChunk (h : readChunk fuel t = some chunk) : t ≠ [] := by
  rintro rfl
  cases fuel with
  | zero => simp [readChunk] at h
  | succ fuel => simp [readChunk] at h

theorem ends_readChunk (h : readChunk fuel t = some chunk) : Ends chunk.length t := by
  fun_induction readChunk fuel t generalizing chunk with
  | case1 => simp at h
  | case2 => simp at h
  | case3 =>
    obtain rfl := Option.some.inj h
    exact .one (by decide) _
  | case4 =>
    obtain rfl := Option.some.inj h
    exact .two (by decide) _ _
  | case5 fuel t =>
    rename_i ih
    obtain ⟨more, hm, rfl⟩ := Option.map_eq_some_iff.mp h
    exact ends_after (one_le_readEscape true t) (one_le_readChunk hm) (ne_nil_of_readChunk hm) (ih hm)
  | case6 fuel c t _ _ _ ih =>
    obtain ⟨more, hm, rfl⟩ := Option.map_eq_some_iff.mp h
    exact ends_after (Nat.le_refl 1) (one_le_readChunk hm) (ne_nil_of_readChunk hm) (ih hm)

theorem ends_patternLength {inClass : Bool} (h : patternLength inClass t = some n) : Ends n t := by
  fun_induction patternLength inClass t generalizing n with
  | case1 => simp at h
  | case2 => simp at h
  | case3 inClass c t _ ih =>
    obtain ⟨m, hm, rfl⟩ := Option.map_eq_some_iff.mp h
    have hne : t ≠ [] := by
      rintro rfl
      simp [patternLength] at hm
    exact ends_after (show 1 ≤ 2 by decide) (one_le_patternLength hm) hne (ih hm)
  | case4 => simp at h
  | case5 inClass c t _ _ hc =>
    obtain rfl := Option.some.inj h
    rw [Bool.and_eq_true, beq_iff_eq] at hc
    exact .one (by rw [hc.1]; decide) t
  | case6 inClass c t =>
    rename_i ih
    obtain ⟨m, hm, rfl⟩ := Option.map_eq_some_iff.mp h
    have hne : t ≠ [] := by
      rintro rfl
      simp [patternLength] at hm
    exact ends_after (Nat.le_refl 1) (one_le_patternLength hm) hne (ih hm)

theorem ends_takeWhile (hq : spaces.any q = false) (t : Text) : Ends (t.takeWhile q).length t := by
  induction t with
  | nil => exact .zero _
  | cons c t ih =>
    rw [takeWhile_cons]
    split
    next hc => exact ih.cons (not_isSpace hq hc)
    · exact .zero _

end Delimited

section Words

theorem isHex_spaces : spaces.any isHex = false := by decide

theorem ends_readCodePoint (h : (readCodePoint t).fault = none) :
    Ends (readCodePoint t).length ('\\' :: 'u' :: t) := by
  unfold readCodePoint at h ⊢
  split at h
  next t =>
    dsimp only at h ⊢
    split at h
    · simp [Escape.faulty] at h
    next hd =>
      split at h
      · simp [Escape.faulty] at h
      next hc =>
        split at h
        next hb =>
          rw [beq_iff_eq] at hb
          obtain ⟨r, hr⟩ := head?_eq_some_iff.mp hb
          have hbrace : Ends 1 (t.drop (t.takeWhile isHex).length) := by
            rw [hr]
            exact .one (by decide) r
          have hcode := (ends_takeWhile isHex_spaces t).add hbrace
          rw [if_neg hd, if_neg hc, if_pos (beq_iff_eq.mpr hb), Nat.add_assoc, Nat.add_comm 3]
          exact ((hcode.cons (by decide)).cons (by decide)).cons (by decide)
        · simp [Escape.faulty] at h
  · dsimp only at h ⊢
    split at h
    next hd =>
      rw [if_pos hd]
      have hcode : Ends 4 t := by
        have htake := ends_takeWhile isHex_spaces (t.take 4)
        rw [beq_iff_eq.mp hd] at htake
        intro c hc
        exact htake c (by rwa [take_take])
      exact (hcode.cons (by decide)).cons (by decide)
    · simp [Escape.faulty] at h

theorem two_le_readCodePoint (h : (readCodePoint t).fault = none) : 2 ≤ (readCodePoint t).length := by
  have hr := three_le_reach t
  rw [Escape.reach, h] at hr
  exact Nat.le_of_succ_le hr

theorem ends_readWord {allowed : Char → Bool} (ha : spaces.any allowed = false)
    (h : (readWord allowed fuel t).fault = none) : Ends (readWord allowed fuel t).length t := by
  induction fuel generalizing t allowed with
  | zero => exact .zero _
  | succ fuel ih =>
    cases t with
    | nil => exact .zero _
    | cons c t =>
      by_cases hc : c = '\\'
      · subst hc
        obtain ⟨t, rfl, he⟩ := escape_of_readWord h
        rw [readWord_escape allowed fuel he] at h ⊢
        rw [length_word_afterEscape, Nat.add_comm]
        apply (ends_readCodePoint he).add
        have hdrop : ('\\' :: 'u' :: t).drop (readCodePoint t).length = t.drop ((readCodePoint t).length - 2) := by
          obtain ⟨n, hn⟩ := Nat.exists_eq_add_of_le' (two_le_readCodePoint he)
          rw [hn]
          rfl
        rw [hdrop]
        exact ih continuesWord_spaces (fault_of_word_afterEscape h)
      · rw [readWord_plain hc] at h ⊢
        split
        next hs =>
          rw [if_pos hs] at h
          exact (ih continuesWord_spaces (fault_after.mp h)).cons (not_isSpace ha hs)
        · exact .zero _

end Words

section Numbers

variable {t : Text}

theorem isDigitOf_spaces (base : Nat) : spaces.any (isDigitOf base) = false := by
  have h : spaces.all (fun c => (hexValue? c).isNone) = true := by decide
  rw [any_eq_false]
  intro c hc
  rw [isDigitOf, Option.isNone_iff_eq_none.mp (all_eq_true.mp h c hc)]
  simp

theorem ends_readDigits (base : Nat) (before : Option Char) (read : Nat) (t : Text) :
    Ends (readDigits base before read t).1 t := by
  induction t generalizing before read with
  | nil => exact .zero _
  | cons c t ih =>
    by_cases hc : c = '_'
    · subst hc
      exact (ih _ _).cons (by decide)
    · rw [readDigits_digit hc]
      split
      next hd => exact (ih _ _).cons (not_isSpace (isDigitOf_spaces base) hd)
      · exact .zero _

theorem Ends.andThen {n : Numeral} (hn : Ends n.length t)
    (hg : ∀ t, Ends (g t).length t) : Ends (n.andThen t g).length t := by
  rw [Numeral.andThen]
  split
  · exact hn
  · exact hn.add (hg _)

theorem ends_readSomeDigits (base : Nat) (t : Text) : Ends (readSomeDigits base t).length t := by
  rw [readSomeDigits_eq]
  exact ends_readDigits base none 0 t

theorem ends_noWord (t : Text) : Ends (noWord t).length t := .zero t

theorem ends_readFraction (t : Text) : Ends (readFraction t).length t := by
  by_cases ht : t.head? = some '.'
  · obtain ⟨t, rfl⟩ := head?_eq_some_iff.mp ht
    rw [readFraction_point, Nat.add_comm]
    exact (ends_readDigits 10 none 0 t).cons (by decide)
  · rw [readFraction_other ht]
    exact .zero _

theorem ends_readExponent (t : Text) : Ends (readExponent t).length t := by
  cases t with
  | nil => exact .zero _
  | cons e t =>
    by_cases he : isExponentMark e = true
    · have hs : isSpace e = false := not_isSpace (by decide) he
      cases t with
      | nil =>
        have hlone : (readExponent [e]).length = 1 := by
          rw [readExponent]
          rw [isExponentMark] at he
          rw [if_pos he]
        rw [hlone]
        exact .one hs []
      | cons s t =>
        rw [readExponent_mark he]
        apply Ends.andThen ?_ (ends_readSomeDigits 10)
        split
        next hsign => exact .two (not_isSpace (q := fun s => s == '+' || s == '-') (by decide) hsign) e t
        · exact .one hs _
    · rw [readExponent_other (by simpa using he)]
      exact .zero _

theorem ends_readPlaces (t : Text) : Ends (readPlaces t).length t :=
  ((ends_readFraction t).andThen ends_readExponent).andThen ends_noWord

theorem ends_orBig (hg : ∀ t, Ends (g t).length t) (t : Text) :
    Ends (if t.head? == some 'n' then (⟨1, true, [], none⟩ : Numeral) else g t).length t := by
  split
  next hn =>
    rw [beq_iff_eq] at hn
    obtain ⟨t, rfl⟩ := head?_eq_some_iff.mp hn
    exact .one (by decide) t
  · exact hg t

theorem ends_readDecimal (t : Text) : Ends (readDecimal t).length t := by
  unfold readDecimal
  split
  · exact ends_readPlaces _
  · exact (ends_readSomeDigits 10 t).andThen (ends_orBig ends_readPlaces)

theorem ends_readLegacy (t : Text) : Ends (readLegacy t).length t := by
  rw [readLegacy_eq]
  split
  · exact (ends_readDigits 10 none 0 t).andThen ends_readPlaces
  · exact ends_readDigits 10 none 0 t

theorem ends_readNumeral (t : Text) : Ends (readNumeral t).length t := by
  unfold readNumeral
  split
  next x t =>
    split
    next base hb =>
      have hx : isSpace x = false := not_isSpace (q := fun x => (baseOf? x).isSome) (by decide) (by rw [hb]; rfl)
      refine Ends.andThen (.two hx _ _) ?_
      exact fun t => (ends_readSomeDigits base t).andThen (ends_orBig ends_noWord)
    · split
      · exact ends_readLegacy _
      · exact ends_readDecimal _
  · exact ends_readDecimal _

end Numbers

theorem isPrefix_readMark (h : t.head?.any isMarkCharacter = true) :
    (readMark t).toList <+: t ∧ ∀ c ∈ (readMark t).toList, isMarkCharacter c = true := by
  cases hm : longMarks.find? fun w => w.toList.isPrefixOf t with
  | none =>
    obtain ⟨c, hc, hmark⟩ := (Option.any_eq_true _ _).mp h
    obtain ⟨t, rfl⟩ := head?_eq_some_iff.mp hc
    rw [readMark_none hm]
    exact ⟨by simp, by simpa using hmark⟩
  | some m =>
    have hp := find?_some hm
    rw [List.isPrefixOf_iff_prefix] at hp
    have hall : longMarks.all (·.toList.all isMarkCharacter) = true := by decide
    rw [readMark_some hm]
    split
    next hq =>
      rw [hq.1] at hp
      exact ⟨.trans ⟨['.'], rfl⟩ hp, by simp [isMarkCharacter]⟩
    · exact ⟨hp, all_eq_true.mp (all_eq_true.mp hall m (mem_of_find?_eq_some hm))⟩

theorem ends_readMark (h : t.head?.any isMarkCharacter = true) : Ends (readMark t).length t := by
  obtain ⟨hp, hall⟩ := isPrefix_readMark h
  intro c hc
  rw [← String.length_toList, ← prefix_iff_eq_take.mp hp] at hc
  exact not_isSpace (by decide) (hall c (mem_of_getLast? hc))

theorem ends_tokenLength? (h : tokenLength? c t = some n) : Ends n (c :: t) := by
  rw [tokenLength?] at h
  split at h
  next hq =>
    rw [stringLength?] at h
    split at h
    next hb =>
      obtain rfl := Option.some.inj h
      have hs : isSpace c = false := not_isSpace (q := fun c => c == '"' || c == '\'') (by decide) hq
      exact (ends_readBody hs (Bool.and_eq_true_iff.mp hb).2).cons hs
    · simp at h
  · split at h
    next hb =>
      obtain ⟨chunk, hc, rfl⟩ := Option.map_eq_some_iff.mp h
      exact (ends_readChunk hc).cons (by rw [beq_iff_eq.mp hb]; decide)
    · split at h
      · rw [numeralLength?] at h
        split at h
        · obtain rfl := Option.some.inj h
          exact ends_readNumeral _
        · simp at h
      · split at h
        · rw [wordLength?] at h
          split at h
          next hw =>
            obtain rfl := Option.some.inj h
            rw [Bool.and_eq_true, Bool.and_eq_true, Option.isNone_iff_eq_none] at hw
            exact ends_readWord startsWord_spaces hw.1.1
          · simp at h
        · rw [markLength?] at h
          split at h
          next hm =>
            obtain rfl := Option.some.inj h
            exact ends_readMark hm
          · simp at h

theorem ends_flaggedLength? (h : flaggedLength? t = some n) : Ends n t := by
  unfold flaggedLength? at h
  split at h
  next t =>
    obtain ⟨m, hm, rfl⟩ := Option.map_eq_some_iff.mp h
    have hflags : Ends _ (t.drop m) := ends_takeWhile continuesWord_spaces _
    rw [Nat.add_right_comm]
    exact ((ends_patternLength hm).add hflags).cons (by decide)
  · simp at h

theorem ends_partLength? (h : partLength? t = some n) : Ends n t := by
  unfold partLength? at h
  split at h
  next t =>
    obtain ⟨chunk, hc, rfl⟩ := Option.map_eq_some_iff.mp h
    exact (ends_readChunk hc).cons (by decide)
  · simp at h

theorem ends_bracketLength? (h : bracketLength? t = some n) : Ends n t := by
  unfold bracketLength? at h
  split at h
  next t =>
    obtain rfl := Option.some.inj h
    exact .one (by decide) _
  next t =>
    obtain rfl := Option.some.inj h
    exact .one (by decide) _
  · simp at h

theorem plain_length?_nil (fresh : Bool) : Goal.plain.length? fresh [] = none := by
  cases fresh <;> rfl

theorem ends_length? {goal : Goal} (hg : goal ≠ .gap) (h : goal.length? fresh t = some n) : Ends n t := by
  cases goal with
  | gap => exact absurd rfl hg
  | plain =>
    cases t with
    | nil =>
      rw [plain_length?_nil] at h
      simp at h
    | cons c t =>
      rw [plain_length?_cons] at h
      split at h
      · simp at h
      · obtain ⟨m, hm, rfl⟩ := Option.map_eq_some_iff.mp h
        intro d hd
        apply ends_tokenLength? hm d
        rwa [length_take, ← take_eq_take_min] at hd
  | pattern =>
    rw [Goal.length?] at h
    split at h
    · exact ends_flaggedLength? h
    · simp at h
  | part => exact ends_partLength? h
  | bracket =>
    rw [Goal.length?] at h
    split at h
    · exact ends_bracketLength? h
    · simp at h

theorem Piece.Fits.ends {p : Piece} {r : Text} (h : p.Fits fresh r) (hg : p.goal ≠ .gap)
    (hc : p.text.getLast? = some c) : isSpace c = false := by
  apply ends_length? hg h.2 c
  rwa [take_left]

end ComponentConverter.Script
