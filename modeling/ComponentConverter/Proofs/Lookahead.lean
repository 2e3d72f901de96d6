import ComponentConverter.Script.Literals

namespace ComponentConverter.Script

open List

variable {q allowed : Char → Bool} {u r r' t : Text} {c : Char} {n fuel fuel' base : Nat} {g : Text → Numeral}
variable {b inClass : Bool} {quote e : Char} {chunk : Chunk} {w : Word} {before : Option Char} {read : Nat}

/-- What ends a reading in front of `r` also ends it in front of `r'`: the same character, a
blank, or the end. -/
def EndsAlike (r r' : Text) : Prop := ∀ c, r'.head? = some c → r.head? = some c ∨ c = ' '

theorem takeWhile_of_length_lt (h : ((u ++ r).takeWhile q).length < u.length) (r' : Text) :
    (u ++ r').takeWhile q = (u ++ r).takeWhile q := by
  rw [takeWhile_append] at h
  rw [takeWhile_append, takeWhile_append]
  split at h
  next hu =>
    rw [length_append] at h
    omega
  next hu => rw [if_neg hu, if_neg hu]

theorem takeWhile_of_ends (hr : ∀ c, r'.head? = some c → r.head? = some c ∨ q c = false)
    (h : (u ++ r).takeWhile q = u) : (u ++ r').takeWhile q = u := by
  have hu : ∀ c ∈ u, q c = true := by
    rw [← h]
    exact all_eq_true.mp all_takeWhile
  have hnil : r.takeWhile q = [] := by
    rw [takeWhile_append_of_pos hu] at h
    simpa using h
  rw [takeWhile_append_of_pos hu]
  cases r' with
  | nil => simp
  | cons c r' =>
    have hc : q c = false := by
      rcases hr c rfl with hc | hc
      · obtain ⟨r, rfl⟩ := head?_eq_some_iff.mp hc
        by_cases hq : q c = true
        · simp [hq] at hnil
        · simpa using hq
      · exact hc
    simp [hc]

theorem takeWhile_take_of_length_lt (k : Nat) (h : (((u ++ r).take k).takeWhile q).length < u.length) (r' : Text) :
    ((u ++ r').take k).takeWhile q = ((u ++ r).take k).takeWhile q := by
  rcases Nat.lt_or_ge u.length k with hk | hk
  · rw [take_append, take_of_length_le (Nat.le_of_lt hk)] at h
    rw [take_append, take_append, take_of_length_le (Nat.le_of_lt hk)]
    exact takeWhile_of_length_lt h _
  · rw [take_append_of_le_length hk, take_append_of_le_length hk]

section Escapes

theorem head?_append_of_ne_nil (h : u ≠ []) (r r' : Text) : (u ++ r).head? = (u ++ r').head? := by
  cases u with
  | nil => exact absurd rfl h
  | cons c u => rfl

theorem readCodePoint_other (h : t.head? ≠ some '\x7b') :
    readCodePoint t = if ((t.take 4).takeWhile isHex).length == 4 then
        ⟨[numberOf 16 ((t.take 4).takeWhile isHex)], 6, none, false⟩
      else .faulty (.malformedEscape "4 hex characters") (2 + ((t.take 4).takeWhile isHex).length) := by
  unfold readCodePoint
  split
  · simp at h
  · rfl

def Escape.reach (e : Escape) : Nat := e.length + if e.fault.isSome then 1 else 0

theorem Escape.reach_faulty (cause : Cause) (length : Nat) : (Escape.faulty cause length).reach = length + 1 := rfl

theorem Escape.reach_fine (codes : List Nat) (length : Nat) (isOctal : Bool) :
    (Escape.mk codes length none isOctal).reach = length := rfl

theorem le_reach_braced (t : Text) : (t.takeWhile isHex).length + 4 ≤ (readCodePoint ('\x7b' :: t)).reach := by
  rw [readCodePoint]
  split
  · rw [Escape.reach_faulty]
    omega
  · split
    · rw [Escape.reach_faulty]
      omega
    · split
      · rw [Escape.reach_fine]
        omega
      · rw [Escape.reach_faulty]
        omega

theorem three_le_reach (t : Text) : 3 ≤ (readCodePoint t).reach := by
  by_cases h : t.head? = some '\x7b'
  · obtain ⟨u, rfl⟩ := head?_eq_some_iff.mp h
    have hle := le_reach_braced u
    omega
  · rw [readCodePoint_other h]
    split
    · rw [Escape.reach_fine]
      omega
    · rw [Escape.reach_faulty]
      omega

theorem Escape.length_le_reach (e : Escape) : e.length ≤ e.reach ∧ e.reach ≤ e.length + 1 := by
  rw [Escape.reach]
  split
  · omega
  · omega

/-- A code point is read without a look at what follows it, a faulty one with a look at one
character. -/
theorem readCodePoint_local (h : (readCodePoint (u ++ r)).reach ≤ u.length + 2)
    (r' : Text) : readCodePoint (u ++ r') = readCodePoint (u ++ r) := by
  cases u with
  | nil =>
    have hle := three_le_reach ([] ++ r)
    rw [length_nil] at h
    omega
  | cons c u =>
    by_cases hc : c = '\x7b'
    · subst hc
      have hle := le_reach_braced (u ++ r)
      rw [cons_append, length_cons] at h
      have hlt : ((u ++ r).takeWhile isHex).length < u.length := by omega
      rw [cons_append, cons_append, readCodePoint, readCodePoint]
      have hdrop : ∀ s, ((u ++ s).drop ((u ++ r).takeWhile isHex).length).head? =
          u[((u ++ r).takeWhile isHex).length]? := by
        intro s
        rw [head?_drop, getElem?_append_left hlt]
      rw [takeWhile_of_length_lt hlt, hdrop, hdrop]
    · have hne : ∀ s, (c :: u ++ s).head? ≠ some '\x7b' := fun s => by simpa using hc
      rw [readCodePoint_other (hne r)] at h
      rw [readCodePoint_other (hne r), readCodePoint_other (hne r')]
      have hsame : ((c :: u ++ r').take 4).takeWhile isHex = ((c :: u ++ r).take 4).takeWhile isHex := by
        split at h
        · rw [Escape.reach_fine] at h
          have hle : 4 ≤ (c :: u).length := by omega
          rw [take_append_of_le_length hle, take_append_of_le_length hle]
        · rw [Escape.reach_faulty] at h
          exact takeWhile_take_of_length_lt 4 (by omega) r'
      rw [hsame]

theorem readOctal_local (h : (readOctal (u ++ r)).length ≤ u.length) (r' : Text) :
    readOctal (u ++ r') = readOctal (u ++ r) := by
  have hlt : (((u ++ r).take 3).takeWhile isOctal).length < u.length ∨ 3 ≤ u.length := by
    rw [readOctal] at h
    dsimp only at h
    split at h
    · exact .inl (by omega)
    · have hle := (List.takeWhile_prefix (l := (u ++ r).take 3) isOctal).length_le
      rw [length_take] at h hle
      omega
  rcases hlt with hlt | hlt
  · rw [readOctal, readOctal, takeWhile_take_of_length_lt 3 hlt]
  · rw [readOctal, readOctal, take_append_of_le_length hlt, take_append_of_le_length hlt]

theorem readEscape_return (b : Bool) (t : Text) :
    readEscape b ('\r' :: t) = if t.head? = some '\n' then ⟨[], 3, none, false⟩ else ⟨[], 2, none, false⟩ := by
  cases t with
  | nil => rfl
  | cons c t =>
    by_cases hc : c = '\n'
    · simp [hc, readEscape]
    · simp [hc, readEscape, isLineEnd]

theorem readEscape_other (hr : c ≠ '\r') (hx : c ≠ 'x') (hu : c ≠ 'u') : readEscape b (c :: t) =
      if isLineEnd c then ⟨[], 2, none, false⟩
      else if isOctal c then
        if c == '0' && !(t.head?.any isOctal) then ⟨[0], 2, none, false⟩
        else if b then .faulty .legacyOctal 2
        else readOctal (c :: t) else ⟨[(plainEscape c).toNat], 2, none, false⟩ := by
  unfold readEscape
  split
  next heq => simp at heq
  next heq => simp [hr] at heq
  next heq => simp [hx] at heq
  next heq => simp [hu] at heq
  next heq =>
    obtain ⟨rfl, rfl⟩ := List.cons.inj heq
    rfl

theorem readEscape_unicode (b : Bool) (t : Text) : readEscape b ('u' :: t) = readCodePoint t := rfl

theorem two_le_readEscape (b : Bool) (c : Char) (t : Text) : 2 ≤ (readEscape b (c :: t)).length := by
  by_cases hr : c = '\r'
  · subst hr
    rw [readEscape_return]
    split
    · exact (by decide : 2 ≤ 3)
    · exact Nat.le_refl 2
  by_cases hx : c = 'x'
  · subst hx
    rw [readEscape]
    split
    · exact (by decide : 2 ≤ 4)
    · exact Nat.le_add_right _ _
  by_cases hu : c = 'u'
  · subst hu
    have hle := three_le_reach t
    have hle' := (readCodePoint t).length_le_reach
    rw [readEscape_unicode]
    omega
  rw [readEscape_other hr hx hu]
  split
  · exact Nat.le_refl 2
  · split
    next ho =>
      split
      · exact Nat.le_refl 2
      · split
        · exact Nat.le_refl 2
        · rw [readOctal]
          have hd : ((c :: t).take 3).takeWhile isOctal = c :: (t.take 2).takeWhile isOctal := by
            rw [take_succ_cons, takeWhile_cons, if_pos ho]
          rw [hd]
          split
          · rw [length_cons]
            exact Nat.add_le_add_left (Nat.le_add_left 1 _) 1
          · rw [take_succ_cons, length_cons]
            exact Nat.add_le_add_left (Nat.le_add_left 1 _) 1
    · exact Nat.le_refl 2

theorem one_le_readEscape (b : Bool) (t : Text) : 1 ≤ (readEscape b t).length := by
  cases t with
  | nil => exact Nat.le_refl 1
  | cons c t => exact Nat.le_of_succ_le (two_le_readEscape b c t)

/-- An escape with another character behind it is read the same whatever follows that. -/
theorem readEscape_local (h : (readEscape b (u ++ r)).length ≤ u.length)
    (r' : Text) : readEscape b (u ++ r') = readEscape b (u ++ r) := by
  cases u with
  | nil =>
    have hle := one_le_readEscape b ([] ++ r)
    rw [length_nil] at h
    omega
  | cons c u =>
    rw [cons_append, length_cons] at h
    rw [cons_append, cons_append]
    have hhead : (u ++ r').head? = (u ++ r).head? := by
      apply head?_append_of_ne_nil
      rintro rfl
      have hle := two_le_readEscape b c ([] ++ r)
      simp only [length_nil] at h
      omega
    by_cases hr : c = '\r'
    · subst hr
      rw [readEscape_return, readEscape_return, hhead]
    by_cases hx : c = 'x'
    · subst hx
      rw [readEscape] at h
      rw [readEscape, readEscape]
      have hlt : (((u ++ r).take 2).takeWhile isHex).length < u.length := by
        split at h
        next hd =>
          have hd' := beq_iff_eq.mp hd
          dsimp only at h
          omega
        · rw [Escape.faulty] at h
          dsimp only at h
          omega
      rw [takeWhile_take_of_length_lt 2 hlt]
    by_cases hu : c = 'u'
    · subst hu
      rw [readEscape_unicode] at h
      have hle := (readCodePoint (u ++ r)).length_le_reach
      exact readCodePoint_local (by omega) r'
    rw [readEscape_other hr hx hu] at h
    rw [readEscape_other hr hx hu, readEscape_other hr hx hu, hhead]
    split
    · rfl
    next h1 =>
      rw [if_neg h1] at h
      split
      next h2 =>
        rw [if_pos h2] at h
        split
        · rfl
        next h3 =>
          rw [if_neg h3] at h
          split
          · rfl
          next h4 =>
            rw [if_neg h4, ← cons_append] at h
            exact readOctal_local h r'
      · rfl

end Escapes

section Strings

def Body.afterEscape (b : Body) (e : Escape) : Body :=
  if e.isOctal then
    { b.after e.codes e.length with flaws := ⟨.legacyOctal, 0, 2⟩ :: (b.after e.codes e.length).flaws }
  else b.after e.codes e.length

theorem isClosed_afterEscape (b : Body) (e : Escape) : (b.afterEscape e).isClosed = b.isClosed := by
  rw [Body.afterEscape]
  split
  · rfl
  · rfl

theorem length_afterEscape (b : Body) (e : Escape) : (b.afterEscape e).length = b.length + e.length := by
  rw [Body.afterEscape]
  split
  · rfl
  · rfl

theorem fault_of_isClosed (h : (readBody quote (fuel + 1) ('\\' :: t)).isClosed = true) :
    (readEscape false t).fault = none := by
  rw [readBody] at h
  cases hf : (readEscape false t).fault with
  | none => rfl
  | some cause => simp [hf] at h

theorem readBody_escape (quote : Char) (fuel : Nat) (h : (readEscape false t).fault = none) :
    readBody quote (fuel + 1) ('\\' :: t) =
      (readBody quote fuel (t.drop ((readEscape false t).length - 1))).afterEscape (readEscape false t) := by
  rw [readBody, Body.afterEscape]
  simp only [h]

theorem readBody_plain {c : Char} (hc : c ≠ '\\') (fuel : Nat) (t : Text) : readBody quote (fuel + 1) (c :: t) =
      if c == quote then ⟨[], 1, true, [], none⟩
      else if c == '\n' || c == '\r' then ⟨[], 0, false, [], none⟩
      else (readBody quote fuel t).after [c.toNat] 1 := by
  rw [readBody]
  exact hc

theorem one_le_readBody (h : (readBody quote fuel t).isClosed = true) : 1 ≤ (readBody quote fuel t).length := by
  cases fuel with
  | zero => exact absurd h Bool.false_ne_true
  | succ fuel =>
    cases t with
    | nil => exact absurd h Bool.false_ne_true
    | cons c t =>
      by_cases hc : c = '\\'
      · subst hc
        rw [readBody_escape quote fuel (fault_of_isClosed h), length_afterEscape]
        exact Nat.le_trans (one_le_readEscape false t) (Nat.le_add_left _ _)
      · rw [readBody_plain hc] at h ⊢
        split at h
        next hq => simp [beq_iff_eq.mp hq]
        next hq =>
          rw [if_neg hq]
          split at h
          · simp at h
          next hn =>
            rw [if_neg hn]
            exact Nat.le_add_left _ _

theorem readBody_local (hc : (readBody quote fuel (u ++ r)).isClosed = true)
    (hl : (readBody quote fuel (u ++ r)).length ≤ u.length) (hf : u.length ≤ fuel') (r' : Text) :
    readBody quote fuel' (u ++ r') = readBody quote fuel (u ++ r) := by
  induction fuel generalizing u fuel' with
  | zero => exact absurd hc Bool.false_ne_true
  | succ fuel ih =>
    have hpos := one_le_readBody hc
    cases u with
    | nil =>
      simp only [length_nil] at hl
      omega
    | cons c u =>
      obtain ⟨fuel', rfl⟩ : ∃ n, fuel' = n + 1 := ⟨fuel' - 1, by simp only [length_cons] at hf; omega⟩
      rw [cons_append, length_cons] at *
      rw [cons_append]
      by_cases hb : c = '\\'
      · subst hb
        have he := fault_of_isClosed hc
        rw [readBody_escape quote fuel he, isClosed_afterEscape] at hc
        rw [readBody_escape quote fuel he, length_afterEscape] at hl
        have hmore := one_le_readBody hc
        have hpos' := one_le_readEscape false (u ++ r)
        have hn : (readEscape false (u ++ r)).length - 1 ≤ u.length := by omega
        have hsame : readEscape false (u ++ r') = readEscape false (u ++ r) := readEscape_local (by omega) r'
        have he' : (readEscape false (u ++ r')).fault = none := by rw [hsame, he]
        rw [readBody_escape quote fuel he, readBody_escape quote fuel' he', hsame,
          drop_append_of_le_length hn, drop_append_of_le_length hn]
        rw [drop_append_of_le_length hn] at hc hl
        have hlen : (u.drop ((readEscape false (u ++ r)).length - 1)).length =
            u.length - ((readEscape false (u ++ r)).length - 1) := length_drop
        rw [ih hc (by omega) (by omega)]
      · rw [readBody_plain hb] at hc hl
        rw [readBody_plain hb, readBody_plain hb]
        split
        · rfl
        next hq =>
          rw [if_neg hq] at hc hl
          split
          · rfl
          next hn =>
            rw [if_neg hn] at hc hl
            rw [ih hc (Nat.le_of_succ_le_succ hl) (Nat.le_of_succ_le_succ hf)]

end Strings

section Templates

def Chunk.afterEscape (e : Escape) (chunk : Chunk) : Chunk :=
  ⟨chunk.length + e.length, chunk.isLast, (chunk.fault.map (·.move e.length)).or (e.fault.map (Flaw.mk · 0 e.length))⟩

theorem readChunk_escape (fuel : Nat) (t : Text) :
    readChunk (fuel + 1) ('\\' :: t) = (readChunk fuel (t.drop ((readEscape true t).length - 1))).map
        (Chunk.afterEscape (readEscape true t)) := rfl

theorem readChunk_plain (hq : c ≠ '\x60') (hb : c ≠ '\\') (ho : c = '$' → t.head? ≠ some '\x7b') (fuel : Nat) :
    readChunk (fuel + 1) (c :: t) =
      (readChunk fuel t).map fun chunk => ⟨chunk.length + 1, chunk.isLast, chunk.fault.map (·.move 1)⟩ := by
  rw [readChunk]
  · exact hq
  · rintro r hc rfl
    exact ho hc rfl
  · exact hb

theorem one_le_readChunk (h : readChunk fuel t = some chunk) : 1 ≤ chunk.length := by
  unfold readChunk at h
  split at h
  · simp at h
  · simp at h
  · obtain rfl := Option.some.inj h
    exact Nat.le_refl 1
  · obtain rfl := Option.some.inj h
    exact (by decide : 1 ≤ 2)
  · obtain ⟨more, -, rfl⟩ := Option.map_eq_some_iff.mp h
    exact Nat.le_trans (one_le_readEscape true _) (Nat.le_add_left _ _)
  · obtain ⟨more, -, rfl⟩ := Option.map_eq_some_iff.mp h
    exact Nat.le_add_left _ _

theorem readChunk_local (h : readChunk fuel (u ++ r) = some chunk) (hl : chunk.length ≤ u.length)
    (hf : u.length ≤ fuel') (r' : Text) : readChunk fuel' (u ++ r') = some chunk := by
  induction fuel generalizing u fuel' chunk with
  | zero => exact absurd h (Option.some_ne_none chunk).symm
  | succ fuel ih =>
    have hpos := one_le_readChunk h
    cases u with
    | nil =>
      simp only [length_nil] at hl
      omega
    | cons c u =>
      rw [length_cons] at hl hf
      obtain ⟨fuel', rfl⟩ : ∃ n, fuel' = n + 1 := ⟨fuel' - 1, by omega⟩
      rw [cons_append] at h ⊢
      by_cases hq : c = '\x60'
      · subst hq
        exact h
      by_cases hb : c = '\\'
      · subst hb
        rw [readChunk_escape] at h
        obtain ⟨more, hm, rfl⟩ := Option.map_eq_some_iff.mp h
        rw [Chunk.afterEscape] at hl
        dsimp only at hl
        have hmore := one_le_readChunk hm
        have hpos' := one_le_readEscape true (u ++ r)
        have hn : (readEscape true (u ++ r)).length - 1 ≤ u.length := by omega
        have hsame : readEscape true (u ++ r') = readEscape true (u ++ r) := readEscape_local (by omega) r'
        have hlen : (u.drop ((readEscape true (u ++ r)).length - 1)).length =
            u.length - ((readEscape true (u ++ r)).length - 1) := length_drop
        rw [drop_append_of_le_length hn] at hm
        rw [readChunk_escape, hsame, drop_append_of_le_length hn, ih hm (by omega) (by omega)]
        rfl
      have hu : u ≠ [] := by
        rintro rfl
        rw [nil_append] at h
        by_cases ho : c = '$' ∧ r.head? = some '\x7b'
        · obtain ⟨rfl, ho⟩ := ho
          obtain ⟨t, rfl⟩ := head?_eq_some_iff.mp ho
          obtain rfl := Option.some.inj h
          simp at hl
        · rw [readChunk_plain hq hb (fun hc => not_and.mp ho hc)] at h
          obtain ⟨more, hm, rfl⟩ := Option.map_eq_some_iff.mp h
          have hmore := one_le_readChunk hm
          simp only [length_nil] at hl
          omega
      have hhead := head?_append_of_ne_nil hu r' r
      by_cases ho : c = '$' ∧ (u ++ r).head? = some '\x7b'
      · obtain ⟨rfl, ho⟩ := ho
        obtain ⟨t, ht⟩ := head?_eq_some_iff.mp ho
        obtain ⟨t', ht'⟩ := head?_eq_some_iff.mp (hhead.trans ho)
        rw [ht] at h
        rw [ht']
        exact h
      · rw [readChunk_plain hq hb (fun hc => not_and.mp ho hc)] at h
        obtain ⟨more, hm, rfl⟩ := Option.map_eq_some_iff.mp h
        dsimp only at hl
        rw [← hhead] at ho
        rw [readChunk_plain hq hb (fun hc => not_and.mp ho hc), ih hm (by omega) (by omega)]
        rfl

end Templates

section Words

def Word.afterEscape (w : Word) (allowed : Char → Bool) (e : Escape) : Word :=
  if allowed (Char.ofNat (e.codes.headD 0)) then w.after (Char.ofNat (e.codes.headD 0)) e.length true
  else
    { w.after (Char.ofNat (e.codes.headD 0)) e.length true with
      flaws := ⟨.nameCharacter, 0, e.length⟩ ::
        (w.after (Char.ofNat (e.codes.headD 0)) e.length true).flaws }

theorem length_word_afterEscape (w : Word) (allowed : Char → Bool) (e : Escape) :
    (w.afterEscape allowed e).length = w.length + e.length := by
  rw [Word.afterEscape]
  split
  · rfl
  · rfl

theorem fault_after {length : Nat} {isEscaped : Bool} :
    (w.after c length isEscaped).fault = none ↔ w.fault = none := by
  simp [Word.after]

theorem fault_of_word_afterEscape {e : Escape} (h : (w.afterEscape allowed e).fault = none) : w.fault = none := by
  rw [Word.afterEscape] at h
  split at h
  · exact fault_after.mp h
  · dsimp only at h
    exact fault_after.mp h

theorem readWord_escape (allowed : Char → Bool) (fuel : Nat) (h : (readCodePoint t).fault = none) :
    readWord allowed (fuel + 1) ('\\' :: 'u' :: t) =
      (readWord continuesWord fuel (t.drop ((readCodePoint t).length - 2))).afterEscape allowed
        (readCodePoint t) := by
  rw [readWord, Word.afterEscape]
  simp only [h]

theorem escape_of_readWord (h : (readWord allowed (fuel + 1) ('\\' :: t)).fault = none) :
    ∃ v, t = 'u' :: v ∧ (readCodePoint v).fault = none := by
  cases t with
  | nil => exact absurd h (Option.some_ne_none _)
  | cons c v =>
    by_cases hc : c = 'u'
    · subst hc
      refine ⟨v, rfl, ?_⟩
      rw [readWord] at h
      cases hf : (readCodePoint v).fault with
      | none => rfl
      | some cause => simp [hf] at h
    · simp [readWord, hc] at h

theorem readWord_plain (h : c ≠ '\\') (allowed : Char → Bool) (fuel : Nat) (t : Text) :
    readWord allowed (fuel + 1) (c :: t) =
      if allowed c then (readWord continuesWord fuel t).after c 1 false else ⟨[], 0, false, [], none⟩ := by
  rw [readWord]
  · intro r hc _
    exact h hc
  · exact h

theorem continuesWord_blank : continuesWord ' ' = false := by decide

theorem startsWord_blank : startsWord ' ' = false := by decide

def wordEnds (allowed : Char → Bool) (t : Text) : Prop := ∀ c, t.head? = some c → c ≠ '\\' ∧ allowed c = false

theorem readWord_of_ends (h : wordEnds allowed t) (fuel : Nat) :
    readWord allowed fuel t = ⟨[], 0, false, [], none⟩ := by
  cases fuel with
  | zero => rfl
  | succ fuel =>
    cases t with
    | nil => rfl
    | cons c t =>
      obtain ⟨hb, hc⟩ := h c rfl
      rw [readWord_plain hb, hc, if_neg (by simp)]

theorem ends_of_readWord (hl : (readWord allowed (fuel + 1) t).length = 0)
    (he : (readWord allowed (fuel + 1) t).fault = none) : wordEnds allowed t := by
  intro c hc
  obtain ⟨t, rfl⟩ := head?_eq_some_iff.mp hc
  have hb : c ≠ '\\' := by
    rintro rfl
    obtain ⟨v, rfl, hv⟩ := escape_of_readWord he
    have hle := three_le_reach v
    have hle' := (readCodePoint v).length_le_reach
    rw [readWord_escape allowed fuel hv, length_word_afterEscape] at hl
    omega
  refine ⟨hb, ?_⟩
  rw [readWord_plain hb] at hl
  rw [Bool.eq_false_iff]
  intro hc
  rw [if_pos hc] at hl
  simp [Word.after] at hl

theorem readWord_local (ha : allowed ' ' = false)
    (hr : EndsAlike r r') (hl : (readWord allowed fuel (u ++ r)).length ≤ u.length)
    (he : (readWord allowed fuel (u ++ r)).fault = none) (hf : u.length < fuel) (hf' : u.length < fuel') :
    readWord allowed fuel' (u ++ r') = readWord allowed fuel (u ++ r) := by
  induction fuel generalizing u fuel' allowed with
  | zero => omega
  | succ fuel ih =>
    obtain ⟨fuel', rfl⟩ : ∃ n, fuel' = n + 1 := ⟨fuel' - 1, by omega⟩
    cases u with
    | nil =>
      rw [nil_append] at hl he
      have hends := ends_of_readWord (Nat.le_zero.mp hl) he
      have hends' : wordEnds allowed r' := by
        intro c hc
        rcases hr c hc with hc | rfl
        · exact hends c hc
        · exact ⟨by decide, ha⟩
      rw [nil_append, nil_append, readWord_of_ends hends, readWord_of_ends hends']
    | cons c u =>
      rw [cons_append] at hl he
      rw [cons_append, cons_append]
      rw [length_cons] at hl hf hf'
      by_cases hb : c = '\\'
      · subst hb
        obtain ⟨t, ht, hcode⟩ := escape_of_readWord he
        have hle := three_le_reach t
        have hreach : (readCodePoint t).reach = (readCodePoint t).length := by
          rw [Escape.reach, hcode]
          rfl
        rw [ht, readWord_escape allowed fuel hcode] at hl he
        rw [length_word_afterEscape] at hl
        cases u with
        | nil =>
          rw [length_nil] at hl
          omega
        | cons d u =>
          rw [cons_append] at ht
          obtain ⟨rfl, rfl⟩ := List.cons.inj ht
          rw [length_cons] at hl hf hf'
          have hsame := readCodePoint_local (show (readCodePoint (u ++ r)).reach ≤ u.length + 2 by omega) r'
          have hcode' : (readCodePoint (u ++ r')).fault = none := by rw [hsame, hcode]
          have hn : (readCodePoint (u ++ r)).length - 2 ≤ u.length := by omega
          have hlen : (u.drop ((readCodePoint (u ++ r)).length - 2)).length =
              u.length - ((readCodePoint (u ++ r)).length - 2) := length_drop
          rw [drop_append_of_le_length hn] at hl he
          rw [cons_append, cons_append, readWord_escape allowed fuel hcode,
            readWord_escape allowed fuel' hcode', hsame, drop_append_of_le_length hn,
            drop_append_of_le_length hn, ih continuesWord_blank (by omega)
              (fault_of_word_afterEscape he) (by omega) (by omega)]
      · rw [readWord_plain hb] at hl he
        rw [readWord_plain hb, readWord_plain hb]
        split
        next hc =>
          rw [if_pos hc] at hl he
          rw [ih continuesWord_blank (Nat.le_of_succ_le_succ hl) (fault_after.mp he) (by omega)
            (by omega)]
        · rfl

end Words

section Numbers

def digitsEnd (base : Nat) (t : Text) : Prop := ∀ c, t.head? = some c → c ≠ '_' ∧ isDigitOf base c = false

theorem readDigits_gap (base : Nat) (before : Option Char) (read : Nat) (t : Text) :
    readDigits base before read ('_' :: t) = ((readDigits base before (read + 1) t).1 + 1,
        if t.head?.any (isDigitOf base) && !before.any (isNoGapNeighbour base) &&
          !t.head?.any (isNoGapNeighbour base) then (readDigits base before (read + 1) t).2
        else ⟨.numberGap, 0, read⟩ :: (readDigits base before (read + 1) t).2) := rfl

theorem readDigits_digit (h : c ≠ '_') (base : Nat) (before : Option Char) (read : Nat) (t : Text) :
    readDigits base before read (c :: t) =
      if isDigitOf base c then
        ((readDigits base (some c) (read + 1) t).1 + 1, (readDigits base (some c) (read + 1) t).2)
      else (0, []) := by
  rw [readDigits]
  exact h

theorem readDigits_of_end (h : digitsEnd base t) (before : Option Char)
    (read : Nat) : readDigits base before read t = (0, []) := by
  cases t with
  | nil => rfl
  | cons c t =>
    obtain ⟨hg, hd⟩ := h c rfl
    rw [readDigits_digit hg, if_neg (by simp [hd])]

theorem end_of_readDigits (h : (readDigits base before read t).1 = 0) : digitsEnd base t := by
  intro c hc
  obtain ⟨t, rfl⟩ := head?_eq_some_iff.mp hc
  have hg : c ≠ '_' := by
    rintro rfl
    rw [readDigits_gap] at h
    simp at h
  refine ⟨hg, ?_⟩
  rw [readDigits_digit hg] at h
  rw [Bool.eq_false_iff]
  intro hd
  rw [if_pos hd] at h
  simp at h

theorem isDigitOf_blank (base : Nat) : isDigitOf base ' ' = false := rfl

theorem readDigits_local (hr : EndsAlike r r') (hl : (readDigits base before read (u ++ r)).1 ≤ u.length) :
    readDigits base before read (u ++ r') = readDigits base before read (u ++ r) := by
  have hends : digitsEnd base r → digitsEnd base r' := by
    intro h c hc
    rcases hr c hc with hc | rfl
    · exact h c hc
    · exact ⟨by decide, isDigitOf_blank base⟩
  induction u generalizing before read with
  | nil =>
    have hend : digitsEnd base r := end_of_readDigits (Nat.le_zero.mp hl)
    rw [nil_append, nil_append, readDigits_of_end hend, readDigits_of_end (hends hend)]
  | cons c u ih =>
    rw [cons_append, length_cons] at hl
    rw [cons_append, cons_append]
    by_cases hg : c = '_'
    · subst hg
      have hi := ih (Nat.le_of_succ_le_succ hl)
      rw [readDigits_gap, readDigits_gap, hi]
      cases u with
      | nil =>
        have hend : digitsEnd base r := end_of_readDigits (Nat.le_zero.mp (Nat.le_of_succ_le_succ hl))
        have hnext : ∀ {t}, digitsEnd base t → t.head?.any (isDigitOf base) = false := by
          intro t ht
          cases t with
          | nil => rfl
          | cons d t => exact (ht d rfl).2
        rw [nil_append, nil_append, hnext hend, hnext (hends hend)]
        rfl
      | cons d u => rfl
    · rw [readDigits_digit hg] at hl
      rw [readDigits_digit hg, readDigits_digit hg]
      split
      next hd =>
        rw [if_pos hd] at hl
        rw [ih (Nat.le_of_succ_le_succ hl)]
      · rfl

/-- Of what follows a number only the first character counts. -/
def ReadsLocally (f : Text → Numeral) : Prop :=
  ∀ u r r' : Text, EndsAlike r r' → (f (u ++ r)).length ≤ u.length →
    (f (u ++ r)).fault = none → f (u ++ r') = f (u ++ r)

theorem readSomeDigits_eq (base : Nat) (t : Text) :
    readSomeDigits base t = ⟨(readDigits base none 0 t).1, false, (readDigits base none 0 t).2,
      if (t.take (readDigits base none 0 t).1).any (isDigitOf base) then none
      else some ⟨.digitExpected base, 0, (readDigits base none 0 t).1⟩⟩ := by
  rw [readSomeDigits]
  dsimp only
  split
  · rfl
  · rfl

theorem readSomeDigits_local (base : Nat) : ReadsLocally (readSomeDigits base) := by
  intro u r r' hr hl _
  rw [readSomeDigits_eq] at hl
  rw [readSomeDigits_eq, readSomeDigits_eq, readDigits_local hr hl,
    take_append_of_le_length hl, take_append_of_le_length hl]

theorem one_le_readSomeDigits (h : (readSomeDigits base t).fault = none) : 1 ≤ (readSomeDigits base t).length := by
  rw [readSomeDigits_eq] at h ⊢
  dsimp only at h ⊢
  rw [Nat.one_le_iff_ne_zero]
  intro h0
  rw [h0] at h
  simp at h

theorem noWord_local : ReadsLocally noWord := by
  intro u r r' hr _ hf
  cases u with
  | cons c u => rfl
  | nil =>
    rw [nil_append] at hf
    rw [nil_append, nil_append]
    have hno : r'.head?.any startsWord = false := by
      cases r' with
      | nil => rfl
      | cons c t =>
        rcases hr c rfl with hc | rfl
        · rw [noWord, hc] at hf
          simpa using hf
        · exact startsWord_blank
    rw [noWord, noWord, hno]
    rw [noWord] at hf
    dsimp only at hf
    rw [hf]
    rfl

theorem ReadsLocally.andThen {f g : Text → Numeral} (hf : ReadsLocally f) (hg : ReadsLocally g) :
    ReadsLocally fun t => (f t).andThen t g := by
  intro u r r' hr hl he
  dsimp only at hl he ⊢
  cases hfault : (f (u ++ r)).fault with
  | some flaw => simp [Numeral.andThen, hfault] at he
  | none =>
    rw [Numeral.andThen, hfault] at hl he
    dsimp only at hl he
    have hsame := hf u r r' hr (by omega) hfault
    rw [Numeral.andThen, Numeral.andThen, hsame, hfault]
    have hn : (f (u ++ r)).length ≤ u.length := by omega
    rw [drop_append_of_le_length hn] at hl he
    rw [drop_append_of_le_length hn, drop_append_of_le_length hn]
    have hlen : (u.drop (f (u ++ r)).length).length = u.length - (f (u ++ r)).length := length_drop
    rw [hg _ r r' hr (by omega) (by simpa using he)]

theorem ReadsLocally.skip (n : Nat) : ReadsLocally fun _ => Numeral.skip n := fun _ _ _ _ _ _ => rfl

theorem readFraction_point (t : Text) : readFraction ('.' :: t) =
      ⟨1 + (readDigits 10 none 0 t).1, false, (readDigits 10 none 0 t).2.map (·.move 1), none⟩ := rfl

theorem readFraction_other (h : t.head? ≠ some '.') : readFraction t = .skip 0 := by
  unfold readFraction
  split
  · simp at h
  · rfl

theorem readFraction_local : ReadsLocally readFraction := by
  intro u r r' hr hl _
  cases u with
  | nil =>
    have hne : r.head? ≠ some '.' := by
      intro hc
      obtain ⟨t, rfl⟩ := head?_eq_some_iff.mp hc
      rw [nil_append, readFraction_point, length_nil] at hl
      simp at hl
    have hne' : r'.head? ≠ some '.' := by
      intro hc
      rcases hr '.' hc with h | h
      · exact hne h
      · simp at h
    rw [nil_append, nil_append, readFraction_other hne, readFraction_other hne']
  | cons c u =>
    by_cases hc : c = '.'
    · subst hc
      rw [cons_append, readFraction_point, length_cons] at hl
      dsimp only at hl
      rw [cons_append, cons_append, readFraction_point, readFraction_point, readDigits_local hr (by omega)]
    · rw [readFraction_other (by simpa using hc), readFraction_other (by simpa using hc)]

def isExponentMark (c : Char) : Bool := c == 'e' || c == 'E'

theorem readExponent_other (h : t.head?.any isExponentMark = false) : readExponent t = .skip 0 := by
  cases t with
  | nil => rfl
  | cons c t =>
    exact if_neg (by simpa [isExponentMark] using h)

theorem readExponent_mark {s : Char} (h : isExponentMark e = true) (t : Text) : readExponent (e :: s :: t) =
      (Numeral.skip (if s == '+' || s == '-' then 2 else 1)).andThen (e :: s :: t) (readSomeDigits 10) := by
  exact if_pos h

theorem length_andThen {n : Numeral} (h : n.fault = none) :
    (n.andThen t g).length = n.length + (g (t.drop n.length)).length := by
  rw [Numeral.andThen, h]

theorem fault_andThen {n : Numeral} :
    (n.andThen t g).fault = none ↔ n.fault = none ∧ (g (t.drop n.length)).fault = none := by
  rw [Numeral.andThen]
  split
  next f h => simp [h]
  next h => simp [h]

theorem two_le_readExponent (he : isExponentMark e = true)
    (h : (readExponent (e :: t)).fault = none) : 2 ≤ (readExponent (e :: t)).length := by
  cases t with
  | nil =>
    have hnil : readExponent [e] = ⟨1, false, [], some ⟨.exponentExpected, 1, 1⟩⟩ := by
      exact if_pos he
    rw [hnil] at h
    simp at h
  | cons s t =>
    rw [readExponent_mark he] at h ⊢
    rw [length_andThen rfl]
    have hone := one_le_readSomeDigits (fault_andThen.mp h).2
    have hk : 1 ≤ (Numeral.skip (if s == '+' || s == '-' then 2 else 1)).length := by
      split
      · exact (by decide : 1 ≤ 2)
      · exact Nat.le_refl 1
    omega

theorem readExponent_local : ReadsLocally readExponent := by
  intro u r r' hr hl hf
  cases u with
  | nil =>
    have hends : ∀ {t : Text}, (∀ c, t.head? = some c → isExponentMark c = false) →
        t.head?.any isExponentMark = false := by
      intro t ht
      cases t with
      | nil => rfl
      | cons c t => exact ht c rfl
    have hno : ∀ c, r.head? = some c → isExponentMark c = false := by
      intro c hc
      obtain ⟨t, rfl⟩ := head?_eq_some_iff.mp hc
      rw [Bool.eq_false_iff]
      intro he
      have htwo := two_le_readExponent he hf
      rw [nil_append, length_nil] at hl
      omega
    have hno' : ∀ c, r'.head? = some c → isExponentMark c = false := by
      intro c hc
      rcases hr c hc with hc | rfl
      · exact hno c hc
      · rfl
    rw [nil_append, nil_append, readExponent_other (hends hno), readExponent_other (hends hno')]
  | cons e u =>
    by_cases he : isExponentMark e = true
    · cases u with
      | nil =>
        rw [cons_append, nil_append] at hl hf
        have htwo := two_le_readExponent he hf
        rw [length_cons, length_nil] at hl
        omega
      | cons s u =>
        simp only [cons_append] at hl hf ⊢
        rw [readExponent_mark he] at hl hf
        rw [readExponent_mark he, readExponent_mark he]
        exact (ReadsLocally.skip _).andThen (readSomeDigits_local 10) (e :: s :: u) r r' hr hl hf
    · have hno : ∀ t : Text, (e :: t).head?.any isExponentMark = false := fun t => by simpa using he
      rw [cons_append, cons_append, readExponent_other (hno _), readExponent_other (hno _)]

theorem readPlaces_local : ReadsLocally readPlaces :=
  (readFraction_local.andThen readExponent_local).andThen noWord_local

theorem ReadsLocally.orBig (hg : ReadsLocally g) :
    ReadsLocally fun t => if t.head? == some 'n' then ⟨1, true, [], none⟩ else g t := by
  intro u r r' hr hl hf
  dsimp only at hl hf ⊢
  cases u with
  | nil =>
    rw [nil_append] at hl hf
    rw [nil_append, nil_append]
    have hne : r.head? ≠ some 'n' := by
      intro hc
      rw [hc] at hl
      simp at hl
    have hne' : r'.head? ≠ some 'n' := by
      intro hc
      rcases hr 'n' hc with h | h
      · exact hne h
      · simp at h
    have hn : ¬ (r.head? == some 'n') = true := by simpa using hne
    have hn' : ¬ (r'.head? == some 'n') = true := by simpa using hne'
    rw [if_neg hn] at hl hf
    rw [if_neg hn, if_neg hn']
    exact hg [] r r' hr hl hf
  | cons c u =>
    rw [cons_append, head?_cons] at hl hf
    rw [cons_append, cons_append, head?_cons, head?_cons]
    split
    · rfl
    next hc =>
      rw [if_neg hc] at hl hf
      exact hg (c :: u) r r' hr hl hf

theorem readBased_local (base : Nat) : ReadsLocally (readBased base) :=
  (readSomeDigits_local base).andThen noWord_local.orBig

theorem readDecimal_local (hr : EndsAlike r r') (hl : (readDecimal (c :: u ++ r)).length ≤ (c :: u).length)
    (hf : (readDecimal (c :: u ++ r)).fault = none) :
    readDecimal (c :: u ++ r') = readDecimal (c :: u ++ r) := by
  by_cases hc : c = '.'
  · subst hc
    exact readPlaces_local ('.' :: u) r r' hr hl hf
  · have heq : ∀ t, readDecimal (c :: t) = (readSomeDigits 10 (c :: t)).andThen (c :: t) fun rest =>
        if rest.head? == some 'n' then ⟨1, true, [], none⟩ else readPlaces rest := by
      intro t
      rw [readDecimal]
      intro t' ht
      exact hc (List.cons.inj ht).1
    rw [cons_append, heq] at hl hf
    rw [cons_append, cons_append, heq, heq]
    exact (readSomeDigits_local 10).andThen readPlaces_local.orBig (c :: u) r r' hr hl hf

def legacyDigits (cause : Cause) (t : Text) : Numeral :=
  ⟨(readDigits 10 none 0 t).1, false, (readDigits 10 none 0 t).2 ++ [⟨cause, 0, (readDigits 10 none 0 t).1⟩], none⟩

theorem readLegacy_eq (t : Text) : readLegacy t =
      if (t.take (readDigits 10 none 0 t).1).any (fun c => c == '8' || c == '9') then
        (legacyDigits .legacyDecimal t).andThen t readPlaces else legacyDigits .legacyOctal t := rfl

theorem legacyDigits_local (cause : Cause) : ReadsLocally (legacyDigits cause) := by
  intro u r r' hr hl _
  rw [legacyDigits, legacyDigits, readDigits_local hr hl]

theorem readLegacy_local : ReadsLocally readLegacy := by
  intro u r r' hr hl hf
  have hle : (readDigits 10 none 0 (u ++ r)).1 ≤ u.length := by
    rw [readLegacy_eq] at hl
    split at hl
    · rw [length_andThen rfl] at hl
      exact Nat.le_trans (Nat.le_add_right _ _) hl
    · exact hl
  rw [readLegacy_eq] at hl hf
  rw [readLegacy_eq, readLegacy_eq, readDigits_local hr hle, take_append_of_le_length hle,
    take_append_of_le_length hle]
  rw [take_append_of_le_length hle] at hl hf
  split
  next h =>
    rw [if_pos h] at hl hf
    exact (legacyDigits_local _).andThen readPlaces_local u r r' hr hl hf
  next h =>
    rw [if_neg h] at hl hf
    exact legacyDigits_local _ u r r' hr hl hf

theorem readNumeral_zero (x : Char) (t : Text) : readNumeral ('0' :: x :: t) =
      match baseOf? x with
      | some base => (Numeral.skip 2).andThen ('0' :: x :: t) (readBased base)
      | none => if x.isDigit then readLegacy ('0' :: x :: t) else readDecimal ('0' :: x :: t) := rfl

theorem readNumeral_other (h : c ≠ '0') (t : Text) : readNumeral (c :: t) = readDecimal (c :: t) := by
  rw [readNumeral]
  rintro x t' ht
  exact h (List.cons.inj ht).1

theorem isDigitOf_of_isDigit (h : c.isDigit = true) : isDigitOf 10 c = true := by
  simp only [Char.isDigit, Bool.and_eq_true, decide_eq_true_eq] at h
  have hle : '0' ≤ c ∧ c ≤ '9' := h
  have hn : c.toNat - 48 < 10 := by
    have h9 : c.toNat ≤ 57 := UInt32.le_iff_toNat_le.mp h.2
    omega
  simp [isDigitOf, hexValue?, hle, hn]

theorem two_le_readLegacy (h : c.isDigit = true) (t : Text) : 2 ≤ (readLegacy ('0' :: c :: t)).length := by
  have hd : (readDigits 10 none 0 ('0' :: c :: t)).1 = (readDigits 10 (some c) 2 t).1 + 1 + 1 := by
    have hc : c ≠ '_' := by
      rintro rfl
      simp at h
    rw [readDigits_digit (by decide), if_pos (by decide), readDigits_digit hc, if_pos (isDigitOf_of_isDigit h)]
  rw [readLegacy_eq]
  split
  · rw [length_andThen rfl, legacyDigits, hd]
    dsimp only
    omega
  · rw [legacyDigits, hd]
    dsimp only
    omega

theorem readNumeral_lone (h : ∀ x, r.head? = some x → baseOf? x = none ∧ x.isDigit = false) :
    readNumeral ('0' :: r) = readDecimal ('0' :: r) := by
  cases r with
  | nil => rfl
  | cons x r =>
    obtain ⟨hb, hd⟩ := h x rfl
    rw [readNumeral_zero, hb]
    rw [if_neg (by simp [hd])]

theorem lone_of_readNumeral (h : (readNumeral ('0' :: r)).length ≤ 1) :
    ∀ x, r.head? = some x → baseOf? x = none ∧ x.isDigit = false := by
  intro x hx
  obtain ⟨t, rfl⟩ := head?_eq_some_iff.mp hx
  rw [readNumeral_zero] at h
  cases hb : baseOf? x with
  | some base =>
    rw [hb] at h
    rw [length_andThen rfl] at h
    simp only [Numeral.skip] at h
    omega
  | none =>
    refine ⟨rfl, ?_⟩
    rw [hb] at h
    dsimp only at h
    rw [Bool.eq_false_iff]
    intro hd
    rw [if_pos hd] at h
    have := two_le_readLegacy hd t
    omega

theorem readNumeral_local (hr : EndsAlike r r') (hl : (readNumeral (c :: u ++ r)).length ≤ (c :: u).length)
    (hf : (readNumeral (c :: u ++ r)).fault = none) :
    readNumeral (c :: u ++ r') = readNumeral (c :: u ++ r) := by
  by_cases hc : c = '0'
  · subst hc
    cases u with
    | nil =>
      have hlone : ∀ x, r.head? = some x → baseOf? x = none ∧ x.isDigit = false := lone_of_readNumeral hl
      have hlone' : ∀ x, r'.head? = some x → baseOf? x = none ∧ x.isDigit = false := by
        intro x hx
        rcases hr x hx with hx | rfl
        · exact hlone x hx
        · exact ⟨rfl, rfl⟩
      rw [cons_append, nil_append, readNumeral_lone hlone] at hl hf
      rw [cons_append, cons_append, nil_append, nil_append, readNumeral_lone hlone, readNumeral_lone hlone']
      exact readDecimal_local (u := []) hr hl hf
    | cons x u =>
      simp only [cons_append] at hl hf ⊢
      rw [readNumeral_zero] at hl hf
      rw [readNumeral_zero, readNumeral_zero]
      cases hb : baseOf? x with
      | some base =>
        rw [hb] at hl hf
        exact (ReadsLocally.skip 2).andThen (readBased_local base) ('0' :: x :: u) r r' hr hl hf
      | none =>
        rw [hb] at hl hf
        dsimp only at hl hf ⊢
        split
        next hd =>
          rw [if_pos hd] at hl hf
          exact readLegacy_local ('0' :: x :: u) r r' hr hl hf
        next hd =>
          rw [if_neg hd] at hl hf
          exact readDecimal_local (u := x :: u) hr hl hf
  · rw [cons_append, readNumeral_other hc] at hl hf
    rw [cons_append, cons_append, readNumeral_other hc, readNumeral_other hc]
    exact readDecimal_local hr hl hf

end Numbers

section Patterns

theorem patternLength_escape (inClass : Bool) (c : Char) (t : Text) : patternLength inClass ('\\' :: c :: t) =
      if isLineEnd c then none else (patternLength inClass t).map (· + 2) := rfl

theorem patternLength_plain (h : c ≠ '\\') (inClass : Bool) (t : Text) : patternLength inClass (c :: t) =
      if isLineEnd c then none
      else if c == '/' && !inClass then some 1
      else (patternLength (if c == '[' then true else if c == ']' then false else inClass) t).map (· + 1) := by
  rw [patternLength]
  rintro d t' rfl _
  exact h rfl

theorem one_le_patternLength (h : patternLength inClass t = some n) : 1 ≤ n := by
  unfold patternLength at h
  split at h
  · simp at h
  · split at h
    · simp at h
    · obtain ⟨m, -, rfl⟩ := Option.map_eq_some_iff.mp h
      omega
  · split at h
    · simp at h
    · split at h
      · obtain rfl := Option.some.inj h
        exact Nat.le_refl 1
      · obtain ⟨m, -, rfl⟩ := Option.map_eq_some_iff.mp h
        omega

theorem patternLength_local (h : patternLength inClass (u ++ r) = some n) (hn : n ≤ u.length) (r' : Text) :
    patternLength inClass (u ++ r') = some n := by
  -- An escape takes two characters, so the induction is on the length.
  generalize hk : u.length = k
  induction k using Nat.strongRecOn generalizing u n inClass with
  | ind k ih =>
    have hpos := one_le_patternLength h
    cases u with
    | nil =>
      rw [length_nil] at hn
      omega
    | cons c u =>
      rw [length_cons] at hn hk
      rw [cons_append] at h ⊢
      by_cases hb : c = '\\'
      · subst hb
        cases u with
        | nil =>
          rw [nil_append] at h
          rw [length_nil] at hn
          cases r with
          | nil => simp [patternLength] at h
          | cons d r =>
            rw [patternLength_escape] at h
            split at h
            · simp at h
            · obtain ⟨m, hm, rfl⟩ := Option.map_eq_some_iff.mp h
              omega
        | cons d u =>
          rw [length_cons] at hn hk
          rw [cons_append, patternLength_escape] at h ⊢
          split at h
          · simp at h
          next hd =>
            obtain ⟨m, hm, rfl⟩ := Option.map_eq_some_iff.mp h
            rw [if_neg hd, ih u.length (by omega) hm (by omega) rfl]
            rfl
      · rw [patternLength_plain hb] at h ⊢
        split at h
        · simp at h
        next hd =>
          rw [if_neg hd]
          split at h
          next hs => rw [if_pos hs]; exact h
          next hs =>
            obtain ⟨m, hm, rfl⟩ := Option.map_eq_some_iff.mp h
            rw [if_neg hs, ih u.length (by omega) hm (by omega) rfl]
            rfl

end Patterns

end ComponentConverter.Script
