import ComponentConverter.Text.Blank
import ComponentConverter.Proofs.Survivors
import ComponentConverter.Proofs.Trimming

namespace ComponentConverter.Script

open List

variable {c : Char} {t l : Text} {ls : List Text} {ps : List Piece}
variable {w x y u : Text}

def tokens (ps : List Piece) : List Piece := ps.filter fun p => p.goal != .gap

def ReadAs (t : Text) (ts : List Piece) : Prop := ∃ ps, join ps = t ∧ Reads false ps ∧ tokens ps = ts

section Text

/-- Drops the indentation of lines, `k` characters at most and `m` of the line that has begun. -/
def unindent (k : Nat) : Nat → Text → Text
  | _, [] => []
  | m, c :: t =>
    if 0 < m ∧ isSpace c = true ∧ c ≠ '\n' then unindent k (m - 1) t
    else c :: unindent k (if c = '\n' then k else 0) t

def remaining (k : Nat) : Nat → Text → Nat
  | m, [] => m
  | m, c :: t =>
    if 0 < m ∧ isSpace c = true ∧ c ≠ '\n' then remaining k (m - 1) t
    else remaining k (if c = '\n' then k else 0) t

variable {k m : Nat}

theorem unindent_append (k m : Nat) (u v : Text) :
    unindent k m (u ++ v) = unindent k m u ++ unindent k (remaining k m u) v := by
  induction u generalizing m with
  | nil => rfl
  | cons c u ih =>
    rw [cons_append, unindent, unindent, remaining]
    split
    · exact ih (m - 1)
    · rw [ih, cons_append]

theorem remaining_append (k m : Nat) (u v : Text) : remaining k m (u ++ v) = remaining k (remaining k m u) v := by
  induction u generalizing m with
  | nil => rfl
  | cons c u ih =>
    rw [cons_append, remaining, remaining]
    split
    · exact ih (m - 1)
    · exact ih _

theorem unindent_cons (h : isSpace c = false) (k m : Nat) (t : Text) :
    unindent k m (c :: t) = c :: unindent k 0 t ∧ remaining k m (c :: t) = remaining k 0 t := by
  have hc : c ≠ '\n' := by
    rintro rfl
    simp [isSpace] at h
  have hkeep : ¬ (0 < m ∧ isSpace c = true ∧ c ≠ '\n') := by simp [h]
  rw [unindent, remaining, if_neg hkeep, if_neg hkeep, if_neg hc]
  exact ⟨rfl, rfl⟩

theorem unindent_of_not_mem (h : '\n' ∉ t) : unindent k 0 t = t ∧ remaining k 0 t = 0 := by
  induction t with
  | nil => exact ⟨rfl, rfl⟩
  | cons c t ih =>
    simp only [mem_cons, not_or] at h
    obtain ⟨hu, hr⟩ := ih h.2
    have hkeep : ¬ (0 < 0 ∧ isSpace c = true ∧ c ≠ '\n') := by simp
    rw [unindent, remaining, if_neg hkeep, if_neg hkeep, if_neg (Ne.symm h.1), hu, hr]
    exact ⟨rfl, rfl⟩

theorem unindent_lineFeed (k m : Nat) (t : Text) : unindent k m ('\n' :: t) = '\n' :: unindent k k t := by
  rw [unindent, if_neg (by simp), if_pos rfl]

theorem unindent_spaces (hw : ∀ c ∈ w, isSpace c = true ∧ c ≠ '\n') (hm : m ≤ w.length)
    (t : Text) : unindent k m (w ++ t) = w.drop m ++ unindent k 0 t := by
  induction w generalizing m with
  | nil =>
    obtain rfl : m = 0 := Nat.le_zero.mp hm
    rfl
  | cons c w ih =>
    have hc := hw c (by simp)
    have hw' := fun d hd => hw d (mem_cons_of_mem c hd)
    rw [cons_append, unindent]
    cases m with
    | zero =>
      rw [if_neg (by simp), if_neg hc.2, ih hw' (Nat.zero_le _)]
      rfl
    | succ m => rw [if_pos ⟨by omega, hc⟩, Nat.add_sub_cancel, ih hw' (Nat.le_of_succ_le_succ hm), drop_succ_cons]

theorem unindent_zero (t : Text) : unindent 0 0 t = t := by
  induction t with
  | nil => rfl
  | cons c t ih => rw [unindent, if_neg (by simp), ite_self, ih]

theorem head?_unindent (k : Nat) (t : Text) : (unindent k 0 t).head? = t.head? := by
  cases t with
  | nil => rfl
  | cons c t =>
    rfl

theorem ahead_unindent (n k : Nat) (t : Text) : ahead n (unindent k 0 t) = ahead n t := by
  induction t generalizing n with
  | nil => rfl
  | cons c t ih =>
    rw [unindent, if_neg (by simp)]
    cases n with
    | zero => rfl
    | succ n =>
      rw [ahead, ahead]
      split
      · rfl
      · rw [ih]

theorem count_unindent (k m : Nat) (t : Text) : (unindent k m t).count '\n' = t.count '\n' := by
  induction t generalizing m with
  | nil => rfl
  | cons c t ih =>
    rw [unindent]
    split
    next h => rw [ih, count_cons_of_ne h.2.2]
    · rw [count_cons, count_cons, ih]

theorem infix_of_unindent {x y : Char} (hx : x ≠ '\n') (h : [x, y] <:+: unindent k m t) : [x, y] <:+: t := by
  induction t generalizing m with
  | nil => exact h
  | cons c t ih =>
    rw [unindent] at h
    split at h
    · exact infix_cons (ih h)
    · rw [infix_cons_iff] at h
      rcases h with h | h
      · obtain ⟨rfl, hp⟩ := cons_prefix_cons.mp h
        rw [if_neg hx] at hp
        have hy : t.head? = some y := by
          obtain ⟨v, hv⟩ := hp
          rw [← head?_unindent k, ← hv]
          rfl
        obtain ⟨t, rfl⟩ := head?_eq_some_iff.mp hy
        exact (show [x, y] <+: x :: y :: t from ⟨t, rfl⟩).isInfix
      · exact infix_cons (ih h)

theorem any_isLineEnd_unindent (k : Nat) (t : Text) : (unindent k 0 t).any isLineEnd = t.any isLineEnd := by
  by_cases h : '\n' ∈ t
  · have h' : '\n' ∈ unindent k 0 t := by
      rwa [← count_pos_iff, count_unindent, count_pos_iff]
    rw [any_eq_true.mpr ⟨_, h, rfl⟩, any_eq_true.mpr ⟨_, h', rfl⟩]
  · rw [(unindent_of_not_mem h).1]

theorem splitLines_ne_nil (t : Text) : splitLines t ≠ [] := by
  cases t with
  | nil => simp [splitLines]
  | cons c t =>
    rw [splitLines]
    split
    · simp
    · split
      · simp
      · simp

theorem splitLines_cons (h : splitLines t = l :: ls) :
    splitLines (c :: t) = if c = '\n' then [] :: l :: ls else (c :: l) :: ls := by
  rw [splitLines, h]

theorem joinLines_cons (c : Char) (l : Text) (ls : List Text) :
    joinLines ((c :: l) :: ls) = c :: joinLines (l :: ls) := by
  cases ls with
  | nil => rfl
  | cons l' ls => rfl

theorem outdent_nil (m : Nat) : outdent m [] = [] := by
  cases m with
  | zero => rfl
  | succ m => rfl

theorem outdent_zero (l : Text) : outdent 0 l = l := by
  cases l with
  | nil => rfl
  | cons c l => rfl

theorem joinLines_outdent (k m : Nat) (h : splitLines t = l :: ls) :
    joinLines (outdent m l :: ls.map (outdent k)) = unindent k m t := by
  induction t generalizing m l ls with
  | nil =>
    obtain ⟨rfl, rfl⟩ := List.cons.inj h
    exact outdent_nil m
  | cons c t ih =>
    obtain ⟨l', ls', ht⟩ := exists_cons_of_ne_nil (splitLines_ne_nil t)
    rw [splitLines_cons ht] at h
    split at h
    next hc =>
      obtain ⟨rfl, rfl⟩ := List.cons.inj h
      rw [hc, unindent_lineFeed, outdent_nil, map_cons, ← ih k ht]
      rfl
    next hc =>
      obtain ⟨rfl, rfl⟩ := List.cons.inj h
      rw [unindent]
      split
      next hs =>
        obtain ⟨m, rfl⟩ := Nat.exists_eq_add_one.mpr hs.1
        rw [outdent, if_pos hs.2.1, Nat.add_sub_cancel, ih m ht]
      next hs =>
        have hkeep : outdent m (c :: l') = c :: l' := by
          cases m with
          | zero => rfl
          | succ m => rw [outdent, if_neg fun hc' => hs ⟨Nat.succ_pos m, hc', hc⟩]
        rw [hkeep, joinLines_cons, ← ih 0 ht, outdent_zero]

theorem dedent_eq_unindent (h : t.contains '\x60' = false) : dedent t = unindent (sharedIndentation t) 0 t := by
  rw [dedent, h, if_neg (by simp)]
  obtain ⟨l, ls, ht⟩ := exists_cons_of_ne_nil (splitLines_ne_nil t)
  rw [ht, ← joinLines_outdent _ 0 ht]
  rfl

theorem splitLines_append (x : Text) {l : Text} (h : splitLines y = l :: ls) :
    splitLines (x ++ '\n' :: y) = splitLines x ++ l :: ls := by
  induction x with
  | nil => rw [nil_append, splitLines_cons h, if_pos rfl, splitLines, singleton_append]
  | cons c x ih =>
    obtain ⟨l', ls', hx⟩ := exists_cons_of_ne_nil (splitLines_ne_nil x)
    rw [hx, cons_append] at ih
    rw [cons_append, splitLines_cons ih, splitLines_cons hx]
    split
    · rfl
    · rfl

theorem splitLines_of_not_mem {l : Text} (hw : '\n' ∉ w)
    (h : splitLines y = l :: ls) : splitLines (w ++ y) = (w ++ l) :: ls := by
  induction w with
  | nil => exact h
  | cons c w ih =>
    simp only [mem_cons, not_or] at hw
    rw [cons_append, splitLines_cons (ih hw.2), if_neg (Ne.symm hw.1), cons_append]

theorem indentation_append (hw : isBlank w = true) (l : Text) : indentation (w ++ l) = w.length + indentation l := by
  rw [indentation, takeWhile_append_of_pos (all_eq_true.mp hw), length_append, indentation]

/-- The indentations of the lines that are not blank. -/
def indents (ls : List Text) : List Nat := (ls.filter fun l => !isBlank l).map indentation

theorem indents_append (ls ls' : List Text) : indents (ls ++ ls') = indents ls ++ indents ls' := by
  rw [indents, filter_append, map_append, indents, indents]

theorem indents_cons (l : Text) (ls : List Text) :
    indents (l :: ls) = if isBlank l then indents ls else indentation l :: indents ls := by
  rw [indents, filter_cons]
  cases isBlank l <;> rfl

theorem isBlank_dropReturn (l : Text) :
    isBlank (dropReturn l) = isBlank l ∧ (isBlank l = false → indentation (dropReturn l) = indentation l) := by
  rw [dropReturn]
  split
  next hr =>
    obtain ⟨m, rfl⟩ := getLast?_eq_some_iff.mp hr
    have hblank : isBlank (m ++ ['\r']) = isBlank m := by
      rw [isBlank_append]
      exact Bool.and_true _
    rw [dropLast_concat, hblank]
    refine ⟨rfl, fun hm => ?_⟩
    have hshort : (m.takeWhile isSpace).length ≠ m.length := by
      intro hlength
      have hall : m.takeWhile isSpace = m := (List.takeWhile_prefix isSpace).eq_of_length hlength
      rw [isBlank, ← hall, all_takeWhile] at hm
      cases hm
    rw [indentation, indentation, takeWhile_append, if_neg hshort]
  · exact ⟨rfl, fun _ => rfl⟩

theorem indents_map_dropReturn (ls : List Text) : indents (ls.map dropReturn) = indents ls := by
  induction ls with
  | nil => rfl
  | cons l ls ih =>
    obtain ⟨hblank, hindent⟩ := isBlank_dropReturn l
    rw [map_cons, indents_cons, indents_cons, hblank, ih]
    split
    · rfl
    next hl => rw [hindent (by simpa using hl)]

/-- Carriage returns and a last line without characters do not count. -/
theorem sharedIndentation_eq (t : Text) : sharedIndentation t = (indents (splitLines t).tail).min?.getD 0 := by
  suffices h : indents ((linesOf t).drop 1) = indents (splitLines t).tail by rw [← h]; rfl
  obtain ⟨first, ls, ht⟩ := exists_cons_of_ne_nil (splitLines_ne_nil t)
  rw [linesOf, ht]
  rcases eq_nil_or_concat ls with rfl | ⟨ls, l, rfl⟩
  · cases first <;> rfl
  · rw [concat_eq_append, ← cons_append, dropLast_concat, getLast?_concat, cons_append, tail_cons, indents_append]
    cases l with
    | nil => exact (indents_map_dropReturn ls).trans (append_nil _).symm
    | cons c l =>
      dsimp only
      rw [map_cons, cons_append, drop_one, tail_cons, indents_append, indents_map_dropReturn]

/-- Every line that is not blank starts with at least `k` blanks, the first line apart. -/
def Indented (k : Nat) (t : Text) : Prop := ∀ x w c y, t = x ++ '\n' :: (w ++ c :: y) →
  (∀ d ∈ w, isSpace d = true ∧ d ≠ '\n') → isSpace c = false → k ≤ w.length

theorem sharedIndentation_le (h : l ∈ (splitLines t).tail) (hl : isBlank l = false) :
    sharedIndentation t ≤ indentation l := by
  have hmem : indentation l ∈ indents (splitLines t).tail := mem_map.mpr ⟨l, mem_filter.mpr ⟨h, by rw [hl]; rfl⟩, rfl⟩
  rw [sharedIndentation_eq]
  cases hmin : (indents (splitLines t).tail).min? with
  | none => exact Nat.zero_le _
  | some k => exact (min?_eq_some_iff.mp hmin).2 _ hmem

theorem indented_sharedIndentation (t : Text) : Indented (sharedIndentation t) t := by
  rintro x w c y rfl hw hc
  have hn : '\n' ∉ w := fun h => (hw _ h).2 rfl
  have hc' : c ≠ '\n' := by
    rintro rfl
    simp [isSpace] at hc
  obtain ⟨l, ls, hy⟩ := exists_cons_of_ne_nil (splitLines_ne_nil y)
  have hline : splitLines (w ++ c :: y) = (w ++ c :: l) :: ls :=
    splitLines_of_not_mem hn (by rw [splitLines_cons hy, if_neg hc'])
  have hindent : indentation (w ++ c :: l) = w.length := by
    rw [indentation_append (all_eq_true.mpr fun d hd => (hw d hd).1), indentation,
      takeWhile_cons_of_neg (by simp [hc])]
    rfl
  rw [← hindent]
  refine sharedIndentation_le ?_ (by simp [isBlank, hc])
  rw [splitLines_append x hline, tail_append_of_ne_nil (splitLines_ne_nil x)]
  exact mem_append_right _ mem_cons_self

end Text

section Gaps

variable {fresh : Bool} {r : Text} {p : Piece}

theorem isGapCharacter_of_isSpace (h : isSpace c = true) : isGapCharacter c = true := by
  rw [isGapCharacter, isInlineSpace, h]
  cases isLineEnd c <;> simp

theorem Piece.Fits.gap_cases (h : p.Fits fresh r) (hg : p.goal = .gap) :
    (∃ u, p.text = '/' :: '/' :: u ∧ ∀ c ∈ u, isLineEnd c = false) ∨
      (∃ body, p.text = '/' :: '*' :: (body ++ ['*', '/']) ∧ ¬ ['*', '/'] <:+: body) ∨
      ∃ c, p.text = [c] ∧ isGapCharacter c = true := by
  obtain ⟨goal, text⟩ := p
  obtain ⟨hne, hl⟩ := h
  subst hg
  rw [Goal.length?] at hl
  cases hline : opensLine (text ++ r) with
  | true =>
    left
    obtain ⟨t, ht⟩ := opensLine_eq_true hline
    rw [ht, gapLength?_line] at hl
    have hlen := Option.some.inj hl
    rcases text with _ | ⟨x, _ | ⟨y, u⟩⟩
    · exact absurd rfl hne
    · simp at hlen
    · obtain ⟨rfl, ht'⟩ := List.cons.inj ht
      obtain ⟨rfl, rfl⟩ := List.cons.inj ht'
      refine ⟨u, rfl, fun c hc => ?_⟩
      have hu : List.takeWhile (!isLineEnd ·) (u ++ r) = u := takeWhile_of_length_eq (by simpa using hlen)
      rw [← hu] at hc
      simpa using all_eq_true.mp all_takeWhile c hc
  | false =>
    right
    cases hblock : opensBlock (text ++ r) with
    | true =>
      left
      obtain ⟨t, ht⟩ := opensBlock_eq_true hblock
      rw [ht, gapLength?_block] at hl
      obtain ⟨⟨body, rest⟩, hb, hlen⟩ := Option.map_eq_some_iff.mp hl
      rcases text with _ | ⟨x, _ | ⟨y, u⟩⟩
      · exact absurd rfl hne
      · simp at hlen
      · obtain ⟨rfl, ht'⟩ := List.cons.inj ht
        obtain ⟨rfl, rfl⟩ := List.cons.inj ht'
        have hu := (append_inj (eq_of_breakOn? hb) (by simpa using hlen.symm)).1
        exact ⟨body, by rw [hu], not_infix_of_breakOn? (by simp) hb⟩
    | false =>
      right
      cases text with
      | nil => exact absurd rfl hne
      | cons c u =>
        rw [cons_append] at hline hblock
        rw [cons_append, gapLength?_character hline hblock] at hl
        split at hl
        next hc =>
          have hlen : 1 = u.length + 1 := Option.some.inj hl
          obtain rfl : u = [] := length_eq_zero_iff.mp (by omega)
          exact ⟨c, rfl, hc⟩
        · simp at hl

theorem fits_block {body : Text} (h : ¬ ['*', '/'] <:+: body) (fresh : Bool) (r : Text) :
    Piece.Fits fresh ⟨.gap, '/' :: '*' :: (body ++ ['*', '/'])⟩ r := by
  refine ⟨by simp, ?_⟩
  have hb := breakOn?_headed (by simp : '*' ∉ ['/']) h r
  simp only [Goal.length?, cons_append, append_assoc, nil_append, gapLength?_block]
  rw [cons_append, cons_append, nil_append] at hb
  rw [hb]
  simp

theorem fits_character (h : isGapCharacter c = true) (fresh : Bool) (r : Text) : Piece.Fits fresh ⟨.gap, [c]⟩ r := by
  refine ⟨by simp, ?_⟩
  have hc : c ≠ '/' := by
    rintro rfl
    simp [isGapCharacter, isLineEnd, isInlineSpace, isSpace] at h
  have hl : opensLine (c :: r) = false := by simp [opensLine, List.isPrefixOf, Ne.symm hc]
  have hb : opensBlock (c :: r) = false := by simp [opensBlock, List.isPrefixOf, Ne.symm hc]
  simp only [Goal.length?, cons_append, nil_append, gapLength?_character hl hb, if_pos h]
  rfl

theorem Piece.Fits.opensBlank_gap (h : p.Fits fresh r) (hg : p.goal = .gap) : opensBlank (p.text ++ r) = true := by
  rcases h.gap_cases hg with ⟨u, ht, -⟩ | ⟨body, ht, -⟩ | ⟨c, ht, hc⟩
  · rw [ht]
    rfl
  · rw [ht]
    rfl
  · rw [ht]
    simp [opensBlank, hc]

theorem Piece.Fits.opensBlank_token (h : p.Fits fresh r) (hg : p.goal ≠ .gap) : opensBlank (p.text ++ r) = false := by
  obtain ⟨goal, text⟩ := p
  obtain ⟨hne, hl⟩ := h
  have hhere : startsHere fresh (text ++ r) = true → opensBlank (text ++ r) = false := by
    intro hs
    rw [startsHere_eq, Bool.not_eq_true', opensGap, Bool.or_eq_false_iff, Bool.or_eq_false_iff] at hs
    exact hs.1.1
  cases goal with
  | gap => exact absurd rfl hg
  | part =>
    dsimp only [Goal.length?] at hl
    unfold partLength? at hl
    split at hl
    next heq =>
      rw [heq]
      rfl
    · simp at hl
  | plain | pattern | bracket =>
    rw [Goal.length?] at hl
    split at hl
    next hs => exact hhere hs
    · simp at hl

end Gaps

section Outdenting

variable {k m : Nat} {fresh : Bool} {r : Text} {p : Piece}

theorem Piece.Fits.head_token (h : p.Fits fresh r) (hg : p.goal ≠ .gap) :
    ∃ c u, p.text = c :: u ∧ isSpace c = false := by
  obtain ⟨c, u, ht⟩ := exists_cons_of_ne_nil h.1
  refine ⟨c, u, ht, ?_⟩
  have hb := h.opensBlank_token hg
  rw [ht, opensBlank, Bool.or_eq_false_iff] at hb
  rw [Bool.eq_false_iff]
  intro hs
  have hc := hb.2
  simp [isGapCharacter_of_isSpace hs] at hc

theorem Piece.Fits.unindent_line (h : p.Fits fresh r) (ht : p.text = c :: u)
    (hc : isSpace c = false) (hn : '\n' ∉ u) (k m : Nat) :
    unindent k m p.text = p.text ∧ remaining k m p.text = 0 ∧ p.Fits fresh (unindent k 0 r) := by
  obtain ⟨hu, hr⟩ := unindent_cons hc k m u
  obtain ⟨hu', hr'⟩ := unindent_of_not_mem (k := k) hn
  refine ⟨?_, ?_, h.of_alike (.of_ahead_eq (ahead_unindent 3 k r).symm)⟩
  · rw [ht, hu, hu']
  · rw [ht, hr, hr']

theorem Piece.Fits.unindent_gap (h : p.Fits fresh r) (hg : p.goal = .gap) (hm : 0 < m → fresh = true) :
    (0 < remaining k m p.text → p.leaves fresh = true) ∧ (unindent k m p.text = [] ∧ p.leaves fresh = fresh ∨
        Piece.Fits fresh ⟨.gap, unindent k m p.text⟩ (unindent k (remaining k m p.text) r) ∧
          Piece.leaves fresh ⟨.gap, unindent k m p.text⟩ = p.leaves fresh) := by
  obtain ⟨goal, text⟩ := p
  subst hg
  rcases h.gap_cases rfl with ⟨u, ht, hu⟩ | ⟨body, ht, hb⟩ | ⟨c, ht, hc⟩
  · have hn : '\n' ∉ '/' :: u := by
      rintro hmem
      rcases mem_cons.mp hmem with hmem | hmem
      · simp at hmem
      · have := hu _ hmem
        simp [isLineEnd] at this
    obtain ⟨hs, hr, hf⟩ := h.unindent_line ht (by decide) hn k m
    rw [hs, hr]
    exact ⟨fun h0 => absurd h0 (Nat.lt_irrefl 0), .inr ⟨hf, rfl⟩⟩
  · have hends : ∀ m, unindent k m ['*', '/'] = ['*', '/'] ∧ remaining k m ['*', '/'] = 0 := by
      intro m
      obtain ⟨hu, hr⟩ := unindent_cons (by decide : isSpace '*' = false) k m ['/']
      obtain ⟨hu', hr'⟩ := unindent_of_not_mem (by decide : '\n' ∉ ['/'])
      exact ⟨by rw [hu, hu'], by rw [hr, hr']⟩
    obtain ⟨hu, hr⟩ := unindent_cons (by decide : isSpace '/' = false) k m ('*' :: (body ++ ['*', '/']))
    obtain ⟨hu', hr'⟩ := unindent_cons (by decide : isSpace '*' = false) k 0 (body ++ ['*', '/'])
    have hs : unindent k m text = '/' :: '*' :: (unindent k 0 body ++ ['*', '/']) := by
      rw [show text = _ from ht, hu, hu', unindent_append, (hends _).1]
    have hr : remaining k m text = 0 := by
      rw [show text = _ from ht, hr, hr', remaining_append, (hends _).2]
    have hlines : Piece.leaves fresh ⟨.gap, unindent k m text⟩ = Piece.leaves fresh ⟨.gap, text⟩ := by
      rw [hs, show text = _ from ht]
      simp [Piece.leaves, any_isLineEnd_unindent]
    rw [hr]
    refine ⟨fun h0 => absurd h0 (Nat.lt_irrefl 0), .inr ⟨?_, hlines⟩⟩
    rw [hs]
    exact fits_block (fun hi => hb (infix_of_unindent (by decide) hi)) fresh _
  · dsimp only at ht
    subst ht
    rw [unindent, remaining]
    by_cases hdrop : 0 < m ∧ isSpace c = true ∧ c ≠ '\n'
    · rw [if_pos hdrop, if_pos hdrop, hm hdrop.1]
      exact ⟨fun _ => rfl, .inl ⟨rfl, rfl⟩⟩
    · rw [if_neg hdrop, if_neg hdrop]
      refine ⟨fun h0 => ?_, .inr ⟨fits_character hc fresh _, rfl⟩⟩
      by_cases hn : c = '\n'
      · subst hn
        simp [Piece.leaves, isLineEnd]
      · rw [if_neg hn] at h0
        exact absurd h0 (Nat.lt_irrefl 0)

def outdented (k : Nat) : Nat → List Piece → List Piece
  | _, [] => []
  | m, p :: ps =>
    if unindent k m p.text = [] then outdented k (remaining k m p.text) ps
    else ⟨p.goal, unindent k m p.text⟩ :: outdented k (remaining k m p.text) ps

theorem join_outdented (k m : Nat) (ps : List Piece) : join (outdented k m ps) = unindent k m (join ps) := by
  induction ps generalizing m with
  | nil => rfl
  | cons p ps ih =>
    rw [outdented, join_cons, unindent_append]
    split
    next h => rw [h, ih, nil_append]
    · rw [join_cons, ih]

theorem tokens_gap (hg : p.goal = .gap) (ps : List Piece) : tokens (p :: ps) = tokens ps := by
  simp [tokens, hg]

theorem tokens_token (hg : p.goal ≠ .gap) (ps : List Piece) : tokens (p :: ps) = p :: tokens ps := by
  simp [tokens, hg]

theorem leaves_token (hg : p.goal ≠ .gap) : p.leaves fresh = false := by
  simp [Piece.leaves, hg]

def OnOneLine (ps : List Piece) : Prop := ∀ p ∈ ps, p.goal ≠ .gap → '\n' ∉ p.text

instance (ps : List Piece) : Decidable (OnOneLine ps) :=
  inferInstanceAs (Decidable (∀ p ∈ ps, p.goal ≠ .gap → '\n' ∉ p.text))

theorem reads_outdented (h : Reads fresh ps) (hm : 0 < m → fresh = true)
    (ht : OnOneLine ps) : Reads fresh (outdented k m ps) ∧ tokens (outdented k m ps) = tokens ps := by
  induction ps generalizing m fresh with
  | nil => exact ⟨trivial, rfl⟩
  | cons p ps ih =>
    obtain ⟨hp, hps⟩ := h
    have ht' : OnOneLine ps := fun q hq => ht q (mem_cons_of_mem p hq)
    by_cases hg : p.goal = .gap
    · obtain ⟨hrem, hcases⟩ := hp.unindent_gap (k := k) hg hm
      obtain ⟨hreads, htokens⟩ := ih hps hrem ht'
      rw [outdented]
      rcases hcases with ⟨hnil, hleaves⟩ | ⟨hfits, hleaves⟩
      · rw [if_pos hnil, tokens_gap hg]
        rw [hleaves] at hreads
        exact ⟨hreads, htokens⟩
      · rw [if_neg hfits.1, tokens_gap hg, hg, tokens_gap rfl]
        refine ⟨⟨?_, ?_⟩, htokens⟩
        · rwa [join_outdented]
        · rwa [hleaves]
    · obtain ⟨c, u, htext, hc⟩ := hp.head_token hg
      have hn : '\n' ∉ p.text := ht p mem_cons_self hg
      have hnu : '\n' ∉ u := fun hu => hn (by rw [htext]; exact mem_cons_of_mem c hu)
      obtain ⟨hs, hr, hf⟩ := hp.unindent_line htext hc hnu k m
      rw [leaves_token hg] at hps
      obtain ⟨hreads, htokens⟩ := ih hps (fun h0 => absurd h0 (Nat.lt_irrefl 0)) ht'
      rw [outdented, hs, if_neg hp.1, hr]
      refine ⟨⟨?_, ?_⟩, ?_⟩
      · rwa [join_outdented]
      · rwa [leaves_token hg]
      · rw [tokens_token hg, tokens_token hg, htokens]

theorem Piece.Fits.eq_gap {q : Piece} {r' : Text} (h : p.Fits fresh r) (h' : q.Fits fresh r')
    (hp : p.goal = .gap) (hq : q.goal = .gap) (ht : p.text ++ r = q.text ++ r') : p = q ∧ r = r' := by
  have hl := h.2
  have hl' := h'.2
  rw [hp, ht] at hl
  rw [hq, hl] at hl'
  obtain ⟨htext, hr⟩ := append_inj ht (Option.some.inj hl')
  obtain ⟨goal, text⟩ := p
  obtain ⟨goal', text'⟩ := q
  dsimp only at hp hq htext
  rw [hp, hq, htext]
  exact ⟨rfl, hr⟩

theorem Indented.of_append {t : Text} (h : Indented k (x ++ t)) : Indented k t := by
  rintro y w c z rfl hw hc
  exact h (x ++ y) w c z (by rw [append_assoc]) hw hc

theorem append_inj_of_count {x' y' : Text} (h : x ++ '\n' :: y = x' ++ '\n' :: y')
    (hc : x.count '\n' = x'.count '\n') : x = x' ∧ y = y' := by
  rcases append_eq_append_iff.mp h with ⟨s, hx, hy⟩ | ⟨s, hx, hy⟩
  · cases s with
    | nil =>
      rw [append_nil] at hx
      exact ⟨hx.symm, (List.cons.inj hy).2⟩
    | cons d s =>
      obtain ⟨rfl, -⟩ := List.cons.inj hy
      rw [hx, count_append, count_cons_self] at hc
      omega
  · cases s with
    | nil =>
      rw [append_nil] at hx
      exact ⟨hx, (List.cons.inj hy).2.symm⟩
    | cons d s =>
      obtain ⟨rfl, -⟩ := List.cons.inj hy
      rw [hx, count_append, count_cons_self] at hc
      omega

theorem exists_last_line (h : '\n' ∈ t) : ∃ x z, t = x ++ '\n' :: z ∧ '\n' ∉ z := by
  obtain ⟨z, x, ht, hz⟩ := eq_append_cons_of_mem (mem_reverse.mpr h)
  refine ⟨x.reverse, z.reverse, ?_, fun hm => hz (mem_reverse.mp hm)⟩
  rw [← reverse_reverse t, ht]
  simp

theorem exists_solid (h : ¬ ∀ c ∈ t, isSpace c = true) :
    ∃ w c y, t = w ++ c :: y ∧ (∀ d ∈ w, isSpace d = true) ∧ isSpace c = false := by
  induction t with
  | nil => simp at h
  | cons d t ih =>
    cases hd : isSpace d with
    | false => exact ⟨[], d, t, rfl, by simp, hd⟩
    | true =>
      obtain ⟨w, c, y, rfl, hw, hc⟩ := ih fun hall => h (by simpa [hd] using hall)
      exact ⟨d :: w, c, y, rfl, by simpa [hd] using hw, hc⟩

theorem Piece.Fits.not_prefix_unindent (h : p.Fits fresh r) (hg : p.goal ≠ .gap) (hk : 0 < k)
    (hi : Indented k (p.text ++ r)) (hn : '\n' ∈ p.text) (t : Text) :
    p.text ++ t ≠ unindent k m (p.text ++ r) := by
  -- The last line of the token, with its indentation `w`, of which `k` characters would go.
  obtain ⟨x, z, htext, hz⟩ := exists_last_line hn
  have hlast : ∀ c, z.getLast? = some c → isSpace c = false := by
    intro c hc
    apply h.ends hg
    rw [htext, getLast?_append, getLast?_cons, hc]
    rfl
  obtain ⟨w, c, z, rfl, hw, hc⟩ : ∃ w c y, z = w ++ c :: y ∧ (∀ d ∈ w, isSpace d = true) ∧ isSpace c = false := by
    apply exists_solid
    intro hblank
    cases hl : z.getLast? with
    | none =>
      rw [getLast?_eq_none_iff.mp hl] at htext
      have := h.ends hg (show p.text.getLast? = some '\n' by rw [htext]; simp)
      simp [isSpace] at this
    | some c =>
      have := hblank c (mem_of_getLast? hl)
      rw [hlast c hl] at this
      simp at this
  have hw' : ∀ d ∈ w, isSpace d = true ∧ d ≠ '\n' := by
    intro d hd
    refine ⟨hw d hd, ?_⟩
    rintro rfl
    exact hz (mem_append_left _ hd)
  have hr : p.text ++ r = x ++ '\n' :: (w ++ c :: (z ++ r)) := by simp [htext]
  have ht : p.text ++ t = x ++ '\n' :: (w ++ c :: (z ++ t)) := by simp [htext]
  have hkw := hi x w c (z ++ r) hr hw' hc
  rw [hr, ht, unindent_append, unindent_lineFeed, unindent_spaces hw' hkw, (unindent_cons hc k 0 _).1]
  intro heq
  have hrest := (append_inj_of_count heq (count_unindent k m x).symm).2
  have hspaces := congrArg (List.takeWhile isSpace) hrest
  rw [takeWhile_append_of_pos hw, takeWhile_append_of_pos fun d hd => hw d (mem_of_mem_drop hd),
    takeWhile_cons_of_neg (by simp [hc]), takeWhile_cons_of_neg (by simp [hc]), append_nil,
    append_nil] at hspaces
  have hlen := congrArg List.length hspaces
  rw [length_drop] at hlen
  omega

theorem Piece.Fits.opensBlank_unindent (h : p.Fits fresh r) (hg : p.goal ≠ .gap) (k m : Nat) :
    opensBlank (unindent k m (p.text ++ r)) = false := by
  obtain ⟨c, u, htext, hc⟩ := h.head_token hg
  have hb := h.opensBlank_token hg
  rw [htext, cons_append] at hb ⊢
  rw [(unindent_cons hc k m _).1]
  exact opensBlank_local (u := [c]) (.of_ahead_eq (ahead_unindent 3 k _).symm) (by simp) hb

theorem onOneLine_of_unindent {ps qs : List Piece} (h : Reads fresh ps) (h' : Reads fresh qs)
    (hm : 0 < m → fresh = true) (hj : join qs = unindent k m (join ps)) (ht : tokens qs = tokens ps)
    (hk : 0 < k) (hi : Indented k (join ps)) : OnOneLine ps := by
  induction ps generalizing m fresh qs with
  | nil => simp [OnOneLine]
  | cons p ps ih =>
    obtain ⟨hp, hps⟩ := h
    rw [join_cons] at hj
    have hi' : Indented k (join ps) := hi.of_append
    by_cases hg : p.goal = .gap
    · suffices hrest : OnOneLine ps by
        intro q hq hqg
        rcases mem_cons.mp hq with rfl | hq
        · exact absurd hg hqg
        · exact hrest q hq hqg
      obtain ⟨hrem, hcases⟩ := hp.unindent_gap (k := k) hg hm
      rw [tokens_gap hg] at ht
      rw [unindent_append] at hj
      rcases hcases with ⟨hnil, hleaves⟩ | ⟨hfits, hleaves⟩
      · rw [hnil, nil_append] at hj
        rw [hleaves] at hps hrem
        exact ih hps h' hrem hj ht hi'
      · cases qs with
        | nil => exact absurd (append_eq_nil_iff.mp hj.symm).1 hfits.1
        | cons q qs =>
          obtain ⟨hq, hqs⟩ := h'
          have hqg : q.goal = .gap := by
            by_cases hqg : q.goal = .gap
            · exact hqg
            · have hb := hfits.opensBlank_gap rfl
              rw [← hj, join_cons, hq.opensBlank_token hqg] at hb
              simp at hb
          obtain ⟨rfl, hrest⟩ := hfits.eq_gap hq rfl hqg hj.symm
          rw [hleaves] at hqs
          exact ih hps hqs hrem hrest.symm (by rw [← ht, tokens_gap rfl]) hi'
    · cases qs with
      | nil =>
        rw [tokens_token hg] at ht
        simp [tokens] at ht
      | cons q qs =>
        obtain ⟨hq, hqs⟩ := h'
        have hqg : q.goal ≠ .gap := by
          intro hqg
          have hb := hq.opensBlank_gap hqg
          rw [show q.text ++ join qs = _ from hj, hp.opensBlank_unindent hg] at hb
          simp at hb
        rw [tokens_token hg, tokens_token hqg] at ht
        obtain ⟨rfl, ht'⟩ := List.cons.inj ht
        have hn : '\n' ∉ q.text := fun hn => hp.not_prefix_unindent hg hk hi hn (join qs) hj
        obtain ⟨c, u, htext, hc⟩ := hp.head_token hg
        have hnu : '\n' ∉ u := fun hu => hn (by rw [htext]; exact mem_cons_of_mem c hu)
        obtain ⟨hs, hr, -⟩ := hp.unindent_line htext hc hnu k m
        rw [join_cons, unindent_append, hs, hr, append_cancel_left_eq] at hj
        have hrest := ih hps hqs (fun h0 => absurd h0 (Nat.lt_irrefl 0)) hj ht' hi'
        intro q' hq' hqg'
        rcases mem_cons.mp hq' with rfl | hq'
        · exact hn
        · exact hrest q' hq' hqg'

/-- A text without the indentation of its place is read as the same tokens exactly if it had none or
no token goes over several lines. -/
theorem readAs_dedent_iff (h : Reads false ps) :
    ReadAs (dedent (join ps)) (tokens ps) ↔ dedent (join ps) = join ps ∨ OnOneLine ps := by
  cases hb : (join ps).contains '\x60' with
  | true =>
    have hd : dedent (join ps) = join ps := by rw [dedent, hb, if_pos rfl]
    exact ⟨fun _ => .inl hd, fun _ => ⟨ps, hd.symm, h, rfl⟩⟩
  | false =>
    have hd := dedent_eq_unindent hb
    constructor
    · rintro ⟨qs, hj, hqs, ht⟩
      rw [hd] at hj
      rcases Nat.eq_zero_or_pos (sharedIndentation (join ps)) with hk | hk
      · rw [hd, hk, unindent_zero]
        exact .inl rfl
      · exact .inr (onOneLine_of_unindent h hqs (fun h0 => absurd h0 (Nat.lt_irrefl 0)) hj ht hk
          (indented_sharedIndentation _))
    · rintro (heq | hone)
      · exact ⟨ps, heq.symm, h, rfl⟩
      · obtain ⟨hreads, htokens⟩ := reads_outdented (k := sharedIndentation (join ps)) h
          (fun h0 => absurd h0 (Nat.lt_irrefl 0)) hone
        exact ⟨_, by rw [join_outdented, hd], hreads, htokens⟩

end Outdenting

section Trimming

variable {fresh : Bool} {r : Text} {p : Piece}

theorem Piece.Fits.not_fresh (h : p.Fits true r) : p.Fits false r := by
  obtain ⟨goal, text⟩ := p
  obtain ⟨hne, hl⟩ := h
  refine ⟨hne, ?_⟩
  have hopen : ∀ t, opensGap true t = false → opensGap false t = false := by
    intro t ht
    rw [opensGap, Bool.or_eq_false_iff] at ht ⊢
    exact ⟨ht.1, rfl⟩
  have hhere : startsHere true (text ++ r) = true → startsHere false (text ++ r) = true := by
    rw [startsHere_eq, startsHere_eq, Bool.not_eq_true', Bool.not_eq_true']
    exact hopen _
  cases goal with
  | gap | part => exact hl
  | pattern | bracket =>
    rw [Goal.length?] at hl ⊢
    split at hl
    next hs => rw [if_pos (hhere hs), hl]
    · simp at hl
  | plain =>
    obtain ⟨c, u, rfl⟩ := exists_cons_of_ne_nil hne
    rw [cons_append, plain_length?_cons] at hl ⊢
    split at hl
    · simp at hl
    next ho => rw [if_neg (by simpa using hopen _ (by simpa using ho)), hl]

theorem Reads.not_fresh (h : Reads true ps) : Reads false ps := by
  induction ps with
  | nil => trivial
  | cons p ps ih =>
    obtain ⟨hp, hps⟩ := h
    refine ⟨hp.not_fresh, ?_⟩
    by_cases hg : p.goal = .gap
    · rw [show p.leaves true = true by simp [Piece.leaves, hg]] at hps
      cases p.leaves false with
      | true => exact hps
      | false => exact ih hps
    · rwa [leaves_token hg] at hps ⊢

theorem readAs_trimStart (h : Reads fresh ps) :
    ∃ qs, join qs = trimStart (join ps) ∧ Reads false qs ∧ tokens qs = tokens ps := by
  induction ps generalizing fresh with
  | nil => exact ⟨[], rfl, trivial, rfl⟩
  | cons p ps ih =>
    obtain ⟨hp, hps⟩ := h
    obtain ⟨c, u, htext⟩ := exists_cons_of_ne_nil hp.1
    rw [join_cons, htext, cons_append, trimStart, dropWhile_cons]
    split
    next hc =>
      have hg : p.goal = .gap := by
        by_cases hg : p.goal = .gap
        · exact hg
        · obtain ⟨d, v, hd, hs⟩ := hp.head_token hg
          obtain ⟨rfl, -⟩ := List.cons.inj (htext.symm.trans hd)
          simp [hs] at hc
      obtain rfl : u = [] := by
        rcases hp.gap_cases hg with ⟨v, hv, -⟩ | ⟨v, hv, -⟩ | ⟨d, hd, -⟩
        · obtain ⟨rfl, -⟩ := List.cons.inj (htext.symm.trans hv)
          simp [isSpace] at hc
        · obtain ⟨rfl, -⟩ := List.cons.inj (htext.symm.trans hv)
          simp [isSpace] at hc
        · exact (List.cons.inj (htext.symm.trans hd)).2
      obtain ⟨qs, hj, hqs, ht⟩ := ih hps
      exact ⟨qs, hj, hqs, by rw [ht, tokens_gap hg]⟩
    · refine ⟨p :: ps, by rw [join_cons, htext, cons_append], ?_, rfl⟩
      cases fresh with
      | true => exact Reads.not_fresh ⟨hp, hps⟩
      | false => exact ⟨hp, hps⟩

theorem ahead_mono {v : Text} (h : w <+: v) (n : Nat) : ahead n w <+: ahead n v := by
  induction n generalizing w v with
  | zero => exact List.nil_prefix
  | succ n ih =>
    cases w with
    | nil => exact List.nil_prefix
    | cons c w =>
      obtain ⟨b, rfl⟩ := h
      rw [cons_append, ahead, ahead]
      split
      · exact prefix_refl _
      · exact cons_prefix_cons.mpr ⟨rfl, ih (prefix_append w b)⟩

theorem alike_trimEnd (t : Text) : Alike t (trimEnd t) := by
  obtain ⟨b, ht, hb⟩ := trimEnd_spec t
  refine ⟨ahead_mono ⟨b, ht.symm⟩ 3, fun hd hf => ?_⟩
  obtain ⟨v, hv⟩ := head?_eq_some_iff.mp hd
  rw [hv] at ht ⊢
  cases v with
  | cons d v =>
    rw [ht] at hf
    exact hf
  | nil =>
    rw [ht] at hf
    obtain ⟨d, hr, hdigit⟩ := (Option.any_eq_true _ _).mp hf
    have hs := hb d (mem_of_head? hr)
    rw [not_isSpace (by decide) hdigit] at hs
    simp at hs

theorem fits_line (h : ∀ c ∈ u, isLineEnd c = false) (fresh : Bool) :
    Piece.Fits fresh ⟨.gap, '/' :: '/' :: u⟩ [] := by
  refine ⟨by simp, ?_⟩
  have hu : List.takeWhile (!isLineEnd ·) (u ++ []) = u ++ List.takeWhile (!isLineEnd ·) [] :=
    takeWhile_append_of_pos (by simpa using h)
  rw [takeWhile_nil, append_nil] at hu
  simp only [Goal.length?, append_nil, gapLength?_line, hu]
  rfl

theorem readAs_trimEnd_gap (h : p.Fits fresh r) (hg : p.goal = .gap) :
    ∃ qs, join qs = trimEnd p.text ∧ Reads fresh qs ∧ tokens qs = [] := by
  have hone : ∀ {t}, trimEnd p.text = t → Piece.Fits fresh ⟨.gap, t⟩ [] →
      ∃ qs, join qs = trimEnd p.text ∧ Reads fresh qs ∧ tokens qs = [] := by
    rintro t rfl hf
    exact ⟨[⟨.gap, trimEnd p.text⟩], by simp [join], ⟨hf, trivial⟩, rfl⟩
  rcases h.gap_cases hg with ⟨u, ht, hu⟩ | ⟨body, ht, hb⟩ | ⟨c, ht, hc⟩
  · obtain ⟨b, hb, -⟩ := trimEnd_spec u
    have htrim : trimEnd p.text = '/' :: '/' :: trimEnd u := by
      rw [ht, show '/' :: '/' :: u = ['/', '/'] ++ u from rfl, trimEnd_append]
      split
      next hnil => rw [hnil]; rfl
      · rfl
    exact hone htrim (fits_line (fun c hc => hu c (by rw [hb]; exact mem_append_left _ hc)) fresh)
  · have hlast : ∀ c, p.text.getLast? = some c → isSpace c = false := by
      intro c hc
      obtain rfl : '/' = c := by
        rw [ht, show '/' :: '*' :: (body ++ ['*', '/']) = ('/' :: '*' :: (body ++ ['*'])) ++ ['/'] by simp,
          getLast?_concat] at hc
        exact Option.some.inj hc
      decide
    exact hone ((trimEnd_eq_self hlast).trans ht) (fits_block hb fresh [])
  · cases hs : isSpace c with
    | true => exact ⟨[], by simp [ht, trimEnd, hs, join], trivial, rfl⟩
    | false =>
      have htrim : trimEnd p.text = [c] := by simp [ht, trimEnd, hs]
      exact hone htrim (fits_character hc fresh [])

theorem readAs_trimEnd (h : Reads fresh ps) :
    ∃ qs, join qs = trimEnd (join ps) ∧ Reads fresh qs ∧ tokens qs = tokens ps := by
  induction ps generalizing fresh with
  | nil => exact ⟨[], rfl, trivial, rfl⟩
  | cons p ps ih =>
    obtain ⟨hp, hps⟩ := h
    obtain ⟨qs, hj, hqs, ht⟩ := ih hps
    rw [join_cons, trimEnd_append]
    split
    next hnil =>
      obtain rfl : qs = [] := by
        cases qs with
        | nil => rfl
        | cons q qs => exact absurd (append_eq_nil_iff.mp (hj.trans hnil)).1 hqs.1.1
      by_cases hg : p.goal = .gap
      · rw [tokens_gap hg, ← ht]
        exact readAs_trimEnd_gap hp hg
      · refine ⟨[p], ?_, ⟨?_, trivial⟩, by rw [tokens_token hg, tokens_token hg, ht]⟩
        · rw [trimEnd_eq_self fun c hc => hp.ends hg hc]
          simp [join]
        · rw [hj]
          exact hp.of_alike (alike_trimEnd _)
    · refine ⟨p :: qs, by rw [join_cons, hj], ⟨?_, hqs⟩, ?_⟩
      · rw [hj]
        exact hp.of_alike (alike_trimEnd _)
      · by_cases hg : p.goal = .gap
        · rw [tokens_gap hg, tokens_gap hg, ht]
        · rw [tokens_token hg, tokens_token hg, ht]

theorem readAs_trim (h : Reads false ps) : ReadAs (trim (join ps)) (tokens ps) := by
  obtain ⟨qs, hj, hqs, ht⟩ := readAs_trimStart h
  obtain ⟨rs, hj', hrs, ht'⟩ := readAs_trimEnd hqs
  exact ⟨rs, by rw [hj', hj, trim], hrs, by rw [ht', ht]⟩

end Trimming

end ComponentConverter.Script
