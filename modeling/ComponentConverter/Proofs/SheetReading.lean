import ComponentConverter.Proofs.SheetScanning

namespace ComponentConverter.Style

namespace Lexis

variable {rules : List Rule} {c : Char}

variable {σ : Type} {L : Lexis σ} {t t' u v w x r rest rest' : Text}

def head (L : Lexis σ) (t : Text) : Text × Text := L.scan .head L.outside t

def body (L : Lexis σ) (t : Text) : Text × Text := L.scan .body L.outside t

inductive Parts (L : Lexis σ) : Text → List Text → Prop where
  | last {t u : Text} (h : L.scan .selector L.outside t = (u, [])) : Parts L t [u]
  | more {t u r : Text} {parts : List Text} (h : L.scan .selector L.outside t = (u, ',' :: r))
      (hr : Parts L r parts) : Parts L t (u :: parts)

def Begins (c : Char) : Prop := isSpace c = false ∧ c ≠ '\x7d'

/-- The rules that a text falls into, and the text from a closing brace on that closes none. -/
inductive Reads (L : Lexis σ) : Text → List Rule → Text → Prop where
  | nil : Reads L [] [] []
  | brace (t : Text) : Reads L ('\x7d' :: t) [] ('\x7d' :: t)
  | space {c : Char} {t rest : Text} {rules : List Rule} (hc : isSpace c = true)
      (h : Reads L (t.dropWhile isSpace) rules rest) :
      Reads L (c :: t) (.space (c :: t.takeWhile isSpace) :: rules) rest
  | statement {c : Char} {t u v rest : Text} {rules : List Rule} (hc : Begins c)
      (hu : L.head (c :: t) = (u, ';' :: v)) (h : Reads L v rules rest) :
      Reads L (c :: t) (.statement u :: rules) rest
  | unfinished {c : Char} {t u : Text} (hc : Begins c) (hu : L.head (c :: t) = (u, [])) :
      Reads L (c :: t) [.unfinished u] []
  | style {c : Char} {t u v body w x rest : Text} {isClosed : Bool} {rules : List Rule}
      (hc : Begins c) (hat : c ≠ '@') (hu : L.head (c :: t) = (u, '\x7b' :: v))
      (hb : L.body v = (body, w)) (hw : closing w = (isClosed, x)) (h : Reads L x rules rest) :
      Reads L (c :: t) (.style u body isClosed :: rules) rest
  | block {t u v body w x rest : Text} {isClosed : Bool} {rules : List Rule}
      (hg : isGroup u = false) (hu : L.head ('@' :: t) = (u, '\x7b' :: v))
      (hb : L.body v = (body, w)) (hw : closing w = (isClosed, x)) (h : Reads L x rules rest) :
      Reads L ('@' :: t) (.block u body isClosed :: rules) rest
  | group {t u v w x rest : Text} {isClosed : Bool} {inner rules : List Rule}
      (hg : isGroup u = true) (hu : L.head ('@' :: t) = (u, '\x7b' :: v))
      (hin : Reads L v inner w) (hw : closing w = (isClosed, x)) (h : Reads L x rules rest) :
      Reads L ('@' :: t) (.group u inner isClosed :: rules) rest

theorem eq_brace_append {b : Bool} (h : closing w = (b, x)) : w = brace b ++ x := by
  rw [closing.eq_def] at h
  split at h
  · cases h
    rfl
  · cases h
    rfl

theorem eq_of_head (h : L.head t = (u, r)) : t = u ++ r := (scan_eq_iff.mp h).1

theorem eq_of_body (h : L.body t = (u, r)) : t = u ++ r := (scan_eq_iff.mp h).1

theorem Reads.text_eq (h : L.Reads t rules rest) : textOfRules rules ++ rest = t := by
  induction h with
  | nil => rfl
  | brace t => rfl
  | space hc h ih => simp [textOfRules, Rule.text, ih, List.takeWhile_append_dropWhile]
  | statement hc hu h ih => simp [textOfRules, Rule.text, ih, eq_of_head hu]
  | unfinished hc hu => simp [textOfRules, Rule.text, eq_of_head hu]
  | style hc hat hu hb hw h ih =>
    simp [textOfRules, Rule.text, ih, eq_of_head hu, eq_of_body hb, eq_brace_append hw]
  | block hg hu hb hw h ih =>
    simp [textOfRules, Rule.text, ih, eq_of_head hu, eq_of_body hb, eq_brace_append hw]
  | group hg hu hin hw h ihin ih =>
    rw [eq_brace_append hw] at ihin
    simp [textOfRules, Rule.text, eq_of_head hu, ← ihin, ih]

theorem begins_at : Begins '@' := ⟨by decide, by decide⟩

theorem not_begins_brace : ¬ Begins '\x7d' := fun h => h.2 rfl

theorem head_cases (h : L.head t = (u, r)) : r = [] ∨ (∃ v, r = ';' :: v) ∨ ∃ v, r = '\x7b' :: v := by
  cases r with
  | nil => exact .inl rfl
  | cons c v =>
    have hc : c = '\x7b' ∨ c = ';' := by simpa using mem_of_scan_eq rfl h
    rcases hc with rfl | rfl
    · exact .inr (.inr ⟨v, rfl⟩)
    · exact .inr (.inl ⟨v, rfl⟩)

theorem body_cases (h : L.body t = (u, r)) : r = [] ∨ ∃ x, r = '\x7d' :: x := by
  cases r with
  | nil => exact .inl rfl
  | cons c x =>
    obtain rfl : c = '\x7d' := by simpa using mem_of_scan_eq rfl h
    exact .inr ⟨x, rfl⟩

theorem Reads.rest_cases (h : L.Reads t rules rest) : rest = [] ∨ ∃ x, rest = '\x7d' :: x := by
  induction h with
  | nil => exact .inl rfl
  | brace t => exact .inr ⟨t, rfl⟩
  | unfinished => exact .inl rfl
  | space hc h ih => exact ih
  | statement hc hu h ih => exact ih
  | style hc hat hu hb hw h ih => exact ih
  | block hg hu hb hw h ih => exact ih
  | group hg hu hin hw h ihin ih => exact ih

theorem length_lt_of_head (h : L.head t = (u, c :: v)) : v.length < t.length := by
  rw [eq_of_head h]
  simp
  omega

theorem length_le_of_closing {b : Bool} (h : closing w = (b, x)) : x.length ≤ w.length := by
  simp [eq_brace_append h]

theorem length_le_of_body (h : L.body t = (u, r)) : r.length ≤ t.length := by
  simp [eq_of_body h]

theorem Reads.length_le (h : L.Reads t rules rest) : rest.length ≤ t.length := by
  simp [← h.text_eq]

theorem exists_reads (L : Lexis σ) (t : Text) : ∃ rules rest, L.Reads t rules rest := by
  induction hn : t.length using Nat.strongRecOn generalizing t with
  | ind n ih =>
    have hread (v : Text) (hv : v.length < t.length) : ∃ rules rest, L.Reads v rules rest :=
      ih v.length (hn ▸ hv) v rfl
    cases t with
    | nil => exact ⟨[], [], .nil⟩
    | cons c t =>
      by_cases hbrace : c = '\x7d'
      · subst hbrace
        exact ⟨[], '\x7d' :: t, .brace t⟩
      by_cases hspace : isSpace c = true
      · obtain ⟨rules, rest, h⟩ := hread (t.dropWhile isSpace)
          (Nat.lt_succ_of_le (List.dropWhile_sublist isSpace).length_le)
        exact ⟨_, rest, .space hspace h⟩
      have hc : Begins c := ⟨by simpa using hspace, hbrace⟩
      obtain ⟨u, r, hu⟩ : ∃ u r, L.head (c :: t) = (u, r) := ⟨_, _, rfl⟩
      rcases head_cases hu with rfl | ⟨v, rfl⟩ | ⟨v, rfl⟩
      · exact ⟨_, [], .unfinished hc hu⟩
      · obtain ⟨rules, rest, h⟩ := hread v (length_lt_of_head hu)
        exact ⟨_, rest, .statement hc hu h⟩
      obtain ⟨body, w, hb⟩ : ∃ body w, L.body v = (body, w) := ⟨_, _, rfl⟩
      obtain ⟨b, x, hw⟩ : ∃ b x, closing w = (b, x) := ⟨_, _, rfl⟩
      have hv := length_lt_of_head hu
      obtain ⟨rules, rest, h⟩ := hread x
        (Nat.lt_of_le_of_lt (Nat.le_trans (length_le_of_closing hw) (length_le_of_body hb)) hv)
      by_cases hat : c = '@'
      · subst hat
        by_cases hg : isGroup u = true
        · obtain ⟨inner, w', hin⟩ := hread v hv
          obtain ⟨b', x', hw'⟩ : ∃ b x, closing w' = (b, x) := ⟨_, _, rfl⟩
          obtain ⟨rules', rest', h'⟩ := hread x'
            (Nat.lt_of_le_of_lt (Nat.le_trans (length_le_of_closing hw') hin.length_le) hv)
          exact ⟨_, rest', .group hg hu hin hw' h'⟩
        · exact ⟨_, rest, .block (by simpa using hg) hu hb hw h⟩
      · exact ⟨_, rest, .style hc hat hu hb hw h⟩

theorem head_literal (t : Text) : literal.head t = takeUntil ['\x7b', ';'] .outside t := by
  rw [takeUntil_eq_scan]
  rfl

theorem body_literal (t : Text) : literal.body t = takeBody .plain 0 t := by
  rw [takeBody_eq_scan]
  rfl

theorem readRules_space (hc : isSpace c = true) (n : Nat) (t : Text) :
    readRules (n + 1) (c :: t) = (.space (c :: t.takeWhile isSpace) :: (readRules n (t.dropWhile isSpace)).1,
        (readRules n (t.dropWhile isSpace)).2) := by
  rw [readRules.eq_def]
  split
  next h => cases h
  next h => cases h
  next h => cases h; cases hc
  next h h' =>
    cases h
    cases h'
    rw [if_pos hc]

theorem readRules_begins (hc : Begins c) (n : Nat) (t : Text) : readRules (n + 1) (c :: t) =
      let followedBy (rule : Rule) (rest : Text) := (rule :: (readRules n rest).1, (readRules n rest).2)
      match literal.head (c :: t) with
      | (text, ';' :: rest) => followedBy (.statement text) rest
      | (head, '\x7b' :: rest) =>
        if c = '@' && isGroup head then
          followedBy (.group head (readRules n rest).1 (closing (readRules n rest).2).1)
            (closing (readRules n rest).2).2
        else
          let isClosed := (closing (literal.body rest).2).1
          followedBy
            (if c = '@' then .block head (literal.body rest).1 isClosed
              else .style head (literal.body rest).1 isClosed)
            (closing (literal.body rest).2).2
      | (text, rest) => ([.unfinished text], rest) := by
  rw [readRules.eq_def]
  split
  next h => cases h
  next h => cases h
  next h => cases h; exact absurd hc not_begins_brace
  next h h' =>
    cases h
    cases h'
    rw [head_literal, show literal.body = takeBody .plain 0 from funext body_literal]
    exact if_neg (by simp [hc.1])

theorem exists_fuel {n : Nat} (hn : (c :: t).length ≤ n) : ∃ k, n = k + 1 :=
  Nat.exists_eq_succ_of_ne_zero (Nat.ne_of_gt (Nat.lt_of_lt_of_le (by simp) hn))

theorem readRules_of_reads {n : Nat} (h : literal.Reads t rules rest)
    (hn : t.length ≤ n) : readRules n t = (rules, rest) := by
  induction h generalizing n with
  | nil | brace t => cases n <;> rfl
  | space hc h ih =>
    obtain ⟨n, rfl⟩ := exists_fuel hn
    have hdrop := Nat.le_trans (List.dropWhile_sublist isSpace).length_le (Nat.le_of_succ_le_succ hn)
    rw [readRules_space hc, ih hdrop]
  | statement hc hu h ih =>
    obtain ⟨n, rfl⟩ := exists_fuel hn
    have hv := length_lt_of_head hu
    simp [readRules_begins hc, hu, ih (by omega : _ ≤ n)]
  | unfinished hc hu =>
    obtain ⟨n, rfl⟩ := exists_fuel hn
    simp [readRules_begins hc, hu]
  | style hc hat hu hb hw h ih =>
    obtain ⟨n, rfl⟩ := exists_fuel hn
    have hv := length_lt_of_head hu
    have hx := length_le_of_body hb
    have hx' := length_le_of_closing hw
    simp [readRules_begins hc, hu, hb, hw, hat, ih (by omega : _ ≤ n)]
  | block hg hu hb hw h ih =>
    obtain ⟨n, rfl⟩ := exists_fuel hn
    have hv := length_lt_of_head hu
    have hx := length_le_of_body hb
    have hx' := length_le_of_closing hw
    simp [readRules_begins begins_at, hu, hb, hw, hg, ih (by omega : _ ≤ n)]
  | group hg hu hin hw h ihin ih =>
    obtain ⟨n, rfl⟩ := exists_fuel hn
    have hv := length_lt_of_head hu
    have hx := hin.length_le
    have hx' := length_le_of_closing hw
    simp [readRules_begins begins_at, hu, ihin (by omega : _ ≤ n), hw, hg, ih (by omega : _ ≤ n)]

theorem reads_read (t : Text) : literal.Reads t (Sheet.read t).rules (Sheet.read t).rest := by
  obtain ⟨rules, rest, h⟩ := exists_reads literal t
  rw [Sheet.read, readRules_of_reads h (Nat.le_refl _)]
  exact h

theorem read_of_reads (h : literal.Reads t rules rest) : Sheet.read t = ⟨rules, rest⟩ := by
  rw [Sheet.read, readRules_of_reads h (Nat.le_refl _)]

theorem splitCommas_eq_scan (p : Place) (t : Text) : splitCommas p t =
      match literal.scan .selector p.state t with
      | (u, []) => [u]
      | (u, _ :: r) => u :: splitCommas .outside r := by
  induction t generalizing p with
  | nil => rfl
  | cons c t ih =>
    have hstop : literal.stopsAt .selector p.state (c :: t) = (p = .outside && c = ',') := by
      rw [stopsAt_state]
      simp [Marks.selector, Marks.upTo, startsWithOne]
    rw [splitCommas, scan, hstop, next_state rfl rfl]
    by_cases hc : (p = .outside && c = ',') = true
    · rw [if_pos hc, if_pos hc]
      simp only [Bool.and_eq_true, decide_eq_true_eq] at hc
      rw [hc.1]
    · rw [if_neg hc, if_neg hc, ih]
      rcases literal.scan .selector (p.step c).state t with ⟨u, _ | ⟨d, r⟩⟩ <;> rfl

theorem exists_parts (L : Lexis σ) (t : Text) : ∃ parts, L.Parts t parts := by
  induction hn : t.length using Nat.strongRecOn generalizing t with
  | ind n ih =>
    rcases hs : L.scan .selector L.outside t with ⟨u, _ | ⟨c, r⟩⟩
    · exact ⟨[u], .last hs⟩
    · obtain rfl : c = ',' := by simpa using mem_of_scan_eq rfl hs
      have hr : r.length < t.length := by
        rw [(scan_eq_iff.mp hs).1, List.length_append, List.length_cons]
        omega
      obtain ⟨parts, h⟩ := ih r.length (hn ▸ hr) r rfl
      exact ⟨u :: parts, .more hs h⟩

theorem splitCommas_of_parts {parts : List Text} (h : literal.Parts t parts) : splitCommas .outside t = parts := by
  induction h with
  | last h =>
    rw [splitCommas_eq_scan, show Place.outside.state = literal.outside from rfl, h]
  | more h hr ih =>
    rw [splitCommas_eq_scan, show Place.outside.state = literal.outside from rfl, h]
    exact congrArg _ ih

theorem parts_splitCommas (t : Text) : literal.Parts t (splitCommas .outside t) := by
  obtain ⟨parts, h⟩ := exists_parts literal t
  rw [splitCommas_of_parts h]
  exact h

end Lexis

end ComponentConverter.Style
