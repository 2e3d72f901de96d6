import ComponentConverter.Markup.Cursor
import ComponentConverter.Proofs.Scanning
import ComponentConverter.Proofs.Slicing

namespace ComponentConverter.Markup

open List

variable {c x : Char} {t s r : Text} {k k' : Kind} {n : Nat}
variable {l : Text} {y : Char} {token : Token} {offset : Nat} {e : Cursor}

theorem isPlain_of_continuesName (h : continuesName c = true) : isPlain c = true := by
  have hne : ∀ d : Char, continuesName d = false → c ≠ d := by
    rintro d hd rfl
    simp [h] at hd
  simp [isPlain, isGap, hne ' ' (by decide), hne '\t' (by decide), hne '\r' (by decide),
    hne '\n' (by decide), hne '\x0c' (by decide), hne '<' (by decide), hne '>' (by decide),
    hne '=' (by decide), hne '"' (by decide), hne '\'' (by decide), hne '/' (by decide)]

theorem isPlain_of_isName (h : isName l = true) : ∀ c ∈ l, isPlain c = true := by
  cases l with
  | nil => simp
  | cons d t =>
    simp only [isName, Bool.and_eq_true, all_eq_true] at h
    intro c hc
    apply isPlain_of_continuesName
    rcases mem_cons.mp hc with rfl | hc
    · simp [continuesName, h.1]
    · exact h.2 c hc

theorem isGap_eq_false_of_isPlain (h : isPlain c = true) : isGap c = false := by
  simp only [isPlain, Bool.not_eq_true', Bool.or_eq_false_iff] at h
  exact h.1.1.1.1.1.1

def Stops (r : Text) : Prop := ∀ c ∈ r.head?, isPlain c = false

theorem takeWhile_isPlain {r : Text} (hl : ∀ c ∈ l, isPlain c = true) (hr : Stops r) :
    (l ++ r).takeWhile isPlain = l := by
  rw [takeWhile_append_of_pos hl]
  cases r with
  | nil => simp
  | cons c r => simp [hr c rfl]

theorem Kind.read_plain (t : Text) (h : isPlain c = true) : Kind.read (c :: t) =
      some (if isName (c :: t.takeWhile isPlain) then .name else .text, (t.takeWhile isPlain).length + 1) := by
  have hne : ∀ d : Char, isPlain d = false → c ≠ d := by
    rintro d hd rfl
    simp [h] at hd
  have h1 := hne '<' (by decide)
  have h2 := hne '>' (by decide)
  have h3 := hne '=' (by decide)
  have h4 := hne '"' (by decide)
  have h5 := hne '\'' (by decide)
  have h6 := hne '/' (by decide)
  rw [Kind.read.eq_def]
  split <;> simp_all

theorem Kind.read_tagOpen (t : Text) (h : c.isAlpha = true) : Kind.read ('<' :: c :: t) = some (.tagOpen, 1) := by
  have h1 : c ≠ '!' := by rintro rfl; simp at h
  have h2 : c ≠ '/' := by rintro rfl; simp at h
  simp [Kind.read, h1, h2]

def Kind.Spells (s : Text) : Kind → Prop
  | .commentOpen => s = ['<', '!', '-', '-']
  | .closeOpen => s = ['<', '/']
  | .tagOpen => s = ['<']
  | .tagClose => s = ['>']
  | .selfClose => s = ['/', '>']
  | .slash => s = ['/']
  | .equals => s = ['=']
  | .doubleQuote => s = ['"']
  | .singleQuote => s = ['\'']
  | .name => isName s = true
  | .text => s ≠ [] ∧ ∀ c ∈ s, isPlain c = true
  | .endOfFile => False

theorem Kind.spells_read (hc : isGap c = false) {n : Nat}
    (h : Kind.read (c :: t) = some (k, n)) : k.Spells ((c :: t).take n) := by
  by_cases hp : isPlain c = true
  · rw [Kind.read_plain t hp] at h
    simp only [Option.some.injEq, Prod.mk.injEq] at h
    obtain ⟨rfl, rfl⟩ := h
    have ht : (c :: t).take ((t.takeWhile isPlain).length + 1) = c :: t.takeWhile isPlain := by
      simp [← prefix_iff_eq_take.mp (List.takeWhile_prefix isPlain)]
    rw [ht]
    split
    next hn => exact hn
    · refine ⟨by simp, ?_⟩
      intro d hd
      rcases mem_cons.mp hd with rfl | hd
      · exact hp
      · exact all_eq_true.mp all_takeWhile d hd
  · simp only [isPlain, hc] at hp
    rw [Kind.read.eq_def] at h
    split at h <;> simp_all
    all_goals obtain ⟨rfl, rfl⟩ := h
    all_goals simp [Kind.Spells]

theorem Kind.read_eq_none (h : Kind.read t = none) : t = [] := by
  rw [Kind.read.eq_def] at h
  split at h <;> simp_all

theorem Kind.read_le {n : Nat} (h : Kind.read t = some (k, n)) : n ≤ t.length := by
  rw [Kind.read.eq_def] at h
  split at h
  all_goals simp only [Option.some.injEq, Prod.mk.injEq, reduceCtorEq] at h
  all_goals obtain ⟨-, rfl⟩ := h
  all_goals simp only [length_cons]
  all_goals first | omega | skip
  next c t _ _ _ _ _ _ _ _ _ => exact Nat.succ_le_succ (takeWhile_sublist isPlain).length_le

theorem Kind.Spells.ne_nil (h : k.Spells s) : s ≠ [] := by
  rintro rfl
  cases k <;> simp_all [Kind.Spells, isName]

theorem Kind.Spells.isGap_eq_false (h : k.Spells s) : ∀ c ∈ s, isGap c = false := by
  cases k with
  | name => exact fun c hc => isGap_eq_false_of_isPlain (isPlain_of_isName h c hc)
  | text => exact fun c hc => isGap_eq_false_of_isPlain (h.2 c hc)
  | endOfFile => exact h.elim
  | _ => simp [show s = _ from h, isGap]

theorem Kind.Spells.not_mem_tail (h : k.Spells s) (hx : x = '<' ∨ x = '"' ∨ x = '\'') : x ∉ s.tail := by
  have hp : (∀ c ∈ s, isPlain c = true) → x ∉ s.tail := fun hs hm => by
    have hm := hs x (mem_of_mem_tail hm)
    rcases hx with rfl | rfl | rfl <;> cases hm
  cases k with
  | name => exact hp (isPlain_of_isName h)
  | text => exact hp h.2
  | endOfFile => exact h.elim
  | _ => obtain rfl : s = _ := h; rcases hx with rfl | rfl | rfl <;> decide

theorem Kind.Spells.not_mem_dropLast (h : k.Spells s) (hy : y = '>' ∨ y = '"' ∨ y = '\'') : y ∉ s.dropLast := by
  have hp : (∀ c ∈ s, isPlain c = true) → y ∉ s.dropLast := fun hs hm => by
    have hm := hs y (dropLast_subset s hm)
    rcases hy with rfl | rfl | rfl <;> simp [isPlain, isGap] at hm
  cases k with
  | name => exact hp (isPlain_of_isName h)
  | text => exact hp h.2
  | endOfFile => exact h.elim
  | _ => obtain rfl : s = _ := h; rcases hy with rfl | rfl | rfl <;> decide

/-- Of two kinds with one spelling, a token has the kind of higher priority. -/
def Kind.priority : Kind → Nat
  | .commentOpen => 12
  | .closeOpen | .selfClose => 11
  | .tagOpen | .tagClose | .slash | .equals | .doubleQuote | .singleQuote => 10
  | .name => 4
  | .text => 1
  | .endOfFile => 0

/-- What a kind spells at the head of a text is the longest that any kind spells there, and of the kinds that spell it
none has a higher priority. -/
structure Kind.Wins (k : Kind) (s t : Text) : Prop where
  head : s <+: t
  spells : k.Spells s
  best : ∀ (k' : Kind) (s' : Text), s' <+: t → k'.Spells s' →
    s'.length < s.length ∨ s'.length = s.length ∧ k'.priority ≤ k.priority

theorem Kind.Spells.plain (h : k.Spells s) (hk : k = .name ∨ k = .text) : ∀ c ∈ s, isPlain c = true := by
  rcases hk with rfl | rfl
  · exact isPlain_of_isName h
  · exact h.2

theorem Kind.Spells.length_le_plain (h : k.Spells s) (hk : k = .name ∨ k = .text)
    (hread : Kind.read (s ++ r) = some (k', n)) : s.length < n ∨ s.length = n ∧ k.priority ≤ k'.priority := by
  have hplain := h.plain hk
  cases s with
  | nil => exact absurd rfl h.ne_nil
  | cons c s =>
    obtain ⟨hc, hs⟩ := forall_mem_cons.mp hplain
    rw [cons_append, Kind.read_plain _ hc, takeWhile_append_of_pos hs] at hread
    obtain ⟨rfl, rfl⟩ := Prod.mk.inj (Option.some.inj hread)
    rw [length_append, length_cons]
    cases r.takeWhile isPlain with
    | cons d run => exact .inl (by simp)
    | nil =>
      refine .inr ⟨rfl, ?_⟩
      rw [append_nil]
      rcases hk with rfl | rfl
      · exact Nat.le_of_eq (congrArg _ (if_pos h).symm)
      · split <;> decide

theorem Kind.Spells.length_le (h : k.Spells s) (hread : Kind.read (s ++ r) = some (k', n)) :
    s.length < n ∨ s.length = n ∧ k.priority ≤ k'.priority := by
  cases k with
  | name => exact h.length_le_plain (.inl rfl) hread
  | text => exact h.length_le_plain (.inr rfl) hread
  | endOfFile => exact h.elim
  | _ =>
    obtain rfl : s = _ := h
    rw [Kind.read.eq_def] at hread
    split at hread <;> grind [Kind.priority]

theorem Kind.Wins.stops (h : k.Wins s (s ++ r)) (hk : k = .name ∨ k = .text) : Stops r := by
  intro x hx
  obtain ⟨r, rfl⟩ := head?_eq_some_iff.mp hx
  rw [Bool.eq_false_iff]
  intro hplain
  have hlonger : Kind.text.Spells (s ++ [x]) :=
    ⟨by simp, forall_mem_append.mpr ⟨h.spells.plain hk, forall_mem_singleton.mpr hplain⟩⟩
  have hle := h.best .text (s ++ [x]) ⟨r, by simp⟩ hlonger
  rw [length_append, length_singleton] at hle
  omega

theorem Kind.Wins.eq_name_iff (h : k.Wins s t) (hk : k = .name ∨ k = .text) : k = .name ↔ isName s = true := by
  rcases hk with rfl | rfl
  · exact iff_of_true rfl h.spells
  · refine iff_of_false (by decide) fun hname => ?_
    have hbest := h.best .name s h.head hname
    simp [Kind.priority] at hbest

namespace Cursor

variable {c d : Cursor} {s : Text}

variable {g v r : Text} {p n : Nat} {k : Kind}

def Solid (v : Text) : Prop := ∀ c ∈ v.head?, isGap c = false

theorem skipGaps_append (hg : ∀ c ∈ g, isGap c = true) (hv : Solid v) :
    (Cursor.mk (g ++ v) p).skipGaps = ⟨v, p + bytes g⟩ := by
  rw [skipGaps, dropWhile_append_of_pos hg, takeWhile_append_of_pos hg]
  cases v with
  | nil => simp
  | cons c v => simp [hv c rfl]

theorem next_of_read (hg : ∀ c ∈ g, isGap c = true) (hv : Solid v) (h : Kind.read v = some (k, n)) :
    (Cursor.mk (g ++ v) p).next = some (⟨k, v.take n, p + bytes g⟩, ⟨v.drop n, p + bytes g + bytes (v.take n)⟩) := by
  rw [next, skipGaps_append hg hv]
  simp [h, take]

theorem solid_dropWhile (t : Text) : Solid (t.dropWhile isGap) := by
  intro c hc
  have hn := head?_dropWhile_not isGap t
  rwa [hc] at hn

theorem exists_gaps (t : Text) : ∃ g v, t = g ++ v ∧ (∀ c ∈ g, isGap c = true) ∧ Solid v :=
  ⟨t.takeWhile isGap, t.dropWhile isGap, by simp, all_eq_true.mp all_takeWhile, solid_dropWhile t⟩

theorem next_eq_none_iff : c.next = none ↔ ∀ d ∈ c.rest, isGap d = true := by
  obtain ⟨rest, pos⟩ := c
  obtain ⟨g, v, rfl, hg, hv⟩ := exists_gaps rest
  cases hr : Kind.read v with
  | none =>
    obtain rfl := Kind.read_eq_none hr
    have hn : (Cursor.mk (g ++ []) pos).next = none := by
      rw [next, skipGaps_append hg hv]
      rfl
    rw [hn, append_nil]
    exact ⟨fun _ => hg, fun _ => rfl⟩
  | some kn =>
    rw [next_of_read hg hv hr]
    cases v with
    | nil => simp [Kind.read] at hr
    | cons d v =>
      have hd := hv d rfl
      refine ⟨fun h => by simp at h, fun h => ?_⟩
      rw [h d (by simp)] at hd
      simp at hd

theorem wins_read (ht : Solid t) (h : Kind.read t = some (k, n)) : k.Wins (t.take n) t := by
  refine ⟨ take_prefix n t, ?_, ?_⟩
  · cases t with
    | nil => cases h
    | cons x t => exact Kind.spells_read (ht x rfl) h
  · rintro k' s' ⟨r, rfl⟩ hspells
    rw [length_take, Nat.min_eq_left (Kind.read_le h)]
    exact hspells.length_le h

theorem wins_next (h : c.next = some (token, d)) : token.kind.Wins token.lexeme (token.lexeme ++ d.rest) := by
  simp only [next, Option.map_eq_some_iff, Prod.exists, Prod.mk.injEq] at h
  obtain ⟨k, n, hread, rfl, rfl⟩ := h
  dsimp only [Cursor.take]
  rw [take_append_drop]
  exact wins_read (solid_dropWhile c.rest) hread

theorem next_eq_some (h : c.next = some (token, d)) :
    ∃ g, c.rest = g ++ (token.lexeme ++ d.rest) ∧ (∀ x ∈ g, isGap x = true) ∧
      token.start = c.pos + bytes g ∧ d.pos = token.start + bytes token.lexeme ∧
      token.kind.Spells token.lexeme := by
  have hspells := (wins_next h).spells
  simp only [next, Option.map_eq_some_iff, Prod.exists, Prod.mk.injEq] at h
  obtain ⟨k, n, -, rfl, rfl⟩ := h
  exact ⟨c.rest.takeWhile isGap, by simp [Cursor.take, skipGaps], all_eq_true.mp all_takeWhile, rfl, rfl, hspells⟩

theorem length_lt_of_next (c : Cursor) (token : Token) (d : Cursor) (h : c.next = some (token, d)) :
    d.rest.length < c.rest.length := by
  obtain ⟨g, hr, -, -, -, hs⟩ := next_eq_some h
  have hne := length_pos_iff.mpr hs.ne_nil
  rw [hr, length_append, length_append]
  omega

theorem current_of_next (h : c.next = some (token, d)) : c.current = token := by
  rw [current, h]

theorem advance_of_next (h : c.next = some (token, d)) : c.advance = d := by
  rw [advance, h]

theorem kind_of_next (h : c.next = some (token, d)) : c.kind = token.kind := by
  rw [kind, current_of_next h]

theorem kind_eq_endOfFile_iff : c.kind = .endOfFile ↔ c.next = none := by
  rw [kind, current]
  cases h : c.next with
  | none => simp
  | some td =>
    obtain ⟨g, -, -, -, -, hs⟩ := next_eq_some h
    simp only [reduceCtorEq, iff_false]
    intro he
    rw [he] at hs
    exact hs

theorem next_of_kind (h : c.kind ≠ .endOfFile) : c.next = some (c.current, c.advance) := by
  cases hn : c.next with
  | none => exact absurd (kind_eq_endOfFile_iff.mpr hn) h
  | some td => rw [current_of_next hn, advance_of_next hn]

theorem next_lexeme (hg : ∀ c ∈ g, isGap c = true) (hs : Solid (s ++ r))
    (h : Kind.read (s ++ r) = some (k, s.length)) :
    (Cursor.mk (g ++ (s ++ r)) p).next = some (⟨k, s, p + bytes g⟩, ⟨r, p + bytes g + bytes s⟩) := by
  simpa using next_of_read hg hs h

theorem next_name (hg : ∀ c ∈ g, isGap c = true) (hl : isName l = true) (hr : Stops r) :
    (Cursor.mk (g ++ (l ++ r)) p).next = some (⟨.name, l, p + bytes g⟩, ⟨r, p + bytes g + bytes l⟩) := by
  have hp := isPlain_of_isName hl
  cases l with
  | nil => simp [isName] at hl
  | cons c t =>
    have hc := hp c mem_cons_self
    have ht := takeWhile_isPlain (fun d hd => hp d (mem_cons_of_mem c hd)) hr
    refine next_lexeme hg (fun d hd => ?_) ?_
    · obtain rfl : c = d := by simpa using hd
      exact isGap_eq_false_of_isPlain hc
    · rw [cons_append, Kind.read_plain _ hc, ht, hl]
      rfl

def nextBefore (offset : Nat) (c : Cursor) : Option (Token × Cursor) := c.next.filter (·.1.start < offset)

theorem nextBefore_eq_some
    (h : c.next = some (token, d)) (ho : token.start < offset) : c.nextBefore offset = some (token, d) := by
  simp [nextBefore, h, Option.filter, ho]

/-- One cursor stands after another, with the text `s` between them. -/
def Past (c : Cursor) (s : Text) (d : Cursor) : Prop := c.rest = s ++ d.rest ∧ d.pos = c.pos + bytes s

theorem Past.refl (c : Cursor) : c.Past [] c := ⟨rfl, rfl⟩

theorem Past.trans {c d : Cursor} {s t : Text} (h : c.Past s d) (h' : d.Past t e) : c.Past (s ++ t) e :=
  ⟨by rw [h.1, h'.1, append_assoc], by rw [h'.2, h.2, bytes_append, Nat.add_assoc]⟩

theorem Past.length_lt (h : c.Past s d) (hs : s ≠ []) : d.rest.length < c.rest.length := by
  have hp := length_pos_iff.mpr hs
  rw [h.1, length_append]
  omega

theorem past_next (h : c.next = some (token, d)) : ∃ g, (∀ x ∈ g, isGap x = true) ∧ c.Past (g ++ token.lexeme) d := by
  obtain ⟨g, hr, hg, hs, hp, -⟩ := next_eq_some h
  refine ⟨g, hg, by rw [hr, append_assoc], ?_⟩
  rw [hp, hs, bytes_append, Nat.add_assoc]

theorem past_current (h : c.kind ≠ .endOfFile) : ∃ g, (∀ x ∈ g, isGap x = true) ∧
    c.Past (g ++ c.current.lexeme) c.advance ∧ c.kind.Spells c.current.lexeme := by
  have hn := next_of_kind h
  obtain ⟨g, hg, hp⟩ := past_next hn
  obtain ⟨-, -, -, -, -, hs⟩ := next_eq_some hn
  exact ⟨g, hg, hp, hs⟩

theorem past_mark (hk : c.kind = k) (hne : k ≠ .endOfFile) (hs : ∀ lexeme, k.Spells lexeme → lexeme = s) :
    ∃ g, (∀ x ∈ g, isGap x = true) ∧ c.Past (g ++ s) c.advance := by
  subst hk
  obtain ⟨g, hg, hp, hspell⟩ := past_current hne
  rw [hs _ hspell] at hp
  exact ⟨g, hg, hp⟩

/-- One cursor is reached from another by reading tokens. -/
def Reaches (c d : Cursor) : Prop := ∃ tokens, Run next c tokens d

theorem Reaches.refl (c : Cursor) : c.Reaches c := ⟨[], .done c⟩

theorem Reaches.trans {c d : Cursor} (h : c.Reaches d) (h' : d.Reaches e) : c.Reaches e := by
  obtain ⟨tokens, h⟩ := h
  obtain ⟨tokens', h'⟩ := h'
  exact ⟨tokens ++ tokens', h.trans h'⟩

theorem reaches_advance (c : Cursor) : c.Reaches c.advance := by
  rw [advance]
  split
  next token d h => exact ⟨[token], .single h⟩
  · exact .refl c

theorem reaches_advanceTo (c : Cursor) (offset : Nat) : c.Reaches (c.advanceTo offset) :=
  ⟨_, (run_exhaust c.rest.length c).mono fun _ _ _ h => (Option.filter_eq_some_iff.mp h).1⟩

theorem reaches_of_run {α : Type} {step : Cursor → Option (α × Cursor)}
    (hstep : ∀ c a d, step c = some (a, d) → c.Reaches d) {as : List α} (h : Run step c as d) : c.Reaches d := by
  induction h with
  | done c => exact .refl c
  | more h hr ih => exact (hstep _ _ _ h).trans ih

theorem Reaches.past (h : c.Reaches d) : ∃ s, c.Past s d := by
  obtain ⟨tokens, h⟩ := h
  induction h with
  | done c => exact ⟨[], .refl c⟩
  | more h hr ih =>
    obtain ⟨g, -, hp⟩ := past_next h
    obtain ⟨t, ht⟩ := ih
    exact ⟨_, hp.trans ht⟩

/-- Where skipping to the offset after `s` stops: before gaps at the end of `s`, or after the last token that starts
in `s`, if nothing of `s` comes after it. -/
inductive Skips (s r : Text) (p : Nat) (d : Cursor) : Prop
  | gaps (u g : Text) (hs : s = u ++ g) (hg : ∀ x ∈ g, isGap x = true)
      (hlast : ∀ x ∈ s.getLast?, isGap x = true) (hd : d = ⟨g ++ r, p + bytes u⟩)
  | token (w v y : Text) (k : Kind) (hs : s = w ++ v) (hv : v ≠ []) (hr : r = y ++ d.rest)
      (hp : d.pos = p + bytes (s ++ y)) (hw : k.Wins (v ++ y) (v ++ y ++ d.rest))

theorem gaps_of_nextBefore (h : c.nextBefore (c.pos + bytes g) = none) (hc : c.rest = g ++ r) :
    ∀ x ∈ g, isGap x = true := by
  obtain ⟨rest, p⟩ := c
  obtain rfl : rest = g ++ r := hc
  obtain ⟨g, v, rfl, hg, hv⟩ := exists_gaps g
  cases v with
  | nil => simpa using hg
  | cons x v =>
    obtain ⟨⟨k, n⟩, hread⟩ := Option.ne_none_iff_exists'.mp fun h => absurd (Kind.read_eq_none h) (cons_ne_nil x (v ++ r))
    have hnext := next_of_read (v := x :: (v ++ r)) (p := p) hg (fun y hy => hv y hy) hread
    rw [append_assoc, cons_append, nextBefore_eq_some hnext] at h
    · cases h
    · have hx := x.utf8Size_pos
      rw [bytes_append, bytes_cons]
      dsimp only
      omega

theorem nextBefore_advanceTo (c : Cursor) (offset : Nat) : (c.advanceTo offset).nextBefore offset = none :=
  step_exhaust (μ := fun c => c.rest.length)
    (fun c token d h => length_lt_of_next c token d (Option.filter_eq_some_iff.mp h).1) (Nat.le_refl _)

theorem advanceTo_skips (s r : Text) (p : Nat) : Skips s r p ((Cursor.mk (s ++ r) p).advanceTo (p + bytes s)) := by
  have hend := nextBefore_advanceTo ⟨s ++ r, p⟩ (p + bytes s)
  have hrun : Run (nextBefore (p + bytes s)) ⟨s ++ r, p⟩ _ ((Cursor.mk (s ++ r) p).advanceTo (p + bytes s)) :=
    run_exhaust (s ++ r).length _
  generalize (Cursor.mk (s ++ r) p).advanceTo (p + bytes s) = d at hend hrun ⊢
  rcases hrun.last with rfl | ⟨b, ts, token, hb, hnext⟩
  · have hgaps := gaps_of_nextBefore hend rfl
    exact .gaps [] s rfl hgaps (fun x hx => hgaps x (mem_of_getLast? hx)) rfl
  · obtain ⟨hnext, hlt⟩ := Option.filter_eq_some_iff.mp hnext
    obtain ⟨u, hu, hpos⟩ := Reaches.past ⟨ts, hb.mono fun _ _ _ h => (Option.filter_eq_some_iff.mp h).1⟩
    obtain ⟨g, hrest, -, hstart, hstop, -⟩ := next_eq_some hnext
    have hwins := wins_next hnext
    rw [hrest, ← append_assoc] at hu
    have hle : bytes (u ++ g) < bytes s := by
      rw [bytes_append]
      simp only [decide_eq_true_eq] at hlt
      dsimp only at hpos
      omega
    obtain ⟨v, rfl⟩ := append_of_bytes_le hu.symm (Nat.le_of_lt hle)
    have hne : v ≠ [] := by
      rintro rfl
      simp at hle
    rw [append_assoc (u ++ g)] at hu
    have hv := append_cancel_left hu
    dsimp only at hpos
    have hafter : d.pos = p + bytes (u ++ g ++ token.lexeme) := by
      simp only [hstop, hstart, hpos, bytes_append, Nat.add_assoc]
    rcases append_eq_append_iff.mp hv with ⟨y, hx, hr⟩ | ⟨_ | ⟨z, g'⟩, hx, hd⟩
    · rw [hx] at hwins hafter
      exact .token (u ++ g) v y token.kind rfl hne hr (by rw [hafter]; simp) hwins
    · rw [append_nil] at hx
      rw [← hx] at hwins hafter
      exact .token (u ++ g) v [] token.kind rfl hne hd.symm (by simpa using hafter) (by simpa using hwins)
    · have hgaps := gaps_of_nextBefore (g := z :: g') (by rw [← hend, hafter, hx]; simp [Nat.add_assoc]) hd
      rw [hx, ← append_assoc]
      refine .gaps (u ++ g ++ token.lexeme) (z :: g') rfl hgaps (fun x hx => hgaps x (mem_of_getLast? ?_)) ?_
      · simpa using hx
      · rw [← hafter, ← hd]

/-- No token that starts in the one text goes on into the other. -/
def Cut (s r : Text) : Prop := ∀ (v y t : Text) (k : Kind), v <:+ s → v ≠ [] → r = y ++ t → k.Spells (v ++ y) → y = []

theorem cut_nil (s : Text) : Cut s [] := by
  intro v y t k _ _ hr _
  exact (append_eq_nil_iff.mp hr.symm).1

theorem cut_of_head (s r : Text) : Cut s ('<' :: r) := by
  intro v y t k _ hne hr hs
  cases y with
  | nil => rfl
  | cons x y =>
    obtain ⟨rfl, -⟩ := List.cons.inj hr
    obtain ⟨c, v, rfl⟩ := exists_cons_of_ne_nil hne
    exact absurd (by simp) (hs.not_mem_tail (.inl rfl))

theorem cut_of_last (s r : Text) (hy : y = '>' ∨ y = '"' ∨ y = '\'') : Cut (s ++ [y]) r := by
  rintro v t _ k ⟨w, hw⟩ hne - hs
  rcases eq_nil_or_concat v with rfl | ⟨v, z, rfl⟩
  · exact absurd rfl hne
  · rw [concat_eq_append] at *
    rw [← append_assoc] at hw
    obtain rfl : z = y := by simpa using (append_inj' hw rfl).2
    apply Classical.byContradiction
    intro ht
    apply hs.not_mem_dropLast hy
    rw [dropLast_append_of_ne_nil ht]
    simp

theorem advanceTo_of_cut (h : Cut s r) : ∃ u g, s = u ++ g ∧ (∀ c ∈ g, isGap c = true) ∧
      (Cursor.mk (s ++ r) p).advanceTo (p + bytes s) = ⟨g ++ r, p + bytes u⟩ := by
  have hskips := advanceTo_skips s r p
  generalize (Cursor.mk (s ++ r) p).advanceTo (p + bytes s) = d at hskips ⊢
  cases hskips with
  | gaps u g hs hg _ hd => exact ⟨u, g, hs, hg, hd⟩
  | token w v y k hs hv hr hp hw =>
    obtain rfl := h v y d.rest k (hs ▸ suffix_append w v) hv hr hw.spells
    rw [append_nil] at hp
    exact ⟨s, [], (append_nil s).symm, by simp, by rw [hr, ← hp]; rfl⟩

theorem advanceTo_after (s r : Text) (p : Nat) (hy : y = '>' ∨ y = '"' ∨ y = '\'') :
    (Cursor.mk (s ++ y :: r) p).advanceTo (p + bytes s + 1) = ⟨r, p + bytes s + 1⟩ := by
  obtain ⟨u, g, hug, hg, ha⟩ := advanceTo_of_cut (p := p) (cut_of_last s r hy)
  have hb : p + bytes (s ++ [y]) = p + bytes s + 1 := by
    rcases hy with rfl | rfl | rfl <;> simp [Nat.add_assoc] <;> rfl
  rw [hb, append_assoc] at ha
  rcases eq_nil_or_concat g with rfl | ⟨g, z, rfl⟩
  · rw [append_nil] at hug
    rw [← hug, hb] at ha
    exact ha
  · rw [concat_eq_append] at *
    rw [← append_assoc] at hug
    obtain rfl : y = z := by simpa using (append_inj' hug rfl).2
    have hy' := hg y (by simp)
    rcases hy with rfl | rfl | rfl <;> simp [isGap] at hy'

theorem past_of_advance (h : c.kind ≠ .endOfFile) (hr : c.advance.Reaches d) : ∃ s, s ≠ [] ∧ c.Past s d := by
  obtain ⟨t, ht⟩ := hr.past
  obtain ⟨g, -, hp, hs⟩ := past_current h
  exact ⟨_, by simp [hs.ne_nil], hp.trans ht⟩

end Cursor

end ComponentConverter.Markup
