import ComponentConverter.Proofs.SheetReading
import ComponentConverter.Proofs.Slicing

namespace ComponentConverter.Style

open List Lexis

variable {c : Char} {stops : List Char}

def byteChars (c : Char) : Text := (String.utf8EncodeChar c).map Char.ofUInt8

/-- The bytes of a text, each as the character with its number. -/
def byteText (t : Text) : Text := t.flatMap byteChars

def isAscii (c : Char) : Bool := c.toNat < 128

theorem toNat_ofUInt8_ofNat {n : Nat} (h : n < 256) : (Char.ofUInt8 (UInt8.ofNat n)).toNat = n := by
  show (UInt8.ofNat n).toNat = n
  rw [UInt8.toNat_ofNat', Nat.mod_eq_of_lt h]

theorem byteChars_ascii (h : isAscii c = true) : byteChars c = [c] := by
  have hc : c.val.toNat < 128 := of_decide_eq_true h
  have hbyte : Char.ofUInt8 (UInt8.ofNat c.val.toNat) = c :=
    Char.toNat_inj.mp (toNat_ofUInt8_ofNat (Nat.lt_trans hc (by decide)))
  rw [byteChars, String.utf8EncodeChar.eq_1, if_pos (Nat.le_of_lt_succ hc), map_singleton, hbyte]

theorem not_isAscii_byte {n : Nat} (h : 128 ≤ n) (hn : n < 256) : isAscii (Char.ofUInt8 (UInt8.ofNat n)) = false := by
  rw [isAscii, toNat_ofUInt8_ofNat hn]
  exact decide_eq_false (Nat.not_lt.mpr h)

/-- The first byte of a character that is not ASCII is large, and so are those that go on with it. -/
theorem not_isAscii_byteChars (h : isAscii c = false) : ∀ b ∈ byteChars c, isAscii b = false := by
  have hc : ¬ c.val.toNat ≤ 127 := fun hle => of_decide_eq_false h (Nat.lt_succ_of_le hle)
  rw [byteChars, String.utf8EncodeChar.eq_1, if_neg hc]
  split
  · simp only [map_cons, map_nil, forall_mem_cons, not_mem_nil, false_imp_iff, implies_true, and_true]
    refine ⟨not_isAscii_byte ?_ ?_, not_isAscii_byte ?_ ?_⟩ <;> omega
  split
  · simp only [map_cons, map_nil, forall_mem_cons, not_mem_nil, false_imp_iff, implies_true, and_true]
    refine ⟨not_isAscii_byte ?_ ?_, not_isAscii_byte ?_ ?_, not_isAscii_byte ?_ ?_⟩ <;> omega
  · simp only [map_cons, map_nil, forall_mem_cons, not_mem_nil, false_imp_iff, implies_true, and_true]
    refine ⟨not_isAscii_byte ?_ ?_, not_isAscii_byte ?_ ?_, not_isAscii_byte ?_ ?_, not_isAscii_byte ?_ ?_⟩ <;> omega

theorem length_byteText (t : Text) : (byteText t).length = bytes t := by
  induction t with
  | nil => rfl
  | cons c t ih =>
    rw [byteText, flatMap_cons, length_append, ← byteText, ih, byteChars,
      length_map, String.length_utf8EncodeChar, bytes_cons]

theorem byteText_cons (c : Char) (t : Text) : byteText (c :: t) = byteChars c ++ byteText t := rfl

theorem byteText_append (s t : Text) : byteText (s ++ t) = byteText s ++ byteText t := flatMap_append

theorem byteText_ascii {t : Text} (h : ∀ c ∈ t, isAscii c = true) : byteText t = t := by
  induction t with
  | nil => rfl
  | cons c t ih =>
    rw [forall_mem_cons] at h
    rw [byteText_cons, byteChars_ascii h.1, ih h.2]
    rfl

namespace Mode

def Quotes : Mode → Prop
  | .plain => True
  | .quoted q | .escaped q => isAscii q = true

def settled : Mode → Mode
  | .escaped q => .quoted q
  | mode => mode

theorem quotes_step {mode : Mode} (h : mode.Quotes) (c : Char) : (mode.step c).Quotes := by
  cases mode with
  | plain =>
    rw [step]
    split
    next hc =>
      simp only [Bool.or_eq_true, decide_eq_true_eq] at hc
      rcases hc with rfl | rfl <;> exact rfl
    · trivial
  | quoted q =>
    rw [step]
    split
    · exact h
    · split
      · trivial
      · exact h
  | escaped q => exact h

theorem step_of_not_ascii {mode : Mode} {c : Char} (h : mode.Quotes) (hc : isAscii c = false) :
    mode.step c = mode.settled := by
  have hne (d : Char) (hd : isAscii d = true) : c ≠ d := by
    rintro rfl
    simp [hc] at hd
  cases mode with
  | plain => simp [step, settled, hne '"' rfl, hne '\'' rfl]
  | quoted q => simp [step, settled, hne '\\' rfl, hne q h]
  | escaped q => rfl

theorem settled_settled (mode : Mode) : mode.settled.settled = mode.settled := by
  cases mode <;> rfl

theorem quotes_settled {mode : Mode} (h : mode.Quotes) : mode.settled.Quotes := by
  cases mode <;> exact h

end Mode

structure Marks.Ascii (m : Marks) : Prop where
  opening : ∀ c ∈ m.opening, isAscii c = true
  closing : ∀ c ∈ m.closing, isAscii c = true
  stop : ∀ t, m.stop (byteText t) = m.stop t
  other : ∀ c t, isAscii c = false → m.stop (c :: t) = false

variable {m : Marks} {mode : Mode} {depth : Nat} {bs t : Text}

theorem next_of_not_ascii (hm : m.Ascii) (hq : mode.Quotes) (hc : isAscii c = false) :
    literal.next m (mode, depth) c = (mode.settled, depth) := by
  have hne {cs : List Char} (hcs : ∀ d ∈ cs, isAscii d = true) : c ∉ cs := by
    intro hmem
    simp [hcs c hmem] at hc
  have hstep : literal.step mode c = mode.settled := Mode.step_of_not_ascii hq hc
  simp [Lexis.next, hstep, hne hm.opening, hne hm.closing]

theorem passes_of_not_ascii (hm : m.Ascii) (hq : mode.Quotes) (hb : ∀ b ∈ bs, isAscii b = false)
    (r : Text) : literal.Passes m (mode, depth) bs r := by
  induction bs generalizing mode with
  | nil => trivial
  | cons b bs ih =>
    rw [forall_mem_cons] at hb
    refine ⟨?_, ?_⟩
    · rw [stopsAt, hm.other b _ hb.1, Bool.and_false]
    · rw [next_of_not_ascii hm hq hb.1]
      exact ih (Mode.quotes_settled hq) hb.2

theorem after_of_not_ascii (hm : m.Ascii) (hq : mode.Quotes) (hb : ∀ b ∈ bs, isAscii b = false)
    (hne : bs ≠ []) : literal.after m (mode, depth) bs = (mode.settled, depth) := by
  induction bs generalizing mode with
  | nil => exact absurd rfl hne
  | cons b bs ih =>
    rw [forall_mem_cons] at hb
    rw [after_cons, next_of_not_ascii hm hq hb.1]
    cases bs with
    | nil => rfl
    | cons b' bs =>
      rw [ih (Mode.quotes_settled hq) hb.2 (cons_ne_nil _ _), Mode.settled_settled]

theorem scan_byteText (hm : m.Ascii) (hq : mode.Quotes) (t : Text) : literal.scan m (mode, depth) (byteText t) =
      Prod.map byteText byteText (literal.scan m (mode, depth) t) := by
  induction t generalizing mode depth with
  | nil => rfl
  | cons c t ih =>
    rw [byteText_cons]
    by_cases hc : isAscii c = true
    · have hstop : literal.stopsAt m (mode, depth) (c :: byteText t) = literal.stopsAt m (mode, depth) (c :: t) := by
        have hstop := hm.stop (c :: t)
        rw [byteText_cons, byteChars_ascii hc] at hstop
        rw [stopsAt, stopsAt, ← hstop]
        rfl
      rw [byteChars_ascii hc, singleton_append, scan, scan, hstop]
      split
      · simp [byteText, byteChars_ascii hc]
      · have hq' : (literal.next m (mode, depth) c).1.Quotes := Mode.quotes_step hq c
        rw [ih hq']
        simp [byteText, byteChars_ascii hc]
    · simp only [Bool.not_eq_true] at hc
      have hbytes := not_isAscii_byteChars hc
      have hne : byteChars c ≠ [] := by simp [byteChars]
      have hstop : literal.stopsAt m (mode, depth) (c :: t) = false := by
        rw [stopsAt, hm.other c t hc, Bool.and_false]
      rw [scan_append_of_passes (passes_of_not_ascii hm hq hbytes _),
        after_of_not_ascii hm hq hbytes hne, ih (Mode.quotes_settled hq), scan.eq_2, hstop,
        next_of_not_ascii hm hq hc]
      rfl

theorem startsWithOne_of_not_ascii (hs : ∀ d ∈ stops, isAscii d = true) (hc : isAscii c = false) (t : Text) :
    startsWithOne stops (c :: t) = false := by
  rw [startsWithOne, contains_eq_mem]
  apply decide_eq_false
  intro hmem
  simp [hs c hmem] at hc

theorem startsWithOne_byteText (hs : ∀ d ∈ stops, isAscii d = true) (t : Text) :
    startsWithOne stops (byteText t) = startsWithOne stops t := by
  cases t with
  | nil => rfl
  | cons c t =>
    rw [byteText_cons]
    by_cases hc : isAscii c = true
    · rw [byteChars_ascii hc]
      rfl
    · simp only [Bool.not_eq_true] at hc
      obtain ⟨b, bs, hb⟩ := exists_cons_of_ne_nil (show byteChars c ≠ [] by simp [byteChars])
      rw [startsWithOne_of_not_ascii hs hc, hb]
      exact startsWithOne_of_not_ascii hs (not_isAscii_byteChars hc b (by simp [hb])) _

theorem isPrefixOf_byteText {pat : Text} (hpat : ∀ c ∈ pat, isAscii c = true) (t : Text) :
    pat.isPrefixOf (byteText t) = pat.isPrefixOf t := by
  induction pat generalizing t with
  | nil => simp
  | cons p pat ih =>
    rw [forall_mem_cons] at hpat
    cases t with
    | nil => rfl
    | cons c t =>
      rw [byteText_cons]
      by_cases hc : isAscii c = true
      · rw [byteChars_ascii hc, singleton_append, List.isPrefixOf, List.isPrefixOf, ih hpat.2]
      · obtain ⟨b, bs, hb⟩ := exists_cons_of_ne_nil (show byteChars c ≠ [] by simp [byteChars])
        simp only [Bool.not_eq_true] at hc
        have hb' : isAscii b = false := not_isAscii_byteChars hc b (by simp [hb])
        have hne {d : Char} (hd : isAscii d = false) : (p == d) = false := by
          apply beq_false_of_ne
          rintro rfl
          simp [hpat.1] at hd
        rw [hb, cons_append, List.isPrefixOf, List.isPrefixOf, hne hb', hne hc]
        rfl

theorem ascii_upTo (hs : ∀ d ∈ stops, isAscii d = true) : (Marks.upTo stops).Ascii :=
  ⟨all_eq_true.mp (show ['(', '['].all _ = true from rfl), all_eq_true.mp (show [')', ']'].all _ = true from rfl),
    startsWithOne_byteText hs, fun _ t hc => startsWithOne_of_not_ascii hs hc t⟩

theorem ascii_body : Marks.body.Ascii := by
  have hopen : ∀ c ∈ ['\x7b'], isAscii c = true := all_eq_true.mp rfl
  have hclose : ∀ c ∈ ['\x7d'], isAscii c = true := all_eq_true.mp rfl
  exact ⟨hopen, hclose, startsWithOne_byteText hclose, fun _ t hc => startsWithOne_of_not_ascii hclose hc t⟩

theorem ascii_deepCombinators (combinator : Text) (h : combinator ∈ deepCombinators) :
    ∀ c ∈ combinator, isAscii c = true := by
  have hall : deepCombinators.all (·.all isAscii) = true := rfl
  exact all_eq_true.mp (all_eq_true.mp hall combinator h)

theorem deepAt?_byteText (t : Text) : deepAt? (byteText t) = deepAt? t := by
  have hsame : ∀ patterns : List Text, (∀ p ∈ patterns, ∀ c ∈ p, isAscii c = true) →
      patterns.find? (·.isPrefixOf (byteText t)) = patterns.find? (·.isPrefixOf t) := by
    intro patterns hp
    induction patterns with
    | nil => rfl
    | cons p patterns ih =>
      rw [forall_mem_cons] at hp
      rw [find?_cons, find?_cons, isPrefixOf_byteText hp.1, ih hp.2]
  exact hsame deepCombinators ascii_deepCombinators

theorem ascii_reach : Marks.reach.Ascii := by
  refine ⟨all_eq_true.mp (show ['(', '['].all _ = true from rfl),
    all_eq_true.mp (show [')', ']'].all _ = true from rfl), ?_, ?_⟩
  · intro t
    rw [stop_reach, stop_reach, deepAt?_byteText]
  · intro c t hc
    rw [stop_reach]
    cases h : deepAt? (c :: t) with
    | none => rfl
    | some combinator =>
      -- A combinator is not empty, so the character would be the first of it.
      obtain ⟨hmem, r, hr⟩ := mem_of_deepAt? h
      have hne : combinator ≠ [] := by
        rintro rfl
        exact absurd hmem (by decide)
      obtain ⟨d, rest, rfl⟩ := exists_cons_of_ne_nil hne
      have hd := ascii_deepCombinators _ hmem d mem_cons_self
      rw [(List.cons.inj hr).1, hd] at hc
      cases hc

theorem takeUntil_byteText (hs : ∀ d ∈ stops, isAscii d = true) (t : Text) :
    takeUntil stops .outside (byteText t) = Prod.map byteText byteText (takeUntil stops .outside t) := by
  have hplain : Mode.plain.Quotes := trivial
  rw [takeUntil_eq_scan, takeUntil_eq_scan]
  exact scan_byteText (ascii_upTo hs) hplain t

theorem takeBody_byteText (t : Text) :
    takeBody .plain 0 (byteText t) = Prod.map byteText byteText (takeBody .plain 0 t) := by
  have hplain : Mode.plain.Quotes := trivial
  rw [takeBody_eq_scan, takeBody_eq_scan]
  exact scan_byteText ascii_body hplain t

theorem parts_byteText {parts : List Text} (h : literal.Parts t parts) :
    literal.Parts (byteText t) (parts.map byteText) := by
  have hscan (t : Text) : literal.scan .selector literal.outside (byteText t) =
      Prod.map byteText byteText (literal.scan .selector literal.outside t) :=
    scan_byteText (ascii_upTo (all_eq_true.mp rfl)) (show Mode.plain.Quotes from trivial) t
  induction h with
  | last h =>
    apply Parts.last
    rw [hscan, h]
    rfl
  | more h hr ih =>
    refine Parts.more ?_ ih
    rw [hscan, h]
    rfl

theorem splitCommas_byteText (t : Text) : splitCommas .outside (byteText t) = (splitCommas .outside t).map byteText :=
  splitCommas_of_parts (parts_byteText (parts_splitCommas t))

theorem breakOnDeep?_byteText (t : Text) :
    breakOnDeep? .outside (byteText t) = (breakOnDeep? .outside t).map (Prod.map byteText byteText) := by
  have hscan : literal.scan .reach Place.outside.state (byteText t) =
      Prod.map byteText byteText (literal.scan .reach Place.outside.state t) :=
    scan_byteText ascii_reach (show Mode.plain.Quotes from trivial) t
  rw [breakOnDeep?_eq_scan, breakOnDeep?_eq_scan, hscan, Prod.map_snd, deepAt?_byteText]
  cases h : deepAt? (literal.scan .reach Place.outside.state t).2 with
  | none => rfl
  | some combinator =>
    obtain ⟨hmem, r, hr⟩ := mem_of_deepAt? h
    rw [hr, byteText_append, byteText_ascii (ascii_deepCombinators combinator hmem)]
    simp

end ComponentConverter.Style
