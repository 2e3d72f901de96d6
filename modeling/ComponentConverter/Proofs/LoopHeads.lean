import ComponentConverter.Proofs.Trimming
import ComponentConverter.Template.Loop

namespace ComponentConverter.Template.Loop

open List

variable {keyword names : Text} {iterators : List Text}

def keywords : List Text := ["in", "of"]

/-- Whether a text starts with a keyword between white space. -/
def startsSeparated : Text → Bool
  | x :: 'i' :: 'n' :: y :: _ | x :: 'o' :: 'f' :: y :: _ => isSpace x && isSpace y
  | _ => false

/-- Whether a keyword stands between white space somewhere in a text. -/
def holdsSeparated : Text → Bool
  | [] => false
  | c :: t => startsSeparated (c :: t) || holdsSeparated t

def isPlainName (t : Text) : Bool := !t.isEmpty && t.all fun c => !(isSpace c || c == ',' || c == '(' || c == ')')

/-- A pattern that takes a value apart. It can hold commas, but no keyword between white space. -/
def isPattern (t : Text) : Bool :=
  trim t == t && t.head? != some '(' && (t.getLast? == some '\x7d' || t.getLast? == some ']') && !holdsSeparated t

def isIterator (t : Text) : Bool := t.all fun c => !(isSpace c || c == ',' || c == '\x7d' || c == ']' || c == ')')

/-- What a loop has to be for its head to be written. -/
structure Writable (l : Loop) : Prop where
  source : trim l.source = l.source
  source_ne_nil : l.source ≠ []
  item : isPlainName l.item = true ∨ isPattern l.item = true
  iterators : ∀ i ∈ l.iterators, isIterator i = true
  length_le : l.iterators.length ≤ 2

/-- The names of a loop in parentheses, which a single name can do without. -/
def spellings (l : Loop) : List Text :=
  ('(' :: (", ".toList.intercalate (l.item :: l.iterators) ++ [')'])) ::
    if l.iterators.isEmpty then [l.item] else []

section Keywords

variable {t r before : Text}

theorem eq_of_afterKeyword? {after : Text} (h : afterKeyword? t = some after) :
    ∃ a b y u, t = a :: b :: y :: u ∧ isSpace y = true ∧ (a = 'i' ∧ b = 'n' ∨ a = 'o' ∧ b = 'f') := by
  unfold afterKeyword? at h
  split at h
  · exact ⟨_, _, _, _, rfl, (Option.ite_none_right_eq_some.mp h).1, .inl ⟨rfl, rfl⟩⟩
  · exact ⟨_, _, _, _, rfl, (Option.ite_none_right_eq_some.mp h).1, .inr ⟨rfl, rfl⟩⟩
  · cases h

/-- The search passes a text if no keyword behind white space starts in it. -/
theorem splitAtKeyword?_append (hbefore : before.head?.any isSpace = true → afterKeyword? (t ++ r) = none)
    (h : ∀ u x v, t = u ++ x :: v → v ≠ [] → isSpace x = true → afterKeyword? (v ++ r) = none) :
    splitAtKeyword? before (t ++ r) = splitAtKeyword? (t.reverse ++ before) r := by
  induction t generalizing before with
  | nil => rfl
  | cons c t ih =>
    have hnone : (if before.head?.any isSpace then afterKeyword? (c :: (t ++ r)) else none) = none := by
      split
      next hs => exact hbefore hs
      · rfl
    rw [cons_append, splitAtKeyword?, hnone, reverse_cons, append_assoc, singleton_append]
    cases t with
    | nil => rfl
    | cons d t =>
      apply ih
      · exact fun hc => h [] c (d :: t) rfl (cons_ne_nil _ _) hc
      · intro u x v htail
        exact h (c :: u) x v (by rw [htail, cons_append])

theorem splitAtKeyword?_cons {c : Char} (hi : c ≠ 'i') (ho : c ≠ 'o') :
    splitAtKeyword? before (c :: t) = splitAtKeyword? (c :: before) t := by
  have hnone : afterKeyword? (c :: t) = none := by
    rw [Option.eq_none_iff_forall_ne_some]
    intro after h
    obtain ⟨a, b, y, u, heq, -, hab⟩ := eq_of_afterKeyword? h
    grind
  rw [splitAtKeyword?, hnone, ite_self]

theorem splitAtKeyword?_found {source : Text} (hk : keyword ∈ keywords) :
    splitAtKeyword? before (' ' :: (keyword ++ ' ' :: source)) = some (before.reverse ++ [' '], ' ' :: source) := by
  have hspace : Option.any isSpace (' ' :: before).head? = true := rfl
  rw [splitAtKeyword?_cons (by decide) (by decide)]
  simp only [keywords, mem_cons, not_mem_nil, or_false] at hk
  rcases hk with rfl | rfl
  · change splitAtKeyword? _ ('i' :: 'n' :: ' ' :: source) = _
    rw [splitAtKeyword?, if_pos hspace, reverse_cons]
    rfl
  · change splitAtKeyword? _ ('o' :: 'f' :: ' ' :: source) = _
    rw [splitAtKeyword?, if_pos hspace, reverse_cons]
    rfl

/-- A text without white space is passed up to the comma or the parenthesis behind it. -/
theorem splitAtKeyword?_solid {c : Char} (ht : ∀ x ∈ t, isSpace x = false) (hc : c = ',' ∨ c = ')') :
    splitAtKeyword? before (t ++ c :: r) = splitAtKeyword? (t.reverse ++ before) (c :: r) := by
  have hnone : afterKeyword? (t ++ c :: r) = none := by
    rw [Option.eq_none_iff_forall_ne_some]
    intro after h
    obtain ⟨a, b, y, u, heq, hy, hab⟩ := eq_of_afterKeyword? h
    match t with
    | [] => grind
    | [_] => grind
    | [_, _] =>
      have hmark : isSpace c = false := by rcases hc with rfl | rfl <;> rfl
      grind
    | _ :: _ :: z :: _ => grind
  apply splitAtKeyword?_append fun _ => hnone
  intro u x v htx _ hx
  rw [ht x (by simp [htx])] at hx
  cases hx

end Keywords

section Names

variable {t u v r before : Text}

theorem holdsSeparated_append (u : Text) (h : startsSeparated v = true) : holdsSeparated (u ++ v) = true := by
  induction u with
  | nil =>
    cases v with
    | nil => cases h
    | cons c v => exact Bool.or_eq_true_iff.mpr (.inl h)
  | cons c u ih => exact Bool.or_eq_true_iff.mpr (.inr ih)

theorem of_isPlainName (h : isPlainName t = true) :
    t ≠ [] ∧ ∀ c ∈ t, isSpace c = false ∧ c ≠ ',' ∧ c ≠ '(' ∧ c ≠ ')' := by
  simpa [isPlainName, and_assoc] using h

theorem of_isPattern (h : isPattern t = true) :
    trim t = t ∧ t.head? ≠ some '(' ∧ (t.getLast? = some '\x7d' ∨ t.getLast? = some ']') ∧
      holdsSeparated t = false := by
  simpa [isPattern, and_assoc] using h

theorem of_isIterator (h : isIterator t = true) :
    ∀ c ∈ t, isSpace c = false ∧ c ≠ ',' ∧ c ≠ '\x7d' ∧ c ≠ ']' ∧ c ≠ ')' := by
  simpa [isIterator, and_assoc] using h

/-- A keyword does not end a pattern, so one behind white space would be followed by white space in it. -/
theorem afterKeyword?_of_isPattern {x : Char} (h : isPattern (u ++ x :: v) = true) (hv : v ≠ [])
    (hx : isSpace x = true) : afterKeyword? (v ++ r) = none := by
  rw [Option.eq_none_iff_forall_ne_some]
  intro after hafter
  obtain ⟨a, b, y, w, heq, hy, hab⟩ := eq_of_afterKeyword? hafter
  obtain ⟨-, -, hlast, hsep⟩ := of_isPattern h
  match v with
  | [] => exact hv rfl
  | [c] => grind
  | [c, d] => grind
  | c :: d :: e :: v =>
    have hstarts : startsSeparated (x :: c :: d :: e :: v) = true := by
      obtain ⟨rfl, rfl, rfl, -⟩ := heq
      rcases hab with ⟨rfl, rfl⟩ | ⟨rfl, rfl⟩
      · simp [startsSeparated, hx, hy]
      · simp [startsSeparated, hx, hy]
    rw [holdsSeparated_append u hstarts] at hsep
    cases hsep

theorem splitAtKeyword?_item (h : isPlainName t = true ∨ isPattern t = true)
    (hbefore : before.head?.any isSpace = false) :
    splitAtKeyword? before (t ++ r) = splitAtKeyword? (t.reverse ++ before) r := by
  apply splitAtKeyword?_append
  · intro hs
    rw [hbefore] at hs
    cases hs
  · rintro u x v rfl hv hx
    rcases h with h | h
    · rw [((of_isPlainName h).2 x (by simp)).1] at hx
      cases hx
    · exact afterKeyword?_of_isPattern h hv hx

theorem splitAtKeyword?_iterators (h : ∀ i ∈ iterators, isIterator i = true) :
    splitAtKeyword? before (iterators.flatMap (", ".toList ++ ·) ++ ')' :: r) =
      splitAtKeyword? ((iterators.flatMap (", ".toList ++ ·)).reverse ++ before) (')' :: r) := by
  induction iterators generalizing before with
  | nil => rfl
  | cons i iterators ih =>
    obtain ⟨hi, hrest⟩ := forall_mem_cons.mp h
    obtain ⟨c, t, ht, hc⟩ : ∃ c t, iterators.flatMap (", ".toList ++ ·) ++ ')' :: r = c :: t ∧ (c = ',' ∨ c = ')') := by
      cases iterators with
      | nil => exact ⟨_, _, rfl, .inr rfl⟩
      | cons j iterators => exact ⟨_, _, rfl, .inl rfl⟩
    calc splitAtKeyword? before ((i :: iterators).flatMap (", ".toList ++ ·) ++ ')' :: r)
      _ = splitAtKeyword? before (',' :: ' ' :: (i ++ c :: t)) := by rw [← ht, flatMap_cons]; simp
      _ = splitAtKeyword? (i.reverse ++ ' ' :: ',' :: before) (c :: t) := by
        rw [splitAtKeyword?_cons (by decide) (by decide), splitAtKeyword?_cons (by decide) (by decide),
          splitAtKeyword?_solid (fun x hx => (of_isIterator hi x hx).1) hc]
      _ = _ := by rw [← ht, ih hrest, flatMap_cons]; simp

end Names

section Commas

variable {x : Char} {s t u v : Text}

theorem breakOnLast?_eq_none (h : x ∉ t) : breakOnLast? x t = none := by
  induction t with
  | nil => rfl
  | cons c t ih =>
    simp only [mem_cons, not_or] at h
    rw [breakOnLast?, ih h.2]
    exact if_neg (Ne.symm h.1)

theorem breakOnLast?_append (s : Text) (h : x ∉ t) : breakOnLast? x (s ++ x :: t) = some (s, t) := by
  induction s with
  | nil =>
    rw [nil_append, breakOnLast?, breakOnLast?_eq_none h]
    exact if_pos rfl
  | cons c s ih => rw [cons_append, breakOnLast?, ih]

theorem eq_of_breakOnLast? (h : breakOnLast? x t = some (u, v)) : t = u ++ x :: v := by
  induction t generalizing u with
  | nil => cases h
  | cons c t ih =>
    rw [breakOnLast?] at h
    split at h
    next ht =>
      cases h
      rw [ih ht, cons_append]
    · obtain ⟨rfl, hcons⟩ := Option.ite_none_right_eq_some.mp h
      cases hcons
      rfl

/-- What follows the last comma of an item is the end of a pattern. -/
theorem isPlainSegment_of_breakOnLast? (h : isPlainName t = true ∨ isPattern t = true)
    (hb : breakOnLast? ',' t = some (u, v)) : isPlainSegment v = false := by
  obtain rfl := eq_of_breakOnLast? hb
  rcases h with h | h
  · exact absurd rfl ((of_isPlainName h).2 ',' (by simp)).2.1
  · obtain ⟨-, -, hlast, -⟩ := of_isPattern h
    rcases eq_nil_or_concat v with rfl | ⟨w, z, rfl⟩
    · simp at hlast
    · rw [concat_eq_append, ← cons_append, ← append_assoc, getLast?_concat, Option.some.injEq,
        Option.some.injEq] at hlast
      rw [isPlainSegment, Bool.not_eq_false', any_eq_true]
      exact ⟨z, by simp, by simpa using hlast⟩

/-- The commas in front of iterators are the last ones of the names. -/
theorem splitIterators_names {item : Text}
    (h : isPlainName item = true ∨ isPattern item = true) (hi : ∀ i ∈ iterators, isIterator i = true)
    (hle : iterators.length ≤ 2) :
    splitIterators (item ++ iterators.flatMap (", ".toList ++ ·)) = (item, iterators.map (' ' :: ·)) := by
  have hcomma (t : Text) {i : Text} (hi : isIterator i = true) :
      breakOnLast? ',' (t ++ ", ".toList ++ i) = some (t, ' ' :: i) := by
    have hnot : ',' ∉ ' ' :: i := by
      intro hmem
      rcases mem_cons.mp hmem with hmem | hmem
      · cases hmem
      · exact (of_isIterator hi _ hmem).2.1 rfl
    rw [append_assoc]
    exact breakOnLast?_append t hnot
  have hplain {i : Text} (hi : isIterator i = true) : isPlainSegment (' ' :: i) = true := by
    have hchars := of_isIterator hi
    simp [isPlainSegment]
    grind
  match iterators with
  | [] =>
    rw [flatMap_nil, append_nil, splitIterators]
    cases hb : breakOnLast? ',' item with
    | none => rfl
    | some parts => simp [isPlainSegment_of_breakOnLast? h hb]
  | [i] =>
    have hi := hi i (by simp)
    rw [flatMap_singleton, ← append_assoc, splitIterators, hcomma item hi]
    cases hb : breakOnLast? ',' item with
    | none => simp [hb, hplain hi]
    | some parts => simp [hb, hplain hi, isPlainSegment_of_breakOnLast? h hb]
  | [i, j] =>
    have hj := hi j (by simp)
    have hi := hi i (by simp)
    rw [flatMap_cons, flatMap_singleton, ← append_assoc, ← append_assoc, ← append_assoc, splitIterators, hcomma _ hj]
    simp only [hplain hj, hplain hi, hcomma item hi, ↓reduceIte, map_cons, map_nil]
  | _ :: _ :: _ :: _ =>
    simp only [length_cons] at hle
    omega

end Commas

section Heads

variable {l : Loop}

theorem trim_of_solid {t : Text} (h : ∀ c ∈ t, isSpace c = false) : trim t = t :=
  trim_eq_self (fun c hc => h c (mem_of_head? hc)) fun c hc => h c (mem_of_getLast? hc)

theorem Writable.trim_item (h : l.Writable) : trim l.item = l.item := by
  rcases h.item with hi | hi
  · exact trim_of_solid fun c hc => ((of_isPlainName hi).2 c hc).1
  · exact (of_isPattern hi).1

theorem Writable.item_ne_nil (h : l.Writable) : l.item ≠ [] := by
  rcases h.item with hi | hi
  · exact (of_isPlainName hi).1
  · intro hnil
    rw [hnil] at hi
    cases hi

theorem Writable.item_ends (h : l.Writable) : l.item.head? ≠ some '(' ∧ l.item.getLast? ≠ some ')' := by
  rcases h.item with hi | hi
  · have hchars := (of_isPlainName hi).2
    exact ⟨fun hc => (hchars _ (mem_of_head? hc)).2.2.1 rfl, fun hc => (hchars _ (mem_of_getLast? hc)).2.2.2 rfl⟩
  · obtain ⟨-, hstart, hstop, -⟩ := of_isPattern hi
    refine ⟨hstart, fun hc => ?_⟩
    rw [hc] at hstop
    simp at hstop

theorem splitAtKeyword?_spelling (h : l.Writable) (hn : names ∈ l.spellings) (hk : keyword ∈ keywords) :
    splitAtKeyword? [] (names ++ ' ' :: (keyword ++ ' ' :: l.source)) = some (names ++ [' '], ' ' :: l.source) := by
  simp only [spellings, intercalate_cons, mem_cons] at hn
  rcases hn with rfl | hn
  · rw [cons_append, append_assoc, append_assoc, singleton_append, splitAtKeyword?_cons (by decide) (by decide),
      splitAtKeyword?_item h.item rfl, splitAtKeyword?_iterators h.iterators,
      splitAtKeyword?_cons (by decide) (by decide), splitAtKeyword?_found hk]
    simp
  · obtain ⟨-, rfl⟩ : l.iterators = [] ∧ names = l.item := by simpa using hn
    rw [splitAtKeyword?_item h.item rfl, splitAtKeyword?_found hk]
    simp

theorem trim_spelling (h : l.Writable) (hn : names ∈ l.spellings) : trim names = names := by
  simp only [spellings, mem_cons] at hn
  rcases hn with rfl | hn
  · apply trim_eq_self
    · intro c hc
      cases hc
      rfl
    · intro c hc
      rw [← cons_append, getLast?_concat] at hc
      cases hc
      rfl
  · obtain ⟨-, rfl⟩ : l.iterators = [] ∧ names = l.item := by simpa using hn
    exact h.trim_item

theorem dropClosing_spelling (h : l.Writable) (hn : names ∈ l.spellings) :
    dropClosing (dropOpening names) = l.item ++ l.iterators.flatMap (", ".toList ++ ·) := by
  simp only [spellings, intercalate_cons, mem_cons] at hn
  rcases hn with rfl | hn
  · rw [dropOpening, dropClosing, getLast?_concat, if_pos rfl, dropLast_concat]
  · obtain ⟨hnil, rfl⟩ : l.iterators = [] ∧ names = l.item := by simpa using hn
    obtain ⟨hstart, hstop⟩ := h.item_ends
    have hopen : dropOpening l.item = l.item := by
      unfold dropOpening
      split
      next hparen => exact absurd (congrArg head? hparen) hstart
      · rfl
    rw [hopen, dropClosing, if_neg hstop, hnil, flatMap_nil, append_nil]

/-- A loop is read back from its head. -/
theorem head_read_back (h : l.Writable) {names keyword : Text} (hn : names ∈ l.spellings) (hk : keyword ∈ keywords) :
    parse? (names ++ ' ' :: (keyword ++ ' ' :: l.source)) = some l := by
  have hsource : trim (' ' :: l.source) = l.source := by
    simpa using trim_surrounded (a := [' ']) (b := []) rfl rfl h.source
  have hnames : trim (names ++ [' ']) = names := trim_surrounded (a := []) rfl rfl (trim_spelling h hn)
  have hiterators : (l.iterators.map (' ' :: ·)).map trim = l.iterators := by
    rw [map_map]
    refine (map_congr_left fun i hi => ?_).trans (map_id _)
    have hsolid := trim_of_solid fun c hc => (of_isIterator (h.iterators i hi) c hc).1
    simpa using trim_surrounded (a := [' ']) (b := []) rfl rfl hsolid
  rw [parse?, splitAtKeyword?_spelling h hn hk]
  dsimp only
  rw [hnames, dropClosing_spelling h hn, splitIterators_names h.item h.iterators h.length_le, hsource, h.trim_item,
    hiterators, if_neg (by simp [h.item_ne_nil, h.source_ne_nil])]

/-- A loop whose source holds keywords between white space and whose pattern holds commas. -/
theorem head_read_back_pattern : Loop.Writable ⟨"a in b of c", "\x7b index, of: [on, in_] \x7d", ["i", "of"]⟩ ∧
      parse? "(\x7b index, of: [on, in_] \x7d, i, of) of a in b of c" =
        some ⟨"a in b of c", "\x7b index, of: [on, in_] \x7d", ["i", "of"]⟩ := by
  have h : Loop.Writable
      ⟨"a in b of c", "\x7b index, of: [on, in_] \x7d", ["i", "of"]⟩ :=
    ⟨rfl, by decide, .inr rfl, forall_mem_cons.mpr ⟨rfl, forall_mem_singleton.mpr rfl⟩, by decide⟩
  exact ⟨h, head_read_back h (.head _) (show "of".toList ∈ keywords from .tail _ (.head _))⟩

end Heads

end ComponentConverter.Template.Loop
