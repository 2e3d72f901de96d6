import ComponentConverter.Proofs.PieceReading
import ComponentConverter.Proofs.TemplateMarks

namespace ComponentConverter.Template

open List Markup Component

variable {l v t r : Text} {c d : Cursor} {x : Char}
variable {s name value : Text} {span : Span} {items : List TagItem}

section Tokens

def isAngle : Kind → Bool
  | .commentOpen | .closeOpen | .tagOpen => true
  | _ => false

theorem not_mem_of_plain (hl : ∀ c ∈ l, isPlain c = true) : '<' ∉ l := fun hm =>
  absurd (hl _ hm) (by decide)

theorem not_mem_gaps {g : Text} (hg : ∀ c ∈ g, isGap c = true) : '<' ∉ g := fun hm =>
  absurd (hg _ hm) (by decide)

theorem not_mem_lexeme {k : Kind} (h : k.Spells s) (hk : isAngle k = false) : '<' ∉ s := by
  cases k with
  | name => exact not_mem_of_plain (isPlain_of_isName h)
  | text => exact not_mem_of_plain h.2
  | endOfFile => exact h.elim
  | commentOpen | closeOpen | tagOpen => simp [isAngle] at hk
  | _ => obtain rfl : s = _ := h; decide

theorem marks_next {token : Token} (h : c.next = some (token, d))
    (hk : isAngle token.kind = false) : marks c.rest = marks d.rest := by
  obtain ⟨g, hr, hg, -, -, hs⟩ := Cursor.next_eq_some h
  rw [hr, marks_append_of_not_mem (not_mem_gaps hg), marks_append_of_not_mem (not_mem_lexeme hs hk)]

theorem marks_advance (hk : isAngle c.kind = false) : marks c.rest = marks c.advance.rest := by
  cases hn : c.next with
  | none => rw [Cursor.advance, hn]
  | some td =>
    rw [Cursor.kind_of_next hn] at hk
    rw [Cursor.advance_of_next hn]
    exact marks_next hn hk

theorem marks_advanceTo (s r : Text) (p : Nat) :
    marks r = marks ((Cursor.mk (s ++ r) p).advanceTo (p + bytes s)).rest := by
  have hskips := Cursor.advanceTo_skips s r p
  generalize (Cursor.mk (s ++ r) p).advanceTo (p + bytes s) = d at hskips ⊢
  cases hskips with
  | gaps u g hs hg _ hd => rw [hd, marks_append_of_not_mem (not_mem_gaps hg)]
  | token w v y k hs hv hr hp hw =>
    have hy : '<' ∉ y := by
      intro hm
      obtain ⟨c, v, rfl⟩ := exists_cons_of_ne_nil hv
      exact hw.spells.not_mem_tail (.inl rfl) (mem_append_right v hm)
    rw [hr, marks_append_of_not_mem hy]

end Tokens

section Values

theorem marks_quotedValue {quote : Char} {opened : Token}
    (hq : quote = '"' ∨ quote = '\'') (h : c.quotedValue quote opened = ((v, []), d))
    (hv : ¬ Mentions v) : marks c.rest = marks d.rest := by
  obtain ⟨rest, pos⟩ := c
  rw [Cursor.quotedValue] at h
  cases hb : breakOn? [quote] rest with
  | none => simp [hb] at h
  | some sr =>
    obtain ⟨s, r⟩ := sr
    obtain rfl : rest = s ++ quote :: r := by simpa using eq_of_breakOn? hb
    simp only [hb, Cursor.advanceTo_after s r pos (.inr hq), and_true] at h
    obtain ⟨rfl, rfl⟩ := h
    have hne : quote ≠ '<' := by rcases hq with rfl | rfl <;> decide
    have hs : Severs (quote :: r) := severs_cons (by rcases hq with rfl | rfl <;> decide) r
    rw [marks_append_of_not_mentions hv hs, marks_cons_of_ne hne]

theorem severs_bare (w : Text) : Severs (w.drop (Cursor.bareLength w)) := by
  fun_induction Cursor.bareLength w with
  | case1 => exact severs_nil
  | case2 t => exact severs_selfClose t
  | case3 c t _ h =>
    have hspace : ∀ d ∈ "/template".toList, (isSpace d || d == '>') = false := by
      simp [isSpace]
    refine severs_cons (fun hm => ?_) t
    rw [hspace c hm] at h
    simp at h
  | case4 c t _ h ih => exact ih

theorem marks_bareValue (h : c.bareValue = (v, d)) (hv : ¬ Mentions v) : marks c.rest = marks d.rest := by
  obtain ⟨rest, p⟩ := c
  obtain ⟨g, w, rfl, hg, hw⟩ := Cursor.exists_gaps rest
  rw [Cursor.bareValue, Cursor.skipGaps_append hg hw] at h
  obtain ⟨rfl, rfl⟩ := h
  have hs := severs_bare w
  generalize Cursor.bareLength w = n at hs hv ⊢
  have hm : marks (g ++ w) = marks (w.drop n) := by
    rw [marks_append_of_not_mem (not_mem_gaps hg), ← marks_append_of_not_mentions hv hs, take_append_drop]
  have hrest : g ++ w = g ++ w.take n ++ w.drop n := by simp
  rw [Nat.add_assoc, ← bytes_append]
  rw [hm, hrest]
  exact marks_advanceTo (g ++ w.take n) (w.drop n) p

theorem marks_attributeValue (h : c.attributeValue = ((v, []), d))
    (hv : ¬ Mentions v) : marks c.rest = marks d.rest := by
  rw [Cursor.attributeValue] at h
  split at h
  next hk => rw [marks_advance (by rw [hk]; rfl), marks_quotedValue (.inl rfl) h hv]
  next hk => rw [marks_advance (by rw [hk]; rfl), marks_quotedValue (.inr rfl) h hv]
  · simp only [Prod.mk.injEq, and_true] at h
    exact marks_bareValue (Prod.ext h.1 h.2) hv

/-- A piece of a start tag without faults is an attribute; nothing around its value is a mark. -/
theorem marks_tagItem (h : c.tagItem = some (.attribute name span value [], d)) (hv : ¬ Mentions value) :
    marks c.rest = marks d.rest := by
  cases Cursor.nextItem_of_tagItem h with
  | valued hk he hval =>
    rw [marks_advance (by rw [hk]; rfl), marks_advance (by rw [he]; rfl), marks_attributeValue hval hv]
  | plain hk => exact marks_advance (by rw [hk]; rfl)

end Values

section StartTags

theorem collectAttributes_faultless {known as : List Attribute} (h : collectAttributes known items = (as, [])) :
    (∀ a ∈ known, a ∈ as) ∧ ∀ item ∈ items, ∃ name span value,
      item = .attribute name span value [] ∧ ⟨name, value⟩ ∈ as := by
  induction items generalizing known with
  | nil =>
    obtain rfl : known = as := by simpa [collectAttributes] using h
    exact ⟨fun a ha => ha, by simp⟩
  | cons item items ih =>
    rcases item with ⟨name, span, value, own⟩ | ⟨fault⟩
    · rw [collectAttributes] at h
      split at h
      · simp at h
      · simp only [Prod.mk.injEq, append_eq_nil_iff] at h
        obtain ⟨has, rfl, hf⟩ := h
        obtain ⟨hk, hi⟩ := ih (Prod.ext has hf)
        refine ⟨fun a ha => hk a (mem_append_left _ ha), ?_⟩
        intro item hm
        rcases mem_cons.mp hm with rfl | hm
        · exact ⟨name, span, value, rfl, hk _ (by simp)⟩
        · exact hi item hm
    · simp [collectAttributes] at h

theorem marks_tagItems (h : Run Cursor.tagItem c items d)
    (hi : ∀ item ∈ items, ∃ name span value, item = .attribute name span value [] ∧
      ¬ Mentions value) : marks c.rest = marks d.rest := by
  induction h with
  | done c => rfl
  | more h hr ih =>
    obtain ⟨name, span, value, rfl, hv⟩ := hi _ mem_cons_self
    rw [marks_tagItem h hv, ih (fun item hm => hi item (mem_cons_of_mem _ hm))]

theorem startTag_eq (c : Cursor) : ∃ tagEnd, c.startTag.1 = ⟨(collectAttributes [] c.tagItems.1).1, tagEnd,
        (collectAttributes [] c.tagItems.1).2⟩ ∧ (tagEnd = .cutOff ∧ c.startTag.2 = c.tagItems.2 ∨
        tagEnd ≠ .cutOff ∧ (c.tagItems.2.kind = .tagClose ∨ c.tagItems.2.kind = .selfClose) ∧
          c.startTag.2 = c.tagItems.2.advance) := by
  rw [Cursor.startTag]
  dsimp only
  split
  next hk => exact ⟨.opened, rfl, .inr ⟨by simp, .inl hk, rfl⟩⟩
  next hk => exact ⟨.selfClosed, rfl, .inr ⟨by simp, .inr hk, rfl⟩⟩
  · exact ⟨.cutOff, rfl, .inl ⟨rfl, rfl⟩⟩

theorem marks_startTag (hf : c.startTag.1.faults = [])
    (hv : ∀ a ∈ c.startTag.1.attributes, ¬ Mentions a.value) : marks c.rest = marks c.startTag.2.rest := by
  obtain ⟨tagEnd, htag, hend⟩ := startTag_eq c
  rw [htag] at hf hv
  have hrun : Run Cursor.tagItem c c.tagItems.1 c.tagItems.2 := run_exhaust _ _
  have hitems : marks c.rest = marks c.tagItems.2.rest := by
    refine marks_tagItems hrun fun item hm => ?_
    obtain ⟨name, span, value, rfl, ha⟩ := (collectAttributes_faultless (Prod.ext rfl hf)).2 item hm
    exact ⟨name, span, value, rfl, hv _ ha⟩
  rcases hend with ⟨-, hd⟩ | ⟨-, hk, hd⟩
  · rw [hitems, hd]
  · rw [hitems, hd]
    exact marks_advance (by rcases hk with hk | hk <;> rw [hk] <;> rfl)

theorem endsName_of_isGap (h : isGap x = true) : endsName x = true := by
  simp only [isGap, Bool.or_eq_true, beq_iff_eq] at h
  rcases h with (((rfl | rfl) | rfl) | rfl) | rfl <;> decide

theorem kind_of_tagItem {faults : List Fault}
    (h : c.tagItem = some (.attribute name span value faults, d)) : c.kind = .name := by
  cases Cursor.nextItem_of_tagItem h with
  | valued hk => exact hk
  | plain hk => exact hk

theorem head_of_kind (hk : c.kind ≠ .endOfFile) :
    ∃ x r, c.rest = x :: r ∧ (isGap x = true ∨ ∃ l, c.kind.Spells (x :: l)) := by
  obtain ⟨g, hg, ⟨hr, -⟩, hs⟩ := Cursor.past_current hk
  cases g with
  | cons x g => exact ⟨x, _, hr, .inl (hg x mem_cons_self)⟩
  | nil =>
    cases hl : c.current.lexeme with
    | nil => exact absurd hl hs.ne_nil
    | cons x l =>
      rw [hl] at hr hs
      exact ⟨x, _, hr, .inr ⟨l, hs⟩⟩

theorem head_of_tagEnd (hk : c.kind = .tagClose ∨ c.kind = .selfClose) :
    ∃ x r, c.rest = x :: r ∧ endsName x = true := by
  obtain ⟨x, r, hr, hx⟩ := head_of_kind (c := c) (by rcases hk with hk | hk <;> simp [hk])
  refine ⟨x, r, hr, ?_⟩
  rcases hx with hg | ⟨l, hl⟩
  · exact endsName_of_isGap hg
  · rcases hk with hk | hk
    · rw [hk] at hl
      obtain ⟨rfl, -⟩ := List.cons.inj (show x :: l = ['>'] from hl)
      rfl
    · rw [hk] at hl
      obtain ⟨rfl, -⟩ := List.cons.inj (show x :: l = ['/', '>'] from hl)
      rfl

theorem head_of_name (hk : c.kind = .name) (hs : Stops c.rest) : ∃ x r, c.rest = x :: r ∧ endsName x = true := by
  obtain ⟨x, r, hr, hx⟩ := head_of_kind (c := c) (by simp [hk])
  refine ⟨x, r, hr, ?_⟩
  rcases hx with hg | ⟨l, hl⟩
  · exact endsName_of_isGap hg
  · rw [hk] at hl
    have hplain := isPlain_of_isName hl x mem_cons_self
    rw [hs x (by rw [hr]; rfl)] at hplain
    simp at hplain

theorem tagItems_of_none (h : c.tagItem = none) : c.tagItems = ([], c) :=
  exhaust_eq_of_run (.done c) h (Nat.zero_le _)

theorem tagItems_of_some {item : TagItem} (h : c.tagItem = some (item, d)) : item ∈ c.tagItems.1 := by
  obtain ⟨s, hs, hp⟩ := Cursor.past_tagItem h
  obtain ⟨n, hn⟩ := Nat.exists_eq_succ_of_ne_zero (Nat.ne_of_gt
    (Nat.lt_of_le_of_lt (Nat.zero_le _) (hp.length_lt hs)))
  rw [Cursor.tagItems, hn, exhaust, h]
  exact mem_cons_self

/-- In a start tag that is closed and has no faults, the name is followed by a gap, `>` or `/`. -/
theorem head_startTag (hf : c.startTag.1.faults = []) (he : c.startTag.1.tagEnd ≠ .cutOff) (hs : Stops c.rest) :
    ∃ x r, c.rest = x :: r ∧ endsName x = true := by
  obtain ⟨tagEnd, htag, hend⟩ := startTag_eq c
  rw [htag] at hf he
  cases hi : c.tagItem with
  | none =>
    rw [tagItems_of_none hi] at hend
    rcases hend with ⟨hcut, -⟩ | ⟨-, hk, -⟩
    · exact absurd hcut he
    · exact head_of_tagEnd hk
  | some id =>
    obtain ⟨item, d⟩ := id
    obtain ⟨name, span, value, rfl, -⟩ :=
      (collectAttributes_faultless (Prod.ext rfl hf)).2 item (tagItems_of_some hi)
    exact head_of_name (kind_of_tagItem hi) hs

end StartTags

section Pieces

theorem prefix_of_plain {pat l r : Text} (hp : ∀ c ∈ pat, isPlain c = true) (hr : Stops r)
    (h : pat <+: l ++ r) : pat <+: l := by
  by_cases hl : pat.length ≤ l.length
  · exact prefix_of_prefix_length_le h (prefix_append l r) hl
  · obtain ⟨x, rfl⟩ := prefix_of_prefix_length_le (prefix_append l r) h (by omega)
    have hx := (prefix_append_right_inj l).mp h
    cases x with
    | nil => simp at hl
    | cons y x =>
      obtain ⟨r, rfl⟩ := hx
      have hy := hp y (by simp)
      rw [hr y rfl] at hy
      simp at hy

/-- A name that starts like that of a template, in letters of any case. -/
def likeTemplate (name : Text) : Bool := "template".toList.isPrefixOf (name.map Char.toLower)

theorem likeTemplate_of_start (h : "template" <+: name) : likeTemplate name = true := by
  obtain ⟨r, rfl⟩ := h
  rw [likeTemplate, List.isPrefixOf_iff_prefix, map_append]
  exact prefix_append _ _

/-- Template tags have names of their own, are not closed by themselves and are mentioned neither
in comments nor in values. -/
def Piece.Unambiguous : Piece → Prop
  | .comment note => ¬ Mentions note.body
  | .opening name _ tag _ =>
    (likeTemplate name = true → name = "template" ∧ tag.tagEnd ≠ .selfClosed) ∧
      ∀ a ∈ tag.attributes, ¬ Mentions a.value
  | .closing tag _ => likeTemplate tag.name = true → tag.name = "template"
  | _ => True

instance (p : Piece) : Decidable p.Unambiguous :=
  match p with
  | .text .. | .nameless .. => isTrue trivial
  | .comment note => inferInstanceAs (Decidable (¬ Mentions note.body))
  | .opening name _ tag _ =>
    inferInstanceAs (Decidable
      ((likeTemplate name = true → name = "template" ∧ tag.tagEnd ≠ .selfClosed) ∧
        ∀ a ∈ tag.attributes, ¬ Mentions a.value))
  | .closing tag _ =>
    inferInstanceAs (Decidable (likeTemplate tag.name = true → tag.name = "template"))

def Piece.Faultless : Piece → Prop
  | .text _ _ => True
  | .comment note => note.faults = []
  | .opening _ _ tag _ => tag.faults = [] ∧ tag.tagEnd ≠ .cutOff
  | .closing tag _ => tag.faults = []
  | .nameless _ => False

def Piece.marks : Piece → List Mark
  | .opening name _ _ _ => if name = "template" then [.opens] else []
  | .closing tag _ => if tag.name = "template" then [.closes] else []
  | _ => []

theorem marks_of_not_startsMarkup {r : Text} (h : ∀ v, v <:+ s → v ≠ [] → startsMarkup (v ++ r) = false) :
    marks (s ++ r) = marks r := by
  induction s with
  | nil => rfl
  | cons c s ih =>
    have hc : startsMarkup (c :: (s ++ r)) = false := h (c :: s) suffix_rfl (by simp)
    have hm : markAt? (c :: (s ++ r)) = none := by
      apply markAt?_eq_none
      · rintro ⟨u, hu⟩
        have ht : startsMarkup (templateClosing ++ u) = true := rfl
        rw [hu, hc] at ht
        exact Bool.false_ne_true ht
      · rintro ⟨u, hu⟩
        have ht : startsMarkup (templateOpening ++ u) = true := rfl
        rw [hu, hc] at ht
        exact Bool.false_ne_true ht
    rw [cons_append, marks, hm, ih (fun v hv => h v (hv.trans (suffix_cons c s)))]
    rfl

theorem marks_readText {raw r : Text} (h : ∀ v, v <:+ raw → v ≠ [] → startsMarkup (v ++ r) = false) (p : Nat) :
    marks (raw ++ r) = marks (Piece.readText ⟨raw ++ r, p⟩ raw).2.rest := by
  rw [marks_of_not_startsMarkup h, Piece.readText]
  dsimp only [Cursor.take]
  rw [drop_left]
  split
  next he =>
    obtain rfl : r = [] := by simpa using he
    exact marks_advanceTo raw [] p
  · rfl

theorem markAt?_lt_cons (hc : x ≠ '/') (ho : x ≠ 't') (t : Text) : markAt? ('<' :: x :: t) = none := by
  apply markAt?_eq_none
  · intro h
    exact hc (cons_prefix_cons.mp (cons_prefix_cons.mp h).2).1.symm
  · intro h
    exact ho (cons_prefix_cons.mp (cons_prefix_cons.mp h).2).1.symm

theorem marks_comment (hk : c.kind = .commentOpen) (hf : c.comment.1.faults = [])
    (hb : ¬ Mentions c.comment.1.body) : marks c.rest = marks c.comment.2.rest := by
  have hopen : marks c.rest = marks c.advance.rest := by
    obtain ⟨g, hg, hr, -⟩ := Cursor.past_mark hk (by decide) (s := ['<', '!', '-', '-']) (fun _ hl => hl)
    rw [hr, append_assoc, marks_append_of_not_mem (not_mem_gaps hg), cons_append, cons_append,
      marks, markAt?_lt_cons (by decide) (by decide)]
    exact marks_append_of_not_mem (s := ['!', '-', '-']) (by decide) c.advance.rest
  have hs : Severs ('-' :: '-' :: '>' :: c.comment.2.rest) := severs_cons (by decide) _
  rw [hopen, Cursor.rest_comment hf, marks_append_of_not_mentions hb hs]
  exact marks_append_of_not_mem (s := ['-', '-', '>']) (by decide) c.comment.2.rest

theorem isPlain_template : ∀ c ∈ "template".toList, isPlain c = true := all_eq_true.mp rfl

theorem markAt?_closing (hr : Stops r) (hn : likeTemplate l = true → l = "template") :
    markAt? ('<' :: '/' :: (l ++ r)) = if l = "template" then some .closes else none := by
  by_cases hl : l = "template"
  · rw [if_pos hl, hl, markAt?_eq_closes_iff, List.isPrefixOf_iff_prefix]
    exact ⟨r, rfl⟩
  · rw [if_neg hl]
    apply markAt?_eq_none
    · intro h
      have hp : "template" <+: l ++ r := (cons_prefix_cons.mp (cons_prefix_cons.mp h).2).2
      exact hl (hn (likeTemplate_of_start (prefix_of_plain isPlain_template hr hp)))
    · intro h
      exact absurd (cons_prefix_cons.mp (cons_prefix_cons.mp h).2).1 (by decide)

theorem markAt?_opening (hl : ∀ c ∈ l, isPlain c = true) (hne : l ≠ [])
    (hr : Stops (x :: r)) (hx : endsName x = true) (hn : likeTemplate l = true → l = "template") :
    markAt? ('<' :: (l ++ x :: r)) = if l = "template" then some .opens else none := by
  by_cases ht : l = "template"
  · rw [if_pos ht, ht]
    have hc : templateClosing.isPrefixOf ('<' :: ("template" ++ x :: r)) = false := rfl
    have ho : after? templateOpening ('<' :: ("template" ++ x :: r)) = some (x :: r) := rfl
    rw [markAt?, hc, ho]
    simp [hx]
  · rw [if_neg ht]
    apply markAt?_eq_none
    · intro h
      cases l with
      | nil => exact hne rfl
      | cons c l =>
        obtain ⟨rfl, -⟩ := cons_prefix_cons.mp (cons_prefix_cons.mp h).2
        exact absurd (hl _ mem_cons_self) (by decide)
    · intro h
      have hp : "template" <+: l ++ x :: r := (cons_prefix_cons.mp h).2
      exact ht (hn (likeTemplate_of_start (prefix_of_plain isPlain_template hr hp)))

theorem closingTag_faultless (hx : x.isAlpha = true) (t : Text) (p : Nat)
    (hf : (Cursor.mk ('<' :: '/' :: x :: t) p).closingTag.1.faults = []) :
    ∃ l r, x :: t = l ++ r ∧ (∀ c ∈ l, isPlain c = true) ∧ Stops r ∧
      (Cursor.mk ('<' :: '/' :: x :: t) p).closingTag.1.name = l ∧
      (Markup.Cursor.mk r (p + 2 + bytes l)).kind = .tagClose ∧
      (Cursor.mk ('<' :: '/' :: x :: t) p).closingTag.2 = (Markup.Cursor.mk r (p + 2 + bytes l)).advance := by
  have hopen := Cursor.next_closeOpen (x :: t) p
  obtain ⟨l, r, hlr, hl, hr, hname⟩ := next_plain (isPlain_of_isAlpha hx) t (p + 2)
  refine ⟨l, r, hlr, hl, hr, ?_⟩
  rw [Cursor.closingTag, Cursor.current_of_next hopen, Cursor.advance_of_next hopen] at hf ⊢
  rw [Cursor.kind_of_next hname, Cursor.current_of_next hname, Cursor.advance_of_next hname] at hf ⊢
  by_cases hn : isName l = true
  · simp only [hn, if_true] at hf ⊢
    by_cases hk : (Markup.Cursor.mk r (p + 2 + bytes l)).kind = .tagClose
    · rw [if_pos hk]
      exact ⟨rfl, hk, rfl⟩
    · simp [hk] at hf
  · have hk := Cursor.kind_of_next hname
    simp only [hn] at hf hk
    simp [hk] at hf

theorem marks_opening {p stop : Nat} {tag : StartTag} (hn : TagName name) (hr : Stops r)
    (ht : (Markup.Cursor.mk r (p + 1 + bytes name)).startTag = (tag, d))
    (hf : (Piece.opening name p tag stop).Faultless) (hu : (Piece.opening name p tag stop).Unambiguous) :
    marks ('<' :: (name ++ r)) = (Piece.opening name p tag stop).marks ++ marks d.rest := by
  obtain ⟨rfl, rfl⟩ := Prod.ext_iff.mp ht
  obtain ⟨hfaults, hend⟩ := hf
  obtain ⟨y, r', rfl, hy⟩ := head_startTag hfaults hend hr
  have hl := isPlain_of_isName hn.isName
  have hne : name ≠ [] := by
    obtain ⟨c, t, rfl, -⟩ := hn.eq_cons
    exact cons_ne_nil c t
  rw [marks, markAt?_opening hl hne hr hy (fun ht => (hu.1 ht).1),
    marks_append_of_not_mem (not_mem_of_plain hl), marks_startTag hfaults hu.2, Piece.marks]
  split <;> rfl

/-- A piece without faults is one mark or none, and there are no others in what it takes of the
source. -/
theorem marks_piece {piece : Piece} (h : Piece.next c = some (piece, d))
    (hf : piece.Faultless) (hu : piece.Unambiguous) :
    marks c.rest = piece.marks ++ marks d.rest := by
  cases Piece.next_cases h with
  | @comment r p hc =>
    subst hc
    exact marks_comment (Cursor.kind_of_next (Cursor.next_commentOpen r p)) hf hu
  | @closing x r p hx hc =>
    subst hc
    obtain ⟨l, r', hlr, hl, hr, hname, hk, hend⟩ := closingTag_faultless hx r p hf
    rw [Piece.Unambiguous, hname] at hu
    rw [Piece.marks, hname, hend, ← marks_advance (by rw [hk]; rfl), hlr, marks,
      markAt?_closing hr hu, marks_cons_of_ne (by decide), marks_append_of_not_mem (not_mem_of_plain hl)]
    split <;> rfl
  | opening hn hr hc ht =>
    subst hc
    exact marks_opening hn hr ht hf hu
  | nameless => exact hf.elim
  | @text raw r hk hne hc hs =>
    obtain ⟨rest, p⟩ := c
    obtain rfl : rest = raw ++ r := hc
    exact marks_readText hs p

theorem marks_run {pieces : List Piece} (h : Run Piece.next c pieces d)
    (hf : ∀ p ∈ pieces, p.Faultless) (hu : ∀ p ∈ pieces, p.Unambiguous) :
    marks c.rest = pieces.flatMap Piece.marks ++ marks d.rest := by
  induction h with
  | done c => rfl
  | more h hr ih =>
    obtain ⟨hfp, hf⟩ := forall_mem_cons.mp hf
    obtain ⟨hup, hu⟩ := forall_mem_cons.mp hu
    rw [marks_piece h hfp hup, ih hf hu, flatMap_cons, append_assoc]

theorem rest_of_next_eq_none (h : Piece.next c = none) : ∀ x ∈ c.rest, isGap x = true := by
  rw [Piece.next] at h
  split at h
  next hk => exact Cursor.next_eq_none_iff.mp (Cursor.kind_eq_endOfFile_iff.mp hk)
  · split at h
    · split at h <;> simp at h
    · simp at h

theorem marks_all (hf : ∀ p ∈ (Piece.all t).1, p.Faultless) (hu : ∀ p ∈ (Piece.all t).1, p.Unambiguous) :
    marks t = (Piece.all t).1.flatMap Piece.marks := by
  have hd : Piece.next (exhaust Piece.next t.length (.start t)).2 = none :=
    step_exhaust Piece.length_lt_of_next (Nat.le_refl _)
  have hr : Run Piece.next (.start t) (Piece.all t).1 _ := run_exhaust t.length _
  have hm := marks_run hr hf hu
  have he := marks_append_of_not_mem (not_mem_gaps (rest_of_next_eq_none hd)) []
  rw [append_nil] at he
  rw [he] at hm
  exact hm.trans (append_nil _)

end Pieces

end ComponentConverter.Template
