import ComponentConverter.Template.Piece
import ComponentConverter.Proofs.TagReading

namespace ComponentConverter.Template

open List Markup

variable {c d : Cursor} {t name s r : Text} {x : Char} {piece : Piece}

theorem startsMarkup_cons_of_ne {c : Char} (t : Text) (h : c ≠ '<') : startsMarkup (c :: t) = false := by
  rw [startsMarkup.eq_def]
  split <;> simp_all

theorem eq_cons_of_startsMarkup (h : startsMarkup t = true) : ∃ r, t = '<' :: r := by
  cases t with
  | nil => simp [startsMarkup] at h
  | cons c t =>
    by_cases hc : c = '<'
    · exact ⟨t, by rw [hc]⟩
    · simp [startsMarkup_cons_of_ne t hc] at h

theorem startsMarkup_letter {c : Char} (t : Text) (h : c.isAlpha = true) : startsMarkup ('<' :: c :: t) = true := by
  have h1 : c ≠ '!' := by rintro rfl; simp at h
  have h2 : c ≠ '/' := by rintro rfl; simp at h
  simp [startsMarkup, h1, h2, h]

/-- A name that can follow the `<` of a tag. -/
structure TagName (name : Text) : Prop where
  isName : isName name = true
  isAlpha : ∀ c ∈ name.head?, c.isAlpha = true

theorem TagName.eq_cons (h : TagName name) : ∃ c t, name = c :: t ∧ c.isAlpha = true := by
  cases name with
  | nil => exact absurd h.isName (by simp [Markup.isName])
  | cons c t => exact ⟨c, t, rfl, h.isAlpha c rfl⟩

theorem TagName.startsMarkup_opening (h : TagName name) (r : Text) : startsMarkup ('<' :: (name ++ r)) = true := by
  obtain ⟨c, t, rfl, hc⟩ := h.eq_cons
  exact startsMarkup_letter _ hc

theorem TagName.startsMarkup_closing (h : TagName name) (r : Text) :
    startsMarkup ('<' :: '/' :: (name ++ r)) = true := by
  obtain ⟨c, t, rfl, hc⟩ := h.eq_cons
  exact hc

theorem TagName.read_tagOpen (h : TagName name) (r : Text) : Kind.read ('<' :: (name ++ r)) = some (.tagOpen, 1) := by
  obtain ⟨c, t, rfl, hc⟩ := h.eq_cons
  exact Kind.read_tagOpen _ hc

theorem beforeMarkup_of_startsMarkup (h : startsMarkup t = true) : beforeMarkup t = [] := by
  obtain ⟨r, rfl⟩ := eq_cons_of_startsMarkup h
  rw [beforeMarkup, if_pos h]

theorem beforeMarkup_append (hr : startsMarkup r = true)
    (hs : ∀ v, v <:+ s → v ≠ [] → startsMarkup (v ++ r) = false) : beforeMarkup (s ++ r) = s := by
  induction s with
  | nil =>
    obtain ⟨t, rfl⟩ := eq_cons_of_startsMarkup hr
    simp [beforeMarkup, hr]
  | cons c s ih =>
    have hc : startsMarkup (c :: (s ++ r)) = false := hs (c :: s) suffix_rfl (by simp)
    rw [cons_append, beforeMarkup, hc, ih (fun v hv => hs v (hv.trans (suffix_cons c s)))]
    simp

theorem beforeMarkup_spec (t : Text) : ∃ r, t = beforeMarkup t ++ r ∧ (r = [] ∨ startsMarkup r = true) ∧
      ∀ v, v <:+ beforeMarkup t → v ≠ [] → startsMarkup (v ++ r) = false := by
  induction t with
  | nil => exact ⟨[], rfl, .inl rfl, by simp [beforeMarkup]⟩
  | cons c t ih =>
    rw [beforeMarkup]
    split
    next h => exact ⟨c :: t, rfl, .inr h, by simp⟩
    next h =>
      obtain ⟨r, ht, hr, hs⟩ := ih
      refine ⟨r, by rw [cons_append, ← ht], hr, ?_⟩
      intro v hv hne
      rcases suffix_cons_iff.mp hv with rfl | hv
      · rw [cons_append, ← ht]
        simpa using h
      · exact hs v hv hne

theorem beforeMarkup_eq_nil (h : beforeMarkup t = []) : t = [] ∨ startsMarkup t = true := by
  obtain ⟨r, ht, hr, -⟩ := beforeMarkup_spec t
  rw [h, nil_append] at ht
  rwa [ht]

theorem startsMarkup_cases (h : startsMarkup t = true) :
    (∃ r, t = '<' :: '!' :: '-' :: '-' :: r) ∨ (∃ x r, t = '<' :: '/' :: x :: r ∧ x.isAlpha = true) ∨
      ∃ x r, t = '<' :: x :: r ∧ x.isAlpha = true := by
  rw [startsMarkup.eq_def] at h
  split at h
  next r => exact .inl ⟨r, rfl⟩
  next x r => exact .inr (.inl ⟨x, r, rfl, h⟩)
  next x r _ _ => exact .inr (.inr ⟨x, r, rfl, h⟩)
  · simp at h

theorem isPlain_of_isAlpha (h : x.isAlpha = true) : isPlain x = true :=
  isPlain_of_continuesName (by simp [continuesName, startsName, h])

theorem next_plain (hx : isPlain x = true) (t : Text) (p : Nat) :
    ∃ l r, x :: t = l ++ r ∧ (∀ c ∈ l, isPlain c = true) ∧ Stops r ∧
      (Cursor.mk (x :: t) p).next = some (⟨if isName l then .name else .text, l, p⟩, ⟨r, p + bytes l⟩) := by
  obtain ⟨l, r, hlr, hl, hr⟩ : ∃ l r, x :: t = l ++ r ∧ (∀ c ∈ l, isPlain c = true) ∧ Stops r := by
    refine ⟨(x :: t).takeWhile isPlain, (x :: t).dropWhile isPlain, by simp, all_eq_true.mp all_takeWhile, ?_⟩
    intro c hc
    have hn := head?_dropWhile_not isPlain (x :: t)
    rw [hc] at hn
    exact hn
  have hw : x :: t.takeWhile isPlain = l := by
    rw [← takeWhile_isPlain hl hr, ← hlr]
    simp [hx]
  have hlen : (t.takeWhile isPlain).length + 1 = l.length := by
    rw [← hw]
    rfl
  have hread : Kind.read (l ++ r) = some (if isName l then .name else .text, l.length) := by
    rw [← hlr, Kind.read_plain t hx, hw, hlen]
  have hsolid : Cursor.Solid (l ++ r) := by
    rw [← hlr]
    rintro c ⟨⟩
    exact isGap_eq_false_of_isPlain hx
  refine ⟨l, r, hlr, hl, hr, ?_⟩
  rw [hlr]
  exact Cursor.next_lexeme (g := []) (by simp) hsolid hread

namespace Piece

theorem past_readText {raw : Text} (hk : c.kind ≠ .endOfFile) (hr : raw ≠ [])
    (hp : raw <+: c.rest) : ∃ s, s ≠ [] ∧ c.Past s (readText c raw).2 := by
  obtain ⟨rest, pos⟩ := c
  obtain ⟨r, rfl⟩ := hp
  rw [readText]
  dsimp only [Cursor.take]
  split
  next he =>
    obtain rfl : r = [] := by simpa using he
    obtain ⟨u, hu⟩ := (Cursor.reaches_advanceTo ⟨raw ++ [], pos⟩ (pos + bytes raw)).past
    refine ⟨u, ?_, hu⟩
    rintro rfl
    have hend := Cursor.nextBefore_advanceTo ⟨raw ++ [], pos⟩ (pos + bytes raw)
    apply hk
    rw [Cursor.kind_eq_endOfFile_iff, Cursor.next_eq_none_iff, append_nil]
    exact Cursor.gaps_of_nextBefore (by rw [hu.2]; exact hend) hu.1.symm
  · exact ⟨raw, hr, by simp [Cursor.Past]⟩

/-- What the next piece can be. Of a start tag, the name is read off the text. -/
inductive Next (c : Cursor) : Piece → Cursor → Prop
  | comment {r : Text} {p : Nat} (hc : c = ⟨'<' :: '!' :: '-' :: '-' :: r, p⟩) :
      Next c (.comment c.comment.1) c.comment.2
  | closing {x : Char} {r : Text} {p : Nat} (hx : x.isAlpha = true) (hc : c = ⟨'<' :: '/' :: x :: r, p⟩) :
      Next c (.closing c.closingTag.1 c.closingTag.2.pos) c.closingTag.2
  | opening {name r : Text} {p : Nat} {tag : StartTag} {d : Cursor} (hn : TagName name) (hr : Stops r)
      (hc : c = ⟨'<' :: (name ++ r), p⟩) (ht : (Markup.Cursor.mk r (p + 1 + bytes name)).startTag = (tag, d)) :
      Next c (.opening name p tag d.pos) d
  | nameless (hk : c.kind ≠ .endOfFile) :
      Next c (.nameless ⟨.unexpectedToken .tagName c.advance.kind, c.advance.current.span⟩) c.advance
  | text {raw r : Text} (hk : c.kind ≠ .endOfFile) (hne : raw ≠ []) (hc : c.rest = raw ++ r)
      (hs : ∀ v, v <:+ raw → v ≠ [] → startsMarkup (v ++ r) = false) :
      Next c (readText c raw).1 (readText c raw).2

theorem next_readOpening (hx : x.isAlpha = true) (t : Text) (p : Nat) :
    Next ⟨'<' :: x :: t, p⟩ (readOpening ⟨'<' :: x :: t, p⟩).1 (readOpening ⟨'<' :: x :: t, p⟩).2 := by
  have hopen := Cursor.next_mark (x :: t) p rfl rfl (Kind.read_tagOpen t hx)
  obtain ⟨l, r, hlr, -, hr, hname⟩ := next_plain (isPlain_of_isAlpha hx) t (p + 1)
  rw [readOpening]
  split
  next hk =>
    rw [Cursor.advance_of_next hopen] at hk ⊢
    rw [Cursor.kind_of_next hname] at hk
    rw [Cursor.current_of_next hopen, Cursor.current_of_next hname, Cursor.advance_of_next hname]
    have hn : isName l = true := by
      cases hn : isName l with
      | false => simp [hn] at hk
      | true => rfl
    refine .opening ⟨hn, ?_⟩ hr (by rw [hlr]) rfl
    intro y hy
    cases l with
    | nil => cases hy
    | cons z l =>
      obtain rfl := Option.some.inj hy
      exact (List.cons.inj hlr).1 ▸ hx
  · exact .nameless (by simp [Cursor.kind_of_next hopen])

theorem next_cases (h : next c = some (piece, d)) : Next c piece d := by
  rw [next] at h
  split at h
  · simp at h
  next hk =>
    split at h
    next hb =>
      obtain ⟨rest, p⟩ := c
      rcases beforeMarkup_eq_nil hb with rfl | hm
      · exact absurd rfl hk
      · rcases startsMarkup_cases hm with ⟨r, rfl⟩ | ⟨x, r, rfl, hx⟩ | ⟨x, r, rfl, hx⟩
        · rw [Cursor.kind_of_next (Cursor.next_commentOpen r p)] at h
          obtain ⟨rfl, rfl⟩ := h
          exact .comment rfl
        · rw [Cursor.kind_of_next (Cursor.next_closeOpen (x :: r) p)] at h
          obtain ⟨rfl, rfl⟩ := h
          exact .closing hx rfl
        · rw [Cursor.kind_of_next (Cursor.next_mark (x :: r) p rfl rfl (Kind.read_tagOpen r hx))] at h
          obtain ⟨rfl, rfl⟩ := Prod.ext_iff.mp (Option.some.inj h)
          exact next_readOpening hx r p
    next raw hne =>
      obtain ⟨rfl, rfl⟩ := Prod.ext_iff.mp (Option.some.inj h)
      obtain ⟨r, hr, -, hs⟩ := beforeMarkup_spec c.rest
      exact .text hk hne hr hs

theorem past_tagName (r : Text) (p : Nat) :
    (Cursor.mk ('<' :: (name ++ r)) p).Past ('<' :: name) ⟨r, p + 1 + bytes name⟩ :=
  ⟨rfl, Nat.add_assoc p 1 _⟩

theorem reaches_readOpening (c : Cursor) : c.advance.Reaches (readOpening c).2 := by
  rw [readOpening]
  split
  · exact (Cursor.reaches_advance _).trans (Cursor.reaches_startTag _)
  · exact .refl _

/-- A piece of markup is read token by token, a text up to the next markup. -/
theorem reaches_next (h : next c = some (piece, d)) :
    c.kind ≠ .endOfFile ∧ (beforeMarkup c.rest = [] ∧ c.advance.Reaches d ∨
      beforeMarkup c.rest ≠ [] ∧ (piece, d) = readText c (beforeMarkup c.rest)) := by
  rw [next] at h
  split at h
  · cases h
  next hk =>
    refine ⟨hk, ?_⟩
    split at h
    next hb =>
      left
      refine ⟨hb, ?_⟩
      split at h
      · simp only [Option.some.injEq, Prod.mk.injEq] at h
        rw [← h.2]
        exact Cursor.reaches_comment c
      · simp only [Option.some.injEq, Prod.mk.injEq] at h
        rw [← h.2]
        exact Cursor.reaches_closingTag c
      · have hr := reaches_readOpening c
        rwa [Option.some.inj h] at hr
    next hne => exact .inr ⟨hne, (Option.some.inj h).symm⟩

theorem past_next (h : next c = some (piece, d)) : ∃ s, s ≠ [] ∧ c.Past s d := by
  obtain ⟨hk, ⟨-, hr⟩ | ⟨hne, ht⟩⟩ := reaches_next h
  · exact Cursor.past_of_advance hk hr
  · obtain ⟨r, hr, -⟩ := beforeMarkup_spec c.rest
    have hp := past_readText hk hne ⟨r, hr.symm⟩
    rwa [← ht] at hp

theorem length_lt_of_next (c : Cursor) (piece : Piece) (d : Cursor)
    (h : next c = some (piece, d)) : d.rest.length < c.rest.length := by
  obtain ⟨s, hs, hp⟩ := past_next h
  exact hp.length_lt hs

theorem all_of_run {source : Text} {pieces : List Piece}
    (hr : Run next (.start source) pieces d) (hd : next d = none) : all source = (pieces, d.pos) := by
  have hl : pieces.length + d.rest.length ≤ source.length := hr.length_le length_lt_of_next
  rw [all, exhaust_eq_of_run hr hd (by omega)]

theorem next_text (hne : s ≠ []) (hr : startsMarkup r = true)
    (hs : ∀ v, v <:+ s → v ≠ [] → startsMarkup (v ++ r) = false) (p : Nat) :
    next ⟨s ++ r, p⟩ = some (.text s ⟨p, p + bytes s⟩, ⟨r, p + bytes s⟩) := by
  obtain ⟨t, rfl⟩ := eq_cons_of_startsMarkup hr
  have hk : (Cursor.mk (s ++ '<' :: t) p).kind ≠ .endOfFile := by
    rw [ne_eq, Cursor.kind_eq_endOfFile_iff, Cursor.next_eq_none_iff]
    intro hg
    have hlt := hg '<' (by simp)
    simp [isGap] at hlt
  rw [next, if_neg hk, beforeMarkup_append hr hs]
  split
  · exact absurd rfl hne
  · simp [readText, Cursor.take]

theorem next_comment {body : Text} (hb : ¬ ['-', '-', '>'] <:+: body) (r : Text) (p : Nat) :
    ∃ span, next ⟨'<' :: '!' :: '-' :: '-' :: (body ++ '-' :: '-' :: '>' :: r), p⟩ =
      some (.comment ⟨body, span, []⟩, ⟨r, p + bytes body + 7⟩) := by
  obtain ⟨span, hc⟩ := Cursor.comment_written hb r p
  have hk := Cursor.kind_of_next (Cursor.next_commentOpen (body ++ '-' :: '-' :: '>' :: r) p)
  refine ⟨span, ?_⟩
  rw [next, hk, beforeMarkup, hc]
  rfl

theorem next_opening (hn : TagName name) {as : List Attribute}
    (hw : ∀ a ∈ as, a.Writable) (hd : (as.map Attribute.name).Nodup) (r : Text) (p : Nat) :
    next ⟨'<' :: (name ++ (writtenAttributes as ++ '>' :: r)), p⟩ =
      some (.opening name p ⟨as, .opened, []⟩ (p + 1 + bytes name + bytes (writtenAttributes as) + 1),
        ⟨r, p + 1 + bytes name + bytes (writtenAttributes as) + 1⟩) := by
  have hstop : Stops (writtenAttributes as ++ '>' :: r) := by
    cases as <;> rintro c ⟨⟩ <;> rfl
  have hopen := Cursor.next_mark (name ++ (writtenAttributes as ++ '>' :: r)) p rfl rfl
    (hn.read_tagOpen _)
  have hname := Cursor.next_name (g := []) (p := p + 1) (by simp) hn.isName hstop
  simp only [nil_append, bytes_nil] at hname
  rw [next, Cursor.kind_of_next hopen, if_neg (by simp), beforeMarkup_of_startsMarkup (hn.startsMarkup_opening _)]
  rw [readOpening, Cursor.advance_of_next hopen, Cursor.current_of_next hopen]
  rw [if_pos (Cursor.kind_of_next hname), Cursor.advance_of_next hname,
    Cursor.current_of_next hname, Cursor.startTag_written hw hd]

theorem next_closing (hn : TagName name) (r : Text) (p : Nat) : ∃ span, next ⟨'<' :: '/' :: (name ++ '>' :: r), p⟩ =
      some (.closing ⟨name, span, []⟩ (p + bytes name + 3), ⟨r, p + bytes name + 3⟩) := by
  obtain ⟨span, hc⟩ := Cursor.closingTag_written (g := []) (by simp) hn.isName r p
  simp only [nil_append, bytes_nil, Nat.add_zero] at hc
  have hk := Cursor.kind_of_next (Cursor.next_closeOpen (name ++ '>' :: r) p)
  refine ⟨span, ?_⟩
  rw [next, hk, if_neg (by simp), beforeMarkup_of_startsMarkup (hn.startsMarkup_closing _)]
  rw [hc]

end Piece

end ComponentConverter.Template
