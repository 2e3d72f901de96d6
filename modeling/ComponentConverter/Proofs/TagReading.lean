import ComponentConverter.Markup.Tag
import ComponentConverter.Proofs.TokenReading

namespace ComponentConverter.Markup

open List

variable {v : Text} {c d : Cursor} {item : TagItem}

/-- An attribute as it is written: after a blank, its value in double quotes. -/
def Attribute.written (a : Attribute) : Text := ' ' :: (a.name ++ '=' :: '"' :: (a.value ++ ['"']))

def writtenAttributes (as : List Attribute) : Text := as.flatMap Attribute.written

/-- An attribute that can be written: its name is a name and its value has no double quote. -/
def Attribute.Writable (a : Attribute) : Prop := isName a.name = true ∧ '"' ∉ a.value

namespace Cursor

theorem next_mark {y : Char} {k : Kind} (r : Text) (p : Nat) (hy : isGap y = false)
    (hu : y.utf8Size = 1) (h : Kind.read (y :: r) = some (k, 1)) :
    (Cursor.mk (y :: r) p).next = some (⟨k, [y], p⟩, ⟨r, p + 1⟩) := by
  have hn := next_lexeme (g := []) (s := [y]) (p := p) (by simp) (by rintro c ⟨⟩; exact hy) h
  simpa [hu] using hn

theorem next_commentOpen (r : Text) (p : Nat) : (Cursor.mk ('<' :: '!' :: '-' :: '-' :: r) p).next =
      some (⟨.commentOpen, ['<', '!', '-', '-'], p⟩, ⟨r, p + 4⟩) :=
  next_lexeme (g := []) (s := ['<', '!', '-', '-']) (r := r) (by simp) (by rintro c ⟨⟩; rfl) rfl

theorem next_closeOpen (r : Text) (p : Nat) :
    (Cursor.mk ('<' :: '/' :: r) p).next = some (⟨.closeOpen, ['<', '/'], p⟩, ⟨r, p + 2⟩) :=
  next_lexeme (g := []) (s := ['<', '/']) (r := r) (by simp) (by rintro c ⟨⟩; rfl) rfl

theorem quotedValue_written (hv : '"' ∉ v) (r : Text) (p : Nat) (opened : Token) :
    (Cursor.mk (v ++ '"' :: r) p).quotedValue '"' opened = ((v, []), ⟨r, p + bytes v + 1⟩) := by
  rw [quotedValue, breakOn?_char hv]
  simp only [advanceTo_after v r p (.inr (.inl rfl))]

theorem attributeValue_written (hv : '"' ∉ v) (r : Text) (p : Nat) :
    (Cursor.mk ('"' :: (v ++ '"' :: r)) p).attributeValue = ((v, []), ⟨r, p + 1 + bytes v + 1⟩) := by
  exact quotedValue_written hv r (p + 1) _

theorem bytes_written (a : Attribute) : bytes a.written = bytes a.name + bytes a.value + 4 := by
  have hb : Char.utf8Size ' ' = 1 ∧ Char.utf8Size '=' = 1 ∧ Char.utf8Size '"' = 1 := ⟨rfl, rfl, rfl⟩
  simp only [Attribute.written, bytes_cons, bytes_append, bytes_nil, hb]
  omega

theorem tagItem_written {a : Attribute} (ha : a.Writable) (r : Text) (p : Nat) :
    ∃ span, (Cursor.mk (a.written ++ r) p).tagItem =
      some (.attribute a.name span a.value [], ⟨r, p + bytes a.written⟩) := by
  obtain ⟨name, value⟩ := a
  obtain ⟨hn, hv⟩ := ha
  have hs : Stops ('=' :: '"' :: (value ++ '"' :: r)) := by rintro c ⟨⟩; rfl
  have hname := next_name (g := [' ']) (p := p) (by simp [isGap]) hn hs
  have heq := next_mark ('"' :: (value ++ '"' :: r)) (p + bytes [' '] + bytes name) (y := '=')
    (k := .equals) rfl rfl rfl
  have hw : Attribute.written ⟨name, value⟩ ++ r = [' '] ++ (name ++ '=' :: '"' :: (value ++ '"' :: r)) := by
    simp [Attribute.written]
  have hp : p + bytes [' '] + bytes name + 1 + 1 + bytes value + 1 = p + bytes (Attribute.written ⟨name, value⟩) := by
    rw [bytes_written, show bytes [' '] = 1 from rfl]
    dsimp only
    omega
  refine ⟨Token.span ⟨.name, name, p + bytes [' ']⟩, ?_⟩
  rw [hw, tagItem, kind_of_next hname, advance_of_next hname, current_of_next hname]
  rw [if_pos (kind_of_next heq), advance_of_next heq, attributeValue_written hv, hp]

theorem length_le_writtenAttributes (as : List Attribute) : as.length ≤ (writtenAttributes as).length := by
  induction as with
  | nil => simp
  | cons a as ih =>
    have hw : writtenAttributes (a :: as) = a.written ++ writtenAttributes as := rfl
    have ha : a.written ≠ [] := by simp [Attribute.written]
    have hp := length_pos_iff.mpr ha
    rw [hw, length_append, length_cons]
    omega

theorem run_tagItem {as : List Attribute} (ha : ∀ a ∈ as, a.Writable) (r : Text) (p : Nat) :
    ∃ items : List TagItem, items.length = as.length ∧
      Run tagItem ⟨writtenAttributes as ++ r, p⟩ items ⟨r, p + bytes (writtenAttributes as)⟩ ∧
      ∀ known : List Attribute, ((known ++ as).map Attribute.name).Nodup →
        collectAttributes known items = (known ++ as, []) := by
  induction as generalizing p with
  | nil => exact ⟨[], rfl, .done _, fun known _ => by simp [collectAttributes]⟩
  | cons a as ih =>
    obtain ⟨span, hi⟩ := tagItem_written (ha a mem_cons_self) (writtenAttributes as ++ r) p
    obtain ⟨items, hl, hr, hc⟩ := ih (fun b hb => ha b (mem_cons_of_mem a hb))
      (p + bytes a.written)
    have hw : writtenAttributes (a :: as) = a.written ++ writtenAttributes as := rfl
    refine ⟨.attribute a.name span a.value [] :: items, by simp [hl], ?_, ?_⟩
    · rw [hw, append_assoc, bytes_append, ← Nat.add_assoc]
      exact .more hi hr
    · intro known hn
      have hnew : known.any (·.name == a.name) = false := by
        simp only [map_append, map_cons, nodup_append] at hn
        rw [any_eq_false]
        intro b hb
        simpa using hn.2.2 b.name (mem_map_of_mem hb) a.name mem_cons_self
      have hk := hc (known ++ [a]) (by simpa using hn)
      rw [collectAttributes, hnew]
      simp [hk]

theorem startTag_written {as : List Attribute} (ha : ∀ a ∈ as, a.Writable)
    (hn : (as.map Attribute.name).Nodup) (r : Text) (p : Nat) :
    (Cursor.mk (writtenAttributes as ++ '>' :: r) p).startTag =
      (⟨as, .opened, []⟩, ⟨r, p + bytes (writtenAttributes as) + 1⟩) := by
  obtain ⟨items, hl, hr, hc⟩ := run_tagItem ha ('>' :: r) p
  have hend := next_mark r (p + bytes (writtenAttributes as)) (y := '>') (k := .tagClose) rfl rfl rfl
  have hk := kind_of_next hend
  have hstop : tagItem ⟨'>' :: r, p + bytes (writtenAttributes as)⟩ = none := by
    rw [tagItem, hk]
  have hlen : items.length ≤ (writtenAttributes as ++ '>' :: r).length := by
    have hle := length_le_writtenAttributes as
    rw [length_append]
    omega
  rw [startTag, tagItems, exhaust_eq_of_run hr hstop hlen]
  dsimp only
  rw [hc [] hn, hk]
  simp [advance_of_next hend]

theorem closingTag_written {g name : Text} (hg : ∀ c ∈ g, isGap c = true)
    (hn : isName name = true) (r : Text) (p : Nat) :
    ∃ span, (Cursor.mk (g ++ '<' :: '/' :: (name ++ '>' :: r)) p).closingTag =
      (⟨name, span, []⟩, ⟨r, p + bytes g + bytes name + 3⟩) := by
  have hopen := next_lexeme (s := ['<', '/']) (r := name ++ '>' :: r) (p := p) hg
    (by rintro c ⟨⟩; rfl) rfl
  have hname := next_name (g := []) (r := '>' :: r) (p := p + bytes g + 2) (by simp) hn
    (by rintro c ⟨⟩; rfl)
  have hend := next_mark r (p + bytes g + 2 + bytes name) (y := '>') (k := .tagClose) rfl rfl rfl
  refine ⟨⟨p + bytes g, Token.stop ⟨.tagClose, ['>'], p + bytes g + 2 + bytes name⟩⟩, ?_⟩
  have hp : p + bytes g + 2 + bytes name + 1 = p + bytes g + bytes name + 3 := by omega
  simp only [cons_append, nil_append, show bytes ['<', '/'] = 2 from rfl] at hopen
  simp only [nil_append, bytes_nil, Nat.add_zero] at hname
  rw [closingTag, current_of_next hopen, advance_of_next hopen]
  dsimp only
  rw [if_pos (kind_of_next hname), current_of_next hname, advance_of_next hname]
  rw [if_pos (kind_of_next hend), current_of_next hend, advance_of_next hend, hp]

theorem closingTag_after {name : Text} (hn : isName name = true) (t r : Text) (p : Nat) :
    ∃ span, ((Cursor.mk (t ++ '<' :: '/' :: (name ++ '>' :: r)) p).advanceTo
      (p + bytes t)).closingTag = (⟨name, span, []⟩, ⟨r, p + bytes t + bytes name + 3⟩) := by
  obtain ⟨u, g, rfl, hg, ha⟩ := advanceTo_of_cut (p := p)
    (cut_of_head t ('/' :: (name ++ '>' :: r)))
  obtain ⟨span, hc⟩ := closingTag_written hg hn r (p + bytes u)
  refine ⟨span, ?_⟩
  rw [ha, hc, bytes_append, Nat.add_assoc p]

theorem comment_written {body : Text} (hb : ¬ ['-', '-', '>'] <:+: body) (r : Text) (p : Nat) :
    ∃ span, (Cursor.mk ('<' :: '!' :: '-' :: '-' :: (body ++ '-' :: '-' :: '>' :: r)) p).comment =
      (⟨body, span, []⟩, ⟨r, p + bytes body + 7⟩) := by
  have hopen := next_commentOpen (body ++ '-' :: '-' :: '>' :: r) p
  have hend := advanceTo_after (body ++ ['-', '-']) r (p + 4) (.inl rfl)
  have hbytes : bytes (body ++ ['-', '-']) = bytes body + 2 := by
    rw [bytes_append]
    rfl
  simp only [hbytes, append_assoc, cons_append, nil_append] at hend
  refine ⟨⟨p, p + 4 + bytes body + 3⟩, ?_⟩
  rw [comment, current_of_next hopen, advance_of_next hopen]
  rw [breakOn?_commentEnd hb]
  have hp : p + 4 + bytes body + 3 = p + bytes body + 7 := by omega
  have hp' : p + 4 + (bytes body + 2) + 1 = p + bytes body + 7 := by omega
  rw [hp'] at hend
  simp only [hp, hend]

theorem rest_comment (h : c.comment.1.faults = []) :
    c.advance.rest = c.comment.1.body ++ '-' :: '-' :: '>' :: c.comment.2.rest := by
  rw [comment] at h ⊢
  generalize c.advance = inside at h ⊢
  obtain ⟨rest, p⟩ := inside
  cases hb : breakOn? ['-', '-', '>'] rest with
  | none => simp [hb] at h
  | some br =>
    obtain ⟨body, r⟩ := br
    have hrest := eq_of_breakOn? hb
    have hend := advanceTo_after (body ++ ['-', '-']) r p (.inl rfl)
    have hp : p + bytes (body ++ ['-', '-']) + 1 = p + bytes body + 3 := by
      rw [bytes_append, show bytes ['-', '-'] = 2 from rfl]
      omega
    have ht : body ++ ['-', '-'] ++ '>' :: r = rest := by
      rw [hrest]
      simp
    rw [hp, ht] at hend
    simp only [hend]
    simpa using hrest

theorem reaches_attributeValue (c : Cursor) : c.Reaches c.attributeValue.2 := by
  have hquoted : ∀ quote, c.Reaches (c.advance.quotedValue quote c.current).2 := by
    intro quote
    rw [quotedValue]
    split <;> exact (reaches_advance c).trans (reaches_advanceTo _ _)
  rw [attributeValue]
  split
  · exact hquoted '"'
  · exact hquoted '\''
  · exact reaches_advanceTo c _

/-- What the next piece of a tag can be. -/
inductive NextItem (c : Cursor) : TagItem → Cursor → Prop
  | valued {value : Text} {faults : List Fault} {d : Cursor} (hk : c.kind = .name)
      (he : c.advance.kind = .equals) (hv : c.advance.advance.attributeValue = ((value, faults), d)) :
      NextItem c (.attribute c.current.lexeme c.current.span value faults) d
  | plain (hk : c.kind = .name) (he : c.advance.kind ≠ .equals) :
      NextItem c (.attribute c.current.lexeme c.current.span [] []) c.advance
  | stray (hk : c.kind ≠ .endOfFile) :
      NextItem c (.stray ⟨.unexpectedToken .attributeOrClose c.kind, c.current.span⟩) c.advance

theorem nextItem_of_tagItem (h : c.tagItem = some (item, d)) : c.NextItem item d := by
  rw [tagItem] at h
  split at h
  · cases h
  · cases h
  · cases h
  next hk =>
    dsimp only at h
    split at h
    next he =>
      cases h
      exact .valued hk he rfl
    next he =>
      cases h
      exact .plain hk he
  next hk _ =>
    cases h
    exact .stray hk

theorem reaches_tagItem (h : c.tagItem = some (item, d)) : c.kind ≠ .endOfFile ∧ c.advance.Reaches d := by
  cases nextItem_of_tagItem h with
  | valued hk _ hv =>
    have hr := (reaches_advance c.advance).trans (reaches_attributeValue _)
    rw [hv] at hr
    exact ⟨by simp [hk], hr⟩
  | plain hk => exact ⟨by simp [hk], .refl _⟩
  | stray hk => exact ⟨hk, .refl _⟩

theorem past_tagItem (h : c.tagItem = some (item, d)) : ∃ s, s ≠ [] ∧ c.Past s d :=
  past_of_advance (reaches_tagItem h).1 (reaches_tagItem h).2

theorem reaches_tagItems (c : Cursor) : c.Reaches c.tagItems.2 :=
  reaches_of_run (fun c _ _ h => (reaches_advance c).trans (reaches_tagItem h).2) (run_exhaust c.rest.length c)

theorem reaches_startTag (c : Cursor) : c.Reaches c.startTag.2 := by
  have hend := (reaches_tagItems c).trans (reaches_advance _)
  rw [startTag]
  dsimp only
  split
  · exact hend
  · exact hend
  · exact reaches_tagItems c

theorem closingTag_cases (c : Cursor) : ∃ name d, c.advance.Reaches d ∧
    (c.closingTag = (⟨name, ⟨c.current.start, d.current.stop⟩, []⟩, d.advance) ∨
      c.closingTag = (⟨name, ⟨c.current.start, d.current.stop⟩,
        [⟨.unexpectedToken .close d.kind, d.current.span⟩]⟩, d)) := by
  rw [closingTag]
  dsimp only
  split
  · refine ⟨c.advance.current.lexeme, c.advance.advance, reaches_advance c.advance, ?_⟩
    split <;> simp
  · refine ⟨[], c.advance, .refl _, ?_⟩
    split <;> simp

theorem reaches_closingTag (c : Cursor) : c.advance.Reaches c.closingTag.2 := by
  obtain ⟨name, d, hd, hc | hc⟩ := closingTag_cases c
  · rw [hc]
    exact hd.trans (reaches_advance d)
  · rwa [hc]

theorem reaches_comment (c : Cursor) : c.advance.Reaches c.comment.2 := by
  rw [comment]
  split <;> exact reaches_advanceTo _ _

end Cursor

end ComponentConverter.Markup
