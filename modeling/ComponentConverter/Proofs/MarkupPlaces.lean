import ComponentConverter.Proofs.Cutting
import ComponentConverter.Proofs.TagReading

namespace ComponentConverter

variable {fs gs : List Fault}

theorem Border.le {t : Text} {n : Nat} (h : Border t n) : n ≤ bytes t := by
  obtain ⟨u, v, rfl, rfl⟩ := h
  rw [bytes_append]
  omega

theorem Span.IsRange.clamped_eq {s : Span} {t : Text} (h : s.IsRange t) (ht : bytes t ≤ Span.limit) :
    Span.clamped s.start s.stop = s := by
  have hstop := Nat.le_trans h.stop.le ht
  have hstart := Nat.le_trans h.ordered hstop
  rw [Span.clamped, Nat.min_eq_left hstart, Nat.min_eq_left hstop]

namespace Markup

def FaultsIn (source : Text) (faults : List Fault) : Prop := ∀ f ∈ faults, f.span.IsRange source

@[simp]
theorem faultsIn_nil (source : Text) : FaultsIn source [] := by simp [FaultsIn]

@[simp]
theorem faultsIn_cons {source : Text} {f : Fault} :
    FaultsIn source (f :: fs) ↔ f.span.IsRange source ∧ FaultsIn source fs :=
  List.forall_mem_cons

@[simp]
theorem faultsIn_append {source : Text} : FaultsIn source (fs ++ gs) ↔ FaultsIn source fs ∧ FaultsIn source gs :=
  List.forall_mem_append

/-- Faults of the markup itself: none tells of a further block. -/
def OwnFaults (source : Text) (faults : List Fault) : Prop :=
  ∀ f ∈ faults, f.span.IsRange source ∧ ∀ tag, f.cause ≠ .duplicateBlock tag

theorem OwnFaults.faultsIn {source : Text} {faults : List Fault} (h : OwnFaults source faults) :
    FaultsIn source faults := fun f hf => (h f hf).1

theorem ownFaults_nil (source : Text) : OwnFaults source [] := List.forall_mem_nil _

theorem ownFaults_singleton {source : Text} {span : Span} (h : span.IsRange source) {cause : Cause}
    (hc : ∀ tag, cause ≠ .duplicateBlock tag) : OwnFaults source [⟨cause, span⟩] :=
  List.forall_mem_singleton.mpr ⟨h, hc⟩

theorem OwnFaults.append {source : Text} (hf : OwnFaults source fs) (hg : OwnFaults source gs) :
    OwnFaults source (fs ++ gs) :=
  List.forall_mem_append.mpr ⟨hf, hg⟩

namespace Cursor

def In (source : Text) (c : Cursor) : Prop := ∃ u, (start source).Past u c

variable {source s : Text} {c d : Cursor}

theorem in_start (source : Text) : (start source).In source := ⟨[], .refl _⟩

theorem In.past (h : c.In source) (hp : c.Past s d) : d.In source := by
  obtain ⟨u, hu⟩ := h
  exact ⟨u ++ s, hu.trans hp⟩

theorem In.eq_append (h : c.In source) : ∃ u, source = u ++ c.rest ∧ c.pos = bytes u := by
  obtain ⟨u, hr, hp⟩ := h
  exact ⟨u, hr, by simpa [start] using hp⟩

theorem In.border (h : c.In source) : Border source c.pos := by
  obtain ⟨u, hr, hp⟩ := h.eq_append
  exact ⟨u, c.rest, hr, hp.symm⟩

theorem Past.pos_le (h : c.Past s d) : c.pos ≤ d.pos := by
  rw [h.2]
  omega

theorem In.border_add {v r : Text} (h : c.In source) (hr : c.rest = v ++ r) : Border source (c.pos + bytes v) :=
  (h.past (d := ⟨r, c.pos + bytes v⟩) ⟨hr, rfl⟩).border

theorem current_places (c : Cursor) : ∃ g d e, c.Past g d ∧ d.Past c.current.lexeme e ∧ d.pos = c.current.start := by
  cases hn : c.next with
  | none =>
    have hc : c.current = ⟨.endOfFile, [], c.last⟩ := by rw [current, hn]
    rw [hc]
    exact ⟨c.rest, ⟨[], c.last⟩, ⟨[], c.last⟩, ⟨by simp, rfl⟩, .refl _, rfl⟩
  | some td =>
    obtain ⟨token, e⟩ := td
    obtain ⟨g, hr, -, hs, hp, -⟩ := next_eq_some hn
    rw [current_of_next hn]
    exact ⟨g, ⟨token.lexeme ++ e.rest, token.start⟩, e, ⟨hr, hs⟩, ⟨rfl, hp⟩, rfl⟩

theorem pos_le_current (c : Cursor) : c.pos ≤ c.current.start := by
  obtain ⟨g, d, e, hd, -, hs⟩ := current_places c
  rw [← hs]
  exact hd.pos_le

theorem current_start_le_stop (c : Cursor) : c.current.start ≤ c.current.stop := Nat.le_add_right _ _

theorem pos_le_current_stop (c : Cursor) : c.pos ≤ c.current.stop :=
  Nat.le_trans c.pos_le_current c.current_start_le_stop

theorem In.border_current (h : c.In source) : Border source c.current.start := by
  obtain ⟨g, d, e, hd, -, hs⟩ := current_places c
  rw [← hs]
  exact (h.past hd).border

theorem In.border_current_stop (h : c.In source) : Border source c.current.stop := by
  obtain ⟨g, d, e, hd, he, hs⟩ := current_places c
  have hb := ((h.past hd).past he).border
  rwa [he.2, hs] at hb

theorem In.current_isRange (h : c.In source) : c.current.span.IsRange source :=
  ⟨c.current_start_le_stop, h.border_current, h.border_current_stop⟩

theorem advance_pos_of_kind (h : c.kind ≠ .endOfFile) : c.advance.pos = c.current.stop := by
  obtain ⟨g, -, -, -, hp, -⟩ := next_eq_some (next_of_kind h)
  exact hp

theorem current_le_of_past (h : c.kind ≠ .endOfFile) (hp : c.advance.Past s d) : c.current.start ≤ d.pos := by
  have ha := advance_pos_of_kind h
  have hs := c.current_start_le_stop
  have hd := hp.pos_le
  omega

theorem In.reaches (h : c.In source) (hr : c.Reaches d) : d.In source := by
  obtain ⟨s, hs⟩ := hr.past
  exact h.past hs

theorem In.advance (h : c.In source) : c.advance.In source := h.reaches (reaches_advance c)

theorem In.advanceTo (h : c.In source) (offset : Nat) : (c.advanceTo offset).In source :=
  h.reaches (reaches_advanceTo c offset)

end Cursor

section Tags

open Cursor

variable {source : Text} {c d : Cursor}

theorem ownFaults_quotedValue (c : Cursor) (quote : Char) {opened : Token}
    (h : opened.span.IsRange source) : OwnFaults source (c.quotedValue quote opened).1.2 := by
  rw [quotedValue]
  split
  · exact ownFaults_nil source
  · exact ownFaults_singleton h (by simp)

theorem ownFaults_attributeValue (h : c.In source) : OwnFaults source c.attributeValue.1.2 := by
  rw [attributeValue]
  split
  · exact ownFaults_quotedValue _ _ h.current_isRange
  · exact ownFaults_quotedValue _ _ h.current_isRange
  · exact ownFaults_nil source

def TagItem.In (source : Text) : TagItem → Prop
  | .attribute _ nameSpan _ faults => nameSpan.IsRange source ∧ OwnFaults source faults
  | .stray fault => OwnFaults source [fault]

theorem tagItem_in {item : TagItem} (hc : c.In source) (h : c.tagItem = some (item, d)) :
    item.In source ∧ d.In source := by
  obtain ⟨s, -, hp⟩ := past_tagItem h
  refine ⟨?_, hc.past hp⟩
  cases nextItem_of_tagItem h with
  | valued _ _ hv =>
    have hf := ownFaults_attributeValue hc.advance.advance
    rw [hv] at hf
    exact ⟨hc.current_isRange, hf⟩
  | plain => exact ⟨hc.current_isRange, ownFaults_nil source⟩
  | stray => exact ownFaults_singleton hc.current_isRange (by simp)

theorem ownFaults_collectAttributes {items : List TagItem} (h : ∀ i ∈ items, i.In source)
    (known : List Attribute) : OwnFaults source (collectAttributes known items).2 := by
  induction items generalizing known with
  | nil => exact ownFaults_nil source
  | cons item items ih =>
    obtain ⟨hi, hs⟩ := List.forall_mem_cons.mp h
    rcases item with ⟨name, nameSpan, value, own⟩ | fault
    · rw [collectAttributes]
      split
      · have hrepeat : OwnFaults source [⟨.duplicateAttribute name, nameSpan⟩] :=
          ownFaults_singleton hi.1 (by simp)
        exact hi.2.append (hrepeat.append (ih hs known))
      · exact hi.2.append (ih hs _)
    · exact OwnFaults.append hi (ih hs known)

theorem ownFaults_startTag (h : c.In source) : OwnFaults source c.startTag.1.faults := by
  have hitems : ∀ i ∈ c.tagItems.1, i.In source :=
    ((run_exhaust c.rest.length c).invariant (fun _ _ _ => tagItem_in) h).1
  have hf := ownFaults_collectAttributes hitems []
  rw [startTag]
  dsimp only
  split <;> exact hf

theorem Cursor.In.startTag (h : c.In source) : c.startTag.2.In source := h.reaches (reaches_startTag c)

theorem ownFaults_closingTag (h : c.In source) : OwnFaults source c.closingTag.1.faults := by
  obtain ⟨name, d, hd, hc | hc⟩ := closingTag_cases c
  · rw [hc]
    exact ownFaults_nil source
  · rw [hc]
    exact ownFaults_singleton (h.advance.reaches hd).current_isRange (by simp)

theorem closingTag_isRange (hk : c.kind ≠ .endOfFile) (h : c.In source) : c.closingTag.1.span.IsRange source := by
  obtain ⟨name, d, hd, hc⟩ := closingTag_cases c
  have hspan : (Span.mk c.current.start d.current.stop).IsRange source := by
    obtain ⟨s, hs⟩ := hd.past
    have hle := current_le_of_past hk hs
    exact ⟨Nat.le_trans hle d.pos_le_current_stop, h.border_current, (h.advance.reaches hd).border_current_stop⟩
  rcases hc with hc | hc <;> rwa [hc]

theorem comment_in (hk : c.kind ≠ .endOfFile) (h : c.In source) :
    c.comment.1.span.IsRange source ∧ OwnFaults source c.comment.1.faults := by
  have hle := current_le_of_past hk (.refl c.advance)
  rw [comment]
  split
  next body r hb =>
    have hrest : c.advance.rest = (body ++ ['-', '-', '>']) ++ r := eq_of_breakOn? hb
    have hstop := h.advance.border_add hrest
    rw [bytes_append, show bytes ['-', '-', '>'] = 3 from rfl, ← Nat.add_assoc] at hstop
    exact ⟨⟨by dsimp only; omega, h.border_current, hstop⟩, ownFaults_nil source⟩
  · have hstop := h.advance.border_add (List.append_nil _).symm
    exact ⟨⟨Nat.le_trans hle (Nat.le_add_right _ _), h.border_current, hstop⟩,
      ownFaults_singleton h.current_isRange (by simp)⟩

end Tags

end Markup

end ComponentConverter
