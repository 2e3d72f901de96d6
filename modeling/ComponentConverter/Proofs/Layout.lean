import ComponentConverter.Proofs.Slicing
import ComponentConverter.Template.Chain

namespace ComponentConverter.Template

open List

def commented (body : Text) : Text := '<' :: '!' :: '-' :: '-' :: (body ++ ['-', '-', '>'])

inductive Filler : Text → Prop
  | nil : Filler []
  | space {c : Char} {t : Text} (hc : isSpace c = true) (ht : Filler t) : Filler (c :: t)
  | comment {body t : Text} (hb : ¬ ['-', '-', '>'] <:+: body) (ht : Filler t) : Filler (commented body ++ t)

theorem Filler.append {s t : Text} (hs : Filler s) (ht : Filler t) : Filler (s ++ t) := by
  induction hs with
  | nil => exact ht
  | space hc _ ih => exact .space hc ih
  | comment hb _ ih =>
    rw [append_assoc]
    exact .comment hb ih

theorem Filler.of_blank {t : Text} (h : isBlank t = true) : Filler t := by
  induction t with
  | nil => exact .nil
  | cons c t ih =>
    obtain ⟨hc, ht⟩ := Bool.and_eq_true_iff.mp h
    exact .space hc (ih ht)

theorem Filler.of_comment {body : Text} (h : ¬ ['-', '-', '>'] <:+: body) : Filler (commented body) := by
  have hf := Filler.comment h .nil
  rwa [append_nil] at hf

/-- Things that stand in a text in their order, with nothing but filler beside them. The text
starts at an offset, and `At` says what a thing takes of it. -/
inductive Laid {α : Type} (At : α → Nat → Text → Prop) : Nat → Text → List α → Prop
  | done {p : Nat} {t : Text} (ht : Filler t) : Laid At p t []
  | next {p : Nat} {g v r : Text} {a : α} {as : List α} (hg : Filler g)
      (ha : At a (p + bytes g) v) (has : Laid At (p + bytes g + bytes v) r as) :
      Laid At p (g ++ (v ++ r)) (a :: as)

section Laid

variable {α β : Type} {At : α → Nat → Text → Prop} {To : β → Nat → Text → Prop} {p : Nat}
  {s t v : Text} {a : α} {as bs : List α}

theorem Laid.filler_append (hs : Filler s) (h : Laid At (p + bytes s) t as) : Laid At p (s ++ t) as := by
  cases h with
  | done ht => exact .done (hs.append ht)
  | @next _ g v r a as hg ha has =>
    rw [← append_assoc]
    apply Laid.next (hs.append hg)
    · rwa [bytes_append, ← Nat.add_assoc]
    · rwa [bytes_append, ← Nat.add_assoc]

theorem Laid.append (h : Laid At p s as) (h' : Laid At (p + bytes s) t bs) : Laid At p (s ++ t) (as ++ bs) := by
  induction h with
  | done hs => exact h'.filler_append hs
  | @next p g v r a as hg ha _ ih =>
    rw [append_assoc, append_assoc]
    apply Laid.next hg ha
    apply ih
    rwa [bytes_append, bytes_append, ← Nat.add_assoc, ← Nat.add_assoc] at h'

theorem Laid.append_filler (h : Laid At p s as) (ht : Filler t) : Laid At p (s ++ t) as := by
  have hl : Laid At p (s ++ t) (as ++ []) := h.append (.done ht)
  rwa [append_nil] at hl

theorem laid_singleton (ha : At a p v) : Laid At p v [a] := by
  have hl : Laid At p ([] ++ (v ++ [])) [a] := .next .nil ha (.done .nil)
  rwa [nil_append, append_nil] at hl

theorem Laid.concat (h : Laid At p s as) (ha : At a (p + bytes s) v) : Laid At p (s ++ v) (as ++ [a]) :=
  h.append (laid_singleton ha)

theorem Laid.of_concat (h : Laid At p t (as ++ [a])) :
    ∃ s v r, t = s ++ (v ++ r) ∧ Laid At p s as ∧ At a (p + bytes s) v ∧ Filler r := by
  induction as generalizing p t with
  | nil =>
    cases h with
    | @next _ g v r _ _ hg ha has =>
      cases has with
      | done hr => exact ⟨g, v, r, rfl, .done hg, ha, hr⟩
  | cons b as ih =>
    cases h with
    | @next _ g w rest _ _ hg hb has =>
      obtain ⟨s, v, r, rfl, hs, ha, hr⟩ := ih has
      refine ⟨g ++ (w ++ s), v, r, by simp, .next hg hb hs, ?_, hr⟩
      rwa [bytes_append, bytes_append, ← Nat.add_assoc, ← Nat.add_assoc]

theorem Laid.flatMap {f : α → List β} (hf : ∀ a p v, At a p v → Laid To p v (f a))
    (h : Laid At p t as) : Laid To p t (as.flatMap f) := by
  induction h with
  | done ht => exact .done ht
  | @next p g v r a as hg ha _ ih =>
    exact ((hf _ _ _ ha).append ih).filler_append hg

theorem Laid.exists_place {source u w : Text} (h : Laid At (bytes u) t as) (hs : source = u ++ (t ++ w)) :
    ∀ a ∈ as, ∃ u' v w', source = u' ++ (v ++ w') ∧ At a (bytes u') v := by
  induction as generalizing u t with
  | nil => simp
  | cons b as ih =>
    cases h with
    | @next _ g v r _ _ hg hb has =>
      intro a ha
      rcases mem_cons.mp ha with rfl | ha
      · refine ⟨u ++ g, v, r ++ w, by simp [hs], ?_⟩
        rwa [bytes_append]
      · apply ih (u := u ++ (g ++ v)) (t := r) _ (by simp [hs]) a ha
        rwa [bytes_append, bytes_append, ← Nat.add_assoc]

end Laid

/-- A span is that of a text which starts at an offset. -/
def Covers (span : Span) (p : Nat) (v : Text) : Prop := v ≠ [] ∧ span = ⟨p, p + bytes v⟩

theorem Covers.slice?_eq {span : Span} {source u v w : Text} (h : Covers span (bytes u) v)
    (hs : source = u ++ (v ++ w)) : span.slice? source = some v := by
  rw [h.2, hs]
  exact Span.slice?_append u v w

def Node.chainSpans : Node → List Span
  | .element e => e.span :: e.branches.map Element.span
  | .text _ span | .comment _ span => [span]

/-- White space between siblings counts as one blank. -/
def settled (t : Text) : Text := if isBlank t then [' '] else t

def Node.ReadAt : Node → Nat → Text → Prop
  | .element e, p, v => e.branches = [] ∧ Covers e.span p v
  | .text raw span, p, v => raw = v ∧ Covers span p v
  | .comment body span, p, v =>
    v = commented body ∧ ¬ ['-', '-', '>'] <:+: body ∧ Covers span p v

/-- What a node takes of its text when the branches among its siblings have been moved. -/
def Node.KeptAt : Node → Nat → Text → Prop
  | .element e, p, v => Laid Covers p v (Node.element e).chainSpans
  | .text raw span, p, v => raw = settled v ∧ Covers span p v
  | .comment body span, p, v =>
    v = commented body ∧ ¬ ['-', '-', '>'] <:+: body ∧ Covers span p v

theorem isBlank_settled (t : Text) : isBlank (settled t) = isBlank t := by
  rw [settled]
  split
  next h => rw [h]; rfl
  · rfl

theorem settled_of_not_blank {t : Text} (h : ¬ isBlank t = true) : settled t = t := if_neg h

theorem Node.KeptAt.chainSpans_laid {n : Node} {p : Nat} {v : Text} (h : n.KeptAt p v) :
    Laid Covers p v n.chainSpans := by
  cases n with
  | element e => exact h
  | text raw span => exact laid_singleton h.2
  | comment body span => exact laid_singleton h.2.2

theorem Node.KeptAt.filler_of_blank {n : Node} {p : Nat} {v : Text} (h : n.KeptAt p v)
    (hb : n.isBlank = true) : Filler v := by
  cases n with
  | element e => cases hb
  | text raw span =>
    have hr : ComponentConverter.isBlank raw = true := hb
    rw [h.1, isBlank_settled] at hr
    exact .of_blank hr
  | comment body span => cases hb

theorem Node.KeptAt.filler_of_textBetween {n : Node} {p : Nat} {v : Text} (h : n.KeptAt p v)
    (he : n.isElement = false) (ht : textBetween n = []) : Filler v := by
  cases n with
  | element e => cases he
  | text raw span =>
    apply h.filler_of_blank
    rw [textBetween] at ht
    split at ht
    next hb => exact hb
    · cases ht
  | comment body span =>
    rw [h.1]
    exact .of_comment h.2.1

section Siblings

variable {p : Nat} {t v : Text} {before nodes : List Node} {n : Node} {e branch : Element}

/-- Nodes that take nothing but filler can be dropped from the end. The siblings are given last
first. -/
theorem laid_dropWhile {q : Node → Bool} (h : Laid Node.KeptAt p t before.reverse)
    (hq : ∀ n ∈ before.takeWhile q, ∀ p v, n.KeptAt p v → Filler v) :
    Laid Node.KeptAt p t (before.dropWhile q).reverse := by
  induction before generalizing t with
  | nil => exact h
  | cons n before ih =>
    by_cases hn : q n = true
    · rw [takeWhile_cons_of_pos hn] at hq
      obtain ⟨hfirst, hrest⟩ := forall_mem_cons.mp hq
      rw [reverse_cons] at h
      obtain ⟨s, v, r, rfl, hs, ha, hr⟩ := h.of_concat
      rw [dropWhile_cons_of_pos hn]
      exact ih (hs.append_filler ((hfirst _ _ ha).append hr)) hrest
    · rwa [dropWhile_cons_of_neg hn]

theorem laid_addBranch (h : Laid Node.KeptAt p t (.element e :: before).reverse)
    (hb : Covers branch.span (p + bytes t) v) :
    Laid Node.KeptAt p (t ++ v) (.element (e.addBranch branch) :: before).reverse := by
  rw [reverse_cons] at h ⊢
  obtain ⟨s, w, r, rfl, hs, he, hr⟩ := h.of_concat
  have hchain : (Node.element (e.addBranch branch)).chainSpans = (Node.element e).chainSpans ++ [branch.span] := by
    cases e with
    | mk tag children branches =>
      simp [Node.chainSpans, Element.addBranch, Element.span, Element.tag, Element.branches]
  rw [append_assoc]
  apply hs.concat
  rw [Node.KeptAt, hchain]
  apply Laid.concat (Laid.append_filler he hr)
  rwa [Nat.add_assoc, ← bytes_append]

theorem laid_attachBranch (h : Laid Node.KeptAt p t before.reverse)
    (hb : Covers branch.span (p + bytes t) v) (hf : (attachBranch before branch).2 = []) :
    Laid Node.KeptAt p (t ++ v) (attachBranch before branch).1.reverse := by
  have hdrop : (before.takeWhile (!·.isElement)).flatMap textBetween = [] →
      Laid Node.KeptAt p t (before.dropWhile (!·.isElement)).reverse := by
    intro hbetween
    apply laid_dropWhile h
    intro n hn p v hk
    have he := all_eq_true.mp all_takeWhile n hn
    exact hk.filler_of_textBetween (by simpa using he) (flatMap_eq_nil_iff.mp hbetween n hn)
  rw [attachBranch] at hf ⊢
  split at hf
  next e rest heq =>
    split at hf
    next ho =>
      have hl := hdrop hf
      rw [heq] at hl
      rw [if_pos ho]
      exact laid_addBranch hl hb
    · simp at hf
  · simp at hf

theorem laid_addSibling (h : Laid Node.KeptAt p t before.reverse) (hn : n.ReadAt (p + bytes t) v)
    (hf : (addSibling before n).2 = []) : Laid Node.KeptAt p (t ++ v) (addSibling before n).1.reverse := by
  have hcons : ∀ n : Node, n.KeptAt (p + bytes t) v → Laid Node.KeptAt p (t ++ v) (n :: before).reverse := by
    intro n hk
    rw [reverse_cons]
    exact h.concat hk
  cases n with
  | element e =>
    obtain ⟨hbranches, hspan⟩ := hn
    rw [addSibling] at hf ⊢
    split at hf
    next hbranch =>
      rw [if_pos hbranch]
      exact laid_attachBranch h hspan hf
    next hbranch =>
      rw [if_neg hbranch]
      apply hcons
      rw [Node.KeptAt, Node.chainSpans, hbranches]
      exact laid_singleton hspan
  | text raw span =>
    obtain ⟨rfl, hspan⟩ := hn
    rw [addSibling]
    split
    next hblank =>
      split
      next hempty =>
        obtain rfl : before = [] := List.isEmpty_iff.mp hempty
        exact h.append_filler (.of_blank hblank)
      · exact hcons _ ⟨(if_pos hblank).symm, hspan⟩
    next hblank => exact hcons _ ⟨(settled_of_not_blank hblank).symm, hspan⟩
  | comment body span => exact hcons _ hn

theorem laid_addSiblings {s : Text} (h : Laid Node.KeptAt p s before.reverse)
    (hn : Laid Node.ReadAt (p + bytes s) t nodes) (hf : (addSiblings before nodes).2 = []) :
    Laid Node.KeptAt p (s ++ t) (addSiblings before nodes).1.reverse := by
  induction nodes generalizing before s t with
  | nil =>
    cases hn with
    | done ht => exact h.append_filler ht
  | cons node nodes ih =>
    cases hn with
    | @next _ g v r _ _ hg hnode hnodes =>
      obtain ⟨hone, hmore⟩ := append_eq_nil_iff.mp hf
      rw [Nat.add_assoc, ← bytes_append] at hnode
      have hl := laid_addSibling (h.append_filler hg) hnode hone
      rw [Nat.add_assoc p, ← bytes_append, Nat.add_assoc p, ← bytes_append] at hnodes
      have hall := ih hl hnodes hmore
      rwa [append_assoc, append_assoc] at hall

/-- Siblings that were read one after the other lie in their text also after their branches have
been moved. -/
theorem laid_chainBranches (h : Laid Node.ReadAt p t nodes) (hf : (chainBranches nodes).2 = []) :
    Laid Node.KeptAt p t (chainBranches nodes).1 := by
  have hl : Laid Node.KeptAt p t (addSiblings [] nodes).1.reverse := laid_addSiblings (s := []) (.done .nil) h hf
  apply laid_dropWhile hl
  intro n hn p v hk
  exact hk.filler_of_blank (all_eq_true.mp all_takeWhile n hn)

end Siblings

end ComponentConverter.Template
