import ComponentConverter.Conversion.Convert
import ComponentConverter.Proofs.CommentErasure
import ComponentConverter.Proofs.TreeInvariant
import ComponentConverter.Proofs.Trimming

namespace ComponentConverter.Svelte

open List Template

variable {x : Text} {tag : Tag}

/-- `t` is `s` if nothing was added, and is longer by at least as much as was added. -/
structure Grows {α : Type} (added : Nat) (s t : List α) : Prop where
  length_le : s.length + added ≤ t.length
  eq : added = 0 → s = t

namespace Grows

variable {α β : Type} {n m : Nat} {s t u v : List α}

theorem refl (s : List α) : Grows 0 s s := ⟨Nat.le_refl _, fun _ => rfl⟩

theorem append (h : Grows n s t) (k : Grows m u v) : Grows (n + m) (s ++ u) (t ++ v) := by
  constructor
  · have := h.length_le
    have := k.length_le
    simp only [length_append]
    omega
  · intro hz
    rw [h.eq (by omega), k.eq (by omega)]

theorem append_left (u : List α) (h : Grows n s t) : Grows n (u ++ s) (u ++ t) := by
  simpa using (refl u).append h

theorem append_right (h : Grows n s t) (u : List α) : Grows n (s ++ u) (t ++ u) := h.append (refl u)

theorem map (h : Grows n s t) (f : α → β) : Grows n (s.map f) (t.map f) := by
  constructor
  · simpa using h.length_le
  · intro hz
    rw [h.eq hz]

theorem eq_iff (h : Grows n s t) : s = t ↔ n = 0 := by
  constructor
  · rintro rfl
    have := h.length_le
    omega
  · exact h.eq

end Grows

def Item.isComment : Item → Bool
  | .comment _ _ => true
  | _ => false

def withoutComments (items : List Item) : List Item := items.filter (!·.isComment)

def itemsText (p : Preferences) (items : List Item) : Text := items.flatMap (·.text p)

/-- An element with raw content in the place of comments and white space only. -/
def isHollow (e : Element) : Bool := e.tag.html.isSome && !e.children.isEmpty && e.children.all Node.isAside

section Items

variable (p : Preferences)

theorem itemsText_append (xs ys : List Item) : itemsText p (xs ++ ys) = itemsText p xs ++ itemsText p ys :=
  flatMap_append

theorem itemsText_cons (x : Item) (xs : List Item) : itemsText p (x :: xs) = x.text p ++ itemsText p xs := rfl

theorem withoutComments_append (xs ys : List Item) :
    withoutComments (xs ++ ys) = withoutComments xs ++ withoutComments ys :=
  filter_append ..

theorem withoutComments_cons {x : Item} (h : x.isComment = false) (xs : List Item) :
    withoutComments (x :: xs) = x :: withoutComments xs :=
  filter_cons_of_pos (by simp [h])

theorem withoutComments_heads (depth : Nat) (tag : Tag) : withoutComments (heads depth tag) = heads depth tag := by
  rw [heads]
  cases eachHead tag <;> cases branchHead tag <;> rfl

theorem withoutComments_tails (inner : Nat) (tag : Tag) : withoutComments (tails inner tag) = tails inner tag := by
  rw [tails]
  cases tag.guard.opening?.isSome <;> cases tag.loop.isSome <;> rfl

theorem split?_blank {raw : Text} (h : isBlank raw = true) : Part.split? raw = none := by
  have hfirst : Part.first? raw = none := by
    cases hb : breakOn? ['{', '{'] raw with
    | none => rw [Part.first?, hb]
    | some found =>
      have hin : ['{', '{'] <:+: raw := isSome_breakOn?_iff.mp (by rw [hb]; rfl)
      have hspace := all_eq_true.mp h '{' (hin.subset mem_cons_self)
      cases hspace
  rw [Part.split?]
  cases raw with
  | nil => rfl
  | cons c raw => rw [length_cons, exhaust, hfirst]; rfl

theorem itemsText_blank (depth : Nat) {n : Node} (h : n.isBlank = true) :
    itemsText p (itemsOfNodes depth [n]) = [] := by
  cases n with
  | element e | comment body span => cases h
  | text raw span =>
    have hb : isBlank raw = true := h
    rw [itemsOfNodes, split?_blank hb]
    simp [itemsText, itemsOfNodes, Item.text, trim_blank hb]

theorem itemsOfNodes_eq_flatMap (depth : Nat) (ns : List Node) :
    itemsOfNodes depth ns = ns.flatMap fun n => itemsOfNodes depth [n] := by
  induction ns with
  | nil => rfl
  | cons n ns ih =>
    rw [flatMap_cons, ← ih]
    cases n <;> simp [itemsOfNodes]

theorem itemsText_trimmed (depth : Nat) (ns : List Node) :
    itemsText p (itemsOfNodes depth (trimmed ns)) = itemsText p (itemsOfNodes depth ns) := by
  rw [itemsOfNodes_eq_flatMap, itemsOfNodes_eq_flatMap depth ns, itemsText, itemsText, flatMap_assoc, flatMap_assoc]
  exact flatMap_trimmed (fun n hn => itemsText_blank p depth hn) ns

end Items

section Hollow

theorem isHollow_plain (hx : tag.html = none) (children : List Node) (branches : List Element) :
    isHollow (.mk tag children branches) = false := by
  rw [isHollow, Element.tag, hx]
  rfl

theorem isHollow_html (hx : tag.html = some x) (children : List Node) (branches : List Element) :
    isHollow (.mk tag children branches) = (!children.isEmpty && children.all Node.isAside) := by
  rw [isHollow, Element.tag, hx]
  rfl

end Hollow

section Markup

variable (p : Preferences)

def taggedItems (inner : Nat) (tag : Tag) (children : List Node) : List Item :=
  .openTag inner tag.name (tag.attributes.filterMap Attribute.ofTemplate?) (isClosed tag children) ::
    bodyItems inner tag children

theorem taggedItems_html (hx : tag.html = some x) (inner : Nat) (children : List Node) :
    taggedItems inner tag children =
      .openTag inner tag.name (tag.attributes.filterMap Attribute.ofTemplate?) children.isEmpty ::
        if children.isEmpty then [] else [.html (inner + 1) x, .closeTag inner tag.name] := by
  rw [taggedItems, bodyItems, isClosed, hx]
  simp

theorem taggedItems_plain (hx : tag.html = none) (hvoid : isVoid tag.name = false) (inner : Nat)
    (children : List Node) :
    taggedItems inner tag children = .openTag inner tag.name (tag.attributes.filterMap Attribute.ofTemplate?) false ::
        (itemsOfNodes (inner + 1) children ++ [.closeTag inner tag.name]) := by
  rw [taggedItems, bodyItems, isClosed, hx]
  simp [hvoid]

theorem withoutComments_taggedItems_html (hx : tag.html = some x) (inner : Nat) (children : List Node) :
    withoutComments (taggedItems inner tag children) = taggedItems inner tag children := by
  rw [taggedItems_html hx]
  cases children <;> rfl

/-- A hollow element is closed by its opening tag when comments are passed over, and has a body of
two lines when they are kept. -/
theorem grows_taggedItems_html (hx : tag.html = some x) (inner : Nat)
    (children : List Node) (branches : List Element) :
    Grows (if isHollow (.mk tag children branches) then 1 else 0)
      (itemsText p (taggedItems inner tag (trimmed (bareNodes children))))
      (itemsText p (withoutComments (taggedItems inner tag children))) := by
  rw [withoutComments_taggedItems_html hx, taggedItems_html hx, taggedItems_html hx, trimmed_bareNodes_isEmpty,
    isHollow_html hx]
  cases children with
  | nil => exact Grows.refl _
  | cons n ns =>
    cases (n :: ns).all Node.isAside with
    | true =>
      have hopen (attributes : List Attribute) : ((Item.openTag inner tag.name attributes true).text p).length =
            ((Item.openTag inner tag.name attributes false).text p).length + 1 := by
        simp [Item.text, Nat.add_assoc]
      have hclose : 2 ≤ ((Item.closeTag inner tag.name).text p).length := by
        simp [Item.text]
        omega
      refine ⟨?_, nofun⟩
      simp only [isEmpty_cons, Bool.not_false, Bool.and_true, if_true, Bool.false_eq_true, if_false,
        itemsText_cons, length_append, hopen]
      omega
    | false => exact Grows.refl _

theorem grows_taggedItems (hx : tag.html = none) {children : List Node}
    (hvoid : isVoid tag.name = true → children = []) {added : Nat} (inner : Nat)
    (h : Grows added (itemsText p (itemsOfNodes (inner + 1) (bareNodes children)))
      (itemsText p (withoutComments (itemsOfNodes (inner + 1) children)))) :
    Grows added (itemsText p (taggedItems inner tag (trimmed (bareNodes children))))
      (itemsText p (withoutComments (taggedItems inner tag children))) := by
  cases hv : isVoid tag.name with
  | true =>
    obtain rfl := hvoid hv
    obtain rfl : added = 0 := h.eq_iff.mp rfl
    have hclosed : taggedItems inner tag [] =
        [.openTag inner tag.name (tag.attributes.filterMap Attribute.ofTemplate?) true] := by
      simp [taggedItems, bodyItems, isClosed, hv]
    change Grows 0 (itemsText p (taggedItems inner tag []))
      (itemsText p (withoutComments (taggedItems inner tag [])))
    rw [hclosed]
    exact Grows.refl _
  | false =>
    rw [taggedItems_plain hx hv, taggedItems_plain hx hv, withoutComments_cons rfl, withoutComments_append]
    simp only [itemsText_cons, itemsText_append, itemsText_trimmed]
    exact (h.append_right (itemsText p [.closeTag inner tag.name])).append_left _

def VoidsEmpty (es : List Element) : Prop := ∀ e ∈ es, isVoid e.tag.name = true → e.children = []

mutual

/-- The markup without its comments against the markup of the tree without comments: each hollow
element makes it longer. -/
theorem grows_itemsOfElement (e : Element) (depth : Nat) (hvoid : VoidsEmpty (emitted e)) :
    Grows ((emitted e).countP isHollow) (itemsText p (itemsOfElement depth e.bare))
      (itemsText p (withoutComments (itemsOfElement depth e))) := by
  match e with
  | .mk tag children branches =>
    obtain ⟨hown, hchildren, hbranches⟩ := (forall_emitted_mk _ tag children branches).mp hvoid
    have hb := grows_itemsOfBranches branches (innerDepth depth tag - 1) hbranches
    have ho : Grows
        ((if isHollow (.mk tag children branches) then 1 else 0) +
          (if tag.html.isSome then [] else emittedInNodes children).countP isHollow)
        (itemsText p (taggedItems (innerDepth depth tag) tag (trimmed (bareNodes children))))
        (itemsText p (withoutComments (taggedItems (innerDepth depth tag) tag children))) := by
      cases hx : tag.html with
      | some x => exact grows_taggedItems_html p hx _ children branches
      | none =>
        have hn := grows_itemsOfNodes children (innerDepth depth tag + 1) (hchildren (by rw [hx]; rfl))
        rw [isHollow_plain hx, Option.isSome_none, if_neg Bool.false_ne_true, if_neg Bool.false_ne_true, Nat.zero_add]
        exact grows_taggedItems p hx hown _ hn
    rw [Element.bare, itemsOfElement_mk, itemsOfElement_mk, emitted, countP_cons, countP_append]
    simp only [withoutComments_append, withoutComments_heads, withoutComments_tails, itemsText_append]
    rw [Nat.add_comm, ← Nat.add_assoc]
    exact (ho.append (hb.append_right (itemsText p (tails (innerDepth depth tag) tag)))).append_left
      (itemsText p (heads depth tag))

theorem grows_itemsOfNodes (ns : List Node) (depth : Nat) (hvoid : VoidsEmpty (emittedInNodes ns)) :
    Grows ((emittedInNodes ns).countP isHollow) (itemsText p (itemsOfNodes depth (bareNodes ns)))
      (itemsText p (withoutComments (itemsOfNodes depth ns))) := by
  match ns with
  | [] => exact Grows.refl _
  | .element e :: ns =>
    obtain ⟨he, hns⟩ := forall_mem_append.mp hvoid
    rw [bareNodes, itemsOfNodes, itemsOfNodes, emittedInNodes, countP_append,
      withoutComments_append, itemsText_append, itemsText_append]
    exact (grows_itemsOfElement e depth he).append (grows_itemsOfNodes ns depth hns)
  | .text raw span :: ns =>
    rw [bareNodes, itemsOfNodes, itemsOfNodes, withoutComments_cons (by split <;> rfl)]
    exact (grows_itemsOfNodes ns depth hvoid).append_left _
  | .comment body span :: ns =>
    rw [bareNodes]
    exact grows_itemsOfNodes ns depth hvoid

theorem grows_itemsOfBranches (es : List Element) (depth : Nat) (hvoid : VoidsEmpty (emittedInBranches es)) :
    Grows ((emittedInBranches es).countP isHollow) (itemsText p (itemsOfBranches depth (bareBranches es)))
      (itemsText p (withoutComments (itemsOfBranches depth es))) := by
  match es with
  | [] => exact Grows.refl _
  | e :: es =>
    obtain ⟨he, hes⟩ := forall_mem_append.mp hvoid
    rw [bareBranches, itemsOfBranches, itemsOfBranches, emittedInBranches, countP_append,
      withoutComments_append, itemsText_append, itemsText_append]
    exact (grows_itemsOfElement e depth he).append (grows_itemsOfBranches es depth hes)

end

end Markup

section Warnings

theorem overruledInNodes_eq_flatMap (ns : List Node) :
    overruledInNodes ns = ns.flatMap fun n => overruledInNodes [n] := by
  induction ns with
  | nil => rfl
  | cons n ns ih =>
    rw [flatMap_cons, ← ih]
    cases n <;> simp [overruledInNodes]

theorem overruledInNodes_trimmed (ns : List Node) : overruledInNodes (trimmed ns) = overruledInNodes ns := by
  rw [overruledInNodes_eq_flatMap, overruledInNodes_eq_flatMap ns]
  refine flatMap_trimmed ?_ ns
  intro n hn
  cases n with
  | text raw span => rfl
  | element e | comment body span => cases hn

mutual

theorem grows_overruled (e : Element) : Grows ((emitted e).countP isHollow) (overruled e.bare) (overruled e) := by
  match e with
  | .mk tag children branches =>
    rw [Element.bare, overruled, overruled, emitted, countP_cons, countP_append,
      Nat.add_right_comm, overruledInNodes_trimmed, trimmed_bareNodes_isEmpty]
    refine Grows.append ?_ (grows_overruledInBranches branches)
    cases hx : tag.html with
    | none =>
      rw [isHollow_plain hx, Option.isSome_none, if_neg Bool.false_ne_true, if_neg Bool.false_ne_true,
        if_neg Bool.false_ne_true, if_neg Bool.false_ne_true]
      exact grows_overruledInNodes children
    | some x =>
      rw [isHollow_html hx]
      cases children with
      | nil => exact Grows.refl _
      | cons n ns =>
        cases (n :: ns).all Node.isAside with
        | true => exact ⟨Nat.le_refl 1, nofun⟩
        | false => exact Grows.refl _

theorem grows_overruledInNodes (ns : List Node) :
    Grows ((emittedInNodes ns).countP isHollow) (overruledInNodes (bareNodes ns)) (overruledInNodes ns) := by
  match ns with
  | [] => exact Grows.refl _
  | .element e :: ns =>
    rw [bareNodes, overruledInNodes, overruledInNodes, emittedInNodes, countP_append]
    exact (grows_overruled e).append (grows_overruledInNodes ns)
  | .text raw span :: ns => exact grows_overruledInNodes ns
  | .comment body span :: ns => exact grows_overruledInNodes ns

theorem grows_overruledInBranches (es : List Element) :
    Grows ((emittedInBranches es).countP isHollow) (overruledInBranches (bareBranches es))
      (overruledInBranches es) := by
  match es with
  | [] => exact Grows.refl _
  | e :: es =>
    rw [bareBranches, overruledInBranches, overruledInBranches, emittedInBranches, countP_append]
    exact (grows_overruled e).append (grows_overruledInBranches es)

end

end Warnings

end ComponentConverter.Svelte

namespace ComponentConverter.Conversion

open List Template Svelte

variable {p : Preferences} {c : Component}

def withComments (p : Preferences) (keep : Bool) : Preferences := { p with comments := keep }

theorem text_withComments (p : Preferences) (keep : Bool) (item : Item) :
    item.text (withComments p keep) = item.text p := by
  cases item <;> rfl

theorem markup_withComments (p : Preferences) (keep : Bool) :
    markup (withComments p keep) = fun root => itemsText p (itemsOfElement 0 root) := by
  funext root
  rw [markup, itemsText]
  simp only [text_withComments]

def templateTree (source : Text) : Option Element :=
  (Component.parse source).1.template.bind fun b => (Template.parse b.content true).1

def templateItems (source : Text) : List Item := (templateTree source).elim [] (itemsOfElement 0)

/-- Comments and white space are never all that raw content takes the place of. -/
def NoneHollow (source : Text) : Prop := ∀ e ∈ (templateTree source).elim [] emitted, isHollow e = false

instance (source : Text) : Decidable (NoneHollow source) := inferInstanceAs (Decidable (∀ e ∈ _, isHollow e = false))

theorem template_of_faultless {b : Block} {root : Option Element}
    (h : Template.parse b.content p.comments = (root, [])) :
    template p b = .ok ⟨root.map (markup p), root.elim [] (overruledWarnings b.contentSpan.start)⟩ := by
  rw [template, h]

theorem template_of_faults {b : Block} {root : Option Element} {fault : Markup.Fault}
    {faults : List Markup.Fault} (h : Template.parse b.content p.comments = (root, fault :: faults)) :
    template p b =
      .error (.template ((fault :: faults).map fun f => { f with span := f.span.move b.contentSpan.start })) := by
  rw [template, h]

/-- A template is refused alike, whether comments are kept or not, and its tree loses its comments. -/
theorem template_comments (p : Preferences) (b : Block) :
    (∃ failure, ∀ keep, template (withComments p keep) b = .error failure) ∨
      ∃ root, (Template.parse b.content true).1 = root ∧ template (withComments p true) b =
          .ok ⟨root.map fun r => itemsText p (itemsOfElement 0 r),
            root.elim [] (overruledWarnings b.contentSpan.start)⟩ ∧
        template (withComments p false) b = .ok ⟨root.map fun r => itemsText p (itemsOfElement 0 r.bare),
            root.elim [] fun r => overruledWarnings b.contentSpan.start r.bare⟩ := by
  have hoff := parse_bare b.content
  rcases hon : Template.parse b.content true with ⟨root, _ | ⟨fault, faults⟩⟩
  · rw [hon] at hoff
    refine .inr ⟨root, rfl, ?_, ?_⟩
    · rw [template_of_faultless (p := withComments p true) hon, markup_withComments]
    · rw [template_of_faultless (p := withComments p false) hoff, markup_withComments]
      cases root <;> rfl
  · rw [hon] at hoff
    refine .inl ⟨.template ((fault :: faults).map fun f => { f with span := f.span.move b.contentSpan.start }),
      fun keep => ?_⟩
    cases keep with
    | false => exact template_of_faults (p := withComments p false) hoff
    | true => exact template_of_faults (p := withComments p true) hon

def lead (scripts : Scripts) (styles : List Text) : Text :=
  scripts.module.getD [] ++ scripts.instanceScript.getD [] ++ styles.flatten

theorem convert_of_ok {source : Text} {s : Noted Scripts}
    {t : Noted (Option Text)} (hc : Component.parse source = (c, []))
    (hs : onBlock ⟨none, none⟩ scripts c.script = .ok s) (ht : onBlock none (template p) c.template = .ok t) :
    convert p source = .ok ⟨lead s.value (Noted.traverse style c.styles).value ++ t.value.getD [],
        s.notes ++ (Noted.traverse style c.styles).notes ++ t.notes⟩ := by
  rw [convert, hc]
  dsimp only
  rw [hs, ht]
  simp [bind, Except.bind, Noted.bind, pure, Except.pure, lead, Document.text]

theorem convert_of_scripts_error {source : Text} {failure : Failure}
    (hc : Component.parse source = (c, [])) (hs : onBlock ⟨none, none⟩ scripts c.script = .error failure) :
    convert p source = .error failure := by
  rw [convert, hc]
  dsimp only
  rw [hs]
  rfl

theorem convert_of_template_error {source : Text} {s : Noted Scripts}
    {failure : Failure} (hc : Component.parse source = (c, []))
    (hs : onBlock ⟨none, none⟩ scripts c.script = .ok s)
    (ht : onBlock none (template p) c.template = .error failure) : convert p source = .error failure := by
  rw [convert, hc]
  dsimp only
  rw [hs, ht]
  rfl

theorem onBlock_comments (p : Preferences) (block : Option Block) :
    (∃ failure, ∀ keep, onBlock none (template (withComments p keep)) block = .error failure) ∨
      ∃ root base, block.bind (fun b => (Template.parse b.content true).1) = root ∧
        onBlock none (template (withComments p true)) block =
          .ok ⟨root.map fun r => itemsText p (itemsOfElement 0 r), root.elim [] (overruledWarnings base)⟩ ∧
        onBlock none (template (withComments p false)) block =
          .ok ⟨root.map fun r => itemsText p (itemsOfElement 0 r.bare),
            root.elim [] fun r => overruledWarnings base r.bare⟩ := by
  cases block with
  | none => exact .inr ⟨none, 0, rfl, rfl, rfl⟩
  | some b =>
    simp only [onBlock]
    rcases template_comments p b with hfails | ⟨root, hroot, hon, hoff⟩
    · exact .inl hfails
    · exact .inr ⟨root, b.contentSpan.start, hroot, hon, hoff⟩

theorem getD_map_eq_elim {α β : Type} (o : Option α) (f : α → List β) : (o.map f).getD [] = o.elim [] f := by
  cases o <;> rfl

/-- A component is refused alike, whether comments are kept or not, and all but its markup and the
warnings for it stay the same. -/
theorem convert_comments (p : Preferences) (source : Text) :
    (∃ failure, ∀ keep, convert (withComments p keep) source = .error failure) ∨ ∃ before notes base,
        convert (withComments p true) source =
          .ok ⟨before ++ (templateTree source).elim [] fun r => itemsText p (itemsOfElement 0 r),
            notes ++ (templateTree source).elim [] (overruledWarnings base)⟩ ∧
        convert (withComments p false) source =
          .ok ⟨before ++ (templateTree source).elim [] fun r => itemsText p (itemsOfElement 0 r.bare),
            notes ++ (templateTree source).elim [] fun r => overruledWarnings base r.bare⟩ := by
  rw [templateTree]
  rcases hc : Component.parse source with ⟨c, _ | ⟨fault, faults⟩⟩
  · cases hs : onBlock ⟨none, none⟩ scripts c.script with
    | error failure => exact .inl ⟨failure, fun keep => convert_of_scripts_error hc hs⟩
    | ok s =>
      rcases onBlock_comments p c.template with ⟨failure, hfails⟩ | ⟨root, base, hroot, hon, hoff⟩
      · exact .inl ⟨failure, fun keep => convert_of_template_error hc hs (hfails keep)⟩
      · refine .inr ⟨lead s.value (Noted.traverse style c.styles).value,
          s.notes ++ (Noted.traverse style c.styles).notes, base, ?_, ?_⟩
        · rw [convert_of_ok hc hs hon, hroot, getD_map_eq_elim]
        · rw [convert_of_ok hc hs hoff, hroot, getD_map_eq_elim]
  · refine .inl ⟨.component (fault :: faults), fun keep => ?_⟩
    rw [convert, hc]

theorem voidsEmpty_templateTree {source : Text} {root : Element} (h : templateTree source = some root) :
    VoidsEmpty (emitted root) := by
  obtain ⟨b, -, hparse⟩ := Option.bind_eq_some_iff.mp h
  intro e he
  exact (parse_proper hparse e (mem_elements_of_emitted root he)).void

/-- Hollow elements are what keeping comments adds besides comments. -/
theorem comments_only_added_iff (p : Preferences) (source : Text) :
    (∀ failure, convert (withComments p false) source = .error failure ↔
      convert (withComments p true) source = .error failure) ∧
    ∀ plain kept, convert (withComments p false) source = .ok plain →
      convert (withComments p true) source = .ok kept →
      ∃ before, kept.value = before ++ itemsText p (templateItems source) ∧
        (plain.value = before ++ itemsText p (withoutComments (templateItems source)) ↔ NoneHollow source) ∧
        (plain.notes = kept.notes ↔ NoneHollow source) := by
  rcases convert_comments p source with ⟨failure, hfails⟩ | ⟨before, notes, base, hon, hoff⟩
  · rw [hfails, hfails]
    exact ⟨fun _ => Iff.rfl, nofun⟩
  · rw [hon, hoff]
    refine ⟨fun _ => ⟨nofun, nofun⟩, ?_⟩
    rintro _ _ ⟨⟩ ⟨⟩
    refine ⟨before, ?_⟩
    rw [templateItems, NoneHollow]
    cases htree : templateTree source with
    | none => simp [itemsText, withoutComments]
    | some root =>
      have hcount : (∀ e ∈ emitted root, isHollow e = false) ↔ (emitted root).countP isHollow = 0 := by
        simp
      have hitems := grows_itemsOfElement p root 0 (voidsEmpty_templateTree htree)
      have hnotes : Grows _ (overruledWarnings base root.bare) (overruledWarnings base root) :=
        (grows_overruled root).map _
      dsimp only [Option.elim]
      rw [hcount]
      refine ⟨rfl, ?_, ?_⟩
      · rw [List.append_cancel_left_eq, hitems.eq_iff]
      · rw [List.append_cancel_left_eq, hnotes.eq_iff]

theorem eq_ok_of_toOption {α β γ : Type} {x : Except γ α} {f : α → β} {b : β}
    (h : x.toOption.map f = some b) : ∃ a, x = .ok a ∧ f a = b := by
  cases x with
  | error e => cases h
  | ok a => exact ⟨a, rfl, Option.some.inj h⟩

/-- Comments around the branches of a chain and beside overruled text. -/
theorem comments_only_added_chain :
    let source := "<template><i><!--a--><b v-if='x'/> <!--b--><b v-else v-html='y'>u<!--c--></b></i></template>"
    let branches := "  \x7b#if x\x7d\n    <b>\n    </b>\n  \x7b:else\x7d\n    <b>\n      \x7b@html y\x7d\n    </b>\n  \x7b/if\x7d\n</i>\n"
    ∃ plain kept, convert (withComments .standard false) source = .ok plain ∧
      convert (withComments .standard true) source = .ok kept ∧ NoneHollow source ∧
      plain.value = ("<i>\n" ++ branches).toList ∧ kept.value = ("<i>\n  <!--a-->\n" ++ branches).toList ∧
      ∃ before, kept.value = before ++ itemsText .standard (templateItems source) ∧
        plain.value = before ++ itemsText .standard (withoutComments (templateItems source)) ∧
        plain.notes = kept.notes := by
  intro source branches
  obtain ⟨hoff, hon, hsolid⟩ : (convert (withComments .standard false) source).toOption.map Noted.value =
        some ("<i>\n" ++ branches).toList ∧
      (convert (withComments .standard true) source).toOption.map Noted.value =
        some ("<i>\n  <!--a-->\n" ++ branches).toList ∧ NoneHollow source := by decide +kernel
  obtain ⟨plain, hoff, hplain⟩ := eq_ok_of_toOption hoff
  obtain ⟨kept, hon, hkept⟩ := eq_ok_of_toOption hon
  obtain ⟨before, hvalue, hadded, hnotes⟩ :=
    (comments_only_added_iff .standard source).2 plain kept hoff hon
  exact ⟨plain, kept, hoff, hon, hsolid, hplain, hkept, before, hvalue, hadded.mpr hsolid, hnotes.mpr hsolid⟩

/-- Raw content in the place of a comment: keeping comments adds no comment here, but other markup
and a warning. -/
theorem comments_not_only_added :
    let source := "<template><div v-html=\"x\"><!-- c --></div></template>".toList
    ∃ plain kept, convert (withComments .standard false) source = .ok plain ∧
      convert (withComments .standard true) source = .ok kept ∧
      (plain.value, plain.notes.length) = ("<div/>\n".toList, 0) ∧
      (kept.value, kept.notes.length) = ("<div>\n  \x7b@html x\x7d\n</div>\n".toList, 1) ∧
      kept.value = itemsText .standard (withoutComments (templateItems source)) := by
  intro source
  obtain ⟨hoff, hon, hitems⟩ :
      (convert (withComments .standard false) source).toOption.map (fun r => (r.value, r.notes.length)) =
        some ("<div/>\n".toList, 0) ∧
      (convert (withComments .standard true) source).toOption.map (fun r => (r.value, r.notes.length)) =
        some ("<div>\n  \x7b@html x\x7d\n</div>\n".toList, 1) ∧
      "<div>\n  \x7b@html x\x7d\n</div>\n".toList =
        itemsText .standard (withoutComments (templateItems source)) := by decide +kernel
  obtain ⟨plain, hoff, hplain⟩ := eq_ok_of_toOption hoff
  obtain ⟨kept, hon, hkept⟩ := eq_ok_of_toOption hon
  exact ⟨plain, kept, hoff, hon, hplain, hkept, (Prod.mk.inj hkept).1.trans hitems⟩

end ComponentConverter.Conversion
