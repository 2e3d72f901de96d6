import ComponentConverter.Script.Source
import ComponentConverter.Proofs.Cutting

namespace ComponentConverter.Script

open List

variable {n c callee f called : Node} {arguments : List Node}
variable {m : Node} {span place : Span} {name : String}

inductive Role where
  | closed
  | member (called : Node)
  | bound (f : Node)
  | plain

/-- Functions are closed to the instance unless they are bound to it; of a member of the instance
it counts what it is called. -/
def Node.role : Node → Role
  | .mk (.functionExpression ..) _ _ => .closed
  | .mk .functionDeclaration _ _ => .closed
  | .mk .member _ [receiver, .mk (.property name) place parts] =>
    if receiver.bare.form = .this then .member (.mk (.property name) place parts) else .plain
  | .mk .member _ [receiver, .mk .computed _ [index]] =>
    if receiver.bare.form = .this then .member index else .plain
  | .mk .call _ (callee :: arguments) =>
    match boundFunction? callee arguments with
    | some f => .bound f
    | none => .plain
  | _ => .plain

inductive Part : Node → Node → Prop
  | child {n c : Node} (h : c ∈ n.children) : Part c n
  | deeper {n m c : Node} (h : c ∈ m.children) (hm : Part m n) : Part c n

theorem Part.trans {l n : Node} (h : Part l m) (h' : Part m n) : Part l n := by
  induction h with
  | child h => exact .deeper h h'
  | deeper h _ ih => exact .deeper h (ih h')

theorem sizeOf_child (h : c ∈ n.children) : sizeOf c < sizeOf n := by
  obtain ⟨form, span, children⟩ := n
  have hc := sizeOf_lt_of_mem h
  rw [Node.mk.sizeOf_spec]
  rw [Node.children] at hc
  omega

theorem Part.sizeOf_lt {n : Node} (h : Part m n) : sizeOf m < sizeOf n := by
  induction h with
  | child h => exact sizeOf_child h
  | deeper h _ ih => exact Nat.lt_trans (sizeOf_child h) ih

theorem bare_eq_or_part (n : Node) : n.bare = n ∨ Part n.bare n := by
  fun_induction Node.bare n with
  | case1 span inner ih =>
    have hi : Part inner (.mk .parentheses span [inner]) := .child (by simp [Node.children])
    rcases ih with ih | ih
    · exact .inr (by rwa [ih])
    · exact .inr (ih.trans hi)
  | case2 n => exact .inl rfl

theorem part_of_part_bare {n : Node} (h : Part m n.bare) : Part m n := by
  rcases bare_eq_or_part n with hn | hn
  · rwa [hn] at h
  · exact h.trans hn

theorem boundFunction?_eq_some (h : boundFunction? callee arguments = some f) :
    ∃ span receiver place parts, callee.bare = .mk .member span
      [receiver, .mk (.property "bind") place parts] ∧ receiver.bare = f ∧ f.form.isFunction = true ∧
      (plainArguments arguments).map Node.form = [.this] := by
  unfold boundFunction? at h
  split at h
  next span receiver name hc =>
    obtain ⟨form, place, parts⟩ := name
    split at h
    next hb =>
      obtain ⟨hf, rfl, ha⟩ := hb
      obtain rfl := Option.some.inj h
      exact ⟨span, receiver, place, parts, hc, rfl, hf, ha⟩
    · cases h
  · cases h

theorem part_of_boundFunction? (h : boundFunction? callee arguments = some f) : Part f callee := by
  obtain ⟨span, receiver, place, parts, hc, rfl, -⟩ := boundFunction?_eq_some h
  have hr : Part receiver callee := part_of_part_bare (by rw [hc]; exact .child (by simp [Node.children]))
  rcases bare_eq_or_part receiver with hb | hb
  · rwa [hb]
  · exact hb.trans hr

theorem role_eq_member (h : n.role = .member called) : ∃ span receiver, receiver.bare.form = .this ∧
      ((∃ name place parts, n = .mk .member span [receiver, called] ∧ called = .mk (.property name) place parts) ∨
      ∃ place, n = .mk .member span [receiver, .mk .computed place [called]]) := by
  unfold Node.role at h
  split at h
  case h_3 span receiver name place parts =>
    split at h
    next ht =>
      obtain rfl := Role.member.inj h
      exact ⟨span, receiver, ht, .inl ⟨name, place, parts, rfl, rfl⟩⟩
    · simp at h
  case h_4 span receiver place index =>
    split at h
    next ht =>
      obtain rfl := Role.member.inj h
      exact ⟨span, receiver, ht, .inr ⟨place, rfl⟩⟩
    · simp at h
  case h_5 =>
    split at h
    · simp at h
    · simp at h
  all_goals simp at h

theorem role_eq_bound (h : n.role = .bound f) : ∃ span callee arguments, n = .mk .call span (callee :: arguments) ∧
      boundFunction? callee arguments = some f := by
  unfold Node.role at h
  split at h
  case h_5 span callee arguments =>
    split at h
    next hf =>
      obtain rfl := Role.bound.inj h
      exact ⟨span, callee, arguments, rfl, hf⟩
    · simp at h
  case h_3 | h_4 =>
    split at h
    · simp at h
    · simp at h
  all_goals simp at h

theorem part_of_role_member (h : n.role = .member called) : Part called n := by
  obtain ⟨span, receiver, -, ⟨_, _, _, rfl, -⟩ | ⟨place, rfl⟩⟩ := role_eq_member h
  · exact .child (by simp [Node.children])
  · have hc : Part called (.mk .computed place [called]) := .child (by simp [Node.children])
    exact hc.trans (.child (by simp [Node.children]))

theorem part_of_role_bound (h : n.role = .bound f) : Part f n := by
  obtain ⟨span, callee, arguments, rfl, hf⟩ := role_eq_bound h
  exact (part_of_boundFunction? hf).trans (.child (by simp [Node.children]))

/-- The text of a passage, rewritten from the inside. -/
def rewritten (text : Text) (n : Node) : Text :=
  match _h : n.role with
  | .closed => n.span.slice text
  | .member called => rewritten text called
  | .bound f => splice text f.span (f.children.attach.map fun c => (c.1.span, rewritten text c.1))
  | .plain => splice text n.span (n.children.attach.map fun c => (c.1.span, rewritten text c.1))
termination_by sizeOf n
decreasing_by
  · exact (part_of_role_member _h).sizeOf_lt
  · exact Nat.lt_trans (sizeOf_child c.2) (part_of_role_bound _h).sizeOf_lt
  · exact sizeOf_child c.2

/-- The functions with a receiver of their own that stand in a passage and in no other such
function. -/
inductive Encloses : Node → Node → Prop
  | self {n : Node} (h : n.role = .closed) : Encloses n n
  | member {n called f : Node} (h : n.role = .member called) (hf : Encloses called f) : Encloses n f
  | bound {n g c f : Node} (h : n.role = .bound g) (hc : c ∈ g.children) (hf : Encloses c f) : Encloses n f
  | plain {n c f : Node} (h : n.role = .plain) (hc : c ∈ n.children) (hf : Encloses c f) : Encloses n f

def Form.isLeaf : Form → Bool
  | .invalid | .property _ => true
  | _ => false

def endsWithName (form : Form) (span : Span) (children : List Node) : Bool :=
  match form, children with
  | .member, [_, .mk (.property _) place _] => place.stop == span.stop
  | _, _ => true

/-- The spans of a tree are ranges of the text; parts lie within the whole and keep apart. -/
inductive Nested (text : Text) : Node → Prop
  | mk {form : Form} {span : Span} {children : List Node} (isRange : span.IsRange text)
      (within : ∀ c ∈ children, c.span.Within span)
      (apart : children.Pairwise fun c d => c.span.Apart d.span)
      (leaf : form.isLeaf = true → children = []) (ending : endsWithName form span children = true)
      (nested : ∀ c ∈ children, Nested text c) : Nested text (.mk form span children)

namespace Nested

variable {text : Text} {n : Node}

theorem isRange (h : Nested text n) : n.span.IsRange text := by
  cases h with
  | mk isRange => exact isRange

theorem within (h : Nested text n) : ∀ c ∈ n.children, c.span.Within n.span := by
  cases h with
  | mk _ within => exact within

theorem apart (h : Nested text n) : n.children.Pairwise fun c d => c.span.Apart d.span := by
  cases h with
  | mk _ _ apart => exact apart

theorem leaf (h : Nested text n) (hl : n.form.isLeaf = true) : n.children = [] := by
  cases h with
  | mk _ _ _ leaf => exact leaf hl

theorem ending {receiver : Node} {parts : List Node}
    (h : Nested text (.mk .member span [receiver, .mk (.property name) place parts])) :
    place.stop = span.stop := by
  cases h with
  | mk _ _ _ _ ending => exact beq_iff_eq.mp ending

theorem child (h : Nested text n) : ∀ c ∈ n.children, Nested text c := by
  cases h with
  | mk _ _ _ _ _ nested => exact nested

theorem part (h : Nested text n) (hm : Part m n) : Nested text m ∧ m.span.Within n.span := by
  induction hm with
  | child hc => exact ⟨h.child _ hc, h.within _ hc⟩
  | deeper hc _ ih =>
    obtain ⟨hm, hw⟩ := ih h
    exact ⟨hm.child _ hc, (hm.within _ hc).trans hw⟩

theorem iff_parts {form : Form} {children : List Node} :
    Nested text (.mk form span children) ↔ (span.IsRange text ∧ (∀ c ∈ children, c.span.Within span) ∧
        children.Pairwise (fun c d => c.span.Apart d.span) ∧ (form.isLeaf = true → children = []) ∧
        endsWithName form span children = true) ∧ ∀ c ∈ children, Nested text c := by
  constructor
  · rintro (⟨hr, hw, ha, hl, he, hn⟩)
    exact ⟨⟨hr, hw, ha, hl, he⟩, hn⟩
  · rintro ⟨⟨hr, hw, ha, hl, he⟩, hn⟩
    exact .mk hr hw ha hl he hn

mutual

def decide (text : Text) : (n : Node) → Decidable (Nested text n)
  | .mk _ _ children =>
    have := decideAll text children
    decidable_of_iff _ iff_parts.symm

def decideAll (text : Text) : (ns : List Node) → Decidable (∀ n ∈ ns, Nested text n)
  | [] => .isTrue (by simp)
  | n :: ns =>
    have := Nested.decide text n
    have := decideAll text ns
    decidable_of_iff (Nested text n ∧ ∀ m ∈ ns, Nested text m) forall_mem_cons.symm

end

instance (text : Text) (n : Node) : Decidable (Nested text n) := Nested.decide text n

end Nested

def cuts (n : Node) : List Span := (findings n).filterMap Finding.cut?

theorem filterMap_findingsAmong (ns : List Node) : (findingsAmong ns).filterMap Finding.cut? = ns.flatMap cuts := by
  induction ns with
  | nil => rfl
  | cons n ns ih => rw [findingsAmong, filterMap_append, ih, flatMap_cons, cuts]

theorem findingsWithin_bare (n : Node) : findingsWithin n.bare = findingsWithin n := by
  fun_induction Node.bare n with
  | case1 span inner ih => rw [ih, findingsWithin]
  | case2 n => rfl

theorem findingsWithin_of_bound (h : boundFunction? callee arguments = some f) :
    findingsWithin callee = findingsAmong f.children := by
  obtain ⟨span, receiver, place, parts, hc, hr, hf, -⟩ := boundFunction?_eq_some h
  obtain ⟨form, _, _⟩ := f
  rw [← findingsWithin_bare, hc, findingsWithin, ← findingsWithin_bare, hr]
  cases form with
  | functionExpression => rw [findingsWithin, Node.children]
  | _ => cases hf

theorem cuts_of_closed (h : n.role = .closed) : cuts n = [] := by
  unfold Node.role at h
  split at h
  case h_1 => rfl
  case h_2 => rfl
  case h_3 | h_4 | h_5 =>
    split at h
    · simp at h
    · simp at h
  all_goals simp at h

theorem cuts_of_bound (h : n.role = .bound f) :
    cuts n = cutsBetween n.start f.start ++ (cutsBetween f.stop n.stop ++ f.children.flatMap cuts) := by
  obtain ⟨span, callee, arguments, rfl, hf⟩ := role_eq_bound h
  rw [cuts, findings, hf]
  rw [findingsWithin_of_bound hf]
  simp only [filterMap_append, filterMap_cutBetween, filterMap_findingsAmong, append_assoc]
  rfl

theorem cuts_of_property {text : Text} {parts : List Node}
    (h : Nested text (.mk (.property name) place parts)) : cuts (.mk (.property name) place parts) = [] := by
  obtain rfl : parts = [] := h.leaf rfl
  rfl

theorem cuts_of_member {text : Text} (hn : Nested text n) (h : n.role = .member called) :
    cuts n = cutsBetween n.start called.start ++ (cutsBetween called.stop n.stop ++ cuts called) := by
  obtain ⟨span, receiver, ht, ⟨name, place, parts, rfl, rfl⟩ | ⟨place, rfl⟩⟩ := role_eq_member h
  · have hnone : cutsBetween place.stop span.stop = [] := by
      rw [cutsBetween, hn.ending, if_neg (Nat.lt_irrefl _)]
    rw [cuts_of_property (hn.child _ (by simp [Node.children])), cuts, findings, if_pos ht, filterMap_cutBetween]
    simp [Node.start, Node.stop, Node.span, hnone]
  · rw [cuts, findings, if_pos ht]
    simp only [filterMap_append, filterMap_cutBetween, append_assoc]
    rfl

theorem cuts_of_plain {text : Text} (hn : Nested text n) (h : n.role = .plain) :
    cuts n = n.children.flatMap cuts := by
  rw [cuts, findings.eq_def]
  split
  case h_1 =>
    rw [hn.leaf rfl]
    rfl
  case h_2 => simp [Node.role] at h
  case h_3 => simp [Node.role] at h
  case h_4 span receiver name place parts =>
    rw [Node.role] at h
    split at h
    · simp at h
    next hr =>
      rw [if_neg hr, Node.children, flatMap_cons, flatMap_cons, flatMap_nil,
        cuts_of_property (hn.child _ (by simp [Node.children])), append_nil, append_nil, cuts]
  case h_5 span receiver place index =>
    rw [Node.role] at h
    split at h
    · simp at h
    next hr =>
      have hc : cuts (.mk .computed place [index]) = cuts index := by
        simp [cuts, findings, findingsAmong]
      rw [if_neg hr, Node.children, flatMap_cons, flatMap_cons, flatMap_nil, hc,
        filterMap_append, append_nil, cuts, cuts]
  case h_6 span callee arguments =>
    have hr : boundFunction? callee arguments = none := by
      cases hb : boundFunction? callee arguments with
      | none => rfl
      | some f => simp [Node.role, hb] at h
    rw [hr]
    rw [filterMap_append, filterMap_findingsAmong]
    rfl
  case h_7 => exact filterMap_findingsAmong _

theorem eq_or_apart {ns : List Node} (h : ns.Pairwise fun c d => c.span.Apart d.span) {c d : Node}
    (hc : c ∈ ns) (hd : d ∈ ns) : d = c ∨ d.span.Apart c.span := by
  obtain ⟨before, after, rfl⟩ := append_of_mem hc
  simp only [pairwise_append, pairwise_cons, mem_cons] at h
  obtain ⟨-, ⟨hafter, -⟩, hbefore⟩ := h
  rcases mem_append.mp hd with hd | hd
  · exact .inr (hbefore d hd c (.inl rfl))
  · rcases mem_cons.mp hd with hd | hd
    · exact .inl hd
    · exact .inr (hafter d hd).symm

section Parts

variable {text : Text} {n : Node}

theorem Tidy.parts (hn : Nested text n) (ih : ∀ c ∈ n.children, Tidy text c.span (cuts c)) :
    Tidy text n.span (n.children.flatMap cuts) := by
  refine ⟨?_, ?_, ?_, ?_⟩
  · intro c hc
    obtain ⟨d, hd, hc⟩ := mem_flatMap.mp hc
    exact (ih d hd).isRange c hc
  · intro c hc
    obtain ⟨d, hd, hc⟩ := mem_flatMap.mp hc
    exact (ih d hd).nonempty c hc
  · intro c hc
    obtain ⟨d, hd, hc⟩ := mem_flatMap.mp hc
    exact ((ih d hd).within c hc).trans (hn.within d hd)
  · rw [pairwise_flatMap]
    refine ⟨fun d hd => (ih d hd).apart, hn.apart.imp_of_mem ?_⟩
    intro c d hc hd hcd a ha b hb
    exact hcd.of_within ((ih c hc).within a ha) ((ih d hd).within b hb)

theorem keptIn_part (hn : Nested text n) (ih : ∀ c ∈ n.children, Tidy text c.span (cuts c)) (hc : c ∈ n.children) :
    keptIn text (covered (n.children.flatMap cuts)) c.span = keptIn text (covered (cuts c)) c.span := by
  apply keptIn_congr (hn.child c hc).isRange
  intro i ha hb
  rw [Bool.eq_iff_iff, covered_eq_true, covered_eq_true]
  constructor
  · rintro ⟨x, hx, hxa, hxb⟩
    obtain ⟨d, hd, hxd⟩ := mem_flatMap.mp hx
    rcases eq_or_apart hn.apart hc hd with rfl | hdc
    · exact ⟨x, hxd, hxa, hxb⟩
    · obtain ⟨hwa, hwb⟩ := (ih d hd).within x hxd
      rcases hdc with hdc | hdc
      · omega
      · omega
  · rintro ⟨x, hx, hxi⟩
    exact ⟨x, mem_flatMap.mpr ⟨c, hc, hx⟩, hxi⟩

theorem splice_parts (hn : Nested text n) (ih : ∀ c ∈ n.children, Tidy text c.span (cuts c))
    (hr : ∀ c ∈ n.children, rewritten text c = keptIn text (covered (cuts c)) c.span) :
    splice text n.span (n.children.map fun c => (c.span, rewritten text c)) =
      keptIn text (covered (n.children.flatMap cuts)) n.span := by
  apply splice_eq_keptIn hn.isRange
  · intro p hp
    obtain ⟨c, hc, rfl⟩ := mem_map.mp hp
    exact ⟨(hn.child c hc).isRange, hn.within c hc, by rw [hr c hc, keptIn_part hn ih hc]⟩
  · exact pairwise_map.mpr hn.apart
  · intro i hi
    obtain ⟨x, hx, hxa, hxb⟩ := covered_eq_true.mp hi
    obtain ⟨c, hc, hxc⟩ := mem_flatMap.mp hx
    obtain ⟨hwa, hwb⟩ := (ih c hc).within x hxc
    exact ⟨_, mem_map_of_mem hc, Nat.le_trans hwa hxa, Nat.lt_of_lt_of_le hxb hwb⟩

theorem apart_parts (hn : Nested text n) (ih : ∀ c ∈ n.children, Tidy text c.span (cuts c))
    (hc : c ∈ n.children) {s : Span} (hs : s.Within c.span)
    (h : ∀ x ∈ cuts c, x.Apart s) : ∀ x ∈ n.children.flatMap cuts, x.Apart s := by
  intro x hx
  obtain ⟨d, hd, hxd⟩ := mem_flatMap.mp hx
  rcases eq_or_apart hn.apart hc hd with rfl | hdc
  · exact h x hxd
  · exact hdc.of_within ((ih d hd).within x hxd) hs

end Parts

theorem attach_map_rewritten (text : Text) (ns : List Node) :
    (ns.attach.map fun c => (c.1.span, rewritten text c.1)) = ns.map fun c => (c.span, rewritten text c) := by
  have h := congrArg (List.map fun c => (c.span, rewritten text c)) (attach_map_subtype_val ns)
  rwa [map_map] at h

theorem cuts_spec {text : Text} (hn : Nested text n) :
    Tidy text n.span (cuts n) ∧ rewritten text n = keptIn text (covered (cuts n)) n.span := by
  fun_induction rewritten text n with
  | case1 n h =>
    rw [cuts_of_closed h]
    exact ⟨⟨by simp, by simp, by simp, .nil⟩, (keptIn_eq_slice hn.isRange fun _ _ _ => rfl).symm⟩
  | case2 n called h ih =>
    obtain ⟨hc, hw⟩ := hn.part (part_of_role_member h)
    obtain ⟨htidy, hr⟩ := ih hc
    rw [cuts_of_member hn h]
    exact ⟨htidy.enclosing hn.isRange hc.isRange hw, hr.trans (keptIn_enclosing hn.isRange hc.isRange hw).symm⟩
  | case3 n f h ih =>
    obtain ⟨hf, hw⟩ := hn.part (part_of_role_bound h)
    have hparts := fun c hc => ih ⟨c, hc⟩ (hf.child c hc)
    have htidy := Tidy.parts hf fun c hc => (hparts c hc).1
    rw [cuts_of_bound h]
    refine ⟨htidy.enclosing hn.isRange hf.isRange hw, ?_⟩
    have hs := splice_parts hf (fun c hc => (hparts c hc).1) fun c hc => (hparts c hc).2
    rw [attach_map_rewritten]
    exact hs.trans (keptIn_enclosing hn.isRange hf.isRange hw).symm
  | case4 n h ih =>
    have hparts := fun c hc => ih ⟨c, hc⟩ (hn.child c hc)
    have hs := splice_parts hn (fun c hc => (hparts c hc).1) fun c hc => (hparts c hc).2
    rw [cuts_of_plain hn h, attach_map_rewritten]
    exact ⟨Tidy.parts hn fun c hc => (hparts c hc).1, hs⟩

theorem apart_of_encloses {text : Text} (h : Encloses n f) (hn : Nested text n) :
    f.span.Within n.span ∧ ∀ c ∈ cuts n, c.Apart f.span := by
  have htidy : ∀ {m : Node}, Nested text m → ∀ c ∈ m.children, Tidy text c.span (cuts c) :=
    fun hm c hc => (cuts_spec (hm.child c hc)).1
  induction h with
  | self h =>
    rw [cuts_of_closed h]
    exact ⟨.refl _, by simp⟩
  | member h _ ih =>
    obtain ⟨hc, hw⟩ := hn.part (part_of_role_member h)
    obtain ⟨hf, hap⟩ := ih hc
    rw [cuts_of_member hn h]
    exact ⟨hf.trans hw, apart_enclosing hf hap⟩
  | @bound n g c f h hc _ ih =>
    obtain ⟨hg, hw⟩ := hn.part (part_of_role_bound h)
    obtain ⟨hf, hap⟩ := ih (hg.child c hc)
    have hfg := hf.trans (hg.within c hc)
    rw [cuts_of_bound h]
    exact ⟨hfg.trans hw, apart_enclosing hfg (apart_parts hg (htidy hg) hc hf hap)⟩
  | @plain n c f h hc _ ih =>
    obtain ⟨hf, hap⟩ := ih (hn.child c hc)
    rw [cuts_of_plain hn h]
    exact ⟨hf.trans (hn.within c hc), apart_parts hn (htidy hn) hc hf hap⟩

theorem value_detached {s : Source} (h : Nested s.text n) : (s.detached n).value = dedent (rewritten s.text n) := by
  obtain ⟨htidy, hr⟩ := cuts_spec h
  exact congrArg dedent ((htidy.without_eq h.isRange).trans hr.symm)

/-- The text of a passage freed from its instance is the one rewritten from the inside, with the
indentation of its place taken back. It comes about by cuts that are not empty, lie in the passage,
keep apart from each other and from all functions with a receiver of their own. -/
theorem detached_eq_rewritten {s : Source} {n : Node} (h : Nested s.text n) :
    without s.text n.span (cuts n) = rewritten s.text n ∧ (s.detached n).value = dedent (rewritten s.text n) ∧
      (∀ c ∈ cuts n, c.start < c.stop ∧ c.Within n.span) ∧ (cuts n).Pairwise Span.Apart ∧
      ∀ f, Encloses n f → ∀ c ∈ cuts n, c.Apart f.span := by
  obtain ⟨htidy, hr⟩ := cuts_spec h
  have hwithout : without s.text n.span (cuts n) = rewritten s.text n := by
    rw [htidy.without_eq h.isRange, hr]
  exact ⟨hwithout, value_detached h, fun c hc => ⟨htidy.nonempty c hc, htidy.within c hc⟩, htidy.apart,
    fun f hf => (apart_of_encloses hf h).2⟩

/-- The function in `g(this[this.k], function () { this.a }.bind(this))`. -/
def boundFunction : Node :=
  .mk (.functionExpression false false false) ⟨16, 38⟩ [.mk .block ⟨28, 38⟩
    [.mk .expressionStatement ⟨30, 36⟩
      [.mk .member ⟨30, 36⟩ [.leaf .this ⟨30, 34⟩, .leaf (.property "a") ⟨35, 36⟩]]]]

def boundCall : Node :=
  .mk .call ⟨0, 50⟩ [.leaf (.name "g") ⟨0, 1⟩, .mk .member ⟨2, 14⟩ [.leaf .this ⟨2, 6⟩, .mk .computed ⟨6, 14⟩
        [.mk .member ⟨7, 13⟩ [.leaf .this ⟨7, 11⟩, .leaf (.property "k") ⟨12, 13⟩]]],
    .mk .call ⟨16, 49⟩ [.mk .member ⟨16, 43⟩ [boundFunction, .leaf (.property "bind") ⟨39, 43⟩],
      .leaf .this ⟨44, 48⟩]]

theorem detached_boundCall : rewritten "g(this[this.k], function () \x7b this.a \x7d.bind(this))" boundCall =
        "g(k, function () \x7b a \x7d)" ∧
      (cuts boundCall).Pairwise Span.Apart := by
  have h : Nested "g(this[this.k], function () \x7b this.a \x7d.bind(this))" boundCall := by
    decide +kernel
  obtain ⟨hw, -, -, hp, -⟩ := detached_eq_rewritten
    (s := ⟨"g(this[this.k], function () \x7b this.a \x7d.bind(this))", 0⟩) h
  have hkept := (cuts_spec h).1.without_eq h.isRange
  exact ⟨hw.symm.trans (hkept.trans (by decide +kernel)), hp⟩

mutual

/-- The tree of a passage that is freed from its instance. -/
def freed : Node → Node
  | .mk (.functionExpression isAsync isGenerator isNamed) span children =>
    .mk (.functionExpression isAsync isGenerator isNamed) span children
  | .mk .functionDeclaration span children => .mk .functionDeclaration span children
  | .mk .member span [receiver, .mk (.property name) place parts] =>
    if receiver.bare.form = .this then .leaf (.name name) place
    else .mk .member span [freed receiver, .mk (.property name) place parts]
  | .mk .member span [receiver, .mk .computed place [index]] =>
    if receiver.bare.form = .this then freed index
    else .mk .member span [freed receiver, .mk .computed place [freed index]]
  | .mk .call span (callee :: arguments) =>
    match boundFunction? callee arguments with
    | some _ => freedWithin callee
    | none => .mk .call span (freed callee :: freedAmong arguments)
  | .mk form span children => .mk form span (freedAmong children)

def freedWithin : Node → Node
  | .mk .parentheses _ [inner] => freedWithin inner
  | .mk .member _ (receiver :: _) => freedWithin receiver
  | .mk form span children => .mk form span (freedAmong children)

def freedAmong : List Node → List Node
  | [] => []
  | n :: ns => freed n :: freedAmong ns

end

/-- A passage with the tree that is left of it and the text of that tree. A part is written in the place of what it is
left of. -/
inductive Spells (text : Text) : Node → Node → Text → Prop
  | whole {n : Node} (h : n.role = .closed) : Spells text n n (n.span.slice text)
  | name {n : Node} {name : String} {place : Span} {parts : List Node}
      (h : n.role = .member (.mk (.property name) place parts)) :
      Spells text n (.leaf (.name name) place) (place.slice text)
  | index {n called m : Node} {t : Text} (h : n.role = .member called) (hc : Spells text called m t) : Spells text n m t
  | parts {n f : Node} {tree : Node → Node} {written : Node → Text}
      (h : n.role = .bound f ∨ n.role = .plain ∧ f = n)
      (hc : ∀ c ∈ f.children, Spells text c (tree c) (written c)) :
      Spells text n (.mk f.form f.span (f.children.map tree))
        (splice text f.span (f.children.map fun c => (c.span, written c)))

section Spelling

variable {text : Text} {f called : Node}

theorem freedAmong_eq (ns : List Node) : freedAmong ns = ns.map freed := by
  induction ns with
  | nil => rfl
  | cons n ns ih => rw [freedAmong, ih, map_cons]

theorem freed_of_closed (h : n.role = .closed) : freed n = n := by
  unfold Node.role at h
  split at h
  case h_1 | h_2 => rw [freed]
  case h_3 | h_4 | h_5 => split at h <;> cases h
  all_goals cases h

theorem freed_of_member (h : n.role = .member called) :
    (∃ name place parts, called = .mk (.property name) place parts ∧ freed n = .leaf (.name name) place) ∨
      freed n = freed called := by
  obtain ⟨span, receiver, ht, ⟨name, place, parts, rfl, rfl⟩ | ⟨place, rfl⟩⟩ := role_eq_member h
  · exact .inl ⟨name, place, parts, rfl, by rw [freed, if_pos ht]⟩
  · exact .inr (by rw [freed, if_pos ht])

theorem freedWithin_bare (n : Node) : freedWithin n.bare = freedWithin n := by
  fun_induction Node.bare n with
  | case1 span inner ih => rw [ih, freedWithin]
  | case2 n => rfl

theorem freedWithin_of_bound (h : boundFunction? callee arguments = some f) :
    freedWithin callee = .mk f.form f.span (f.children.map freed) := by
  obtain ⟨_, receiver, _, _, hc, hr, hform, -⟩ := boundFunction?_eq_some h
  obtain ⟨form, _, _⟩ := f
  rw [← freedWithin_bare, hc, freedWithin, ← freedWithin_bare, hr]
  cases form with
  | functionExpression => exact congrArg (Node.mk _ _) (freedAmong_eq _)
  | _ => cases hform

theorem freed_of_bound (h : n.role = .bound f) : freed n = .mk f.form f.span (f.children.map freed) := by
  obtain ⟨span, callee, arguments, rfl, hf⟩ := role_eq_bound h
  rw [freed, hf]
  exact freedWithin_of_bound hf

theorem freed_of_plain (hn : Nested text n) (h : n.role = .plain) :
    freed n = .mk n.form n.span (n.children.map freed) := by
  rw [← freedAmong_eq, freed.eq_def]
  split
  case h_1 | h_2 => simp [Node.role] at h
  case h_3 span receiver name place parts =>
    have hproperty := hn.child (.mk (.property name) place parts) (by simp [Node.children])
    obtain rfl : parts = [] := hproperty.leaf rfl
    rw [Node.role] at h
    split at h
    · cases h
    next hr =>
      rw [if_neg hr]
      simp [freedAmong, freed, Node.form, Node.span, Node.children]
  case h_4 span receiver place index =>
    rw [Node.role] at h
    split at h
    · cases h
    next hr =>
      rw [if_neg hr]
      simp [freedAmong, freed, Node.form, Node.span, Node.children]
  case h_5 span callee arguments =>
    rw [Node.role] at h
    split at h
    · cases h
    · rfl
  case h_6 => rfl

/-- What is freed from its instance is spelled by its rewritten text. -/
theorem spells_freed (hn : Nested text n) : Spells text n (freed n) (rewritten text n) := by
  fun_induction rewritten text n with
  | case1 n h =>
    rw [freed_of_closed h]
    exact .whole h
  | case2 n called h ih =>
    have hc := (hn.part (part_of_role_member h)).1
    rcases freed_of_member h with ⟨name, place, parts, rfl, hf⟩ | hf
    · have hslice : rewritten text (.mk (.property name) place parts) = place.slice text := by
        rw [(cuts_spec hc).2, cuts_of_property hc]
        exact keptIn_eq_slice hc.isRange fun _ _ _ => rfl
      rw [hf, hslice]
      exact .name h
    · rw [hf]
      exact .index h (ih hc)
  | case3 n f h ih =>
    have hf := (hn.part (part_of_role_bound h)).1
    rw [freed_of_bound h, attach_map_rewritten]
    exact .parts (.inl h) fun c hc => ih ⟨c, hc⟩ (hf.child c hc)
  | case4 n h ih =>
    rw [freed_of_plain hn h, attach_map_rewritten]
    exact .parts (.inr ⟨h, rfl⟩) fun c hc => ih ⟨c, hc⟩ (hn.child c hc)

theorem detached_spells {s : Source} (hn : Nested s.text n) :
    ∃ t, Spells s.text n (freed n) t ∧ (s.detached n).value = dedent t :=
  ⟨_, spells_freed hn, value_detached hn⟩

end Spelling

mutual

/-- Whether two trees are the same but for their places. -/
def Node.alike : Node → Node → Bool
  | .mk form _ children, .mk form' _ children' => form == form' && allAlike children children'

def allAlike : List Node → List Node → Bool
  | [], [] => true
  | n :: ns, m :: ms => n.alike m && allAlike ns ms
  | _, _ => false

end

end ComponentConverter.Script
