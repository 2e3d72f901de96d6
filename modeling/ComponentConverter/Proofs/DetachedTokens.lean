import ComponentConverter.Proofs.Detaching
import ComponentConverter.Proofs.Outdenting

namespace ComponentConverter.Script

open List
open Source (headStart signatureStart)

variable {n : Node} {cs : List Span} {ps qs : List Piece}

mutual

def Node.ends : Node → List Nat
  | .mk _ span children => span.start :: span.stop :: endsAmong children

def endsAmong : List Node → List Nat
  | [] => []
  | n :: ns => n.ends ++ endsAmong ns

end

theorem ends_subset_endsAmong {ns : List Node} (h : n ∈ ns) : n.ends ⊆ endsAmong ns := by
  induction ns with
  | nil => simp at h
  | cons m ns ih =>
    rcases mem_cons.mp h with rfl | h
    · exact subset_append_left _ _
    · exact List.Subset.trans (ih h) (subset_append_right _ _)

theorem ends_child {n c : Node} (h : c ∈ n.children) : c.ends ⊆ n.ends := by
  obtain ⟨form, span, children⟩ := n
  exact fun i hi => mem_cons_of_mem _ (mem_cons_of_mem _ (ends_subset_endsAmong h hi))

theorem Part.ends {m n : Node} (h : Part m n) : m.ends ⊆ n.ends := by
  induction h with
  | child h => exact ends_child h
  | deeper h _ ih => exact List.Subset.trans (ends_child h) ih

theorem start_mem_ends (n : Node) : n.start ∈ n.ends := by
  obtain ⟨form, span, children⟩ := n
  simp [Node.ends, Node.start, Node.span]

theorem stop_mem_ends (n : Node) : n.stop ∈ n.ends := by
  obtain ⟨form, span, children⟩ := n
  simp [Node.ends, Node.stop, Node.span]

theorem ends_cutsBetween {a b : Nat} (ha : a ∈ n.ends) (hb : b ∈ n.ends) :
    ∀ c ∈ cutsBetween a b, c.start ∈ n.ends ∧ c.stop ∈ n.ends := by
  intro c hc
  obtain ⟨-, rfl⟩ := mem_cutsBetween.mp hc
  exact ⟨ha, hb⟩

theorem ends_flatMap_cuts (h : ∀ m ∈ n.children, ∀ c ∈ cuts m, c.start ∈ m.ends ∧ c.stop ∈ m.ends) :
    ∀ c ∈ n.children.flatMap cuts, c.start ∈ n.ends ∧ c.stop ∈ n.ends := by
  intro c hc
  obtain ⟨m, hm, hc⟩ := mem_flatMap.mp hc
  exact ⟨ends_child hm (h m hm c hc).1, ends_child hm (h m hm c hc).2⟩

theorem ends_enclosing {m n : Node} (hp : Part m n) (h : ∀ c ∈ cs, c.start ∈ m.ends ∧ c.stop ∈ m.ends) :
    ∀ c ∈ cutsBetween n.start m.start ++ (cutsBetween m.stop n.stop ++ cs), c.start ∈ n.ends ∧ c.stop ∈ n.ends := by
  intro c hc
  rcases mem_append.mp hc with hc | hc
  · exact ends_cutsBetween (start_mem_ends n) (hp.ends (start_mem_ends m)) c hc
  · rcases mem_append.mp hc with hc | hc
    · exact ends_cutsBetween (hp.ends (stop_mem_ends m)) (stop_mem_ends n) c hc
    · exact ⟨hp.ends (h c hc).1, hp.ends (h c hc).2⟩

theorem ends_cuts {text : Text} (hn : Nested text n) : ∀ c ∈ cuts n, c.start ∈ n.ends ∧ c.stop ∈ n.ends := by
  fun_induction rewritten text n with
  | case1 n h =>
    rw [cuts_of_closed h]
    simp
  | case2 n called h ih =>
    have hp := part_of_role_member h
    rw [cuts_of_member hn h]
    exact ends_enclosing hp (ih (hn.part hp).1)
  | case3 n f h ih =>
    have hp := part_of_role_bound h
    rw [cuts_of_bound h]
    exact ends_enclosing hp (ends_flatMap_cuts fun c hc => ih ⟨c, hc⟩ ((hn.part hp).1.child c hc))
  | case4 n h ih =>
    rw [cuts_of_plain hn h]
    exact ends_flatMap_cuts fun c hc => ih ⟨c, hc⟩ (hn.child c hc)

theorem without_eq_keptIn_of_apart {text : Text} {whole range : Span}
    (hr : range.IsRange text) (hc : Tidy text whole cs) (h : ∀ c ∈ cs, c.Within range ∨ c.Apart range) :
    without text range cs = keptIn text (covered cs) range := by
  have hmem {c : Span} : c ∈ cs.filter (·.Within range) ↔ c ∈ cs ∧ c.Within range := by simp
  have htidy : Tidy text range (cs.filter (·.Within range)) :=
    ⟨fun c hm => hc.isRange c (hmem.mp hm).1, fun c hm => hc.nonempty c (hmem.mp hm).1,
      fun c hm => (hmem.mp hm).2, hc.apart.sublist filter_sublist⟩
  rw [without_eq_keptIn hr htidy]
  apply keptIn_congr hr
  intro i hi hi'
  rw [Bool.eq_iff_iff, covered_eq_true, covered_eq_true]
  constructor
  · rintro ⟨c, hm, hci⟩
    exact ⟨c, (hmem.mp hm).1, hci⟩
  · rintro ⟨c, hm, hci, hci'⟩
    rcases h c hm with hw | ha | ha
    · exact ⟨c, hmem.mpr ⟨hm, hw⟩, hci, hci'⟩
    · omega
    · omega

/-- The pieces that a range is read as. The parts of a node start and end between them. -/
structure PiecesOf (text : Text) (n : Node) (range : Span) (ps : List Piece) : Prop where
  join_eq : join ps = range.slice text
  reads : Reads false ps
  between : ∀ i ∈ n.ends, BetweenPieces i range.start ps

theorem PiecesOf.without_eq {text : Text} {range whole : Span} {ps : List Piece}
    (hp : PiecesOf text n range ps) (hr : range.IsRange text) (hc : Tidy text whole cs)
    (he : ∀ c ∈ cs, c.start ∈ n.ends ∧ c.stop ∈ n.ends) (h : ∀ c ∈ cs, c.Within range ∨ c.Apart range) :
    without text range cs = join (survivors (covered cs) range.start ps) := by
  rw [without_eq_keptIn_of_apart hr hc h, keptIn, ← hp.join_eq]
  exact kept_join fun c hm => ⟨hp.between _ (he c hm).1, hp.between _ (he c hm).2⟩

/-- The pieces stand beside each other as such, and the text is read as the tokens among them. -/
def KeepsTokens (t : Text) (ps : List Piece) : Prop := Reads false ps ∧ ReadAs t (tokens ps)

section Keeping

variable {cut : Nat → Bool} {i : Nat} {ps : List Piece}

theorem keepsTokens_dedent_iff (h : Reads false ps) :
    KeepsTokens (dedent (join (survivors cut i ps))) (survivors cut i ps) ↔ Undisturbed cut i false false ps ∧
        (dedent (join (survivors cut i ps)) = join (survivors cut i ps) ∨ OnOneLine (survivors cut i ps)) := by
  rw [KeepsTokens, ← reads_survivors_iff h]
  exact and_congr_right readAs_dedent_iff

theorem keepsTokens_trim_iff (h : Reads false ps) :
    KeepsTokens (trim (join (survivors cut i ps))) (survivors cut i ps) ↔ Undisturbed cut i false false ps := by
  rw [KeepsTokens, ← reads_survivors_iff h]
  exact and_iff_left_of_imp readAs_trim

end Keeping

theorem Reads.of_append {fresh : Bool} (h : Reads fresh (ps ++ qs)) : Reads false qs := by
  induction ps generalizing fresh with
  | nil =>
    cases fresh with
    | true => exact Reads.not_fresh h
    | false => exact h
  | cons p ps ih => exact ih h.2

section Ranges

variable {text : Text} {range : Span} {u v : Text}

theorem isRange_of_slice_ne_nil (h : range.slice text ≠ []) : range.IsRange text := by
  rw [Span.slice, Span.slice?] at h
  split at h
  next hle =>
    split at h
    next u rest hs =>
      obtain ⟨rfl, hu⟩ := splitBytes?_eq_some_iff.mp hs
      cases hv : splitBytes? (range.stop - range.start) rest with
      | none => simp [hv] at h
      | some p =>
        obtain ⟨v, w⟩ := p
        obtain ⟨rfl, hvb⟩ := splitBytes?_eq_some_iff.mp hv
        exact ⟨hle, ⟨u, v ++ w, rfl, hu.symm⟩, u ++ v, w, by simp, by simp; omega⟩
    · simp at h
  · simp at h

theorem IsRange.of_append (h : range.IsRange text) (hs : range.slice text = u ++ v) :
    (Span.mk (range.start + bytes u) range.stop).IsRange text ∧
      (Span.mk (range.start + bytes u) range.stop).slice text = v := by
  obtain ⟨a, b, w, rfl, hstart, hstop⟩ := h.exists_append
  obtain ⟨start, stop⟩ := range
  subst hstart hstop
  obtain rfl : b = u ++ v := (Span.slice_append a b w).symm.trans hs
  have htext : a ++ (u ++ v ++ w) = (a ++ u) ++ (v ++ w) := by simp
  have hspan : Span.mk (bytes a + bytes u) (bytes a + bytes (u ++ v)) =
      ⟨bytes (a ++ u), bytes (a ++ u) + bytes v⟩ := by simp [Nat.add_assoc]
  rw [htext, hspan]
  exact ⟨⟨Nat.le_add_right _ _, ⟨_, _, rfl, rfl⟩, a ++ u ++ v, w, by simp, bytes_append _ _⟩, Span.slice_append _ _ _⟩

end Ranges

theorem PiecesOf.of_append {text : Text} {range : Span}
    (h : PiecesOf text n range (ps ++ qs)) (hr : range.IsRange text) :
    PiecesOf text n ⟨range.start + bytes (join ps), range.stop⟩ qs where
  join_eq := by
    have hj := h.join_eq
    rw [join_append] at hj
    exact (IsRange.of_append hr hj.symm).2.symm
  reads := h.reads.of_append
  between i hi := (h.between i hi).of_append

def innerCuts (f : Node) : List Span := f.children.flatMap cuts

theorem callable?_eq_some {s : Source} {f : Node} {g : Callable} (h : (s.callable? f).value = some g) :
    ∃ body, f.body? = some body ∧
      g.signature = trim (without s.text ⟨signatureStart s f body, body.start⟩ (innerCuts f)) ∧
      g.body = dedent (without s.text body.span (innerCuts f)) := by
  have hcuts : (findingsOfFunction f).filterMap Finding.cut? = innerCuts f := filterMap_findingsAmong _
  unfold Source.callable? at h
  split at h
  case h_1 body isAsync isGenerator hb _ =>
    obtain rfl := Option.some.inj h
    rw [← hcuts]
    exact ⟨body, hb, rfl, rfl⟩
  case h_2 body isAsync isGenerator _ hb _ =>
    obtain rfl := Option.some.inj h
    rw [← hcuts]
    exact ⟨body, hb, rfl, rfl⟩
  case h_3 => simp at h

/-- Whether a token opens parameters or type parameters. -/
def Piece.opens (p : Piece) : Bool := p.goal != .gap && (p.text == ['('] || p.text == ['<'])

/-- The pieces of a function from its name on: those before its parameters, the token that opens
these, the pieces up to its body, and the pieces of its body. Its parts lie before the first of
them or from the opening token on. -/
structure FunctionPieces (s : Source) (f body : Node) (before : List Piece) (opening : Piece)
    (signature inner : List Piece) : Prop where
  nested : Nested s.text f
  body?_eq : f.body? = some body
  head : PiecesOf s.text f ⟨headStart f, body.start⟩ (before ++ opening :: signature)
  opens : opening.opens = true
  not_opens : ∀ p ∈ before, p.opens = false
  behind : ∀ c ∈ f.children, c.stop ≤ headStart f ∨ headStart f + bytes (join before) ≤ c.start
  body : PiecesOf s.text f body.span inner

namespace FunctionPieces

variable {s : Source} {f body : Node} {before signature inner : List Piece} {opening : Piece}

theorem exists_opening (h : FunctionPieces s f body before opening signature inner) :
    ∃ c t, join (opening :: signature) = c :: t ∧ (c = '(' ∨ c = '<') := by
  have ho := h.opens
  rw [Piece.opens, Bool.and_eq_true, Bool.or_eq_true, beq_iff_eq, beq_iff_eq] at ho
  rcases ho.2 with ho | ho
  · exact ⟨'(', join signature, by rw [join_cons, ho]; rfl, .inl rfl⟩
  · exact ⟨'<', join signature, by rw [join_cons, ho]; rfl, .inr rfl⟩

theorem isRange_head (h : FunctionPieces s f body before opening signature inner) :
    (Span.mk (headStart f) body.start).IsRange s.text := by
  apply isRange_of_slice_ne_nil
  obtain ⟨c, t, ht, -⟩ := h.exists_opening
  rw [← h.head.join_eq, join_append, ht]
  simp

/-- The parameters are found at their opening token exactly if no bracket stands before it. -/
theorem signatureStart_eq_iff (h : FunctionPieces s f body before opening signature inner) :
    signatureStart s f body = headStart f + bytes (join before) ↔ ∀ p ∈ before, '(' ∉ p.text ∧ '<' ∉ p.text := by
  obtain ⟨c, t, ht, hc⟩ := h.exists_opening
  have hhead : s.textOf ⟨headStart f, body.start⟩ = join before ++ c :: t := by
    rw [← ht, ← join_append]
    exact h.head.join_eq.symm
  have hmem : (∀ p ∈ before, '(' ∉ p.text ∧ '<' ∉ p.text) ↔ ∀ d ∈ join before, (d != '(' && d != '<') = true := by
    simp only [join, mem_flatMap, Bool.and_eq_true, bne_iff_ne]
    constructor
    · rintro hall d ⟨p, hp, hd⟩
      refine ⟨?_, ?_⟩
      · rintro rfl
        exact (hall p hp).1 hd
      · rintro rfl
        exact (hall p hp).2 hd
    · intro hall p hp
      exact ⟨fun hd => (hall _ ⟨p, hp, hd⟩).1 rfl, fun hd => (hall _ ⟨p, hp, hd⟩).2 rfl⟩
  have hc' : (c != '(' && c != '<') = false := by
    rcases hc with rfl | rfl
    · rfl
    · rfl
  rw [hmem, signatureStart, hhead]
  constructor
  · intro hstart
    obtain ⟨v, hv⟩ := List.takeWhile_prefix (l := join before) fun d => d != '(' && d != '<'
    by_cases hnil : v = []
    · rw [hnil, append_nil] at hv
      rw [← hv]
      exact all_eq_true.mp all_takeWhile
    · have hlen := congrArg List.length hv
      have hpos := length_pos_iff.mpr hnil
      rw [length_append] at hlen
      have htake : List.takeWhile (fun d => d != '(' && d != '<') (join before ++ c :: t) =
          List.takeWhile (fun d => d != '(' && d != '<') (join before) := by
        rw [takeWhile_append, if_neg (by omega)]
      rw [htake, if_pos (by rw [length_append]; omega)] at hstart
      have hbytes := congrArg bytes hv
      rw [bytes_append] at hbytes
      exact absurd (eq_nil_of_bytes_eq_zero (by omega)) hnil
  · intro hall
    rw [takeWhile_append_of_pos hall, takeWhile_cons_of_neg (by rw [hc']; simp), append_nil, if_pos (by simp)]

theorem body_mem (h : FunctionPieces s f body before opening signature inner) : body ∈ f.children := by
  have hb := h.body?_eq
  rw [Node.body?, Option.filter_eq_some_iff] at hb
  exact mem_of_getLast? hb.1

theorem tidy (h : FunctionPieces s f body before opening signature inner) : Tidy s.text f.span (innerCuts f) :=
  Tidy.parts h.nested fun c hc => (cuts_spec (h.nested.child c hc)).1

theorem cut_body (h : FunctionPieces s f body before opening signature inner) :
    ∀ c ∈ innerCuts f, c.Within body.span ∨ c.Apart body.span := by
  intro c hc
  obtain ⟨m, hm, hc⟩ := mem_flatMap.mp hc
  have hw := (cuts_spec (h.nested.child m hm)).1.within c hc
  rcases eq_or_apart h.nested.apart h.body_mem hm with rfl | ha
  · exact .inl hw
  · exact .inr (ha.of_within hw (.refl _))

theorem cut_signature (h : FunctionPieces s f body before opening signature inner) :
    ∀ c ∈ innerCuts f, c.Within ⟨headStart f + bytes (join before), body.start⟩ ∨
      c.Apart ⟨headStart f + bytes (join before), body.start⟩ := by
  intro c hc
  obtain ⟨m, hm, hc⟩ := mem_flatMap.mp hc
  obtain ⟨hw, hw'⟩ := (cuts_spec (h.nested.child m hm)).1.within c hc
  have hordered : body.start ≤ body.stop := (h.nested.child body h.body_mem).isRange.ordered
  rcases eq_or_apart h.nested.apart h.body_mem hm with rfl | ha | ha
  · exact .inr (.inr hw)
  · rcases h.behind m hm with hb | hb
    · exact .inr (.inl (Nat.le_trans (Nat.le_trans hw' hb) (Nat.le_add_right _ _)))
    · exact .inl ⟨Nat.le_trans hb hw, Nat.le_trans hw' ha⟩
  · exact .inr (.inr (Nat.le_trans hordered (Nat.le_trans ha hw)))

end FunctionPieces

/-- The tokens of a passage freed from its instance are those that no cut takes away, exactly if
these are undisturbed and none that goes over several lines is outdented. Of a function the
parameters and the body are so, and the parameters start at their opening token, if moreover no
bracket stands in a comment before it. -/
theorem keepsTokens_detached_iff (s : Source) : (∀ n ps, Nested s.text n → PiecesOf s.text n n.span ps →
      (KeepsTokens (s.detached n).value (survivors (covered (cuts n)) n.start ps) ↔
        Undisturbed (covered (cuts n)) n.start false false ps ∧
          ((s.detached n).value = join (survivors (covered (cuts n)) n.start ps) ∨
            OnOneLine (survivors (covered (cuts n)) n.start ps)))) ∧
    ∀ f body before opening signature inner g,
      FunctionPieces s f body before opening signature inner → (s.callable? f).value = some g →
      let start := headStart f + bytes (join before)
      (signatureStart s f body = start ∧
          KeepsTokens g.signature (survivors (covered (innerCuts f)) start (opening :: signature)) ∧
          KeepsTokens g.body (survivors (covered (innerCuts f)) body.start inner) ↔
        (∀ p ∈ before, '(' ∉ p.text ∧ '<' ∉ p.text) ∧
          Undisturbed (covered (innerCuts f)) start false false (opening :: signature) ∧
          Undisturbed (covered (innerCuts f)) body.start false false inner ∧
          (g.body = join (survivors (covered (innerCuts f)) body.start inner) ∨
            OnOneLine (survivors (covered (innerCuts f)) body.start inner))) := by
  constructor
  · intro n ps hn hp
    obtain ⟨htidy, -⟩ := cuts_spec hn
    have hkept : without s.text n.span (cuts n) = join (survivors (covered (cuts n)) n.start ps) :=
      hp.without_eq hn.isRange htidy (ends_cuts hn) fun c hc => .inl (htidy.within c hc)
    have hvalue : (s.detached n).value = dedent (join (survivors (covered (cuts n)) n.start ps)) := by
      rw [← hkept]
      rfl
    rw [hvalue]
    exact keepsTokens_dedent_iff hp.reads
  · intro f body before opening signature inner g h hg start
    obtain ⟨body', hb, hsignature, hbody⟩ := callable?_eq_some hg
    obtain rfl : body' = body := Option.some.inj (hb.symm.trans h.body?_eq)
    have hends : ∀ c ∈ innerCuts f, c.start ∈ f.ends ∧ c.stop ∈ f.ends :=
      ends_flatMap_cuts fun m hm => ends_cuts (h.nested.child m hm)
    have hhead := h.head.of_append h.isRange_head
    have hjoin := h.head.join_eq
    rw [join_append] at hjoin
    have hrange := (IsRange.of_append h.isRange_head hjoin.symm).1
    rw [h.body.without_eq (h.nested.child _ h.body_mem).isRange h.tidy hends h.cut_body] at hbody
    rw [← h.signatureStart_eq_iff, hbody, and_congr_right_iff]
    intro hstart
    rw [hstart, hhead.without_eq hrange h.tidy hends h.cut_signature] at hsignature
    rw [hsignature]
    exact and_congr (keepsTokens_trim_iff hhead.reads) (keepsTokens_dedent_iff h.body.reads)

section Examples

def Piece.plain (text : String) : Piece := ⟨.plain, text.toList⟩

def Piece.gap (text : String) : Piece := ⟨.gap, text.toList⟩

def runSource : Source := ⟨"run /* of */ (a) \x7b return this.b + a \x7d", 0⟩

def runResult : Node :=
  .mk (.binary "+") ⟨26, 36⟩ [.mk .member ⟨26, 32⟩ [.leaf .this ⟨26, 30⟩, .leaf (.property "b") ⟨31, 32⟩],
    .leaf (.name "a") ⟨35, 36⟩]

def runBody : Node := .mk .block ⟨17, 38⟩ [.mk .returnStatement ⟨19, 36⟩ [runResult]]

def runMethod : Node :=
  .mk (.method false false) ⟨0, 38⟩ [.leaf (.key (some "run")) ⟨0, 3⟩, .leaf (.name "a") ⟨14, 15⟩, runBody]

def resultPieces : List Piece := [.plain "this", .plain ".", .plain "b", .gap " ", .plain "+", .gap " ", .plain "a"]

def bodyPieces : List Piece :=
  [.plain "\x7b", .gap " ", .plain "return", .gap " "] ++ resultPieces ++ [.gap " ", .plain "\x7d"]

theorem functionPieces_run : FunctionPieces runSource runMethod runBody
    [.gap " ", .gap "/* of */", .gap " "] (.plain "(") [.plain "a", .plain ")", .gap " "] bodyPieces where
  nested := by decide +kernel
  body?_eq := rfl
  head := ⟨by decide +kernel, by decide +kernel, by decide +kernel⟩
  opens := by decide
  not_opens := by decide
  behind := by decide +kernel
  body := ⟨by decide +kernel, by decide +kernel, by decide +kernel⟩

/-- `this.b` becomes `b`, and all other tokens stay. -/
theorem keepsTokens_run : KeepsTokens (runSource.detached runResult).value
        [.plain "b", .gap " ", .plain "+", .gap " ", .plain "a"] ∧
      (runSource.callable? runMethod).value = some ⟨false, false, "(a)", "\x7b return b + a \x7d"⟩ ∧
      signatureStart runSource runMethod runBody = 13 ∧
      KeepsTokens "(a)" [.plain "(", .plain "a", .plain ")", .gap " "] ∧
      KeepsTokens "\x7b return b + a \x7d"
        [.plain "\x7b", .gap " ", .plain "return", .gap " ", .plain "b", .gap " ", .plain "+", .gap " ",
          .plain "a", .gap " ", .plain "\x7d"] := by
  obtain ⟨hnode, hfunction⟩ := keepsTokens_detached_iff runSource
  have hresult := (hnode runResult resultPieces (by decide +kernel)
    ⟨by decide +kernel, by decide +kernel, by decide +kernel⟩).mpr
    ⟨by decide +kernel, .inr (by decide +kernel)⟩
  have hvalue : (runSource.callable? runMethod).value = some ⟨false, false, "(a)", "\x7b return b + a \x7d"⟩ := by
    decide +kernel
  obtain ⟨hstart, hsignature, hbody⟩ := (hfunction _ _ _ _ _ _ _ functionPieces_run hvalue).mpr
    ⟨by decide, by decide +kernel, by decide +kernel, .inr (by decide +kernel)⟩
  exact ⟨hresult, hvalue, hstart, hsignature, hbody⟩

/-- A type test of a member of the instance. -/
def typeofSource : Source := ⟨"typeof(this).x", 0⟩

def typeofNode : Node :=
  .mk .unary ⟨0, 14⟩ [.mk .member ⟨6, 14⟩
    [.mk .parentheses ⟨6, 12⟩ [.leaf .this ⟨7, 11⟩], .leaf (.property "x") ⟨13, 14⟩]]

def typeofPieces : List Piece := [.plain "typeof", .plain "(", .plain "this", .plain ")", .plain ".", .plain "x"]

/-- A method with a bracket in a comment before its parameters. -/
def bracketSource : Source := ⟨"run /* ( */ (a) \x7b\x7d", 0⟩

def bracketMethod : Node :=
  .mk (.method false false) ⟨0, 18⟩ [.leaf (.key (some "run")) ⟨0, 3⟩, .leaf (.name "a") ⟨13, 14⟩,
    .leaf .block ⟨16, 18⟩]

def stringSource : Source := ⟨"'a\\\n  b'", 0⟩

/-- Two words are joined into one, a comment becomes part of the parameters, and a string is changed. -/
theorem not_keepsTokens_typeof : Nested typeofSource.text typeofNode ∧
      PiecesOf typeofSource.text typeofNode typeofNode.span typeofPieces ∧
      survivors (covered (cuts typeofNode)) 0 typeofPieces = [.plain "typeof", .plain "x"] ∧
      (typeofSource.detached typeofNode).value = "typeofx".toList ∧
      ¬ KeepsTokens "typeofx".toList [.plain "typeof", .plain "x"] ∧
      ((bracketSource.callable? bracketMethod).value.map Callable.signature) = some "( */ (a)".toList ∧
      (stringSource.detached (.leaf (.string (some "a  b".toList)) ⟨0, 8⟩)).value = "'a\\\nb'".toList ∧
      ¬ KeepsTokens "'a\\\nb'".toList [.plain "'a\\\n  b'"] := by
  refine ⟨by decide +kernel, ⟨by decide +kernel, by decide +kernel, by decide +kernel⟩, by decide +kernel,
    by decide +kernel, ?_, by decide +kernel, by decide +kernel, ?_⟩
  · rintro ⟨hreads, -⟩
    revert hreads
    decide +kernel
  · rintro ⟨hreads, hread⟩
    have hdedent : dedent (join [.plain "'a\\\n  b'"]) = "'a\\\nb'".toList := by decide +kernel
    rcases (readAs_dedent_iff hreads).mp hread with hsame | hone
    · rw [hdedent] at hsame
      revert hsame
      decide +kernel
    · revert hone
      decide +kernel

end Examples

end ComponentConverter.Script
