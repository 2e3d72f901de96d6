import ComponentConverter.Proofs.TreeShape
import ComponentConverter.Proofs.WrittenTree

namespace ComponentConverter.Template

open List Markup

variable {nodes : List Node} {t r : Text} {raw : List RawNode}

section Attributes

variable {attributes : List (Text × Text)}

def toAttributes (attributes : List (Text × Text)) : List Attribute :=
  attributes.map fun (name, value) => ⟨name, value⟩

theorem writtenAttributes_toAttributes (attributes : List (Text × Text)) :
    writtenAttributes (toAttributes attributes) = writeAttributes attributes := by
  simp only [writtenAttributes, toAttributes, writeAttributes, flatMap_map, Attribute.written]

theorem attribute?_toAttributes (attributes : List (Text × Text)) (name : String) :
    Markup.attribute? (toAttributes attributes) name = attributes.lookup name.toList := by
  induction attributes with
  | nil => rfl
  | cons a as ih =>
    obtain ⟨n, v⟩ := a
    by_cases h : n = name.toList
    · simp [toAttributes, Markup.attribute?, h]
    · have h1 : (n == name.toList) = false := by simpa using h
      have h2 : (name.toList == n) = false := by simpa using Ne.symm h
      rw [lookup_cons, h2, ← ih]
      simp [toAttributes, Markup.attribute?, h1]

theorem AttributesWritable.written (h : AttributesWritable attributes) :
    (∀ a ∈ toAttributes attributes, a.Writable) ∧ ((toAttributes attributes).map Attribute.name).Nodup := by
  refine ⟨?_, ?_⟩
  · intro a ha
    simp only [toAttributes, mem_map, Prod.exists] at ha
    obtain ⟨name, value, hm, rfl⟩ := ha
    obtain ⟨hn, -, -, hv, -⟩ := h.2 (name, value) hm
    exact ⟨hn, hv⟩
  · have hd := h.1
    simpa [toAttributes, Function.comp_def] using hd

theorem lookup_mem {name value : Text} (h : attributes.lookup name = some value) : (name, value) ∈ attributes := by
  obtain ⟨as, bs, rfl, -⟩ := lookup_eq_some_iff.mp h
  simp

theorem AttributesWritable.lookup_eq_none (h : AttributesWritable attributes) {name : Text}
    (hn : name = "v-else" ∨ name = "v-else-if") : attributes.lookup name = none := by
  cases hl : attributes.lookup name with
  | none => rfl
  | some value =>
    obtain ⟨-, h1, h2, -⟩ := h.2 (name, value) (lookup_mem hl)
    rcases hn with hn | hn
    · exact absurd hn h1
    · exact absurd hn h2

theorem AttributesWritable.guard_eq (h : AttributesWritable attributes) (name : Text) (span : Span) :
    Tag.guard ⟨name, toAttributes attributes, span⟩ = RawElement.guard attributes := by
  simp only [Tag.guard, Tag.has, Tag.attribute?, attribute?_toAttributes, RawElement.guard,
    h.lookup_eq_none (.inl rfl), h.lookup_eq_none (.inr rfl)]
  cases attributes.lookup "v-if".toList <;> rfl

theorem AttributesWritable.loop_isSome (h : AttributesWritable attributes) {expression : Text}
    (he : attributes.lookup "v-for".toList = some expression) : (Loop.parse? expression).isSome = true :=
  (h.2 _ (lookup_mem he)).2.2.2.2 rfl

end Attributes

section Siblings

def Node.Plain : Node → Prop
  | .element e => e.tag.guard.isBranch = false
  | _ => True

def Node.settle : Node → Node
  | .text raw span => .text (if ComponentConverter.isBlank raw then [' '] else raw) span
  | node => node

theorem addSibling_plain {n : Node} (hn : n.Plain) (before : List Node) :
    addSibling before n = (if before = [] ∧ n.isBlank = true then [] else n.settle :: before, []) := by
  cases n with
  | element e =>
    have hb : ¬ e.tag.guard.isBranch = true := by
      rw [show e.tag.guard.isBranch = false from hn]
      simp
    simp [addSibling, hb, Node.isBlank, Node.settle]
  | text raw span =>
    by_cases hb : isBlank raw = true <;> cases before <;>
      simp [addSibling, Node.isBlank, Node.settle, hb]
  | comment body span => simp [addSibling, Node.isBlank, Node.settle]

theorem addSiblings_plain (hn : ∀ n ∈ nodes, n.Plain) {before : List Node}
    (hb : before ≠ []) : addSiblings before nodes = ((nodes.map Node.settle).reverse ++ before, []) := by
  induction nodes generalizing before with
  | nil => rfl
  | cons n nodes ih =>
    have hi : addSiblings (n.settle :: before) nodes = _ := ih (fun m hm => hn m (mem_cons_of_mem n hm)) (by simp)
    rw [addSiblings, addSibling_plain (hn n mem_cons_self), if_neg (by simp [hb])]
    simp [hi]

theorem addSiblings_plain_nil (hn : ∀ n ∈ nodes, n.Plain) :
    addSiblings [] nodes = (((nodes.dropWhile Node.isBlank).map Node.settle).reverse, []) := by
  induction nodes with
  | nil => rfl
  | cons n nodes ih =>
    have hm : ∀ m ∈ nodes, m.Plain := fun m hm => hn m (mem_cons_of_mem n hm)
    rw [addSiblings, addSibling_plain (hn n mem_cons_self)]
    by_cases hb : n.isBlank = true
    · simp [hb, ih hm]
    · simp [hb, addSiblings_plain hm]

def Node.settledView : Node → View
  | .element e => e.view
  | .text raw _ => RawNode.textView raw
  | .comment body _ => .comment body

theorem isBlank_settledView (n : Node) : n.settledView.isBlank = n.isBlank := by
  cases n with
  | element e => cases e; rfl
  | text raw span =>
    simp only [Node.settledView, RawNode.textView, Node.isBlank]
    split
    next hb => rw [hb]; rfl
    next hb =>
      rw [textView]
      split
      · simpa [View.isBlank] using hb
      · rfl
  | comment body span => rfl

theorem nodeViews_settle (nodes : List Node) : nodeViews (nodes.map Node.settle) = nodes.map Node.settledView := by
  induction nodes with
  | nil => rfl
  | cons n nodes ih =>
    cases n with
    | element e => simp [Node.settle, nodeViews, Node.settledView, ih]
    | text raw span =>
      have hs : textView [' '] = .static [' '] := by rfl
      by_cases hb : isBlank raw = true <;>
        simp [Node.settle, nodeViews, Node.settledView, RawNode.textView, hb, ih, hs]
    | comment body span => simp [Node.settle, nodeViews, Node.settledView, ih]

theorem isBlank_settle (n : Node) : n.settle.isBlank = n.isBlank := by
  cases n with
  | element e => rfl
  | text raw span =>
    simp only [Node.settle, Node.isBlank]
    split
    next hb => rw [hb]; rfl
    · rfl
  | comment body span => rfl

theorem chainBranches_plain (hn : ∀ n ∈ nodes, n.Plain) :
    nodeViews (chainBranches nodes).1 = trimBlanks (nodes.map Node.settledView) ∧ (chainBranches nodes).2 = [] := by
  rw [chainBranches, addSiblings_plain_nil hn]
  refine ⟨?_, rfl⟩
  have hb : (Node.isBlank ∘ Node.settle) = Node.isBlank := funext isBlank_settle
  have hv : (View.isBlank ∘ Node.settledView) = Node.isBlank := funext isBlank_settledView
  dsimp only
  rw [trimBlanks, dropWhile_map, hv, ← map_reverse, ← map_reverse,
    dropWhile_map, hb, dropWhile_map, hv, ← map_reverse, ← map_reverse,
    nodeViews_settle]

end Siblings

namespace Build

theorem pushElement_written {attributes : List (Text × Text)} {name : Text}
    (hs : sameLetters name "style".toList = false) (hc : sameLetters name "script".toList = false)
    (ha : AttributesWritable attributes) (b : Build) (span : Span) (children : List Node) :
    b.pushElement ⟨name, toAttributes attributes, span⟩ children =
      b.push (.element (.mk ⟨name, toAttributes attributes, span⟩ children [])) := by
  have hf : isForbidden name (toAttributes attributes) = false := by
    rw [isForbidden, hs, hc]
    rfl
  rw [pushElement, if_neg (by simp [hf])]
  simp only [Tag.attribute?, Tag.loop, attribute?_toAttributes]
  cases hl : attributes.lookup "v-for".toList with
  | none => rfl
  | some expression =>
    have hp := ha.loop_isSome hl
    have hnone : ¬ (Loop.parse? expression).isNone = true := by
      rw [Option.isNone_iff_eq_none, ← Option.not_isSome_iff_eq_none, hp]
      simp
    simp [hnone]

theorem foldl_push_opened (nodes : List Node) (b : Build) (e : OpenElement)
    (outer : List OpenElement) (hb : b.opened = e :: outer) :
    nodes.foldl push b = { b with opened := { e with children := nodes.reverse ++ e.children } :: outer } := by
  induction nodes generalizing b e with
  | nil =>
    obtain ⟨opened, roots, faults⟩ := b
    obtain rfl : opened = e :: outer := hb
    rfl
  | cons n nodes ih =>
    have hp : b.push n = { b with opened := { e with children := n :: e.children } :: outer } := by
      rw [push, hb]
    rw [foldl_cons, ih (b.push n) { e with children := n :: e.children } (by rw [hp]), hp]
    simp

end Build

/-- The pieces of a written text have the effect of its nodes. -/
structure ReadsAs (t r : Text) (p : Nat) (pieces : List Piece) (nodes : List Node) : Prop where
  run : Run Piece.next ⟨t ++ r, p⟩ pieces ⟨r, p + bytes t⟩
  effect : ∀ last b, pieces.foldl (Build.step true last) b = nodes.foldl Build.push b
  plain : ∀ n ∈ nodes, n.Plain

theorem ReadsAs.nil (r : Text) (p : Nat) : ReadsAs [] r p [] [] := ⟨.done _, fun _ _ => rfl, by simp⟩

theorem ReadsAs.append {t' : Text} {p : Nat} {ps ps' : List Piece} {ns ns' : List Node}
    (h : ReadsAs t (t' ++ r) p ps ns) (h' : ReadsAs t' r (p + bytes t) ps' ns') :
    ReadsAs (t ++ t') r p (ps ++ ps') (ns ++ ns') := by
  refine ⟨?_, ?_, ?_⟩
  · rw [append_assoc, bytes_append, ← Nat.add_assoc]
    exact h.run.trans h'.run
  · intro last b
    rw [foldl_append, foldl_append, h.effect, h'.effect]
  · intro n hn
    rcases mem_append.mp hn with hn | hn
    · exact h.plain n hn
    · exact h'.plain n hn

theorem readsAs_text (hne : t ≠ []) (hf : MarkupFree t) (hr : startsMarkup r = true) (p : Nat) :
    ReadsAs t r p [.text t ⟨p, p + bytes t⟩] [.text t ⟨p, p + bytes t⟩] := by
  refine ⟨.single (Piece.next_text hne hr ?_ p), fun _ _ => rfl, by simp [Node.Plain]⟩
  obtain ⟨r, rfl⟩ := eq_cons_of_startsMarkup hr
  exact fun v hv hv' => hf.not_startsMarkup r hv hv'

theorem readsAs_comment {body : Text} (hb : ¬ "-->" <:+: body) (r : Text) (p : Nat) :
    ∃ span pieces, ReadsAs ("<!--" ++ (body ++ "-->")) r p pieces
      [.comment body span] := by
  obtain ⟨span, hn⟩ := Piece.next_comment hb r p
  refine ⟨span, [.comment ⟨body, span, []⟩], .single ?_, ?_, by simp [Node.Plain]⟩
  · have hp : p + bytes ("<!--" ++ (body ++ "-->")) = p + bytes body + 7 := by
      rw [bytes_append, bytes_append, show bytes "<!--" = 4 from rfl,
        show bytes "-->" = 3 from rfl]
      omega
    rw [hp]
    simpa using hn
  · intro last b
    simp [Build.step]

theorem view_written {name : Text} {attributes : List (Text × Text)}
    (ha : AttributesWritable attributes) (span : Span) {children : List Node} (hc : nodeViews children = trimBlanks (rawViews raw)) :
    (Element.mk ⟨name, toAttributes attributes, span⟩ children []).view =
      (RawElement.mk name attributes raw).view := by
  rw [Element.view, RawElement.view, ha.guard_eq, hc]
  simp only [Tag.loop, Tag.html, Tag.attribute?, attribute?_toAttributes, branchViews]
  rfl

theorem plain_written {name : Text} {attributes : List (Text × Text)}
    (ha : AttributesWritable attributes) (span : Span) (children : List Node) :
    (Node.element (.mk ⟨name, toAttributes attributes, span⟩ children [])).Plain := by
  rw [Node.Plain, Element.tag, ha.guard_eq, RawElement.guard]
  split <;> rfl

theorem next_written {name : Text} {attributes : List (Text × Text)} (hn : TagName name)
    (ha : AttributesWritable attributes) (r : Text) (p : Nat) :
    ∃ stop, stop = p + bytes ('<' :: (name ++ (writeAttributes attributes ++ ['>']))) ∧
      Piece.next ⟨'<' :: (name ++ (writeAttributes attributes ++ '>' :: r)), p⟩ =
        some (.opening name p ⟨toAttributes attributes, .opened, []⟩ stop, ⟨r, stop⟩) := by
  obtain ⟨hw, hd⟩ := ha.written
  have hnext := Piece.next_opening hn hw hd r p
  rw [writtenAttributes_toAttributes] at hnext
  refine ⟨_, ?_, hnext⟩
  simp only [bytes_cons, bytes_append, bytes_nil, show Char.utf8Size '<' = 1 from rfl,
    show Char.utf8Size '>' = 1 from rfl]
  omega

section Element

variable {name : Text} {attributes : List (Text × Text)} (hn : TagName name)
  (hs : sameLetters name "style" = false) (hc : sameLetters name "script" = false)
  (ha : AttributesWritable attributes)

include hn hs hc ha

theorem readsAs_void (hv : isVoid name = true) (r : Text) (p : Nat) :
    ∃ pieces e, ReadsAs (RawElement.mk name attributes []).write r p pieces [.element e] ∧
      e.view = (RawElement.mk name attributes []).view := by
  obtain ⟨stop, hstop, hnext⟩ := next_written hn ha r p
  have hw : (RawElement.mk name attributes []).write = '<' :: (name ++ (writeAttributes attributes ++ ['>'])) := by
    simp [RawElement.write, writeNodes, hv]
  have hwr : (RawElement.mk name attributes []).write ++ r =
      '<' :: (name ++ (writeAttributes attributes ++ '>' :: r)) := by
    simp [hw]
  have hrun := Run.single hnext
  rw [← hwr, hstop, ← hw] at hrun
  refine ⟨_, .mk ⟨name, toAttributes attributes,
    ⟨p, p + bytes (RawElement.mk name attributes []).write⟩⟩ [] [], ⟨hrun, ?_, ?_⟩,
    view_written ha _ rfl⟩
  · intro last b
    simp [Build.step, hv, Build.pushElement_written hs hc ha]
  · simp [plain_written ha]

omit hn in
theorem Build.step_closing_written (hb : (chainBranches nodes).2 = [])
    (b : Build) (last start : Nat) (span : Span) (stop : Nat) :
    Build.step true last { b with opened := ⟨name, toAttributes attributes, start, nodes.reverse⟩ :: b.opened }
        (.closing ⟨name, span, []⟩ stop) =
      b.push (.element (.mk ⟨name, toAttributes attributes, ⟨start, stop⟩⟩
        (chainBranches nodes).1 [])) := by
  have hm : ∀ e : OpenElement, e.name = name → Build.mismatch e ⟨name, span, []⟩ = [] := by
    rintro e rfl
    simp [Build.mismatch, sameLetters]
  rw [Build.step]
  dsimp only
  rw [hm _ rfl, Build.close, reverse_reverse]
  simp only [hb, append_nil, Build.report_nil]
  exact Build.pushElement_written hs hc ha _ _ _

theorem readsAs_enclosing (hv : isVoid name = false) (hch : ∀ r p, startsMarkup r = true → ∃ pieces nodes,
      ReadsAs (writeNodes raw) r p pieces nodes ∧ nodes.map Node.settledView = rawViews raw)
    (r : Text) (p : Nat) :
    ∃ pieces e, ReadsAs (RawElement.mk name attributes raw).write r p pieces [.element e] ∧
      e.view = (RawElement.mk name attributes raw).view := by
  obtain ⟨stop, hstop, hnext⟩ := next_written hn ha
    (writeNodes raw ++ '<' :: '/' :: (name ++ '>' :: r)) p
  obtain ⟨pieces, nodes, hr, hviews⟩ := hch ('<' :: '/' :: (name ++ '>' :: r)) stop
    (hn.startsMarkup_closing _)
  obtain ⟨span, hclose⟩ := Piece.next_closing hn r (stop + bytes (writeNodes raw))
  obtain ⟨hcv, hcf⟩ := chainBranches_plain hr.plain
  rw [hviews] at hcv
  have hw : (RawElement.mk name attributes raw).write ++ r = '<' :: (name ++
      (writeAttributes attributes ++ '>' :: (writeNodes raw ++ '<' :: '/' :: (name ++ '>' :: r)))) := by
    simp [RawElement.write, hv]
  have hp : p + bytes (RawElement.mk name attributes raw).write = stop + bytes (writeNodes raw) + bytes name + 3 := by
    simp only [hstop, RawElement.write, hv, bytes_cons, bytes_append, bytes_nil,
      show Char.utf8Size '<' = 1 from rfl, show Char.utf8Size '>' = 1 from rfl,
      show Char.utf8Size '/' = 1 from rfl, Bool.false_eq_true, if_false]
    omega
  have hrun := Run.more hnext (hr.run.trans (.single hclose))
  rw [← hw, ← hp] at hrun
  refine ⟨_, .mk ⟨name, toAttributes attributes,
    ⟨p, p + bytes (RawElement.mk name attributes raw).write⟩⟩ (chainBranches nodes).1 [],
    ⟨hrun, ?_, ?_⟩, view_written ha _ hcv⟩
  · intro last b
    rw [foldl_cons, foldl_append, hr.effect]
    have hopen : Build.step true last b
        (.opening name p ⟨toAttributes attributes, .opened, []⟩ stop) =
        { b with opened := ⟨name, toAttributes attributes, p, []⟩ :: b.opened } := by
      simp [Build.step, hv]
    rw [hopen, Build.foldl_push_opened nodes _ _ _ rfl, append_nil]
    exact Build.step_closing_written hs hc ha hcf b last p span _
  · simp [plain_written ha]

end Element

theorem startsMarkup_writeNodes {ns : List RawNode} (h : NodesWritable ns)
    (hf : ∀ n ∈ ns.head?, n.isText = false) (hr : startsMarkup r = true) :
    startsMarkup (writeNodes ns ++ r) = true := by
  cases ns with
  | nil => exact hr
  | cons n ns =>
    cases n with
    | element e =>
      cases e with
      | mk name attributes children =>
        have hn : TagName name := h.1.1
        simpa [writeNodes, RawElement.write] using hn.startsMarkup_opening _
    | text t => exact absurd (hf (.text t) rfl) (by simp [RawNode.isText])
    | comment body => rfl

mutual

theorem readsAs_element : ∀ (t : RawElement), t.Writable → ∀ (r : Text) (p : Nat),
    ∃ pieces e, ReadsAs t.write r p pieces [.element e] ∧ e.view = t.view
  | .mk name attributes raw, h, r, p => by
    obtain ⟨hn, hs, hc, ha, hvoid, hns⟩ := h
    cases hv : isVoid name with
    | true =>
      obtain rfl := hvoid hv
      exact readsAs_void hn hs hc ha hv r p
    | false => exact readsAs_enclosing hn hs hc ha hv (readsAs_nodes raw hns) r p

theorem readsAs_nodes : ∀ (ns : List RawNode), NodesWritable ns → ∀ (r : Text) (p : Nat),
    startsMarkup r = true → ∃ pieces nodes,
      ReadsAs (writeNodes ns) r p pieces nodes ∧ nodes.map Node.settledView = rawViews ns
  | [], _, r, p, _ => ⟨[], [], .nil r p, rfl⟩
  | .element t :: ns, h, r, p, hr => by
    obtain ⟨ht, hns⟩ := h
    obtain ⟨ps, e, he, hv⟩ := readsAs_element t ht (writeNodes ns ++ r) p
    obtain ⟨ps', nodes, hn, hvs⟩ := readsAs_nodes ns hns r (p + bytes t.write) hr
    refine ⟨ps ++ ps', .element e :: nodes, he.append hn, ?_⟩
    rw [map_cons, hvs, Node.settledView, hv, rawViews]
  | .text t :: ns, h, r, p, hr => by
    obtain ⟨⟨hne, hf, hnext⟩, hns⟩ := h
    have ht := readsAs_text hne hf (startsMarkup_writeNodes hns hnext hr) p
    obtain ⟨ps, nodes, hn, hvs⟩ := readsAs_nodes ns hns r (p + bytes t) hr
    refine ⟨_, _, ht.append hn, ?_⟩
    rw [map_append, hvs]
    rfl
  | .comment body :: ns, h, r, p, hr => by
    obtain ⟨hb, hns⟩ := h
    obtain ⟨span, ps, hc⟩ := readsAs_comment hb (writeNodes ns ++ r) p
    obtain ⟨ps', nodes, hn, hvs⟩ := readsAs_nodes ns hns r
      (p + bytes ("<!--" ++ (body ++ "-->"))) hr
    have hw : writeNodes (.comment body :: ns) =
        "<!--" ++ (body ++ "-->") ++ writeNodes ns := by
      simp [writeNodes]
    refine ⟨_, _, hw ▸ hc.append hn, ?_⟩
    rw [map_append, hvs]
    rfl

end

theorem chainBranches_singleton {e : Element} (h : (Node.element e).Plain) :
    chainBranches [.element e] = ([.element e], []) := by
  rw [chainBranches, addSiblings_plain_nil (by simpa using h)]
  rfl

/-- Reading a written tree gives the tree back, and no fault. -/
theorem parse_written {t : RawElement} (h : t.Writable) :
    ∃ root, parse t.write true = (some root, []) ∧ root.view = t.view := by
  obtain ⟨pieces, e, hr, hv⟩ := readsAs_element t h [] 0
  have hrun : Run Piece.next (.start t.write) pieces ⟨[], 0 + bytes t.write⟩ := by
    simpa [Cursor.start] using hr.run
  have hall := Piece.all_of_run hrun rfl
  have hb : Build.ofSource t.write true = ⟨[], [.element e], []⟩ := by
    rw [Build.ofSource, hall]
    rw [hr.effect]
    rfl
  refine ⟨e, ?_, hv⟩
  rw [parse_eq, hb]
  dsimp only
  rw [reverse_singleton, chainBranches_singleton (hr.plain _ (by simp))]
  rfl

/-- A loop in a list, tags in a value and in a comment, `<` in a text, and white space. -/
theorem parse_written_list : ∃ root,
    parse ("<ul> <li v-for=\"x in xs\" title=\"</ul>\">a < {{ x }}</li> <!-- <p> --><br> </ul>")
        true = (some root, []) ∧
      root.view = .element "ul" [] none .unguarded none
        [.element "li" [⟨"v-for", "x in xs"⟩, ⟨"title", "</ul>"⟩]
            (some ⟨"xs", "x", []⟩) .unguarded none
            [.dynamic [.literal "a < ", .binding "x"]] [],
          .static " ", .comment " <p> ",
          .element "br" [] none .unguarded none [] []] [] := by
  have hli : RawElement.Writable (.mk "li"
      [("v-for", "x in xs"), ("title", "</ul>")]
      [.text "a < {{ x }}"]) :=
    ⟨⟨rfl, by simp⟩, rfl, rfl, ⟨by decide, by decide⟩, by decide,
      ⟨by decide, (beforeMarkup_eq_self_iff _).mp rfl, by decide⟩, trivial⟩
  have hbr : RawElement.Writable (.mk "br" [] []) :=
    ⟨⟨rfl, by simp⟩, rfl, rfl, ⟨by decide, by decide⟩, fun _ => rfl, trivial⟩
  have hblank : MarkupFree " " := (beforeMarkup_eq_self_iff _).mp rfl
  exact parse_written (t := .mk "ul" [] [.text " ", .element (.mk "li"
      [("v-for", "x in xs"), ("title", "</ul>")]
      [.text "a < {{ x }}"]), .text " ", .comment " <p> ",
      .element (.mk "br" [] []), .text " "])
    ⟨⟨rfl, by simp⟩, rfl, rfl, ⟨by decide, by decide⟩, by decide, ⟨by decide, hblank, by simp [RawNode.isText]⟩, hli,
      ⟨by decide, hblank, by simp [RawNode.isText]⟩, by decide, hbr,
      ⟨by decide, hblank, by simp⟩, trivial⟩

end ComponentConverter.Template
