import ComponentConverter.Proofs.Locations
import ComponentConverter.Proofs.ScriptNotes

namespace ComponentConverter

open List Markup

variable {c : Component} {notes : List Diagnostic} {b : Block}

/-- What a block says: its content, and the values of its attributes by name. -/
def Block.material (b : Block) : Text × (String → Option Text) := (b.content, attribute? b.attributes)

/-- The blocks of a component that count. -/
inductive Part where
  | script
  | template
  | style (index : Nat)
  deriving Repr, DecidableEq

variable {part : Part}

def Component.block? (c : Component) : Part → Option Block
  | .script => c.script
  | .template => c.template
  | .style index => c.styles[index]?

/-- Components that differ only in the places of their blocks. -/
structure Component.Alike (c c' : Component) : Prop where
  script : c.script.map Block.material = c'.script.map Block.material
  template : c.template.map Block.material = c'.template.map Block.material
  styles : c.styles.map Block.material = c'.styles.map Block.material

/-- A diagnostic that counts from the start of a content, told of a block. The language of a style
is told of the block as a whole. -/
def Diagnostic.within (d : Diagnostic) (b : Block) : Diagnostic :=
  if d.code = .unsupportedStyleLang then { d with span := some b.span }
  else d.move b.contentSpan.start

def Failure.move (base : Nat) : Failure → Failure
  | .component faults => .component (faults.map fun f => { f with span := f.span.move base })
  | .template faults => .template (faults.map fun f => { f with span := f.span.move base })
  | .script issue => .script { issue with span := issue.span.move base }
  | .multipleDefaultExports span => .multipleDefaultExports (span.move base)

theorem Failure.message_move (f : Failure) (base : Nat) : (f.move base).message = f.message := by
  cases f with
  | template faults =>
    exact congrArg (fun n : Nat => s!"{n} error(s) while parsing template") (length_map _)
  | component faults | script issue | multipleDefaultExports span => rfl

namespace Part

def Tells : Part → Diagnostic.Code → Prop
  | .script, code => code.ofScript = true
  | .template, code => code = .htmlChildrenIgnored
  | .style _, code => code = .unsupportedStyleLang ∨ code = .unparsedStyle

def Fails : Part → Failure → Prop
  | .script, .script _ | .script, .multipleDefaultExports _ | .template, .template _ => True
  | _, _ => False

/-- Two blocks at other places fail for one reason, or become one value with the same notes. -/
def Agrees {α : Type} (part : Part) (b b' : Block) (x x' : Except Failure (Noted α)) : Prop :=
  (∃ failure, part.Fails failure ∧ x = .error (failure.move b.contentSpan.start) ∧
      x' = .error (failure.move b'.contentSpan.start)) ∨
    ∃ (value : α) (notes : List Diagnostic), (∀ d ∈ notes, part.Tells d.code) ∧ x = .ok ⟨value, notes.map (·.within b)⟩ ∧
      x' = .ok ⟨value, notes.map (·.within b')⟩

end Part

/-- A diagnostic about a part, which counts from the start of its content. -/
structure Report where
  part : Part
  note : Diagnostic

def Component.tell (c : Component) (r : Report) : Diagnostic := (c.block? r.part).elim r.note r.note.within

/-- The part is there, and it is one of which such things are told. -/
def Report.Fits (c : Component) (r : Report) : Prop := (c.block? r.part).isSome = true ∧ r.part.Tells r.note.code

/-- Two conversions differ by the places of blocks alone: both fail, for the same reason in the same
part, or both have the same value and the same reports. -/
def Displaced {α : Type} (c c' : Component) (x x' : Except Failure (Noted α)) : Prop :=
  (∃ part failure b b', c.block? part = some b ∧ c'.block? part = some b' ∧ part.Fails failure ∧
      x = .error (failure.move b.contentSpan.start) ∧ x' = .error (failure.move b'.contentSpan.start) ∧
      (failure.move b.contentSpan.start).message = (failure.move b'.contentSpan.start).message) ∨
    ∃ (value : α) (reports : List Report), (∀ r ∈ reports, r.Fits c) ∧
      x = .ok ⟨value, reports.map c.tell⟩ ∧ x' = .ok ⟨value, reports.map c'.tell⟩

theorem Component.map_tell (h : c.block? part = some b)
    (notes : List Diagnostic) : (notes.map (Report.mk part)).map c.tell = notes.map (·.within b) := by
  rw [map_map]
  apply map_congr_left
  intro d hd
  rw [Function.comp_apply, tell, h, Option.elim_some]

theorem Report.fits_of_tells (h : c.block? part = some b) (hn : ∀ d ∈ notes, part.Tells d.code) :
    ∀ r ∈ notes.map (Report.mk part), r.Fits c := by
  intro r hr
  obtain ⟨d, hd, rfl⟩ := mem_map.mp hr
  exact ⟨by rw [h]; rfl, hn d hd⟩

theorem Diagnostic.map_within (h : ∀ d ∈ notes, d.code ≠ .unsupportedStyleLang) :
    notes.map (·.within b) = notes.map (·.move b.contentSpan.start) := by
  apply map_congr_left
  intro d hd
  rw [within, if_neg (h d hd)]

namespace Block

variable {b b' : Block}

theorem content_eq (h : b.material = b'.material) : b.content = b'.content := congrArg Prod.fst h

theorem attribute?_eq (h : b.material = b'.material) (name : String) :
    attribute? b.attributes name = attribute? b'.attributes name :=
  congrFun (congrArg Prod.snd h) name

theorem lang_eq (h : b.material = b'.material) : b.lang = b'.lang := by
  rw [lang, lang, attribute?_eq h]

theorem isScoped_eq (h : b.material = b'.material) : b.isScoped = b'.isScoped := by
  rw [isScoped, isScoped, attribute?_eq h]

end Block

open Block (content_eq lang_eq material)

namespace Conversion

open Script

variable {text : Text} {tree : Module} {b b' : Block}

theorem holds_optionsOf? {n : Node} {members : List Node} (hn : tree.Holds n) (h : optionsOf? n = some members) :
    ∀ m ∈ members, tree.Holds m := by
  fun_induction optionsOf? n with
  | case1 span members' =>
    cases h
    exact fun m hm => hn.child hm
  | case2 _ _ ih | case3 _ _ _ _ ih => exact ih (hn.child mem_cons_self) h
  | case6 _ _ _ _ _ ih => exact ih (hn.child (mem_cons_of_mem _ mem_cons_self)) h
  | case8 _ _ _ _ _ _ ih => exact ih (hn.child (mem_cons_of_mem _ (mem_cons_of_mem _ mem_cons_self))) h
  | _ => cases h

theorem told_instanceScript (typed : Bool) {item : Node} (hi : item ∈ tree.items) :
    Told text tree fun base => instanceScript ⟨text, base⟩ typed item := by
  simp only [instanceScript]
  split
  next members ho =>
    have hmembers : ∀ m ∈ members, tree.Holds m := by
      unfold exportedOptions? at ho
      split at ho
      · exact holds_optionsOf? ⟨_, hi, .inr (.child mem_cons_self)⟩ ho
      · cases ho
    exact (Options.told_collect hmembers).bind fun _ => .pure fun _ => rfl
  · exact Options.told_warn_pure (.nothing (by decide)) (.words (by decide)) (fun _ => rfl) _ none

theorem agrees_of_told {α : Type} {x : Nat → Noted α} (hx : Told text tree x) (b b' : Block) :
    Part.script.Agrees b b' (.ok (x b.contentSpan.start)) (.ok (x b'.contentSpan.start)) := by
  have hscript : ∀ d ∈ (x 0).notes, d.code.ofScript = true := by
    intro d hd
    obtain ⟨quoted, hq, -⟩ := hx.quotes d hd
    exact hq.ofScript
  have hcodes : ∀ d ∈ (x 0).notes, d.code ≠ .unsupportedStyleLang := by
    intro d hd hcode
    have hd := hscript d hd
    rw [hcode] at hd
    cases hd
  have hplace : ∀ base, x base = ⟨(x 0).value, (x 0).notes.map (·.move base)⟩ := by
    intro base
    rw [← hx.value base, ← hx.notes base]
  refine .inr ⟨(x 0).value, (x 0).notes, hscript, ?_, ?_⟩
  · rw [Diagnostic.map_within hcodes, ← hplace]
  · rw [Diagnostic.map_within hcodes, ← hplace]

theorem mapError_ok {ε ε' α : Type} (f : ε → ε') (a : α) : (Except.ok a : Except ε α).mapError f = .ok a := rfl

/-- The scripts of all blocks with one content fail for one reason, or are told of that content. -/
theorem scripts_told (b : Block) : (∃ failure, Part.script.Fails failure ∧ ∀ b' : Block, b.material = b'.material →
      scripts b' = .error (failure.move b'.contentSpan.start)) ∨
    ∃ tree x, Script.parse (afterMark b.content) (isTyped b.lang) = .ok tree ∧ Told b.content tree x ∧
      ∀ b' : Block, b.material = b'.material → scripts b' = .ok (x b'.contentSpan.start) := by
  cases hparse : Script.parse (afterMark b.content) (isTyped b.lang) with
  | error issue =>
    refine .inl ⟨.script issue, trivial, fun b' h => ?_⟩
    simp only [scripts, ← content_eq h, ← lang_eq h, hparse]
    rfl
  | ok tree =>
    have htold : ∀ {text : Nat → Noted (Option Text)} (module : Option Text), Told b.content tree text →
        Told b.content tree fun base => (do
          for issue in tree.issues do
            (Source.mk b.content base).warn .recoveredScriptError
              ("syntax error in script: " ++ issue.message.toList) issue.span
          return Scripts.mk module (← text base) : Noted Scripts) := by
      intro text module ht
      apply Told.bind
      · apply Told.forIn
        intro issue hi
        exact Source.told_warn (.issue hi) ((Phrase.words (by decide)).append (.quote _)) (fun _ => rfl) issue.span
      · intro u
        exact ht.bind fun _ => .pure fun _ => rfl
    cases hsecond : (tree.items.filter isDefaultExport)[1]? with
    | some second =>
      refine .inl ⟨.multipleDefaultExports second.span, trivial, fun b' h => ?_⟩
      simp only [scripts, ← content_eq h, ← lang_eq h, hparse, mapError_ok, bind, Except.bind, hsecond]
      rfl
    | none =>
      -- The script of the module takes no notice of the place.
      generalize hmodule : (fun exported => if tree.items.length -
        (tree.items.filter isDefaultExport).length = 0 then none
          else some (moduleScript ⟨b.content, 0⟩ (isTyped b.lang) exported)) = module
      right
      cases hfirst : (tree.items.filter isDefaultExport).head? with
      | none =>
        refine ⟨tree, _, rfl, htold (module none) (.pure (a := fun _ => none) fun _ => rfl), fun b' h => ?_⟩
        simp only [scripts, ← content_eq h, ← lang_eq h, hparse, mapError_ok, bind, Except.bind, hsecond, hfirst]
        subst hmodule
        exact rfl
      | some item =>
        have hitem := (mem_filter.mp (mem_of_mem_head? hfirst)).1
        refine ⟨tree, _, rfl, htold (module (some item)) (told_instanceScript (isTyped b.lang) hitem), fun b' h => ?_⟩
        simp only [scripts, ← content_eq h, ← lang_eq h, hparse, mapError_ok, bind, Except.bind, hsecond, hfirst]
        subst hmodule
        exact rfl

theorem scripts_alike (h : b.material = b'.material) : Part.script.Agrees b b' (scripts b) (scripts b') := by
  rcases scripts_told b with ⟨failure, hf, hx⟩ | ⟨_, x, -, ht, hx⟩
  · exact .inl ⟨failure, hf, hx b rfl, hx b' h⟩
  · rw [hx b rfl, hx b' h]
    exact agrees_of_told ht b b'

theorem template_alike (h : b.material = b'.material) (p : Svelte.Preferences) :
    Part.template.Agrees b b' (template p b) (template p b') := by
  simp only [template, ← content_eq h]
  split
  next root heq =>
    have hcodes : ∀ d ∈ root.elim [] (overruledWarnings 0), d.code = .htmlChildrenIgnored := by
      intro d hd
      cases root with
      | none => cases hd
      | some root =>
        obtain ⟨tag, -, rfl⟩ := mem_map.mp hd
        rfl
    have hmove : ∀ b : Block, root.elim [] (overruledWarnings b.contentSpan.start) =
        (root.elim [] (overruledWarnings 0)).map (·.within b) := by
      intro b
      cases root with
      | none => rfl
      | some root =>
        simp only [Option.elim_some, overruledWarnings, map_map]
        rfl
    refine Or.inr ⟨root.map (Svelte.markup p), root.elim [] (overruledWarnings 0), hcodes, ?_, ?_⟩
    · rw [hmove]
    · rw [hmove]
  next root faults hne heq => exact Or.inl ⟨.template faults, trivial, rfl, rfl⟩

def Sized (b : Block) : Prop := b.contentSpan = ⟨b.contentSpan.start, b.contentSpan.start + bytes b.content⟩

theorem style_alike (h : b.material = b'.material) (hb : Sized b) (hb' : Sized b') (index : Nat) :
    ∃ (value : Text) (notes : List Diagnostic), (∀ d ∈ notes, (Part.style index).Tells d.code) ∧
      style b = ⟨value, notes.map (·.within b)⟩ ∧ style b' = ⟨value, notes.map (·.within b')⟩ := by
  have hc := content_eq h
  have hs := Block.isScoped_eq h
  simp only [style, ← lang_eq h, ← hc, ← hs]
  cases b.lang.filter (· != "css".toList) with
  | some lang =>
    refine ⟨_, [.warning .unsupportedStyleLang ("<style lang=\"".toList ++ lang ++
      "\"> is copied as is, selectors are not made global".toList) none], ?_, rfl, rfl⟩
    intro d hd
    obtain rfl := mem_singleton.mp hd
    exact .inl rfl
  | none =>
    cases Stylesheet.format (if b.isScoped = true then Style.deepen b.content else b.content) with
    | ok css => exact ⟨_, [], by simp, rfl, rfl⟩
    | error fault =>
      have hspan : ∀ c : Block, Sized c → c.content = b.content →
          some c.contentSpan = (some (Span.mk 0 (bytes b.content))).map (·.move c.contentSpan.start) := by
        intro c hsize hcontent
        rw [Sized, hcontent] at hsize
        rw [hsize]
        simp [Span.move, Nat.add_comm]
      rw [hspan b hb rfl, hspan b' hb' hc.symm]
      refine ⟨_, [.warning .unparsedStyle ("unable to parse <style> block, copied as is: ".toList ++
        fault.message.toList) (some ⟨0, bytes b.content⟩)], ?_, rfl, rfl⟩
      intro d hd
      obtain rfl := mem_singleton.mp hd
      exact .inr rfl

theorem onBlock_displaced {α : Type} {c c' : Component} {part : Part} {missing : α}
    {f : Block → Except Failure (Noted α)}
    (h : (c.block? part).map material = (c'.block? part).map material)
    (hf : ∀ b b' : Block, b.material = b'.material → part.Agrees b b' (f b) (f b')) :
    Displaced c c' (onBlock missing f (c.block? part)) (onBlock missing f (c'.block? part)) := by
  cases hb : c.block? part with
  | none =>
    rw [hb, Option.map_none, eq_comm, Option.map_eq_none_iff] at h
    rw [h]
    exact Or.inr ⟨missing, [], by simp, rfl, rfl⟩
  | some b =>
    rw [hb, Option.map_some, eq_comm, Option.map_eq_some_iff] at h
    obtain ⟨b', hb', hm⟩ := h
    rw [hb']
    rcases hf b b' hm.symm with ⟨failure, hfails, hx, hx'⟩ | ⟨value, notes, hn, hx, hx'⟩
    · refine Or.inl ⟨part, failure, b, b', hb, hb', hfails, hx, hx', ?_⟩
      rw [Failure.message_move, Failure.message_move]
    · refine Or.inr ⟨value, notes.map (Report.mk part), Report.fits_of_tells hb hn, ?_, ?_⟩
      · rw [c.map_tell hb]
        exact hx
      · rw [c'.map_tell hb']
        exact hx'

theorem styles_displaced {c c' : Component} {before before' styles styles' : List Block}
    (hc : c.styles = before ++ styles) (hc' : c'.styles = before' ++ styles')
    (hlength : before.length = before'.length) (h : styles.map material = styles'.map material)
    (hsized : ∀ b ∈ styles, Sized b) (hsized' : ∀ b ∈ styles', Sized b) :
    ∃ (texts : List Text) (reports : List Report), (∀ r ∈ reports, r.Fits c) ∧
      Noted.traverse style styles = ⟨texts, reports.map c.tell⟩ ∧
      Noted.traverse style styles' = ⟨texts, reports.map c'.tell⟩ := by
  induction styles generalizing before before' styles' with
  | nil =>
    obtain rfl : styles' = [] := map_eq_nil_iff.mp h.symm
    exact ⟨[], [], by simp, rfl, rfl⟩
  | cons b styles ih =>
    rw [map_cons, eq_comm, map_eq_cons_iff] at h
    obtain ⟨b', styles', rfl, hm, hrest⟩ := h
    obtain ⟨hb, hsized⟩ := forall_mem_cons.mp hsized
    obtain ⟨hb', hsized'⟩ := forall_mem_cons.mp hsized'
    obtain ⟨text, notes, hn, hx, hx'⟩ := style_alike hm.symm hb hb' before.length
    obtain ⟨texts, reports, hr, hxs, hxs'⟩ := @ih (before ++ [b]) (before' ++ [b']) styles'
      (by simpa using hc) (by simpa using hc') (by simpa using hlength) hrest.symm hsized hsized'
    have hplace : c.block? (.style before.length) = some b := by simp [Component.block?, hc]
    have hplace' : c'.block? (.style before.length) = some b' := by
      simp [Component.block?, hc', hlength]
    refine ⟨text :: texts, notes.map (Report.mk (.style before.length)) ++ reports, ?_, ?_, ?_⟩
    · exact forall_mem_append.mpr ⟨Report.fits_of_tells hplace hn, hr⟩
    · rw [map_append, c.map_tell hplace, Noted.traverse, hx, hxs]
      simp [bind, Noted.bind, pure]
    · rw [map_append, c'.map_tell hplace', Noted.traverse, hx', hxs']
      simp [bind, Noted.bind, pure]

theorem sized_of_parse {source : Text} (h : Component.parse source = (c, [])) : ∀ b ∈ c.styles, Sized b := by
  intro b hb
  obtain ⟨hblocks, -⟩ := Component.parse_in source
  rw [h] at hblocks
  obtain ⟨u, w, -, hspan⟩ := (hblocks b (mem_append_right _ hb)).content
  rw [Sized, hspan]

/-- Of two sources with the same blocks both conversions fail, for the same reason, or both give the
same text with the same reports. Spans are moved by the place of their part alone. -/
theorem convert_displaced {source source' : Text} {c c' : Component}
    (hparse : Component.parse source = (c, [])) (hparse' : Component.parse source' = (c', []))
    (h : c.Alike c') (p : Svelte.Preferences) :
    Displaced c c' (convert p source) (convert p source') := by
  have hscript : Displaced c c' (onBlock ⟨none, none⟩ scripts c.script)
      (onBlock ⟨none, none⟩ scripts c'.script) :=
    @onBlock_displaced _ c c' .script _ _ h.script (fun _ _ hm => scripts_alike hm)
  have htemplate : Displaced c c' (onBlock none (template p) c.template)
      (onBlock none (template p) c'.template) :=
    @onBlock_displaced _ c c' .template _ _ h.template (fun _ _ hm => template_alike hm p)
  obtain ⟨texts, styles, hstyles, hxs, hxs'⟩ := @styles_displaced c c' [] [] _ _ rfl rfl rfl
    h.styles (sized_of_parse hparse) (sized_of_parse hparse')
  rw [convert, convert, hparse, hparse']
  dsimp only
  rcases hscript with ⟨part, failure, b, b', hb, hb', hfails, hx, hx', hm⟩ |
    ⟨scripts, told, htold, hx, hx'⟩
  · rw [hx, hx']
    exact Or.inl ⟨part, failure, b, b', hb, hb', hfails, rfl, rfl, hm⟩
  rw [hx, hx']
  rcases htemplate with ⟨part, failure, b, b', hb, hb', hfails, ht, ht', hm⟩ |
    ⟨markup, overruled, hoverruled, ht, ht'⟩
  · rw [ht, ht']
    exact Or.inl ⟨part, failure, b, b', hb, hb', hfails, rfl, rfl, hm⟩
  rw [ht, ht', hxs, hxs']
  refine Or.inr ⟨(Svelte.Document.mk scripts.module scripts.instanceScript texts markup).text,
    told ++ (styles ++ overruled), ?_, ?_, ?_⟩
  · exact forall_mem_append.mpr ⟨htold, forall_mem_append.mpr ⟨hstyles, hoverruled⟩⟩
  · simp [bind, Except.bind, Noted.bind, pure, Except.pure]
  · simp [bind, Except.bind, Noted.bind, pure, Except.pure]

/-- The blocks of a component in another order, with a longer tag. -/
theorem convert_displaced_swapped :
    let source := "<template><p v-html='x'>y</p></template><style lang='scss'></style>".toList
    let source' := "<style  lang='scss'></style>\n<template><p v-html='x'>y</p></template>".toList
    let markup := "<p v-html='x'>y</p>".toList
    let language : List Attribute := [⟨"lang".toList, "scss".toList⟩]
    let c : Component := ⟨some ⟨markup, ⟨10, 29⟩, [], ⟨0, 40⟩⟩, none, [⟨[], ⟨59, 59⟩, language, ⟨40, 67⟩⟩]⟩
    let c' : Component := ⟨some ⟨markup, ⟨39, 58⟩, [], ⟨29, 69⟩⟩, none, [⟨[], ⟨20, 20⟩, language, ⟨0, 28⟩⟩]⟩
    Component.parse source = (c, []) ∧ Component.parse source' = (c', []) ∧ c.Alike c' ∧
      Displaced c c' (convert .standard source) (convert .standard source') := by
  intro source source' markup language c c'
  have hparse : Component.parse source = (c, []) := by decide +kernel
  have hparse' : Component.parse source' = (c', []) := by decide +kernel
  have h : c.Alike c' := ⟨rfl, rfl, rfl⟩
  exact ⟨hparse, hparse', h, convert_displaced hparse hparse' h .standard⟩

end Conversion

end ComponentConverter
