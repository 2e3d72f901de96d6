import ComponentConverter.CommandLine.Report
import ComponentConverter.Proofs.Displacement
import ComponentConverter.Proofs.KeptComments
import ComponentConverter.Proofs.MemberAccounts
import ComponentConverter.Proofs.Outdenting
import Mathlib.Algebra.GroupWithZero.Nat

namespace ComponentConverter

open List

variable {message : Text} {quoted : List Text} {c : Component}

theorem Phrase.lineFeed_mem_iff (h : Phrase message quoted) : '\n' ∈ message ↔ ∃ q ∈ quoted, '\n' ∈ q := by
  induction h with
  | words h => simpa using h
  | quote q => simp
  | append h h' ih ih' => simp only [mem_append, ih, ih', or_and_right, exists_or]

theorem Phrase.count_lineFeed (h : Phrase message quoted) : message.count '\n' = (quoted.map (·.count '\n')).sum := by
  induction h with
  | words h => simpa using count_eq_zero.mpr h
  | quote q => simp
  | append h h' ih ih' => rw [count_append, ih, ih', map_append, sum_append]

section Lines

open Script

theorem length_splitLines (t : Text) : (splitLines t).length = t.count '\n' + 1 := by
  induction t with
  | nil => rfl
  | cons c t ih =>
    obtain ⟨l, ls, ht⟩ := exists_cons_of_ne_nil (splitLines_ne_nil t)
    rw [splitLines_cons ht, count_cons]
    split
    next hc => simp_all
    next hc => simp_all

theorem linesOf_flatMap (ls : List Text) :
    linesOf (ls.flatMap (· ++ ['\n'])) = ls.flatMap fun l => (splitLines l).map dropReturn := by
  have hsplit : splitLines (ls.flatMap (· ++ ['\n'])) = ls.flatMap splitLines ++ [[]] := by
    induction ls with
    | nil => rfl
    | cons l ls ih =>
      obtain ⟨k, ks, hk⟩ := exists_cons_of_ne_nil (splitLines_ne_nil (ls.flatMap (· ++ ['\n'])))
      rw [flatMap_cons, append_assoc, singleton_append, splitLines_append l hk, ← hk, ih, flatMap_cons, append_assoc]
  rw [linesOf, hsplit, getLast?_concat, dropLast_concat, map_flatMap]

end Lines

namespace CommandLine

variable {path : Text}

/-- The entry of a diagnostic without the line feed that ends it. -/
def machineLine (path source : Text) (d : Diagnostic) : Text := (machineEntry path source d).dropLast

theorem lineFeed_not_mem_placeText (p : Position) : '\n' ∉ placeText p := by
  have hdigits : ∀ n : Nat, '\n' ∉ Nat.toDigits 10 n := by
    intro n h
    cases Nat.isDigit_of_mem_toDigits (by decide) (by decide) h
  simp +decide [placeText, Position.toString, hdigits]

/-- A line quotes the message of its diagnostic, and it is told apart from the next by the line feed alone. -/
theorem machineLine_spec (hp : '\n' ∉ path) (source : Text) (d : Diagnostic) :
    Phrase (machineLine path source d) [d.message] ∧
      machineEntry path source d = machineLine path source d ++ ['\n'] ∧
      dropReturn (machineLine path source d) = machineLine path source d := by
  have hseverity : '\n' ∉ (severityWord d.severity).toUpper.toList := by
    cases d.severity <;> decide +kernel
  have hcode : '\n' ∉ d.code.name.toList := by
    cases d.code <;> decide +kernel
  obtain ⟨place, hplace, hentry⟩ : ∃ place, '\n' ∉ place ∧ machineEntry path source d =
      (severityWord d.severity).toUpper.toList ++ [' '] ++ path ++ place ++ [' '] ++ d.message ++
        " (" ++ d.code.name.toList ++ ")\n" := by
    obtain ⟨code, severity, message, _ | span⟩ := d
    · exact ⟨[], not_mem_nil, rfl⟩
    · refine ⟨[':'] ++ placeText (.ofOffset source span.start) ++ [':'] ++ placeText (.ofOffset source span.stop),
        ?_, rfl⟩
      simp [lineFeed_not_mem_placeText]
  have hline : machineLine path source d = (severityWord d.severity).toUpper.toList ++ [' '] ++ path ++ place ++
      [' '] ++ d.message ++ (" (" ++ d.code.name.toList) ++ [')'] := by
    rw [machineLine, hentry, dropLast_append_of_ne_nil (by decide), append_assoc _ " (".toList]
    rfl
  refine ⟨?_, ?_, ?_⟩
  · rw [hline]
    refine (Phrase.around ?_ ?_).append (.words (by decide))
    · simp [hseverity, hp, hplace]
    · simp +decide [hcode]
  · rw [hline, hentry]
    simp
  · rw [hline, dropReturn, getLast?_concat, if_neg (by decide)]

theorem report_eq (hp : '\n' ∉ path) (source : Text) (ds : List Diagnostic) :
    report .machine path source ds = (ds.map (machineLine path source)).flatMap (· ++ ['\n']) := by
  rw [flatMap_map]
  exact congrArg ds.flatMap (funext fun d => (machineLine_spec hp source d).2.1)

theorem map_splitLines_machineLine (hp : '\n' ∉ path) (source : Text) {d : Diagnostic} (h : '\n' ∉ d.message) :
    (splitLines (machineLine path source d)).map dropReturn = [machineLine path source d] := by
  obtain ⟨hphrase, -, hreturn⟩ := machineLine_spec hp source d
  have hline : '\n' ∉ machineLine path source d := by
    rw [hphrase.lineFeed_mem_iff]
    simpa using h
  have hsplit := Script.splitLines_of_not_mem hline (y := []) rfl
  rw [append_nil] at hsplit
  rw [hsplit, map_singleton, hreturn]

theorem length_linesOf_report (hp : '\n' ∉ path) (source : Text) (ds : List Diagnostic) :
    (linesOf (report .machine path source ds)).length = (ds.map fun d => d.message.count '\n' + 1).sum := by
  rw [report_eq hp, linesOf_flatMap, flatMap_map, length_flatMap]
  refine congrArg sum (map_congr_left fun d _ => ?_)
  have hcount := (machineLine_spec hp source d).1.count_lineFeed
  rw [length_map, length_splitLines, hcount, map_singleton, sum_singleton]

theorem sum_lineFeeds (ds : List Diagnostic) : ds.length ≤ (ds.map fun d => d.message.count '\n' + 1).sum ∧
      ((ds.map fun d => d.message.count '\n' + 1).sum = ds.length → ∀ d ∈ ds, '\n' ∉ d.message) := by
  induction ds with
  | nil => simp
  | cons d ds ih =>
    obtain ⟨hle, hnone⟩ := ih
    rw [map_cons, sum_cons, length_cons]
    refine ⟨by omega, fun h => forall_mem_cons.mpr ⟨?_, hnone (by omega)⟩⟩
    exact count_eq_zero.mp (by omega)

theorem linesOf_report (hp : '\n' ∉ path) (source : Text) (ds : List Diagnostic) :
    linesOf (report .machine path source ds) = ds.map (machineLine path source) ↔ ∀ d ∈ ds, '\n' ∉ d.message := by
  constructor
  · intro h
    have hlength := congrArg length h
    rw [length_linesOf_report hp, length_map] at hlength
    exact (sum_lineFeeds ds).2 hlength
  · intro h
    rw [report_eq hp, linesOf_flatMap, flatMap_map, map_eq_flatMap, flatMap_def, flatMap_def]
    exact congrArg flatten (map_congr_left fun d hd => map_splitLines_machineLine hp source (h d hd))

end CommandLine

namespace Conversion

variable {p : Svelte.Preferences} {source : Text}

/-- What a diagnostic of a conversion quotes: something of the script, the language of a style block, what is
wrong with one, or the name of a tag. -/
inductive Quotes (p : Svelte.Preferences) (c : Component) : Diagnostic.Code → List Text → Prop
  | script {b : Block} {tree : Script.Module} {code : Diagnostic.Code} {quoted : List Text} (hb : c.script = some b)
      (ht : Script.parse (afterMark b.content) (isTyped b.lang) = .ok tree)
      (h : Script.Quotes b.content tree code quoted) : Quotes p c code quoted
  | lang {b : Block} {lang : Text} (hb : b ∈ c.styles) (h : b.lang = some lang) :
      Quotes p c .unsupportedStyleLang [lang]
  | style {b : Block} {fault : Stylesheet.Fault} (hb : b ∈ c.styles)
      (h : Stylesheet.format (if b.isScoped then Style.deepen b.content else b.content) = .error fault) :
      Quotes p c .unparsedStyle [fault.message.toList]
  | tag {b : Block} {root : Template.Element} {tag : Template.Tag} (hb : c.template = some b)
      (hr : Template.parse b.content p.comments = (some root, [])) (ht : tag ∈ Svelte.overruled root) :
      Quotes p c .htmlChildrenIgnored [tag.name]

/-- Each of some diagnostics is a phrase that quotes what its code lets it quote. -/
def Quoting (p : Svelte.Preferences) (c : Component) (ds : List Diagnostic) : Prop :=
  ∀ d ∈ ds, ∃ quoted, Quotes p c d.code quoted ∧ Phrase d.message quoted

theorem quoting_scripts {s : Noted Scripts} (h : onBlock ⟨none, none⟩ scripts c.script = .ok s) :
    Quoting p c s.notes := by
  cases hb : c.script with
  | none =>
    rw [hb] at h
    cases h
    exact forall_mem_nil _
  | some b =>
    rw [hb] at h
    rcases scripts_told b with ⟨failure, -, hx⟩ | ⟨tree, x, ht, hx, hb'⟩
    · cases (hx b rfl).symm.trans h
    · obtain rfl := Except.ok.inj ((hb' b rfl).symm.trans h)
      rw [hx.notes]
      intro d hd
      obtain ⟨e, he, rfl⟩ := mem_map.mp hd
      obtain ⟨quoted, hq, hp⟩ := hx.quotes e he
      exact ⟨quoted, .script hb ht hq, hp⟩

theorem quoting_style {b : Block} (hb : b ∈ c.styles) : Quoting p c (style b).notes := by
  rw [style]
  split
  next lang hlang =>
    intro d hd
    obtain rfl := mem_singleton.mp hd
    exact ⟨_, .lang hb (Option.filter_eq_some_iff.mp hlang).1, .around (by decide) (by decide)⟩
  · dsimp only
    cases hformat : Stylesheet.format (if b.isScoped then Style.deepen b.content else b.content) with
    | ok css => exact forall_mem_nil _
    | error fault =>
      intro d hd
      obtain rfl := mem_singleton.mp hd
      exact ⟨_, .style hb hformat, (Phrase.words (by decide)).append (.quote _)⟩

theorem quoting_template {t : Noted (Option Text)}
    (h : onBlock none (template p) c.template = .ok t) : Quoting p c t.notes := by
  cases hb : c.template with
  | none =>
    rw [hb] at h
    cases h
    exact forall_mem_nil _
  | some b =>
    rw [hb, onBlock] at h
    rcases hparse : Template.parse b.content p.comments with ⟨_ | root, _ | ⟨fault, faults⟩⟩
    · obtain rfl := Except.ok.inj ((template_of_faultless hparse).symm.trans h)
      exact forall_mem_nil _
    · cases (template_of_faults hparse).symm.trans h
    · obtain rfl := Except.ok.inj ((template_of_faultless hparse).symm.trans h)
      intro d hd
      obtain ⟨tag, htag, rfl⟩ := mem_map.mp hd
      exact ⟨_, .tag hb hparse htag, .around (by decide) (by decide)⟩
    · cases (template_of_faults hparse).symm.trans h

theorem quoting_convert {r : Noted Text} (h : convert p source = .ok r) :
    Quoting p (Component.parse source).1 r.notes := by
  rcases hc : Component.parse source with ⟨c, _ | ⟨fault, faults⟩⟩
  · cases hs : onBlock ⟨none, none⟩ scripts c.script with
    | error failure => cases (convert_of_scripts_error hc hs).symm.trans h
    | ok s =>
      cases ht : onBlock none (template p) c.template with
      | error failure => cases (convert_of_template_error hc hs ht).symm.trans h
      | ok t =>
        obtain rfl := Except.ok.inj ((convert_of_ok hc hs ht).symm.trans h)
        have hstyles : Quoting p c (Noted.traverse style c.styles).notes := by
          rw [Noted.notes_traverse]
          intro d hd
          obtain ⟨b, hb, hd⟩ := mem_flatMap.mp hd
          exact quoting_style hb d hd
        exact forall_mem_append.mpr ⟨forall_mem_append.mpr ⟨quoting_scripts hs, hstyles⟩, quoting_template ht⟩
  · rw [convert, hc] at h
    cases h

end Conversion

namespace CommandLine

open Conversion

/-- A report for tools has one line for each diagnostic of an accepted component, and one more for each line feed
of a message. There is none but those of the texts that a message quotes. -/
theorem machine_lines_counted {p : Svelte.Preferences} {source path : Text} {r : Noted Text}
    (h : convert p source = .ok r) (hp : '\n' ∉ path) :
    (linesOf (report .machine path source r.notes)).length = (r.notes.map fun d => d.message.count '\n' + 1).sum ∧
      (linesOf (report .machine path source r.notes) = r.notes.map (machineLine path source) ↔
        ∀ d ∈ r.notes, '\n' ∉ d.message) ∧
      ∀ d ∈ r.notes, ∃ quoted, Quotes p (Component.parse source).1 d.code quoted ∧ Phrase d.message quoted ∧
        ('\n' ∈ d.message ↔ ∃ q ∈ quoted, '\n' ∈ q) := by
  refine ⟨length_linesOf_report hp source r.notes, linesOf_report hp source r.notes, fun d hd => ?_⟩
  obtain ⟨quoted, hq, hphrase⟩ := quoting_convert h d hd
  exact ⟨quoted, hq, hphrase, hphrase.lineFeed_mem_iff⟩

theorem machine_lines_counted_style :
    let source := "<style lang='scss'>a</style>".toList
    ∃ r, convert .standard source = .ok r ∧ linesOf (report .machine "a.vue".toList source r.notes) =
      [("WARNING a.vue:1:1:1:29 <style lang=\"scss\"> is copied as is, selectors are not made global " ++
        "(unsupported-style-lang)").toList] := by
  intro source
  obtain ⟨r, hr, hnotes⟩ := eq_ok_of_toOption (x := convert .standard source) (f := Noted.notes)
    (b := [.warning .unsupportedStyleLang ("<style lang=\"scss\"> is copied as is, " ++
      "selectors are not made global").toList (some ⟨0, 28⟩)]) (by decide +kernel)
  have hp : '\n' ∉ "a.vue".toList := by decide
  obtain ⟨-, hlines, -⟩ := machine_lines_counted hr hp
  refine ⟨r, hr, ?_⟩
  rw [hlines.mpr (by rw [hnotes]; exact forall_mem_singleton.mpr (by decide)), hnotes]
  decide +kernel

/-- A spread over two lines is one diagnostic on two lines. -/
theorem machine_lines_exceed :
    let source := "<script>\nexport default \x7b ...f(\n  a) \x7d\n</script>".toList
    ∃ r, convert .standard source = .ok r ∧ r.notes.length = 1 ∧
      linesOf (report .machine "a.vue".toList source r.notes) =
        ["WARNING a.vue:2:18:3:5 in default export, spread \x60...f(".toList,
          "  a)\x60 is not supported, ignoring it (unexpected-member)".toList] := by
  intro source
  obtain ⟨r, hr, hnotes⟩ := eq_ok_of_toOption (x := convert .standard source)
    (f := fun r => (r.notes.length, linesOf (report .machine "a.vue".toList source r.notes)))
    (b := (1, ["WARNING a.vue:2:18:3:5 in default export, spread \x60...f(".toList,
      "  a)\x60 is not supported, ignoring it (unexpected-member)".toList])) (by decide +kernel)
  exact ⟨r, hr, congrArg Prod.fst hnotes, congrArg Prod.snd hnotes⟩

end CommandLine

end ComponentConverter
