import ComponentConverter.CommandLine.Run

namespace ComponentConverter.CommandLine

open List

variable {current next last : Option Place} {name t : Text} {names : List Text} {m : Type → Type} {σ φ : Type}

/-- What can be seen of the files of a state: the one that a path leads to, and the content of one. Several paths can
lead to one file. -/
structure Files (σ φ : Type) where
  file? : σ → Text → Option φ
  content? : σ → φ → Option ByteArray

namespace Files

def Holds (v : Files σ φ) (s : σ) (path t : Text) : Prop :=
  ∃ f, v.file? s path = some f ∧ v.content? s f = some (String.ofList t).toUTF8

/-- Two states differ at most in the file at a path: each other file has its content and its paths. -/
structure OnlyAt (v : Files σ φ) (path : Text) (s s' : σ) : Prop where
  same : ∀ f, v.file? s path = some f → v.file? s' path = some f
  others : ∀ f, v.file? s' path ≠ some f →
    v.content? s' f = v.content? s f ∧ ∀ other, v.file? s' other = some f ↔ v.file? s other = some f

theorem OnlyAt.refl (v : Files σ φ) (path : Text) (s : σ) : v.OnlyAt path s s :=
  ⟨fun _ h => h, fun _ _ => ⟨rfl, fun _ => .rfl⟩⟩

end Files

/-- A file system with its states: what a program does to them, and the files in them. A read changes nothing and yields
the whole text of a file. A write fails before it changes anything, or stores the whole text. -/
structure FileSystem.Model [Monad m] (fs : FileSystem m) (σ φ : Type) extends Files σ φ where
  exec {α : Type} : m α → σ → α × σ
  exec_pure {α : Type} (a : α) (s : σ) : exec (pure a) s = (a, s)
  exec_bind {α β : Type} (x : m α) (f : α → m β) (s : σ) : exec (x >>= f) s = exec (f (exec x s).1) (exec x s).2
  read_unchanged (path : Text) (s : σ) : (exec (fs.read path) s).2 = s
  read_whole {path t : Text} {s : σ} : (exec (fs.read path) s).1 = .ok t → toFiles.Holds s path t
  write_failed {path t : Text} {s : σ} {cause : FileFault} :
    (exec (fs.write path t) s).1 = .error cause → (exec (fs.write path t) s).2 = s
  write_stored {path t : Text} {s : σ} : (exec (fs.write path t) s).1 = .ok () →
    toFiles.OnlyAt path s (exec (fs.write path t) s).2 ∧ toFiles.Holds (exec (fs.write path t) s).2 path t

namespace Storage

variable {s s' : Storage} {p q : Place} {path : Text}

theorem file?_put_self (s : Storage) (p : Place) (t : Text) : (s.put p t).file? p = some (.text t) := by
  have hnone : (s.files.filter (·.1 != p)).find? (·.1 == p) = none := by
    rw [List.find?_eq_none]
    intro f hf
    simpa using (mem_filter.mp hf).2
  simp [put, file?, List.find?_append, hnone]

theorem file?_put_of_ne (s : Storage) (t : Text) (h : q ≠ p) : (s.put p t).file? q = s.file? q := by
  have hsame : (fun f : Place × Content => decide ((f.1 != p) = true ∧ (f.1 == q) = true)) = fun f => f.1 == q := by
    funext f
    by_cases hf : f.1 = q
    · simp [hf, h]
    · simp [hf]
  rw [file?, file?, put, List.find?_append, List.find?_filter, hsame]
  simp [Ne.symm h]

theorem isDirectory_iff :
    s.isDirectory q = true ↔ q = [] ∨ (∃ d ∈ s.directories, q <+: d) ∨ ∃ f ∈ s.files, q <+: f.1 ∧ q ≠ f.1 := by
  simp [isDirectory, or_assoc]

theorem isDirectory_of_prefix (h : s.isDirectory q = true) (hp : p <+: q) : s.isDirectory p = true := by
  rw [isDirectory_iff] at h ⊢
  rcases h with rfl | ⟨d, hd, hq⟩ | ⟨f, hf, hq, hne⟩
  · exact .inl (prefix_nil.mp hp)
  · exact .inr (.inl ⟨d, hd, hp.trans hq⟩)
  · refine .inr (.inr ⟨f, hf, hp.trans hq, ?_⟩)
    rintro rfl
    exact hne (hq.eq_of_length_le hp.length_le)

theorem isDirectory_enter (hc : ∀ d ∈ current, s.isDirectory d = true) (h : s.enter current name = .ok next) :
    ∀ d ∈ next, s.isDirectory d = true := by
  simp only [enter] at h
  split at h
  · cases h
    split
    · simp
    · simp
    · rintro d ⟨⟩
      exact isDirectory_of_prefix (hc _ rfl) (List.dropLast_prefix _)
  · split at h
    · cases h
    · split at h
      next hq =>
        cases h
        rintro d ⟨⟩
        exact hq
      · split at h <;> cases h

theorem enter_of_directories (hs : ∀ q, s'.isDirectory q = s.isDirectory q) (h : s.enter current name = .ok next) :
    s'.enter current name = .ok next := by
  simp only [enter] at h ⊢
  split at h
  next hup => rw [if_pos hup, h]
  next hup =>
    rw [if_neg hup]
    split at h
    · cases h
    · split at h
      next hq =>
        simp only [hs]
        rw [if_pos hq, h]
      · split at h <;> cases h

theorem foldlM_enter_cons : (name :: names).foldlM s.enter current = .ok last ↔
      ∃ next, s.enter current name = .ok next ∧ names.foldlM s.enter next = .ok last := by
  rw [foldlM_cons]
  cases s.enter current name with
  | error fault => simp [bind, Except.bind]
  | ok next => simp [bind, Except.bind]

theorem isDirectory_foldlM (hc : ∀ d ∈ current, s.isDirectory d = true)
    (h : names.foldlM s.enter current = .ok last) : ∀ d ∈ last, s.isDirectory d = true := by
  induction names generalizing current with
  | nil =>
    cases h
    exact hc
  | cons name names ih =>
    obtain ⟨next, he, h⟩ := foldlM_enter_cons.mp h
    exact ih (isDirectory_enter hc he) h

theorem foldlM_of_directories (hs : ∀ q, s'.isDirectory q = s.isDirectory q)
    (h : names.foldlM s.enter current = .ok last) : names.foldlM s'.enter current = .ok last := by
  induction names generalizing current with
  | nil => exact h
  | cons name names ih =>
    obtain ⟨next, he, h⟩ := foldlM_enter_cons.mp h
    exact foldlM_enter_cons.mpr ⟨next, enter_of_directories hs he, ih h⟩

theorem locate_eq_some_iff : s.locate path = .ok (some p) ↔
      path ≠ [] ∧ path.head? ≠ some '/' ∧ ∃ d last, (pathNames path).getLast? = some last ∧
        (pathNames path).dropLast.foldlM s.enter (some []) = .ok (some d) ∧ last ≠ ['.', '.'] ∧
        s.isDirectory (d ++ [last]) = false ∧ d ++ [last] = p := by
  rw [locate]
  by_cases hpath : path = []
  · simp [hpath]
  by_cases hroot : path.head? = some '/'
  · simp only [List.isEmpty_iff, hpath, hroot, if_false, if_true]
    split <;> simp
  simp only [List.isEmpty_iff, hpath, hroot, if_false]
  cases (pathNames path).getLast? with
  | none => simp
  | some last =>
    cases (pathNames path).dropLast.foldlM s.enter (some []) with
    | error fault => simp [bind, Except.bind]
    | ok current =>
      by_cases hup : last = ['.', '.']
      · simp [bind, Except.bind, pure, Except.pure, hup]
      cases current with
      | none => simp [bind, Except.bind, hup, throw, throwThe, MonadExceptOf.throw]
      | some d =>
        by_cases hd : s.isDirectory (d ++ [last]) = true
        · simp [bind, Except.bind, pure, Except.pure, hup, hd]
        · simp [bind, Except.bind, pure, Except.pure, hup, hd, hpath, hroot]

theorem isDirectory_of_locate (h : s.locate path = .ok (some p)) :
    s.isDirectory p = false ∧ ∀ q, q <+: p → q ≠ p → s.isDirectory q = true := by
  obtain ⟨-, -, d, last, -, hd, -, hp, rfl⟩ := locate_eq_some_iff.mp h
  refine ⟨hp, ?_⟩
  intro q hq hne
  have hdir : s.isDirectory d = true := isDirectory_foldlM (by rintro _ ⟨⟩; rfl) hd d rfl
  exact isDirectory_of_prefix hdir ((prefix_concat_iff.mp hq).resolve_left hne)

theorem isDirectory_put (h : s.locate path = .ok (some p)) (t : Text) (q : Place) :
    (s.put p t).isDirectory q = s.isDirectory q := by
  rw [Bool.eq_iff_iff]
  constructor
  · intro hq
    rw [isDirectory_iff] at hq
    rcases hq with rfl | hd | ⟨f, hf, hq, hne⟩
    · rfl
    · exact isDirectory_iff.mpr (.inr (.inl hd))
    · rcases mem_append.mp hf with hf | hf
      · exact isDirectory_iff.mpr (.inr (.inr ⟨f, (mem_filter.mp hf).1, hq, hne⟩))
      · obtain rfl := mem_singleton.mp hf
        exact (isDirectory_of_locate h).2 q hq hne
  · intro hq
    rw [isDirectory_iff] at hq ⊢
    rcases hq with rfl | hd | ⟨f, hf, hq, hne⟩
    · exact .inl rfl
    · exact .inr (.inl hd)
    · by_cases hfp : f.1 = p
      · exact .inr (.inr ⟨(p, .text t), mem_append_right _ (mem_singleton.mpr rfl), hfp ▸ hq, hfp ▸ hne⟩)
      · exact .inr (.inr ⟨f, mem_append_left _ (mem_filter.mpr ⟨hf, by simp [hfp]⟩), hq, hne⟩)

theorem locate_of_directories (hs : ∀ q, s'.isDirectory q = s.isDirectory q) (h : s.locate path = .ok (some p)) :
    s'.locate path = .ok (some p) := by
  obtain ⟨hpath, hroot, d, last, hlast, hd, hup, hp, rfl⟩ := locate_eq_some_iff.mp h
  exact locate_eq_some_iff.mpr
    ⟨hpath, hroot, d, last, hlast, foldlM_of_directories hs hd, hup, (hs _).trans hp, rfl⟩

theorem locate_put (h : s.locate path = .ok (some p)) (t other : Text) :
    (s.put p t).locate other = .ok (some q) ↔ s.locate other = .ok (some q) := by
  have hs := isDirectory_put h t
  exact ⟨locate_of_directories fun q => (hs q).symm, locate_of_directories hs⟩

theorem write_eq_ok_iff : s.write path t = .ok s' ↔
      ∃ p, s.locate path = .ok (some p) ∧ asksDirectory path = false ∧ s' = s.put p t := by
  rw [write]
  cases s.locate path with
  | error fault => simp [bind, Except.bind]
  | ok found =>
    cases found with
    | none => simp [bind, Except.bind, throw, throwThe, MonadExceptOf.throw]
    | some p =>
      by_cases hdir : asksDirectory path = true
      · simp [bind, Except.bind, throw, throwThe, MonadExceptOf.throw, hdir]
      · simp [bind, Except.bind, pure, Except.pure, hdir, eq_comm]

theorem read_eq_ok_iff : s.read path = .ok t ↔ ∃ p content, s.locate path = .ok (some p) ∧ s.file? p = some content ∧
      asksDirectory path = false ∧ content.text? = some t := by
  rw [read]
  cases s.locate path with
  | error fault => simp [bind, Except.bind]
  | ok found =>
    cases found with
    | none => simp [bind, Except.bind, throw, throwThe, MonadExceptOf.throw]
    | some p =>
      cases hfile : s.file? p with
      | none => simp [bind, Except.bind, hfile, throw, throwThe, MonadExceptOf.throw]
      | some content =>
        by_cases hdir : asksDirectory path = true
        · simp [bind, Except.bind, hfile, throw, throwThe, MonadExceptOf.throw, hdir]
        · cases htext : content.text? <;>
            simp [bind, Except.bind, pure, Except.pure, throw, throwThe, MonadExceptOf.throw, hfile, hdir, htext]

end Storage

def Content.encoded : Content → ByteArray
  | .text t => (String.ofList t).toUTF8
  | .bytes bs => ⟨bs.toArray⟩

theorem Content.encoded_of_text? {content : Content} (h : content.text? = some t) :
    content.encoded = (String.ofList t).toUTF8 := by
  cases content with
  | text u => rw [encoded, Option.some.inj h]
  | bytes bs =>
    obtain ⟨u, hu, rfl⟩ := Option.map_eq_some_iff.mp h
    rw [String.ofList_toList, encoded]
    rw [String.fromUTF8?] at hu
    split at hu
    · rw [← Option.some.inj hu]
      rfl
    · cases hu

namespace Storage

variable {s s' : Storage} {p q : Place} {path : Text}

/-- The place of the file that a path leads to. -/
def place? (s : Storage) (path : Text) : Option Place :=
  (s.locate path).toOption.join.filter fun p => (s.file? p).isSome && !asksDirectory path

theorem place?_eq_some_iff :
    s.place? path = some p ↔ s.locate path = .ok (some p) ∧ (s.file? p).isSome = true ∧ asksDirectory path = false := by
  rw [place?, Option.filter_eq_some_iff]
  cases s.locate path with
  | error fault => simp [Except.toOption]
  | ok found => cases found <;> simp [Except.toOption]

def view : Files Storage Place := ⟨place?, fun s p => (s.file? p).map Content.encoded⟩

theorem content?_view (s : Storage) (p : Place) : view.content? s p = (s.file? p).map Content.encoded := rfl

theorem stored_put (h : s.locate path = .ok (some p)) (hd : asksDirectory path = false) (t : Text) :
    view.OnlyAt path s (s.put p t) ∧ view.Holds (s.put p t) path t := by
  have hfile : (s.put p t).place? path = some p :=
    place?_eq_some_iff.mpr ⟨(locate_put h t path).mpr h, by rw [file?_put_self]; rfl, hd⟩
  refine ⟨⟨?_, ?_⟩, p, hfile, ?_⟩
  · intro f hf
    obtain ⟨hl, -, -⟩ := place?_eq_some_iff.mp hf
    obtain rfl : p = f := Option.some.inj (Except.ok.inj (h.symm.trans hl))
    exact hfile
  · intro f hf
    have hne : f ≠ p := fun hfp => hf (hfp ▸ hfile)
    refine ⟨by rw [content?_view, content?_view, file?_put_of_ne s t hne], fun other => ?_⟩
    change (s.put p t).place? other = some f ↔ s.place? other = some f
    rw [place?_eq_some_iff, place?_eq_some_iff, locate_put h t other, file?_put_of_ne s t hne]
  · rw [content?_view, file?_put_self]
    rfl

theorem write_run (path t : Text) (s : Storage) : (fileSystem.write path t).run s = match s.write path t with
      | .error cause => (.error cause, s)
      | .ok written => (.ok (), written) := rfl

def model : fileSystem.Model Storage Place where
  toFiles := view
  exec x s := x.run s
  exec_pure _ _ := rfl
  exec_bind _ _ _ := rfl
  read_unchanged _ _ := rfl
  read_whole h := by
    obtain ⟨p, content, hp, hfile, hd, htext⟩ := read_eq_ok_iff.mp h
    refine ⟨p, place?_eq_some_iff.mpr ⟨hp, by rw [hfile]; rfl, hd⟩, ?_⟩
    rw [← Content.encoded_of_text? htext, content?_view, hfile]
    rfl
  write_failed {path t s cause} h := by
    rw [write_run] at h ⊢
    split at h
    · rfl
    · cases h
  write_stored {path t s} h := by
    rw [write_run] at h ⊢
    split at h
    · cases h
    next s' hw =>
      obtain ⟨p, hp, hd, rfl⟩ := write_eq_ok_iff.mp hw
      exact stored_put hp hd t

end Storage

section Runs

variable [Monad m] {fs : FileSystem m} {M : fs.Model σ φ} {a : Arguments} {s s' : σ} {source : Text}
  {outcome : Outcome}

theorem step_plan {result : Noted Text} (h : Conversion.convert a.preferences source = .ok result) :
    (plan a source).step =
      if !result.notes.isEmpty && a.denyWarnings then .stop (.deniedWarnings result.notes.length)
      else if a.toStdout then .print result.value else .save a.outputPath result.value := by
  rw [plan, h]

/-- The ways in which a run can end: nothing to read, a source that cannot be converted, warnings
that are not allowed, a result that is printed, one that cannot be written, one that is. -/
inductive Ends (M : fs.Model σ φ) (a : Arguments) (s : σ) : Outcome → σ → Prop where
  | unread {cause : FileFault} (hread : (M.exec (fs.read a.input) s).1 = .error cause) :
      Ends M a s ⟨[], [], some (.read a.input cause)⟩ s
  | unconverted {source : Text} {failure : Failure} (hread : (M.exec (fs.read a.input) s).1 = .ok source)
      (hconvert : Conversion.convert a.preferences source = .error failure) :
      Ends M a s ⟨[], [], some (.convert a.input source failure)⟩ s
  | denied {source : Text} {result : Noted Text} (hread : (M.exec (fs.read a.input) s).1 = .ok source)
      (hconvert : Conversion.convert a.preferences source = .ok result)
      (hdeny : a.denyWarnings = true) (hnotes : result.notes ≠ []) :
      Ends M a s ⟨[], (plan a source).report, some (.deniedWarnings result.notes.length)⟩ s
  | printed {source : Text} {result : Noted Text} (hread : (M.exec (fs.read a.input) s).1 = .ok source)
      (hconvert : Conversion.convert a.preferences source = .ok result)
      (hnotes : a.denyWarnings = true → result.notes = []) (hout : a.toStdout = true) :
      Ends M a s ⟨result.value, (plan a source).report, none⟩ s
  | unwritten {source : Text} {result : Noted Text} {cause : FileFault}
      (hread : (M.exec (fs.read a.input) s).1 = .ok source)
      (hconvert : Conversion.convert a.preferences source = .ok result)
      (hnotes : a.denyWarnings = true → result.notes = []) (hout : a.toStdout = false)
      (hwrite : (M.exec (fs.write a.outputPath result.value) s).1 = .error cause) :
      Ends M a s ⟨[], (plan a source).report, some (.write a.outputPath cause)⟩ s
  | written {source : Text} {result : Noted Text} {s' : σ}
      (hread : (M.exec (fs.read a.input) s).1 = .ok source)
      (hconvert : Conversion.convert a.preferences source = .ok result)
      (hnotes : a.denyWarnings = true → result.notes = []) (hout : a.toStdout = false)
      (hwrite : M.exec (fs.write a.outputPath result.value) s = (.ok (), s')) :
      Ends M a s ⟨success a, (plan a source).report, none⟩ s'

theorem ends_run (M : fs.Model σ φ) (a : Arguments) (s : σ) :
    Ends M a s (M.exec (a.run fs) s).1 (M.exec (a.run fs) s).2 := by
  rw [Arguments.run, M.exec_bind, M.read_unchanged]
  cases hread : (M.exec (fs.read a.input) s).1 with
  | error cause =>
    simp only [M.exec_pure]
    exact .unread hread
  | ok source =>
    cases hconvert : Conversion.convert a.preferences source with
    | error failure =>
      simp only [plan, hconvert, M.exec_pure]
      exact .unconverted hread hconvert
    | ok result =>
      simp only [step_plan hconvert]
      by_cases hdenied : (!result.notes.isEmpty && a.denyWarnings) = true
      · simp only [if_pos hdenied, M.exec_pure]
        simp only [Bool.and_eq_true, Bool.not_eq_true', isEmpty_eq_false_iff] at hdenied
        exact .denied hread hconvert hdenied.2 hdenied.1
      have hnotes : a.denyWarnings = true → result.notes = [] := by
        intro hdeny
        simpa [hdeny] using hdenied
      rw [if_neg hdenied]
      by_cases hout : a.toStdout = true
      · simp only [if_pos hout, M.exec_pure]
        exact .printed hread hconvert hnotes hout
      · simp only [if_neg hout, M.exec_bind]
        simp only [Bool.not_eq_true] at hout
        cases hwrite : (M.exec (fs.write a.outputPath result.value) s).1 with
        | error cause =>
          simp only [M.exec_pure, M.write_failed hwrite]
          exact .unwritten hread hconvert hnotes hout hwrite
        | ok u =>
          simp only [M.exec_pure]
          exact .written hread hconvert hnotes hout (Prod.ext hwrite rfl)

theorem Ends.state (h : Ends M a s outcome s') :
    s' = s ∨ outcome.fault = none ∧ a.toStdout = false ∧ ∃ code, M.exec (fs.write a.outputPath code) s = (.ok (), s') := by
  cases h with
  | written hread hconvert hnotes hout hwrite => exact .inr ⟨rfl, hout, _, hwrite⟩
  | _ => exact .inl rfl

theorem Ends.fault_eq_none_iff (h : Ends M a s outcome s') : outcome.fault = none ↔
      ∃ source result, (M.exec (fs.read a.input) s).1 = .ok source ∧
        Conversion.convert a.preferences source = .ok result ∧ (a.denyWarnings = true → result.notes = []) ∧
        (a.toStdout = false → M.exec (fs.write a.outputPath result.value) s = (.ok (), s')) := by
  cases h with
  | unread hread => simp [hread]
  | unconverted hread hconvert => simp [hread, hconvert]
  | denied hread hconvert hdeny hnotes => simp [hread, hconvert, hdeny, hnotes]
  | printed hread hconvert hnotes hout => simpa [hread, hconvert, hout] using hnotes
  | unwritten hread hconvert hnotes hout hwrite => simp [hread, hconvert, hout, Prod.ext_iff, hwrite]
  | written hread hconvert hnotes hout hwrite => simpa [hread, hconvert, hout, hwrite] using hnotes

/-- What a run may do to the files: write the whole result to its file if nothing is amiss, and
else nothing. -/
structure AllOrNothing (M : fs.Model σ φ) (a : Arguments) (s : σ) (outcome : Outcome) (s' : σ) : Prop where
  elsewhere : M.OnlyAt a.outputPath s s'
  unchanged : outcome.fault ≠ none ∨ a.toStdout = true → s' = s
  complete : outcome.fault = none ↔
    ∃ source result, (M.exec (fs.read a.input) s).1 = .ok source ∧ M.Holds s a.input source ∧
      Conversion.convert a.preferences source = .ok result ∧
      (a.denyWarnings = true → result.notes = []) ∧
      (a.toStdout = false → M.exec (fs.write a.outputPath result.value) s = (.ok (), s') ∧
        M.Holds s' a.outputPath result.value)

theorem run_all_or_nothing (M : fs.Model σ φ) (a : Arguments) (s : σ) :
    AllOrNothing M a s (M.exec (a.run fs) s).1 (M.exec (a.run fs) s).2 := by
  have h := ends_run M a s
  have hstored {code : Text} {s' : σ} (hw : M.exec (fs.write a.outputPath code) s = (.ok (), s')) :
      M.OnlyAt a.outputPath s s' ∧ M.Holds s' a.outputPath code := by
    have hs := M.write_stored (congrArg Prod.fst hw)
    rwa [hw] at hs
  refine ⟨?_, ?_, ?_⟩
  · rcases h.state with hs | ⟨-, -, code, hwrite⟩
    · rw [hs]
      exact .refl _ _ _
    · exact (hstored hwrite).1
  · intro hstop
    rcases h.state with hs | ⟨hfault, hout, -⟩
    · exact hs
    · rcases hstop with hfailed | hprint
      · exact absurd hfault hfailed
      · rw [hout] at hprint
        cases hprint
  · rw [h.fault_eq_none_iff]
    constructor
    · rintro ⟨source, result, hread, hconvert, hnotes, hwrite⟩
      exact ⟨source, result, hread, M.read_whole hread, hconvert, hnotes,
        fun hout => ⟨hwrite hout, (hstored (hwrite hout)).2⟩⟩
    · rintro ⟨source, result, hread, -, hconvert, hnotes, hwrite⟩
      exact ⟨source, result, hread, hconvert, hnotes, fun hout => (hwrite hout).1⟩

end Runs

/-- A component is converted beside a file that stays. -/
theorem run_all_or_nothing_written :
    let a : Arguments :=
      ⟨"a.vue", none, false, "  ", false, false, false, .human, true, false⟩
    let source := "<template><p>hi</p></template>"
    let s : Storage :=
      ⟨[(["a.vue"], .text source), (["b.svelte"], .text source)], []⟩
    (run a s).1.fault = none ∧ Storage.view.Holds (run a s).2 "b.svelte" source ∧
      ∃ result, Conversion.convert a.preferences source = .ok result ∧ result.notes = [] ∧
        Storage.view.Holds (run a s).2 "a.svelte".toList result.value := by
  intro a source s
  have hfault : (run a s).1.fault = none ∧ Storage.place? (run a s).2 "b.svelte".toList = some ["b.svelte".toList] ∧
      Storage.place? (run a s).2 "a.svelte".toList ≠ some ["b.svelte".toList] := by
    decide +kernel
  have hsource : s.read a.input = .ok source := rfl
  have hrun : Storage.model.exec (a.run Storage.fileSystem) s = run a s := rfl
  have h := run_all_or_nothing Storage.model a s
  rw [hrun] at h
  generalize run a s = r at hfault h ⊢
  obtain ⟨hfault, hplace, hne⟩ := hfault
  obtain ⟨t, result, hread, -, hconvert, hnotes, hwrite⟩ := h.complete.mp hfault
  have ht : t = source := Except.ok.inj (hread.symm.trans hsource)
  rw [ht] at hconvert
  refine ⟨hfault, ⟨_, hplace, ?_⟩, result, hconvert, hnotes rfl, (hwrite rfl).2⟩
  exact (h.elsewhere.others _ hne).1

end ComponentConverter.CommandLine
