import ComponentConverter.CommandLine.Arguments
import ComponentConverter.Conversion.Convert

namespace ComponentConverter.CommandLine

inductive RunFault where
  | read (path : Text) (cause : FileFault)
  | write (path : Text) (cause : FileFault)
  | convert (path source : Text) (failure : Failure)
  | deniedWarnings (count : Nat)
  deriving Repr, DecidableEq

namespace RunFault

def details (path source : Text) (failure : Failure) : Text :=
  failure.faults.flatMap fun f =>
    "\n  " ++ path ++ [':'] ++ placeText (.ofOffset source f.span.start) ++ ": " ++ f.message.toList

def message : RunFault → Text
  | .read path _ => "unable to read " ++ path
  | .write path _ => "unable to write " ++ path
  | .convert path source failure =>
    "failed to convert " ++ path ++ ": " ++ failure.message.toList ++ details path source failure
  | .deniedWarnings count => s!"{count} warning(s) reported, no output written"

def code : RunFault → String
  | .read .. => "vue2svelte::read"
  | .write .. => "vue2svelte::write"
  | .convert .. => "vue2svelte::convert"
  | .deniedWarnings _ => "vue2svelte::warnings"

def help? : RunFault → Option String
  | .read .. => some "check that the file exists and is readable"
  | .deniedWarnings _ => some "rerun without --deny-warnings to write the partial conversion"
  | .write .. | .convert .. => none

def cause? : RunFault → Option FileFault
  | .read _ cause | .write _ cause => some cause
  | .convert .. | .deniedWarnings _ => none

def span? : RunFault → Option Span
  | .convert _ _ failure => failure.span?
  | _ => none

end RunFault

inductive Step where
  | stop (fault : RunFault)
  | print (code : Text)
  | save (path code : Text)
  deriving Repr, DecidableEq

structure Plan where
  report : Text
  step : Step
  deriving Repr, DecidableEq

def plan (a : Arguments) (source : Text) : Plan :=
  match Conversion.convert a.preferences source with
  | .error failure => ⟨[], .stop (.convert a.input source failure)⟩
  | .ok result =>
    let told := if result.notes.isEmpty then [] else report a.format a.input source result.notes
    let step :=
      if !result.notes.isEmpty && a.denyWarnings then .stop (.deniedWarnings result.notes.length)
      else if a.toStdout then .print result.value
      else .save a.outputPath result.value
    ⟨told, step⟩

def success (a : Arguments) : Text :=
  "Successfully converted " ++ a.input ++ " to " ++ a.outputPath ++
    ". Please note that some manual corrections are probably still required.\n"

structure Outcome where
  stdout : Text
  stderr : Text
  fault : Option RunFault
  deriving Repr, DecidableEq

/-- Converts one file. -/
def Arguments.run {m : Type → Type} [Monad m] (a : Arguments) (fs : FileSystem m) : m Outcome := do
  match ← fs.read a.input with
  | .error cause => return ⟨[], [], some (.read a.input cause)⟩
  | .ok source =>
    let p := plan a source
    match p.step with
    | .stop fault => return ⟨[], p.report, some fault⟩
    | .print code => return ⟨code, p.report, none⟩
    | .save path code =>
      match ← fs.write path code with
      | .error cause => return ⟨[], p.report, some (.write path cause)⟩
      | .ok () => return ⟨success a, p.report, none⟩

def run (a : Arguments) (s : Storage) : Outcome × Storage := (a.run Storage.fileSystem).run s

end ComponentConverter.CommandLine
