import ComponentConverter.CommandLine.FileSystem
import ComponentConverter.CommandLine.Report
import ComponentConverter.Svelte.Preferences

namespace ComponentConverter.CommandLine

structure Arguments where
  input : Text
  output : Option Text
  toStdout : Bool
  indent : Text
  noShorthand : Bool
  unquoted : Bool
  comments : Bool
  format : Format
  denyWarnings : Bool
  verbose : Bool
  deriving Repr, DecidableEq

/-- Why arguments are not taken; help and version are asked for instead of a conversion. -/
inductive UsageError where
  | invalidValue
  | argumentConflict
  | tooManyValues
  | unknownArgument
  | missingRequiredArgument
  | displayHelp
  | displayVersion
  deriving Repr, DecidableEq

namespace Arguments

def preferences (a : Arguments) : Svelte.Preferences := ⟨a.indent, !a.unquoted, !a.noShorthand, a.comments⟩

/-- The file to write: the one given, or one in the working directory named for the input. -/
def outputPath (a : Arguments) : Text := a.output.getD ((fileStem? a.input).getD "component" ++ ".svelte")

end Arguments

inductive Flag where
  | stdout
  | noShorthand
  | unquoted
  | comments
  | denyWarnings
  | verbose
  | help
  | version
  deriving Repr, DecidableEq

inductive Setting where
  | indent
  | diagnostics
  deriving Repr, DecidableEq

def Flag.ofName? : String → Option Flag
  | "stdout" => some .stdout
  | "no-shorthand" => some .noShorthand
  | "unquoted" => some .unquoted
  | "comments" => some .comments
  | "deny-warnings" => some .denyWarnings
  | "verbose" => some .verbose
  | "help" => some .help
  | "version" => some .version
  | _ => none

def Flag.ofLetter? : Char → Option Flag
  | 'v' => some .verbose
  | 'h' => some .help
  | 'V' => some .version
  | _ => none

def Setting.ofName? : String → Option Setting
  | "indent" => some .indent
  | "diagnostics" => some .diagnostics
  | _ => none

inductive Pending where
  | nothing
  | awaiting (setting : Setting)
  | setting (setting : Setting) (value : Text)
  deriving Repr, DecidableEq

structure Draft where
  flags : List Flag
  indent : Option Text
  format : Option Format
  paths : List Text
  pending : Pending
  onlyPaths : Bool
  deriving Repr, DecidableEq

namespace Draft

def empty : Draft := ⟨[], none, none, [], .nothing, false⟩

def settle (d : Draft) : Except UsageError Draft :=
  match d.pending with
  | .nothing => .ok d
  | .awaiting _ => .error .invalidValue
  | .setting .indent value =>
    if d.indent.isSome then .error .argumentConflict
    else .ok { d with indent := some value, pending := .nothing }
  | .setting .diagnostics value =>
    if d.format.isSome then .error .argumentConflict
    else
      match Format.ofName? value with
      | some f => .ok { d with format := some f, pending := .nothing }
      | none => .error .invalidValue

def addFlag (d : Draft) (f : Flag) : Except UsageError Draft := do
  let d ← d.settle
  if f = .help then throw .displayHelp
  if f = .version then throw .displayVersion
  if d.flags.contains f then throw .argumentConflict
  return { d with flags := f :: d.flags }

def addPath (d : Draft) (path : Text) : Except UsageError Draft := do
  if d.paths.length < 2 then
    let d ← d.settle
    return { d with paths := d.paths ++ [path] }
  else throw .unknownArgument

def addLong (d : Draft) (t : Text) : Except UsageError Draft := do
  let name := String.ofList (t.takeWhile (· != '='))
  let value? := match t.dropWhile (· != '=') with
    | _ :: value => some value
    | [] => none
  match Flag.ofName? name, Setting.ofName? name, value? with
  | some f, _, none => d.addFlag f
  | some _, _, some _ => throw .tooManyValues
  | none, some s, some value =>
    let d ← d.settle
    Draft.settle { d with pending := .setting s value }
  | none, some s, none =>
    let d ← d.settle
    return { d with pending := .awaiting s }
  | none, none, _ => throw .unknownArgument

def addLetters : Draft → Text → Except UsageError Draft
  | d, [] => .ok d
  | d, c :: t => do
    match Flag.ofLetter? c with
    | some f => addLetters (← d.addFlag f) t
    | none => throw .unknownArgument

def add (d : Draft) (argument : Text) : Except UsageError Draft :=
  if d.onlyPaths then d.addPath argument
  else
    match argument, d.pending with
    | ['-', '-'], _ => .ok { d with onlyPaths := true }
    | '-' :: '-' :: t, _ => d.addLong t
    | '-' :: c :: t, _ => d.addLetters (c :: t)
    | value, .awaiting s => .ok { d with pending := .setting s value }
    | path, _ => d.addPath path

def finish (d : Draft) : Except UsageError Arguments := do
  let d ← d.settle
  match d.paths with
  | [] => throw .missingRequiredArgument
  | input :: rest =>
    let has (f : Flag) : Bool := d.flags.contains f
    if has .stdout && !rest.isEmpty then throw .argumentConflict
    return {
      input
      output := rest.head?
      toStdout := has .stdout
      indent := d.indent.getD Svelte.Preferences.standard.indent
      noShorthand := has .noShorthand
      unquoted := has .unquoted
      comments := has .comments
      format := d.format.getD .human
      denyWarnings := has .denyWarnings
      verbose := has .verbose }

end Draft

def Arguments.parse (arguments : List Text) : Except UsageError Arguments := do
  (← arguments.foldlM Draft.add .empty).finish

end ComponentConverter.CommandLine
