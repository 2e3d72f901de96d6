import ComponentConverter.CommandLine.Run

namespace ComponentConverter.CommandLine

def usage : String :=
  "Usage: vue2svelte [OPTIONS] <INPUT> [OUTPUT]\n\n" ++
  "  --stdout                Print the converted component instead of writing a file\n" ++
  "  --indent <INDENT>       Indentation unit for the template\n" ++
  "  --no-shorthand          Write `:value=\"value\"` as `value=\"\x7bvalue\x7d\"`\n" ++
  "  --unquoted              Write bound attributes without quotes\n" ++
  "  --comments              Keep HTML comments of the template\n" ++
  "  --diagnostics <FORMAT>  human, json or machine\n" ++
  "  --deny-warnings         Exit with error on warnings, without writing output\n" ++
  "  -v, --verbose           Log conversion steps to stderr\n" ++
  "  -h, --help              Print help\n" ++
  "  -V, --version           Print version\n"

def explain : UsageError → String
  | .invalidValue => "invalid or missing value"
  | .argumentConflict => "arguments cannot be used together"
  | .tooManyValues => "unexpected value"
  | .unknownArgument => "unexpected argument"
  | .missingRequiredArgument => "missing input"
  | .displayHelp | .displayVersion => ""

def FileFault.ofError : IO.Error → FileFault
  | .noFileOrDirectory .. => .notFound
  | e => .other (toString e)

def disk : FileSystem BaseIO where
  read path := do
    match ← (IO.FS.readFile (String.ofList path)).toBaseIO with
    | .ok text => return .ok text.toList
    | .error e => return .error (.ofError e)
  write path text := do
    match ← (IO.FS.writeFile (String.ofList path) (String.ofList text)).toBaseIO with
    | .ok () => return .ok ()
    | .error e => return .error (.ofError e)

def tell (fault : RunFault) : IO UInt32 := do
  IO.eprintln ("error: " ++ String.ofList fault.message)
  if let some cause := fault.cause? then IO.eprintln ("  cause: " ++ cause.message)
  if let some help := fault.help? then IO.eprintln ("  help: " ++ help)
  return 1

def convertFile (a : Arguments) : IO UInt32 := do
  let outcome ← (a.run disk : BaseIO Outcome)
  IO.eprint (String.ofList outcome.stderr)
  IO.print (String.ofList outcome.stdout)
  match outcome.fault with
  | some fault => tell fault
  | none => return 0

def serve (arguments : List String) : IO UInt32 := do
  match Arguments.parse (arguments.map String.toList) with
  | .ok a => convertFile a
  | .error .displayHelp =>
    IO.print usage
    return 0
  | .error .displayVersion =>
    IO.println "vue2svelte 0.3.0"
    return 0
  | .error e =>
    IO.eprintln ("error: " ++ explain e)
    IO.eprint usage
    return 2

end ComponentConverter.CommandLine

def main (arguments : List String) : IO UInt32 := ComponentConverter.CommandLine.serve arguments
