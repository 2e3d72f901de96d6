import ComponentConverter.Diagnostic
import ComponentConverter.CommandLine.Json
import ComponentConverter.Text.Position

namespace ComponentConverter.CommandLine

inductive Format where
  | human
  | json
  | machine
  deriving Repr, DecidableEq

namespace Format

def name : Format → String
  | .human => "human"
  | .json => "json"
  | .machine => "machine"

def ofName? (name : Text) : Option Format := [human, json, machine].find? fun f => f.name.toList == name

end Format

def severityWord : Diagnostic.Severity → String
  | .warning => "Warning"
  | .error => "Error"

def placeText (p : Position) : Text := p.toString.toList

def humanEntry (path source : Text) (d : Diagnostic) : Text :=
  let place := match d.span with
    | some span => [':'] ++ placeText (.ofOffset source span.start)
    | none => []
  path ++ place ++ ['\n'] ++ (severityWord d.severity).toList ++ ": " ++ d.message ++
    " (" ++ d.code.name.toList ++ ")\n\n"

def machineEntry (path source : Text) (d : Diagnostic) : Text :=
  let place := match d.span with
    | some span =>
      [':'] ++ placeText (.ofOffset source span.start) ++ [':'] ++ placeText (.ofOffset source span.stop)
    | none => []
  (severityWord d.severity).toUpper.toList ++ [' '] ++ path ++ place ++ [' '] ++ d.message ++
    " (" ++ d.code.name.toList ++ ")\n"

def offsetJson (source : Text) (offset : Nat) : Json :=
  let p := Position.ofOffset source offset
  .object [("line", .number p.line), ("column", .number p.column), ("offset", .number offset)]

def jsonEntry (path source : Text) (d : Diagnostic) : Json :=
  let place (offset : Span → Nat) : Json := d.span.elim .null fun s => offsetJson source (offset s)
  .object [("type", .string (severityWord d.severity).toList), ("filename", .string path),
    ("start", place Span.start), ("end", place Span.stop), ("message", .string d.message),
    ("code", .string d.code.name.toList)]

def report (format : Format) (path source : Text) (ds : List Diagnostic) : Text :=
  match format with
  | .human => ds.flatMap (humanEntry path source)
  | .machine => ds.flatMap (machineEntry path source)
  | .json => (Json.array (ds.map (jsonEntry path source))).pretty 0

end ComponentConverter.CommandLine
