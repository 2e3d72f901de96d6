import ComponentConverter.Stylesheet.Feature

namespace ComponentConverter.Stylesheet

namespace Media

open Strict

def features : Feature.Table :=
  [("width", .length), ("height", .length), ("aspect-ratio", .ratio), ("orientation", .word),
    ("overflow-block", .word), ("overflow-inline", .word), ("horizontal-viewport-segments", .integer),
    ("vertical-viewport-segments", .integer), ("display-mode", .word), ("resolution", .resolution),
    ("scan", .word), ("grid", .boolean), ("update", .word), ("environment-blending", .word),
    ("color", .integer), ("color-index", .integer), ("monochrome", .integer), ("color-gamut", .word),
    ("dynamic-range", .word), ("inverted-colors", .word), ("pointer", .word), ("hover", .word),
    ("any-pointer", .word), ("any-hover", .word), ("nav-controls", .word), ("video-color-gamut", .word),
    ("video-dynamic-range", .word), ("scripting", .word), ("prefers-reduced-motion", .word),
    ("prefers-reduced-transparency", .word), ("prefers-contrast", .word), ("forced-colors", .word),
    ("prefers-color-scheme", .word), ("prefers-reduced-data", .word), ("device-width", .length),
    ("device-height", .length), ("device-aspect-ratio", .ratio), ("-webkit-device-pixel-ratio", .number),
    ("-moz-device-pixel-ratio", .number)]

def grammar : Condition.Grammar := ⟨Feature.read features, fun _ => none⟩

def qualifier : Strict Text :=
  expect fun p => (p.name?.map (·.map Char.toLower)).filter fun n => n == "not" || n == "only"

def kind : Strict (Option Text × Text) := do
  let q ← attempt qualifier
  let n ← name
  let lowered := n.map Char.toLower
  let isKnown := ["all", "print", "screen"].any (·.toList == lowered)
  return (q, if isKnown then lowered else n)

def query : Strict Text := do
  match ← attempt kind with
  | none => return (← Condition.read grammar true).text
  | some (q, k) =>
    let isAll := k == "all"
    if (← attempt (word "and")).isSome then
      let c ← Condition.read grammar false
      if isAll && q.isNone then return c.text
      let isOr := match c with
        | .operation isOr _ => isOr
        | _ => false
      return spaced (q.toList ++ [k, "and", Condition.bracketed isOr c.text])
    return spaced (q.toList ++ [k])

/-- Reads queries between commas. One that ends too early ends the list. -/
def queries : List (List Piece × Location) → Except Fault (List Text × List (List Piece × Location))
  | [] => .ok ([], [])
  | (part, stop) :: parts =>
    match Strict.run? query stop part with
    | .ok t => do
      let (ts, rest) ← queries parts
      return (t :: ts, rest)
    | .error fault => if fault.cause == .endOfInput then .ok ([], parts) else .error fault

def list (stop : Location) (ps : List Piece) : Except Fault (List Text) := do
  let (found, rest) ← queries (splitAtCommas stop ps)
  unless rest.isEmpty do
    let taken := (splitAtCommas stop ps).length - rest.length
    throw ⟨.unexpectedToken .comma, ((splitAtCommas stop ps)[taken - 1]?.map Prod.snd).getD stop⟩
  return found

/-- The text of a list of queries; an empty one holds for no media. -/
def text (queries : List Text) : Text := if queries.isEmpty then "not all" else listed queries

end Media

end ComponentConverter.Stylesheet
