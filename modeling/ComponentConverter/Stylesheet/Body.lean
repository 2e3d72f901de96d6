import ComponentConverter.Stylesheet.AtHead
import ComponentConverter.Stylesheet.Registration
import ComponentConverter.Stylesheet.Rule

namespace ComponentConverter.Stylesheet

inductive Entry where
  | declaration (declaration : Declaration)
  | rule (rule : Rule)
  | nothing
  deriving Repr

/-- The declarations at the start of a block, and the rules after them. Declarations between
rules keep their place. -/
def arrange : List Entry → List Declaration × List Rule
  | [] => ([], [])
  | .nothing :: es => arrange es
  | .declaration d :: es => let (ds, rules) := arrange es; (d :: ds, rules)
  | .rule r :: es =>
    let (ds, rules) := arrange es
    ([], r :: (if ds.isEmpty then rules else .declarations ds :: rules))

def arrangeRules (es : List Entry) : List Rule :=
  let (ds, rules) := arrange es
  if ds.isEmpty then rules else .declarations ds :: rules

abbrev BlockReader := Level → Nat → Location → List Piece → Except Fault (List Entry)

def splitHead (stopsAtSemicolon : Bool) (ps : List Piece) : List Piece × List Piece :=
  let isHead (p : Piece) : Bool := p.block?.isNone && !(stopsAtSemicolon && p.is .semicolon)
  (ps.takeWhile isHead, ps.dropWhile isHead)

def isSeparator (p : Piece) : Bool := p.isBlank || p.is .semicolon || p.is (.closing .curly)

def declarationStep (other : Text → Piece → List Piece → Except Fault (Entry × List Piece)) (depth : Nat)
    (stop : Location) (ps : List Piece) : Except Fault (Option (Entry × List Piece)) :=
  match ps with
  | [] => .ok none
  | p :: rest =>
    if isSeparator p then .ok (some (.nothing, rest))
    else
      match p.head with
      | .name name => do
        let own := rest.takeWhile (!·.is .semicolon)
        let after := rest.drop own.length
        let d ← declaration depth name (placeOf stop after) own
        return some (.declaration d, after)
      | .atKeyword keyword => some <$> other keyword p rest
      | t => .error ⟨.unexpectedToken t, p.start⟩

def noRule (keyword : Text) (p : Piece) (_ : List Piece) : Except Fault (Entry × List Piece) :=
  .error ⟨.unknownRule keyword, p.stop⟩

def declarationsOf (depth : Nat) (stop : Location) (ps : List Piece) : Except Fault (List Declaration) := do
  let (entries, _) ← gather (declarationStep noRule depth stop) ps.length ps
  return (arrange entries).1

def marginNames : List String :=
  ["top-left-corner", "top-left", "top-center", "top-right", "top-right-corner", "left-top",
    "left-middle", "left-bottom", "right-top", "right-middle", "right-bottom", "bottom-left-corner",
    "bottom-left", "bottom-center", "bottom-right", "bottom-right-corner"]

def marginRule (depth : Nat) (stop : Location) (keyword : Text) (p : Piece) (ps : List Piece) :
    Except Fault (Entry × List Piece) := do
  unless marginNames.any (sameLetters ·.toList keyword) do throw ⟨.unknownRule keyword, p.stop⟩
  let (head, rest) := splitHead true ps
  expectEnd (placeOf stop rest) head
  match rest with
  | [] => throw ⟨.unexpectedToken .semicolon, stop⟩
  | q :: after =>
    match q.block? with
    | none => throw ⟨.unexpectedToken .semicolon, q.stop⟩
    | some (inside, insideStop) =>
      let ds ← declarationsOf (depth + 1) insideStop inside
      return (.rule (.block (AtHead.written (keyword.map Char.toLower) []) ds []), after)

def pageEntries (depth : Nat) (stop : Location) (ps : List Piece) : Except Fault (List Declaration × List Rule) := do
  let (entries, _) ← gather (declarationStep (marginRule depth stop) depth stop) ps.length ps
  let declaration? : Entry → Option Declaration
    | .declaration d => some d
    | _ => none
  let rule? : Entry → Option Rule
    | .rule r => some r
    | _ => none
  return (entries.filterMap declaration?, entries.filterMap rule?)

def framePlace : Reader Text :=
  (Number.percentage <$> percentage) <|> Reader.oneOf "from to" <|> do
    let range ← Reader.oneOf "cover contain entry exit entry-crossing exit-crossing"
    return spaced [range, Number.percentage (← percentage)]

def frame? (depth : Nat) (head inside : List Piece) (stop : Location) : Option Rule := do
  let places ← Reader.run? (Reader.commaList framePlace) head
  match declarationsOf (depth + 1) stop inside with
  | .ok ds => return .block (listed places) ds []
  | .error _ => none

def frames (depth : Nat) : Nat → List Piece → List Rule
  | 0, _ => []
  | fuel + 1, ps =>
    match ps.dropWhile isSeparator with
    | [] => []
    | p :: rest =>
      let isAt := match p.head with
        | .atKeyword _ => true
        | _ => false
      let (head, after) := splitHead isAt (p :: rest)
      match after with
      | [] => []
      | q :: after =>
        match q.block? with
        | some (inside, stop) => (frame? depth head inside stop).toList ++ frames depth fuel after
        | none => frames depth fuel after

def featureNames : List String :=
  ["stylistic", "historical-forms", "styleset", "character-variant", "swash", "ornaments", "annotation"]

open Strict in
def featureLine (n : Text) : Strict Text := do
  mark .colon
  let ns ← value (Reader.many1 Stylesheet.integer)
  unless ns.all (0 ≤ ·) do fail .invalidValue
  return identifierText n ++ ": " ++ spaced (ns.map integerText) ++ [';']

def featureLineStep (stop : Location) (ps : List Piece) : Except Fault (Option (Option Text × List Piece)) :=
  match ps with
  | [] => .ok none
  | p :: rest =>
    if isSeparator p then .ok (some (none, rest))
    else
      match p.head with
      | .name n => do
        let own := rest.takeWhile (!·.is .semicolon)
        let after := rest.drop own.length
        let line ← Strict.run? (featureLine n) (placeOf stop after) own
        return some (some line, after)
      | .atKeyword keyword => .error ⟨.unknownRule keyword, p.stop⟩
      | t => .error ⟨.unexpectedToken t, p.start⟩

def featureStep (stop : Location) (ps : List Piece) :
    Except Fault (Option (Option (Text × List Text) × List Piece)) := do
  match ps with
  | [] => return none
  | p :: rest =>
    if isSeparator p then return some (none, rest)
    match p.head with
    | .atKeyword keyword =>
      unless featureNames.any (sameLetters ·.toList keyword) do throw ⟨.unknownRule keyword, p.stop⟩
      let (head, rest) := splitHead true rest
      expectEnd (placeOf stop rest) head
      match rest with
      | [] => throw ⟨.unexpectedToken .semicolon, stop⟩
      | q :: after =>
        match q.block? with
        | none => throw ⟨.unexpectedToken .semicolon, q.stop⟩
        | some (inside, insideStop) =>
          let (lines, _) ← gather (featureLineStep insideStop) inside.length inside
          return some (some (AtHead.written (keyword.map Char.toLower) [], lines.filterMap id), after)
    | t => throw ⟨.unexpectedToken t, p.start⟩

def styleRule (blocks : BlockReader) (level : Level) (depth : Nat) (stop : Location) (ps : List Piece) :
    Except Fault (Entry × List Piece) := do
  let (head, rest) := splitHead (level == .style) ps
  match rest with
  | [] => throw ⟨.endOfInput, stop⟩
  | p :: after =>
    match p.block? with
    | none => throw ⟨.unexpectedToken p.head, p.start⟩
    | some (inside, insideStop) =>
      let selectors ← ruleSelectors (level == .style) p.start head
      let (ds, rules) := arrange (← blocks .style (depth + 1) insideStop inside)
      return (.rule (.block (listed selectors) ds rules), after)

def statementRule? (level : Level) : AtHead → Option Entry
  | .reference text => some (.rule (.statement text true))
  | .unknown head => some (.rule (.statement head false))
  | .charset => some .nothing
  | .layers names =>
    if level == .style || names.isEmpty then none
    else some (.rule (.statement (AtHead.written "layer" (listed names)) true))
  | _ => none

def blockRule (blocks : BlockReader) (level : Level) (depth : Nat) (head : AtHead) (stop : Location)
    (ps : List Piece) : Except Fault Rule := do
  let inner := if level == .style then Level.style else .group
  match head with
  | .group head => return .group head (arrangeRules (← blocks inner (depth + 1) stop ps))
  | .layers names =>
    if 1 < names.length then throw ⟨.invalidBody, placeOf stop ps⟩
    return .group (AtHead.written "layer" (listed names))
      (arrangeRules (← blocks inner (depth + 1) stop ps))
  | .nest selectors =>
    let (ds, rules) := arrange (← blocks .style (depth + 1) stop ps)
    return .block (AtHead.written "nest" (listed selectors)) ds rules
  | .frames head => return .frames head (frames (depth + 1) (ps.length + 1) ps)
  | .page head =>
    let (ds, rules) ← pageEntries (depth + 1) stop ps
    return .block head ds rules
  | .declarations head => return .block head (← declarationsOf (depth + 1) stop ps) []
  | .descriptors kind head => return .lines head (Descriptor.lines kind stop (ps.length + 1) ps)
  | .features head =>
    let (tables, _) ← gather (featureStep stop) ps.length ps
    return .tables head (tables.filterMap id)
  | .registration head => return .lines head (← Registration.lines stop ps)
  | .unknown head => return .unknown head (← rawText stop ps)
  | .reference _ | .charset => throw ⟨.unexpectedToken (.opening .curly), placeOf stop ps⟩

def atRule (blocks : BlockReader) (level : Level) (depth : Nat) (keyword : Text) (stop : Location)
    (ps : List Piece) : Except Fault (Entry × List Piece) := do
  let (headPieces, rest) := splitHead true ps
  let head ← Strict.run? (AtHead.read level keyword) (placeOf stop rest) headPieces
  let statement (place : Location) : Except Fault Entry :=
    match statementRule? level head with
    | some e => .ok e
    | none => .error ⟨.unexpectedToken .semicolon, place⟩
  match rest with
  | [] => return (← statement stop, [])
  | p :: after =>
    match p.block? with
    | some (inside, insideStop) =>
      return (.rule (← blockRule blocks level depth head insideStop inside), after)
    | none => return (← statement p.stop, after)

def entryStep (blocks : BlockReader) (level : Level) (depth : Nat) (stop : Location) (ps : List Piece) :
    Except Fault (Option (Entry × List Piece)) :=
  match ps with
  | [] => .ok none
  | p :: rest =>
    let isSkipped :=
      if level == .top then p.isBlank || p.is .commentOpen || p.is .commentClose else isSeparator p
    if isSkipped then .ok (some (.nothing, rest))
    else
      match p.head with
      | .atKeyword keyword => some <$> atRule blocks level depth keyword stop rest
      | .name name =>
        if level == .style then
          let own := rest.takeWhile (!·.is .semicolon)
          let after := rest.drop own.length
          match declaration depth name (placeOf stop after) own with
          | .ok d => .ok (some (.declaration d, after))
          | .error fault =>
            match styleRule blocks level depth stop ps with
            | .ok found => .ok (some found)
            | .error _ => .error fault
        else some <$> styleRule blocks level depth stop ps
      | _ => some <$> styleRule blocks level depth stop ps

def readBlock : Nat → BlockReader
  | 0, _, _, _, _ => .ok []
  | fuel + 1, level, depth, stop, ps => do
    let (entries, _) ← gather (entryStep (readBlock fuel) level depth stop) ps.length ps
    return entries

end ComponentConverter.Stylesheet
