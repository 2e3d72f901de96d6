import ComponentConverter.Stylesheet.Value.Sides

namespace ComponentConverter.Stylesheet

open Reader

/-- A name that authors choose; words with a meaning for every property are none. -/
def customName : Reader Text := do
  let n ← name
  guard !(isReserved n)
  return n

namespace Grid

inductive Breadth where
  | measure (value : Calculation)
  | flexible (x : Float32)
  | word (word : Text)
  deriving Repr, BEq

namespace Breadth

def text : Breadth → Text
  | .measure c => c.valueText
  | .flexible x => Quantity.withUnit x "fr"
  | .word w => w

def fraction : Reader Float32 := do
  match ← token with
  | .dimension n unit =>
    guard (sameLetters unit "fr" && !n.isNegative)
    return n.value
  | _ => failure

def read (allowsFractions : Bool) : Reader Breadth :=
  (.measure <$> lengthPercentage) <|>
  (do
    guard allowsFractions
    return .flexible (← fraction)) <|>
  (.word <$> oneOf "auto min-content max-content")

end Breadth

def track : Reader Text :=
  (Breadth.text <$> Breadth.read true) <|>
  (call "minmax" do
    let low ← Breadth.read false
    comma
    let high ← Breadth.read true
    return "minmax(" ++ listed [low.text, high.text] ++ [')']) <|>
  (call "fit-content" do return "fit-content(" ++ (← lengthPercentage).valueText ++ [')'])

def lineNames : Reader (List Text) := bracket .square (many customName)

def lineNamesText (names : List Text) : Text := ['['] ++ spaced (names.map identifierText) ++ [']']

structure Tracks where
  names : List (List Text)
  items : List Text
  deriving Repr, BEq

def tracksOf (item : Reader Text) : Reader Tracks := do
  let step (t : Tracks) : Reader Tracks := do
    let names := (← optional? lineNames).getD []
    return ⟨names :: t.names, (← item) :: t.items⟩
  let t ← steps step ⟨[], []⟩
  let last := (← optional? lineNames).getD []
  guard !t.items.isEmpty
  return ⟨(last :: t.names).reverse, t.items.reverse⟩

def tracksFrom : Bool → List (List Text) → List Text → Text
  | _, [], _ => []
  | isFirst, ns :: names, items =>
    let shown := if ns.isEmpty then [] else lineNamesText ns
    match items with
    | [] => shown ++ tracksFrom false names []
    | item :: items =>
      shown ++ (if ns.isEmpty && isFirst then [] else [' ']) ++ item ++ tracksFrom false names items

def Tracks.text (t : Tracks) : Text := tracksFrom true t.names t.items

def repetition : Reader Text := call "repeat" do
  let count ← (integerText <$> integer) <|> oneOf "auto-fill auto-fit"
  comma
  let t ← tracksOf track
  return "repeat(" ++ listed [count, t.text] ++ [')']

def trackList : Reader Tracks := tracksOf (track <|> repetition)

def template : Reader (Option Tracks) := (do word "none"; return none) <|> (some <$> trackList)

def templateText : Option Tracks → Text
  | none => "none"
  | some t => t.text

def autoTracks : Reader (List Text) := many track

def isAreaGap (c : Char) : Bool := c == ' ' || c == '\t' || isNewline c

def areaStep : Text → Option (Text × Text)
  | t =>
    match t.dropWhile isAreaGap with
    | [] => none
    | '.' :: rest => some (['.'], rest.dropWhile (· == '.'))
    | t =>
      let n := t.takeWhile isNamePart
      if n.isEmpty then none else some (n, t.drop n.length)

def areaRow? (t : Text) : Option (List Text) :=
  let (names, rest) := exhaust areaStep t.length t
  if names.isEmpty || !(rest.all isAreaGap) then none else some names

def areaRow : Reader (List Text) := do ofOption (areaRow? (← string))

def areaRowText (row : List Text) : Text := ['"'] ++ spaced row ++ ['"']

def below (column : Nat) : Text := '\n' :: List.replicate column ' '

def areas (column : Nat) : Reader Text :=
  oneOf "none" <|> do
    let rows ← many1 areaRow
    guard (rows.all fun r => r.length == (rows.headD []).length)
    return (below column).intercalate (rows.map areaRowText)

structure AreaRow where
  before : List Text
  areas : List Text
  size : Option Text
  after : List Text

def areaRowWithSize : Reader AreaRow := do
  let before := (← optional? lineNames).getD []
  let areas ← areaRow
  let size ← optional? track
  let after := (← optional? lineNames).getD []
  return ⟨before, areas, size, after⟩

/-- The rows of a template; the names after one row and before the next are names of one line. -/
def areaRowsText (column : Nat) : List Text → List AreaRow → List Text
  | carried, [] => if carried.isEmpty then [] else [' ' :: lineNamesText carried]
  | carried, r :: rs =>
    let names := carried ++ r.before
    let shown := (if names.isEmpty then [] else lineNamesText names ++ [' ']) ++ areaRowText r.areas ++
      ((r.size.filter (· != "auto".toList)).map (' ' :: ·)).getD []
    let gap := if rs.isEmpty then [] else below column
    (shown ++ gap) :: areaRowsText column r.after rs

def gridTemplate (column : Nat) : Reader Text :=
  (do
    word "none"
    guard (← isDone)
    return "none") <|>
  (do
    let rows ← many1 areaRowWithSize
    let columns ← if ← holds slash then some <$> trackList else pure none
    let shown := (areaRowsText column [] rows).flatten
    return shown ++ ((columns.map fun c => below column ++ "/ " ++ c.text).getD [])) <|>
  (do
    let rows ← template
    slash
    let columns ← template
    if rows.isNone && columns.isNone then return "none"
    return templateText rows ++ " / " ++ templateText columns)

def autoFlow : Reader Bool :=
  (do word "auto-flow"; holds (word "dense")) <|> (do word "dense"; word "auto-flow"; return true)

def flowText (isDense : Bool) (sizes : List Text) : Text :=
  spaced ("auto-flow".toList :: (if isDense then ["dense"] else []) ++
    (if sizes == ["auto".toList] then [] else sizes))

def grid (column : Nat) : Reader Text :=
  (do
    let t ← gridTemplate column
    guard (← isDone)
    return t) <|>
  (do
    let rows ← template
    slash
    let isDense ← autoFlow
    return templateText rows ++ " / " ++ flowText isDense (← autoTracks)) <|>
  (do
    let isDense ← autoFlow
    let sizes ← autoTracks
    slash
    return flowText isDense sizes ++ " / " ++ templateText (← template))

def autoFlowText : Reader Text := do
  let step (s : Option Text × Bool) : Reader (Option Text × Bool) :=
    (do return (← fill s.1 (oneOf "row column"), s.2)) <|> (do guard !s.2; word "dense"; return (s.1, true))
  let (direction, isDense) ← steps step (none, false)
  guard (direction.isSome || isDense)
  let direction := direction.getD "row"
  if isDense then
    return if direction == "row" then "dense" else "column dense"
  return direction

inductive Line where
  | auto
  | area (name : Text)
  | line (index : Int) (name : Option Text)
  | span (count : Int) (name : Option Text)
  deriving Repr, BEq

namespace Line

def read : Reader Line :=
  (do word "auto"; return .auto) <|>
  (do
    word "span"
    match ← optional? integer with
    | some n => return .span n (← optional? customName)
    | none =>
      let n ← customName
      return .span ((← optional? integer).getD 1) (some n)) <|>
  (do
    let n ← integer
    return .line n (← optional? customName)) <|>
  (do
    let n ← customName
    match ← optional? integer with
    | some i => return .line i (some n)
    | none => return .area n)

def text : Line → Text
  | .auto => "auto"
  | .area n => identifierText n
  | .line i n => spaced (integerText i :: (n.map identifierText).toList)
  | .span c n =>
    let count := if c != 1 || n.isNone then [integerText c] else []
    spaced ("span".toList :: count ++ (n.map identifierText).toList)

def opposite : Line → Line
  | .area n => .area n
  | _ => .auto

def impliesEnd (start stop : Line) : Bool := start.opposite == stop

end Line

def afterSlash : Reader Line := do
  slash
  Line.read

def placement : Reader Text := do
  let start ← Line.read
  let stop := (← optional? afterSlash).getD start.opposite
  return start.text ++ (if start.impliesEnd stop then [] else " / ".toList ++ stop.text)

def area : Reader Text := do
  let rowStart ← Line.read
  let second ← optional? afterSlash
  let third ← optional? afterSlash
  let fourth ← optional? afterSlash
  let columnStart := second.getD rowStart.opposite
  let rowEnd := third.getD rowStart.opposite
  let columnEnd := fourth.getD columnStart.opposite
  let omitsColumnEnd := columnStart.impliesEnd columnEnd
  let omitsRowEnd := omitsColumnEnd && rowStart.impliesEnd rowEnd
  let omitsColumnStart := omitsRowEnd && rowStart.impliesEnd columnStart
  let shown (isOmitted : Bool) (l : Line) : List Text := if isOmitted then [] else [l.text]
  return " / ".toList.intercalate (rowStart.text :: shown omitsColumnStart columnStart ++
    shown omitsRowEnd rowEnd ++ shown omitsColumnEnd columnEnd)

end Grid

def gridReaders (column : Nat) : List (String × Reader Text) :=
  [("grid-template-columns", Grid.templateText <$> Grid.template),
    ("grid-template-rows", Grid.templateText <$> Grid.template),
    ("grid-auto-columns", spaced <$> Grid.autoTracks),
    ("grid-auto-rows", spaced <$> Grid.autoTracks),
    ("grid-auto-flow", Grid.autoFlowText),
    ("grid-template-areas", Grid.areas column),
    ("grid-template", Grid.gridTemplate column),
    ("grid", Grid.grid column),
    ("grid-row-start", Grid.Line.text <$> Grid.Line.read),
    ("grid-row-end", Grid.Line.text <$> Grid.Line.read),
    ("grid-column-start", Grid.Line.text <$> Grid.Line.read),
    ("grid-column-end", Grid.Line.text <$> Grid.Line.read),
    ("grid-row", Grid.placement),
    ("grid-column", Grid.placement),
    ("grid-area", Grid.area)]

end ComponentConverter.Stylesheet
