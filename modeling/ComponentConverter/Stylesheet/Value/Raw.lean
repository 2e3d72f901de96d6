import ComponentConverter.Stylesheet.Value.ColorReading

namespace ComponentConverter.Stylesheet

def resolutionText? (x : Float32) (unit : Text) : Option Text :=
  let unit := unit.map Char.toLower
  if unit == "dpi" || unit == "dpcm" then some (Quantity.withUnit x unit)
  else if unit == "dppx" || unit == ['x'] then some (Quantity.withUnit x ['x'])
  else none

def dimensionText (n : Numeral) (unit : Text) : Text :=
  match Quantity.ofUnit? n.value unit with
  | some q => q.text true
  | none => (resolutionText? n.value unit).getD (Quantity.withUnit n.value unit)

def rawToken : Token → Text
  | .number n => Number.text n.value
  | .dimension n unit => dimensionText n unit
  | .hash n _ =>
    match Color.ofHex? n with
    | some c => c.text
    | none => '#' :: nameText n
  | t => t.text

def trimBlank (ps : List Piece) : List Piece :=
  let isSpace (p : Piece) : Bool := p.isBlank && !p.isComment
  if ps.length ≤ 1 then ps
  else
    let ps := if (ps.head?.map isSpace).getD false then ps.drop 1 else ps
    if (ps.getLast?.map isSpace).getD false then ps.dropLast else ps

abbrev RawWriter := Location → List Piece → Except Fault Text

def fallbackText (list : RawWriter) (stop : Location) (ps : List Piece) : Except Fault Text := do
  match dropBlank ps with
  | [] => return []
  | p :: rest =>
    if p.is .comma then return ", " ++ (← list stop rest)
    throw ⟨.unexpectedToken p.head, placeOf stop ps⟩

def variableText (list : RawWriter) (stop : Location) (ps : List Piece) : Except Fault Text := do
  match dropBlank ps with
  | [] => throw ⟨.endOfInput, stop⟩
  | p :: rest =>
    match p.name? with
    | some n =>
      unless "--".toList.isPrefixOf n do throw ⟨.unexpectedToken p.head, placeOf stop ps⟩
      return "var(" ++ identifierText n ++ (← fallbackText list stop rest) ++ [')']
    | none => throw ⟨.unexpectedToken p.head, placeOf stop ps⟩

def surroundings : List String :=
  ["safe-area-inset-top", "safe-area-inset-right", "safe-area-inset-bottom", "safe-area-inset-left",
    "viewport-segment-width", "viewport-segment-height", "viewport-segment-top", "viewport-segment-left",
    "viewport-segment-bottom", "viewport-segment-right"]

def wholeNumber? (p : Piece) : Option Int :=
  match p.head with
  | .number n => n.whole?
  | _ => none

def indices : List Piece → List Int × List Piece
  | [] => ([], [])
  | p :: ps =>
    if p.isBlank then
      match indices ps with
      | ([], _) => ([], p :: ps)
      | found => found
    else
      match wholeNumber? p with
      | some n => let (ns, rest) := indices ps; (n :: ns, rest)
      | none => ([], p :: ps)

def surroundingText (list : RawWriter) (stop : Location) (ps : List Piece) : Except Fault Text := do
  match dropBlank ps with
  | [] => throw ⟨.endOfInput, stop⟩
  | p :: rest =>
    match p.name? with
    | some n =>
      let known := n.map Char.toLower
      let shown := if surroundings.any (·.toList == known) then known else identifierText n
      let (ns, rest) := indices rest
      return "env(" ++ spaced (shown :: ns.map integerText) ++ (← fallbackText list stop rest) ++ [')']
    | none => throw ⟨.unexpectedToken p.head, placeOf stop ps⟩

def colorParts : List (String × Reader Text) :=
  let rgb : Reader Text := do
    let light : Reader Text := return Number.text ((← Color.lightNumber <|> percentage) * 255).round
    let r ← light
    let g ← light
    let b ← light
    return spaced [r, g, b]
  let hsl : Reader Text := do
    let h ← Color.hue
    let s ← Color.percent
    let l ← Color.percent
    return spaced [Number.text h, Number.percentage s, Number.percentage l]
  [("rgb", rgb), ("hsl", hsl)]

def openColor? (list : RawWriter) (stop : Location) (f : Text) (inside : List Piece) : Option Text := do
  let f := f.map Char.toLower
  let (_, parts) ← colorParts.find? (·.1.toList == f)
  let (shown, rest) ← StateT.run (do let t ← parts; Reader.slash; return t) inside
  match list stop rest with
  | .ok alpha => some (f ++ ['('] ++ shown ++ " / " ++ alpha ++ [')'])
  | .error _ => none

def openScheme? (list : RawWriter) (stop : Location) (f : Text) (inside : List Piece) : Option Text :=
  if sameLetters f "light-dark" then
    let light := inside.takeWhile (!·.is .comma)
    match inside.drop light.length with
    | p :: dark =>
      match list p.start light, list stop dark with
      | .ok l, .ok d => some ("light-dark(" ++ l ++ ", " ++ d ++ [')'])
      | _, _ => none
    | [] => none
  else none

def quotedAddress (stop : Location) (inside : List Piece) : Except Fault Text := do
  match dropBlank inside with
  | [] => throw ⟨.endOfInput, stop⟩
  | p :: rest =>
    match p.head with
    | .string v =>
      expectEnd stop rest
      return v
    | t => throw ⟨.unexpectedToken t, placeOf stop inside⟩

mutual

def rawPiece : Nat → Piece → Except Fault Text
  | 0, p => .error ⟨.tooDeep, p.start⟩
  | fuel + 1, p =>
    match p with
    | .token placed =>
      if placed.token.isBroken then .error ⟨.unexpectedToken placed.token, placed.start⟩
      else .ok (rawToken placed.token)
    | .nested head inside stop closer =>
      match head.token with
      | .function f =>
        let own : Option Text :=
          if Color.functionNames.any (sameLetters ·.toList f) then
            ((Reader.run? color [.nested head inside stop closer]).map Color.text).orElse fun _ =>
              (openColor? (rawList fuel) stop f inside).orElse fun _ => openScheme? (rawList fuel) stop f inside
          else none
        match own with
        | some t => .ok t
        | none =>
          match String.ofList f with
          | "url" => (quotedAddress stop inside).map urlText
          | "var" => variableText (rawList fuel) stop inside
          | "env" => surroundingText (rawList fuel) stop inside
          | _ => do return identifierText f ++ ['('] ++ (← rawList fuel stop inside) ++ [')']
      | t => do return t.text ++ (← rawPieces fuel inside) ++ ((closerOf t).map Bracket.closer).toList

def rawPieces : Nat → List Piece → Except Fault Text
  | _, [] => .ok []
  | fuel, p :: ps => do
    let t ← rawPiece fuel p
    return t ++ (← rawPieces fuel ps)

/-- The text of a list of tokens. White space alone is nothing. -/
def rawList : Nat → RawWriter
  | fuel, _, ps =>
    match trimBlank ps with
    | [p] => if p.isBlank && !p.isComment then .ok [] else rawPiece fuel p
    | ps => rawPieces fuel ps

end

def rawText (stop : Location) (ps : List Piece) : Except Fault Text := rawList depthBound stop ps

end ComponentConverter.Stylesheet
