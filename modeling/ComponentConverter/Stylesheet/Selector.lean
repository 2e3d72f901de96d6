import ComponentConverter.Stylesheet.Reader

namespace ComponentConverter.Stylesheet

structure Simple where
  text : Text
  isUniversal : Bool
  isType : Bool
  namesOuter : Bool
  deriving Repr

namespace Simple

def plain (text : Text) : Simple := ⟨text, false, false, false⟩

def outer : Simple := ⟨['&'], false, false, true⟩

end Simple

/-- A selector as a whole. One that is simple can stand for a list of one. -/
structure Complex where
  text : Text
  namesOuter : Bool
  isSimple : Bool
  deriving Repr

structure Reach where
  afterElement : Bool
  afterPart : Bool
  afterSlotted : Bool
  afterScrollbar : Bool
  afterTransition : Bool
  forbidsElements : Bool
  forbidsCombinators : Bool
  deriving Repr

namespace Reach

def start : Reach := ⟨false, false, false, false, false, false, false⟩

/-- Inside another selector parts of elements are not allowed. -/
def inside : Reach := { start with forbidsElements := true }

def compoundOnly : Reach := { inside with forbidsCombinators := true }

def isAfterPseudo (r : Reach) : Bool := r.afterElement || r.afterPart || r.afterSlotted

end Reach

def lower (t : Text) : Text := t.map Char.toLower

def isAnyOf (names : String) (name : Text) : Bool := (names.splitOn " ").any (·.toList == lower name)

def scrollbarParts : String :=
  "-webkit-scrollbar -webkit-scrollbar-button -webkit-scrollbar-track -webkit-scrollbar-track-piece " ++
    "-webkit-scrollbar-thumb -webkit-scrollbar-corner -webkit-resizer"

/-- The parts of elements with a meaning of their own; nothing but a state can follow them. -/
def elementParts : String :=
  "before after first-line first-letter details-content selection placeholder marker backdrop " ++
    "file-selector-button cue cue-region target-text search-text spelling-error grammar-error " ++
    "checkmark picker-icon -moz-selection -moz-placeholder -webkit-input-placeholder " ++
    "-ms-input-placeholder -webkit-backdrop -webkit-file-upload-button -ms-browse view-transition " ++ scrollbarParts

def shortParts : String := "before after first-line first-letter"

def treeStates : String :=
  "first-child last-child only-child root empty scope host first-of-type last-of-type only-of-type"

def userStates : String := "hover active focus focus-visible focus-within"

def scrollbarStates : String :=
  "horizontal vertical decrement increment start end double-button single-button no-button " ++
    "corner-present window-inactive"

def knownStates : String :=
  "current past future playing paused seeking buffering stalled muted volume-locked fullscreen -webkit-full-screen " ++
    "-moz-full-screen -ms-fullscreen open closed modal picture-in-picture popover-open defined any-link " ++
    "-webkit-any-link -moz-any-link link local-link target target-within visited enabled disabled " ++
    "read-only -moz-read-only read-write -moz-read-write placeholder-shown -moz-placeholder-shown " ++
    "-ms-placeholder-shown default checked indeterminate blank valid invalid in-range out-of-range " ++
    "required optional user-valid user-invalid autofill -webkit-autofill -o-autofill " ++
    "active-view-transition " ++ userStates ++ " " ++ scrollbarStates

def standardName (names : String) (name : Text) : Text :=
  if isAnyOf names name then lower name else identifierText name

def skipComments (ps : List Piece) : List Piece := ps.dropWhile Piece.isComment

structure Steps where
  step : Int
  offset : Int
  deriving Repr, DecidableEq

namespace Steps

def dashDigits? : Text → Option Int
  | n :: '-' :: d :: t =>
    if n.toLower == 'n' && (d :: t).all Numeral.isDigit then some (-(Numeral.digitsValue (d :: t) : Int)) else none
  | _ => none

def unsigned (stop : Location) (step sign : Int) (ps : List Piece) : Except Fault (Steps × List Piece) :=
  match dropBlank ps with
  | [] => .error ⟨.endOfInput, stop⟩
  | p :: rest =>
    match p.head with
    | .number n =>
      match n.hasSign, n.whole? with
      | false, some b => .ok (⟨step, sign * b⟩, rest)
      | _, _ => .error ⟨.unexpectedToken p.head, p.stop⟩
    | t => .error ⟨.unexpectedToken t, p.stop⟩

def withOffset (stop : Location) (step : Int) (ps : List Piece) : Except Fault (Steps × List Piece) :=
  match dropBlank ps with
  | [] => .ok (⟨step, 0⟩, ps)
  | p :: rest =>
    match p.head with
    | .mark '+' => unsigned stop step 1 rest
    | .mark '-' => unsigned stop step (-1) rest
    | .number n =>
      match n.hasSign, n.whole? with
      | true, some b => .ok (⟨step, b⟩, rest)
      | _, _ => .ok (⟨step, 0⟩, ps)
    | _ => .ok (⟨step, 0⟩, ps)

def ofWord (stop : Location) (step : Int) (shown : Token) (word : Text) (p : Piece) (rest : List Piece) :
    Except Fault (Steps × List Piece) :=
  if lower word == ['n'] then withOffset stop step rest
  else if lower word == ['n', '-'] then unsigned stop step (-1) rest
  else
    match dashDigits? word with
    | some b => .ok (⟨step, b⟩, rest)
    | none => .error ⟨.unexpectedToken shown, p.stop⟩

def read (stop : Location) (ps : List Piece) : Except Fault (Steps × List Piece) :=
  match dropBlank ps with
  | [] => .error ⟨.endOfInput, stop⟩
  | p :: rest =>
    match p.head with
    | .number n =>
      match n.whole? with
      | some b => .ok (⟨0, b⟩, rest)
      | none => .error ⟨.unexpectedToken p.head, p.stop⟩
    | .dimension n unit =>
      match n.whole? with
      | some a => ofWord stop a (.name unit) unit p rest
      | none => .error ⟨.unexpectedToken p.head, p.stop⟩
    | .name n =>
      if lower n == "even" then .ok (⟨2, 0⟩, rest)
      else if lower n == "odd" then .ok (⟨2, 1⟩, rest)
      else
        match n with
        | '-' :: t => ofWord stop (-1) (.name n) t p rest
        | _ => ofWord stop 1 (.name n) n p rest
    | .mark '+' =>
      match skipComments rest with
      | [] => .error ⟨.endOfInput, stop⟩
      | q :: after =>
        match q.name? with
        | some n => ofWord stop 1 (.name n) n q after
        | none => .error ⟨.unexpectedToken q.head, q.stop⟩
    | t => .error ⟨.unexpectedToken t, p.stop⟩

def withSign (n : Int) : Text := (if 0 ≤ n then ['+'] else []) ++ (toString n).toList

def text (s : Steps) : Text :=
  if s.step == 0 then (toString s.offset).toList
  else if s == ⟨2, 1⟩ then "odd"
  else
    let step := if s.step == 1 then [] else if s.step == -1 then ['-'] else (toString s.step).toList
    step ++ ['n'] ++ (if s.offset == 0 then [] else withSign s.offset)

def firstWords : List (String × String) :=
  [("nth-child", "first-child"), ("nth-last-child", "last-child"), ("nth-of-type", "first-of-type"),
    ("nth-last-of-type", "last-of-type")]

end Steps

/-- The namespace of a name: none is told, any, the one without a name, or one with a name. -/
inductive Namespace where
  | implicit
  | any
  | empty
  | named (name : Text)

structure QualifiedName where
  space : Namespace
  name : Option Text

def localName (inAttribute : Bool) (stop : Location) (space : Namespace) (ps : List Piece) :
    Except Fault (QualifiedName × List Piece) :=
  match skipComments ps with
  | [] => .error ⟨.endOfInput, stop⟩
  | p :: rest =>
    match p.head with
    | .name n => .ok (⟨space, some n⟩, rest)
    | .mark '*' =>
      if inAttribute then .error ⟨.attributeLocalName p.head, placeOf stop ps⟩ else .ok (⟨space, none⟩, rest)
    | t => .error ⟨if inAttribute then .attributeLocalName t else .namespaceName t, placeOf stop ps⟩

def qualifiedName? (inAttribute : Bool) (stop : Location) (ps : List Piece) :
    Except Fault (Option (QualifiedName × List Piece)) := do
  let bar? (ps : List Piece) : Option (List Piece) :=
    match skipComments ps with
    | p :: rest => if p.is (.mark '|') then some rest else none
    | [] => none
  match skipComments ps with
  | [] => return none
  | p :: rest =>
    match p.head with
    | .name n =>
      match bar? rest with
      | some after => some <$> localName inAttribute stop (.named n) after
      | none => return some (⟨.implicit, some n⟩, rest)
    | .mark '*' =>
      match bar? rest with
      | some after => some <$> localName inAttribute stop .any after
      | none =>
        if inAttribute then
          match skipComments rest with
          | [] => throw ⟨.endOfInput, stop⟩
          | q :: _ => throw ⟨.attributeBar q.head, placeOf stop rest⟩
        return some (⟨.implicit, none⟩, rest)
    | .mark '|' => some <$> localName inAttribute stop .empty rest
    | _ => return none

def caseMark (stop : Location) (ps : List Piece) : Except Fault Text := do
  match dropBlank ps with
  | [] => return []
  | p :: rest =>
    match (p.name?.map lower).filter fun n => n == ['i'] || n == ['s'] with
    | some n =>
      expectEnd stop rest
      return ' ' :: n
    | none => throw ⟨.unexpectedToken p.head, placeOf stop ps⟩

def attributeTest (stop : Location) (inside : List Piece) : Except Fault Text := do
  let ps := dropBlank inside
  match ← qualifiedName? true stop ps with
  | none =>
    match ps with
    | [] => throw ⟨.endOfInput, stop⟩
    | p :: _ => throw ⟨.attributeName p.head, p.start⟩
  | some (q, rest) =>
    let space := match q.space with
      | .named n => identifierText n ++ ['|']
      | .any => "*|"
      | .implicit | .empty => []
    let head := space ++ identifierText (q.name.getD [])
    let operator? : Token → Option Text
      | .mark '=' => some ['=']
      | .compare c => some c.text
      | _ => none
    match dropBlank rest with
    | [] => return head
    | p :: after =>
      match operator? p.head with
      | none => throw ⟨.attributeOperator p.head, placeOf stop rest⟩
      | some operator =>
        match dropBlank after with
        | [] => throw ⟨.endOfInput, stop⟩
        | v :: last =>
          match v.head with
          | .name t | .string t => return head ++ operator ++ stringText t ++ (← caseMark stop last)
          | t => throw ⟨.attributeValue t, placeOf stop after⟩

inductive Relation where
  | free
  | relative
  | scoped
  | nested
  deriving Repr, DecidableEq

/-- How lists of selectors inside a selector are read; those with a fault can be passed over. -/
abbrev ListReader := Relation → Reach → Bool → Location → List Piece → Except Fault (List Complex)

structure Progress where
  rest : List Piece
  reach : Reach

def callText (name : Text) (argument : Text) : Text := name ++ ['('] ++ argument ++ [')']

def keptArgument (inside : List Piece) : Except Fault Text :=
  match firstBroken? inside with
  | some p => .error ⟨.unexpectedToken p.token, p.start⟩
  | none => .ok (piecesText inside)

def nameList (name? : Token → Option Text) (stop : Location) (inside : List Piece) : Except Fault Text := do
  let names ← (splitAtCommas stop inside).mapM fun (part, partStop) => do
    match dropBlank part with
    | [] => throw ⟨.endOfInput, partStop⟩
    | p :: rest =>
      match name? p.head with
      | some n =>
        expectEnd partStop rest
        return identifierText n
      | none => throw ⟨.unexpectedToken p.head, placeOf partStop part⟩
  return listed names

def languageName? : Token → Option Text
  | .name n | .string n => some n
  | _ => none

def chosenName? : Token → Option Text
  | .name n => if isReserved n then none else some n
  | _ => none

def transitionClasses (stop : Location) : List Piece → Except Fault Text
  | [] => .ok []
  | [p] => .error ⟨.invalidState, if p.is (.mark '.') then stop else p.stop⟩
  | p :: q :: rest => do
    unless p.is (.mark '.') do throw ⟨.invalidState, p.stop⟩
    match q.name? with
    | some n => return '.' :: identifierText n ++ (← transitionClasses stop rest)
    | none => throw ⟨.invalidState, q.stop⟩

def transitionPart (stop : Location) (inside : List Piece) : Except Fault Text := do
  match dropBlank (inside.filter (!·.isComment)) with
  | [] => return []
  | p :: rest =>
    if p.is (.mark '*') then return '*' :: (← transitionClasses stop rest)
    match p.name?.filter (!isReserved ·) with
    | some n => return identifierText n ++ (← transitionClasses stop rest)
    | none => transitionClasses stop (p :: rest)

def single (selectors : ListReader) (stop : Location) (inside : List Piece) : Except Fault Complex := do
  let found ← selectors .free .compoundOnly false stop inside
  match found with
  | [c] => return c
  | _ =>
    let first := inside.takeWhile (!·.is .comma)
    throw ⟨.unexpectedToken .comma, placeOf stop (inside.drop first.length)⟩

def positioned? (selectors : ListReader) (name : Text) (stop : Location) (inside : List Piece) :
    Except Fault Simple := do
  let (s, rest) ← Steps.read stop inside
  let word? := (Steps.firstWords.find? (·.1.toList == name)).map fun w => w.2.toList
  let plain : Simple :=
    match if s == ⟨0, 1⟩ then word? else none with
    | some w => .plain (':' :: w)
    | none => .plain (':' :: callText name s.text)
  let allowsList := name == "nth-child" || name == "nth-last-child"
  match dropBlank rest with
  | [] => return plain
  | p :: after =>
    if allowsList && (p.name?.map (sameLetters "of")).getD false then
      let list ← selectors .free .inside true stop after
      let text := s.text ++ " of " ++ listed (list.map (·.text))
      return ⟨':' :: callText name text, false, false, list.any (·.namesOuter)⟩
    throw ⟨.unexpectedToken p.head, placeOf stop rest⟩

def functionState (selectors : ListReader) (reach : Reach) (name : Text) (stop : Location)
    (inside : List Piece) : Except Fault Simple := do
  let known := lower name
  let start := placeOf stop inside
  let ofList (list : List Complex) : Simple :=
    ⟨':' :: callText known (listed (list.map (·.text))), false, false, list.any (·.namesOuter)⟩
  match String.ofList known with
  | "nth-child" | "nth-last-child" | "nth-of-type" | "nth-last-of-type" | "nth-col" | "nth-last-col" =>
    if reach.isAfterPseudo then throw ⟨.invalidState, start⟩
    positioned? selectors known stop inside
  | "is" =>
    let list ← selectors .free .inside true stop inside
    match list with
    | [c] =>
      if c.isSimple then return ⟨c.text, false, false, c.namesOuter⟩ else return ofList list
    | _ => return ofList list
  | "where" | "-webkit-any" | "-moz-any" => return ofList (← selectors .free .inside true stop inside)
  | "not" => return ofList (← selectors .free .inside false stop inside)
  | "has" => return ofList (← selectors .relative .start true stop inside)
  | "host" =>
    if reach.isAfterPseudo then throw ⟨.invalidState, start⟩
    return ofList [← single selectors stop inside]
  | _ =>
    if reach.isAfterPseudo then throw ⟨.invalidState, start⟩
    match String.ofList known with
    | "lang" => return .plain (':' :: callText known (← nameList languageName? stop inside))
    | "active-view-transition-type" =>
      return .plain (':' :: callText known (← nameList chosenName? stop inside))
    | "dir" =>
      match Reader.run? (Reader.oneOf "ltr rtl") inside with
      | some d => return .plain (':' :: callText known d)
      | none =>
        match dropBlank inside with
        | [] => throw ⟨.endOfInput, stop⟩
        | p :: _ => throw ⟨.unexpectedToken p.head, start⟩
    | _ => return .plain (':' :: callText (identifierText name) (← keptArgument inside))

def plainState (reach : Reach) (name : Text) (place stop : Location) : Except Fault Simple := do
  if reach.afterSlotted then throw ⟨.invalidState, stop⟩
  if !reach.isAfterPseudo && isAnyOf treeStates name then return .plain (':' :: lower name)
  if reach.afterTransition && isAnyOf "only-child" name then return .plain (':' :: lower name)
  if reach.afterScrollbar then
    unless isAnyOf (scrollbarStates ++ " enabled disabled hover active") name do
      throw ⟨.stateAfterScrollbar, place⟩
  else if reach.afterElement then
    unless isAnyOf userStates name do throw ⟨.stateAfterPseudoElement, place⟩
  else if isAnyOf scrollbarStates name then throw ⟨.scrollbarState, place⟩
  return .plain (':' :: standardName knownStates name)

def elementPart (selectors : ListReader) (reach : Reach) (name : Text) (argument : Option (List Piece × Location)) :
    Except Fault (Simple × Reach) := do
  match argument with
  | none =>
    let mark := if isAnyOf shortParts name then ":" else "::"
    let reach := if isAnyOf elementParts name then
        { reach with afterElement := true, afterScrollbar := reach.afterScrollbar || isAnyOf scrollbarParts name,
                     afterTransition := reach.afterTransition || isAnyOf "view-transition" name }
      else reach
    return (.plain (mark.toList ++ standardName elementParts name), reach)
  | some (inside, stop) =>
    let known := lower name
    let after : Reach := { reach with afterElement := true }
    match String.ofList known with
    | "part" =>
      let names ← (inside.filter (!·.isBlank)).mapM fun p =>
        match p.name? with
        | some n => Except.ok (identifierText n)
        | none => .error ⟨.unexpectedToken p.head, p.start⟩
      if names.isEmpty then throw ⟨.endOfInput, stop⟩
      return (.plain ("::" ++ callText known (spaced names)), { reach with afterPart := true })
    | "slotted" =>
      let c ← single selectors stop inside
      return (⟨"::" ++ callText known c.text, false, false, c.namesOuter⟩, { reach with afterSlotted := true })
    | "cue" | "cue-region" =>
      let list ← selectors .free .start false stop inside
      return (.plain ("::" ++ callText known (listed (list.map (·.text)))), after)
    | "view-transition-group" | "view-transition-image-pair" | "view-transition-old" |
        "view-transition-new" =>
      return (.plain ("::" ++ callText known (← transitionPart stop inside)), { after with afterTransition := true })
    | "picker" =>
      match dropBlank inside with
      | [] => throw ⟨.endOfInput, stop⟩
      | p :: rest =>
        match p.name? with
        | some n =>
          expectEnd stop rest
          return (.plain ("::" ++ callText known (identifierText n)), after)
        | none => throw ⟨.unexpectedToken p.head, placeOf stop inside⟩
    | _ => return (.plain ("::" ++ callText (identifierText name) (← keptArgument inside)), reach)

def pseudo (selectors : ListReader) (reach : Reach) (stop : Location) (ps : List Piece) :
    Except Fault (Simple × Progress) := do
  let place := placeOf stop ps
  let (isDouble, ps) :=
    match skipComments ps with
    | p :: rest => if p.is .colon then (true, rest) else (false, ps)
    | [] => (false, ps)
  match skipComments ps with
  | [] => throw ⟨.endOfInput, stop⟩
  | p :: rest =>
    let go (name : Text) (argument : Option (List Piece × Location)) (headStop : Location) :
        Except Fault (Simple × Progress) := do
      if isDouble || isAnyOf shortParts name then
        if reach.afterElement || reach.forbidsElements then throw ⟨.invalidState, headStop⟩
        let (s, reach) ← elementPart selectors reach name argument
        return (s, ⟨rest, reach⟩)
      match argument with
      | some (inside, insideStop) => return (← functionState selectors reach name insideStop inside, ⟨rest, reach⟩)
      | none => return (← plainState reach name place headStop, ⟨rest, reach⟩)
    match p with
    | .token placed =>
      match placed.token with
      | .name n => go n none placed.stop
      | t => throw ⟨.pseudoName t, placed.stop⟩
    | .nested head inside insideStop _ =>
      match head.token with
      | .function n => go n (some (inside, insideStop)) head.stop
      | t => throw ⟨.pseudoName t, head.stop⟩

def simple? (selectors : ListReader) (stop : Location) (s : Progress) :
    Except Fault (Option (Simple × Progress)) := do
  match skipComments s.rest with
  | [] => return none
  | p :: rest =>
    let refused := s.reach.isAfterPseudo && (match p.head with
      | .hash _ true | .mark '.' | .opening .square => true
      | _ => false)
    if refused then throw ⟨.afterPseudoElement p.head, placeOf stop s.rest⟩
    match p.head with
    | .hash name true => return some (.plain ('#' :: identifierText name), ⟨rest, s.reach⟩)
    | .mark '.' =>
      match skipComments rest with
      | [] => throw ⟨.endOfInput, stop⟩
      | q :: after =>
        match q.name? with
        | some name => return some (.plain ('.' :: identifierText name), ⟨after, s.reach⟩)
        | none => throw ⟨.className q.head, placeOf stop rest⟩
    | .opening .square =>
      match p.bracket? .square with
      | some (inside, insideStop) =>
        let text ← attributeTest insideStop inside
        return some (.plain (['['] ++ text ++ [']']), ⟨rest, s.reach⟩)
      | none => return none
    | .colon => some <$> pseudo selectors s.reach stop rest
    | .mark '&' => return some (.outer, ⟨rest, s.reach⟩)
    | _ => return none

def typeSelector (q : QualifiedName) : Simple :=
  let name := (q.name.map identifierText).getD ['*']
  let space := match q.space with
    | .named n => identifierText n ++ ['|']
    | .empty => ['|']
    | .any | .implicit => []
  ⟨space ++ name, q.name.isNone && space.isEmpty, true, false⟩

def compound (selectors : ListReader) (stop : Location) (reach : Reach) (ps : List Piece) :
    Except Fault (List Simple × Progress) := do
  let ps := dropBlank ps
  let (outer, ps) :=
    match ps with
    | p :: rest => if p.is (.mark '&') then ([Simple.outer], rest) else ([], ps)
    | [] => ([], ps)
  let (type, ps) ← match ← qualifiedName? false stop ps with
    | some (q, rest) => pure ([typeSelector q], rest)
    | none => pure ([], ps)
  let (parts, progress) ← gather (simple? selectors stop) (ps.length + 1) ⟨ps, reach⟩
  return (outer ++ type ++ parts, progress)

/-- The text of a compound; a sign for any element is left out before other parts. -/
def compoundText (parts : List Simple) : Text :=
  match parts with
  | [s] => s.text
  | _ => (parts.filter (!·.isUniversal)).flatMap (·.text)

def combinator? (ps : List Piece) : Option (Text × List Piece) :=
  let rest := dropBlank ps
  match rest with
  | [] => none
  | p :: after =>
    if p.is (.mark '>') then some (" > ", after)
    else if p.is (.mark '+') then some (" + ", after)
    else if p.is (.mark '~') then some (" ~ ", after)
    else if (ps.takeWhile Piece.isBlank).any (!·.isComment) then some ([' '], rest)
    else none

def complexFrom (selectors : ListReader) (stop : Location) (reach : Reach) :
    Nat → Bool → Complex → List Piece → Except Fault (Complex × List Piece)
  | 0, _, before, ps => .ok (before, ps)
  | fuel + 1, hasCombinator, before, ps => do
    let (parts, progress) ← compound selectors stop reach ps
    if parts.isEmpty then
      throw ⟨if hasCombinator then .danglingCombinator else .emptySelector, placeOf stop (dropBlank ps)⟩
    let startsWithType := (parts.head?.map (·.isType)).getD false
    let isSimple := !hasCombinator && !startsWithType && !progress.reach.isAfterPseudo
    let before : Complex :=
      ⟨before.text ++ compoundText parts, before.namesOuter || parts.any (·.namesOuter), isSimple⟩
    if progress.reach.isAfterPseudo then return (before, progress.rest)
    match combinator? progress.rest with
    | none => return (before, progress.rest)
    | some (text, rest) =>
      if reach.forbidsCombinators then throw ⟨.invalidState, placeOf stop rest⟩
      complexFrom selectors stop reach fuel true { before with text := before.text ++ text } rest

def leading? (ps : List Piece) : Option (Text × List Piece) :=
  match dropBlank ps with
  | p :: rest =>
    if p.is (.mark '>') then some (" > ", rest)
    else if p.is (.mark '+') then some (" + ", rest)
    else if p.is (.mark '~') then some (" ~ ", rest)
    else none
  | [] => none

/-- Reads one selector. A relative one can start with a combinator, and cannot be empty. -/
def complex (selectors : ListReader) (relation : Relation) (reach : Reach) (stop : Location)
    (ps : List Piece) : Except Fault Complex := do
  if relation != .free && (dropBlank ps).isEmpty then throw ⟨.endOfInput, stop⟩
  let lead := if relation == .free then none else leading? ps
  let start := (lead.map Prod.snd).getD ps
  let (c, rest) ← complexFrom selectors stop reach (start.length + 1) false ⟨[], false, false⟩ start
  expectEnd stop rest
  return match lead, relation with
  | some (text, _), .nested => ⟨'&' :: text ++ c.text, true, false⟩
  | some (text, _), .scoped => ⟨":scope" ++ text ++ c.text, c.namesOuter, false⟩
  | some (text, _), _ => ⟨text ++ c.text, c.namesOuter, false⟩
  | none, .nested => if c.namesOuter then c else ⟨"& " ++ c.text, true, false⟩
  | none, _ => c

def selectorList : Nat → ListReader
  | 0, _, _, _, stop, ps => .error ⟨.tooDeep, placeOf stop ps⟩
  | fuel + 1, relation, reach, isForgiving, stop, ps =>
    let one (part : List Piece × Location) : Except Fault Complex :=
      complex (selectorList fuel) relation reach part.2 part.1
    let parts := splitAtCommas stop ps
    if isForgiving then
      .ok (parts.filterMap fun part => match one part with
        | .ok c => some c
        | .error _ => none)
    else parts.mapM one

def ruleSelectors (isNested : Bool) (stop : Location) (ps : List Piece) : Except Fault (List Text) := do
  let relation := if isNested then Relation.nested else .free
  return (← selectorList depthBound relation .start false stop ps).map (·.text)

def scopeSelectors (stop : Location) (ps : List Piece) : Except Fault (List Text) := do
  return (← selectorList depthBound .scoped .start true stop ps).map (·.text)

def outerSelectors (stop : Location) (ps : List Piece) : Except Fault (List Text) := do
  let found ← selectorList depthBound .free .start false stop ps
  unless found.all (·.namesOuter) do throw ⟨.missingOuter, stop⟩
  return found.map (·.text)

end ComponentConverter.Stylesheet
