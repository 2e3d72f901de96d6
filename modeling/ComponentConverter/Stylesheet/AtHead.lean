import ComponentConverter.Stylesheet.Container
import ComponentConverter.Stylesheet.Descriptor
import ComponentConverter.Stylesheet.Media
import ComponentConverter.Stylesheet.Selector
import ComponentConverter.Stylesheet.Supports

namespace ComponentConverter.Stylesheet

inductive Level where
  | top
  | group
  | style
  deriving Repr, DecidableEq

/-- What a head announces. Those that hold the text of the whole head are written with it. -/
inductive AtHead where
  | group (head : Text)
  | layers (names : List Text)
  | nest (selectors : List Text)
  | frames (head : Text)
  | page (head : Text)
  | declarations (head : Text)
  | descriptors (kind : Descriptor.Kind) (head : Text)
  | features (head : Text)
  | registration (head : Text)
  | reference (text : Text)
  | charset
  | unknown (head : Text)
  deriving Repr

namespace AtHead

open Strict

def isForStyle : AtHead → Bool
  | .group _ | .layers _ | .nest _ | .unknown _ => true
  | _ => false

def written (name : Text) (text : Text) : Text := '@' :: name ++ (if text.isEmpty then [] else ' ' :: text)

def ofRest {α : Type} (f : Location → List Piece → Except Fault α) : Strict α := do
  let a ← MonadExcept.ofExcept (f (← read) (← get))
  set ([] : List Piece)
  return a

def layerRest : Nat → List Piece → Text × List Piece
  | 0, ps => ([], ps)
  | fuel + 1, ps =>
    match skipComments ps with
    | p :: rest =>
      match p.is (.mark '.'), skipComments rest with
      | true, q :: after =>
        match q.name? with
        | some n =>
          let (more, left) := layerRest fuel after
          ('.' :: identifierText n ++ more, left)
        | none => ([], ps)
      | _, _ => ([], ps)
    | [] => ([], ps)

def layerName : Strict Text := do
  let n ← name
  let ps ← get
  let (rest, left) := layerRest ps.length ps
  set left
  return identifierText n ++ rest

/-- Names of layers between commas. A list that ends too early is empty. -/
def layerNames (stop : Location) (ps : List Piece) : Except Fault (List Text) :=
  let rec go : List (List Piece × Location) → Except Fault (Option (List Text))
    | [] => .ok (some [])
    | (part, partStop) :: parts =>
      match Strict.run? layerName partStop part with
      | .ok n => return (← go parts).map (n :: ·)
      | .error fault =>
        if fault.cause == .endOfInput then
          if parts.isEmpty then .ok none else .error ⟨.unexpectedToken .comma, partStop⟩
        else .error fault
  return (← go (splitAtCommas stop ps)).getD []

def addressText : Strict Text := expect fun p =>
  match p with
  | .token t =>
    match t.token with
    | .string v | .url v => some (stringText v)
    | _ => none
  | .nested h inside _ _ =>
    match h.token, inside.filter (!·.isBlank) with
    | .function f, [.token t] =>
      match t.token with
      | .string v => if sameLetters f "url" then some (stringText v) else none
      | _ => none
    | _, _ => none

def inCall {α : Type} (f : String) (r : Strict α) : Strict α := do
  let start ← place
  let p ← next
  match p with
  | .nested h inside stop _ =>
    if (match h.token with
      | .function g => sameLetters g f.toList
      | _ => false) then within stop inside r
    else failAt (.unexpectedToken p.head) start
  | .token t => failAt (.unexpectedToken t.token) start

def isCall (f : String) : Strict Bool := do
  match dropBlank (← get) with
  | p :: _ => return (p.function?.map fun g => sameLetters g.1 f.toList).getD false
  | [] => return false

def supportsArgument : Strict Support := do
  match ← attempt Support.read with
  | some s => return s
  | none => Support.supportedDeclaration

def importHead : Strict AtHead := do
  let address ← addressText
  let layer ←
    if (← attempt (word "layer")).isSome then pure ["layer".toList]
    else if ← isCall "layer" then
      let n ← inCall "layer" layerName
      pure ["layer(" ++ n ++ [')']]
    else pure []
  let supports ←
    if ← isCall "supports" then
      let s ← inCall "supports" supportsArgument
      let isBare := match s with
        | .declaration .. => false
        | _ => true
      pure ["supports" ++ Support.bracketed isBare s.text]
    else pure []
  let media ← ofRest Media.list
  let media := if media.isEmpty then [] else [Media.text media]
  return .reference (written "import" (spaced ([address] ++ layer ++ supports ++ media)))

def namespaceHead : Strict AtHead := do
  let n ← attempt name
  let address ← addressText
  return .reference (written "namespace" (spaced ((n.map identifierText).toList ++ [address])))

def pageKinds : Nat → List Piece → Option (Text × List Piece)
  | 0, ps => some ([], ps)
  | fuel + 1, ps =>
    match skipComments ps with
    | p :: rest =>
      if p.is .colon then do
        let (k, rest) ← StateT.run (Reader.oneOf "left right first last blank") rest
        let (more, left) ← pageKinds fuel rest
        return (':' :: k ++ more, left)
      else some ([], ps)
    | [] => some ([], ps)

def pageSelector : Reader Text := do
  let n ← Reader.optional? Reader.name
  let ps ← get
  let (kinds, rest) ← Reader.ofOption (pageKinds ps.length (if n.isSome then ps else dropBlank ps))
  guard (n.isSome || !kinds.isEmpty)
  set rest
  return (n.map identifierText).getD [] ++ kinds

def framesName : Strict Text := do
  let p ← next
  let isTaken (n : Text) : Bool := isReserved n || sameLetters n "none"
  match p.head with
  | .name n => if isTaken n then fail (.unexpectedToken p.head) else return identifierText n
  | .string n => return if isTaken n then stringText n else identifierText n
  | t => fail (.unexpectedToken t)

def dashedName : Strict Text := expect fun p => (p.name?).filter ("--".toList.isPrefixOf ·)

def chosenName : Strict Text := expect fun p => (p.name?).filter (!isReserved ·)

def scopeHead : Strict Text := do
  let selectors : Strict Text := do
    let start ← place
    let p ← next
    match p.bracket? .round with
    | some (inside, stop) =>
      let found ← MonadExcept.ofExcept (scopeSelectors stop inside)
      return ['('] ++ listed found ++ [')']
    | none => failAt (.unexpectedToken p.head) start
  let isBracket := match dropBlank (← get) with
    | p :: _ => (p.bracket? .round).isSome
    | [] => false
  let first ← if isBracket then some <$> selectors else pure none
  let last ←
    if (← attempt (word "to")).isSome then some <$> selectors else pure none
  return spaced (first.toList ++ (last.map fun t => "to ".toList ++ t).toList)

/-- The only condition on addresses that is known: any address. -/
def addressHead : Strict Text := do
  inCall "url-prefix" do
    let _ ← attempt do
      let t ← value Reader.string
      unless t.isEmpty do fail .invalidValue
  return "url-prefix()"

def framesNames : List String := ["keyframes", "-webkit-keyframes", "-moz-keyframes", "-o-keyframes", "-ms-keyframes"]

def readAt (level : Level) (keyword : Text) : Strict AtHead := do
  let n := keyword.map Char.toLower
  let group (text : Text) : AtHead := .group (written n text)
  if framesNames.any (·.toList == n) then return .frames ('@' :: n ++ ' ' :: (← framesName))
  match String.ofList n with
  | "media" => return group (Media.text (← ofRest Media.list))
  | "supports" => return group (← Support.read).text
  | "container" => return group (← Container.head)
  | "starting-style" => return group []
  | "scope" => return group (← scopeHead)
  | "-moz-document" => return group (← addressHead)
  | "layer" => return .layers (← ofRest layerNames)
  | "font-face" => return .descriptors .font (written n [])
  | "font-palette-values" => return .descriptors .palette (written n (identifierText (← dashedName)))
  | "view-transition" => return .descriptors .transition (written n [])
  | "font-feature-values" =>
    match ← attempt (value Font.families) with
    | some t => return .features (written n t)
    | none => if ← isDone then return .features (written n []) else return .features (written n (← value Font.families))
  | "counter-style" => return .declarations (written n (identifierText (← chosenName)))
  | "viewport" | "-ms-viewport" => return .declarations (written n [])
  | "page" =>
    let selectors := (← attempt (value (Reader.commaList pageSelector))).getD []
    return .page (written n (listed selectors))
  | _ =>
    match level, String.ofList n with
    | .top, "import" => importHead
    | .top, "namespace" => namespaceHead
    | .top, "charset" =>
      let _ ← expect fun p => match p.head with
        | .string _ => some ()
        | _ => none
      return .charset
    | .top, "property" => return .registration (written n (identifierText (← dashedName)))
    | .style, "nest" => return .nest (← ofRest outerSelectors)
    | _, _ =>
      skipBlank
      return .unknown (written keyword (← ofRest rawText))

def read (level : Level) (keyword : Text) : Strict AtHead := do
  let h ← readAt level keyword
  if level == .style && !h.isForStyle then fail (.unknownRule keyword)
  return h

end AtHead

end ComponentConverter.Stylesheet
