import ComponentConverter.Stylesheet.Value.Image

namespace ComponentConverter.Stylesheet

def edges : String := "top bottom left right block-start block-end inline-start inline-end block inline"

/-- Each name of the first list with each of the second behind it. -/
def joinedNames (first second : String) : String :=
  " ".intercalate ((first.splitOn " ").flatMap fun a => (second.splitOn " ").map (a ++ "-" ++ ·))

def ownNames : List String :=
  ["background opacity color display visibility width height block-size inline-size aspect-ratio " ++
    "overflow overflow-x overflow-y position top bottom left right inset border outline place-content " ++
    "justify-self place-self justify-items place-items row-gap column-gap gap grid margin padding " ++
    "scroll-margin scroll-padding line-height font vertical-align transform-box translate rotate scale " ++
    "text-transform white-space word-break line-break overflow-wrap word-wrap text-align text-justify " ++
    "word-spacing letter-spacing text-indent text-decoration-thickness text-shadow direction unicode-bidi " ++
    "resize cursor caret-color caret-shape caret accent-color list-style fill fill-rule fill-opacity " ++
    "stroke marker color-interpolation color-interpolation-filters color-rendering shape-rendering " ++
    "text-rendering image-rendering clip-rule mask-mode mask-type mask-border-mode mask-border " ++
    "mask-composite z-index container-type container-name container color-scheme",
    joinedNames "inset" "block-start block-end inline-start inline-end block inline",
    joinedNames "min max" "width height block-size inline-size",
    joinedNames "background" "color image position-x position-y position size repeat attachment origin",
    joinedNames "border" (joinedNames edges "color style width" ++ " " ++ edges ++ " color style width spacing"),
    joinedNames "border-start border-end" "start-radius end-radius",
    joinedNames "border-image mask-border" "source outset repeat width slice",
    joinedNames "outline" "color style width",
    joinedNames "grid" ("template-columns template-rows template-areas template auto-columns auto-rows " ++
      "auto-flow row-start row-end row column-start column-end column area"),
    joinedNames "margin padding scroll-margin scroll-padding" edges,
    joinedNames "font" "weight size stretch family style variant-caps palette",
    joinedNames "animation" "composition timeline range-start range-end range",
    joinedNames "stroke" "opacity width linecap linejoin miterlimit dasharray dashoffset",
    joinedNames "view-transition" "name class group", joinedNames "list-style" "type image position",
    joinedNames "marker" "side start mid end"]

def knownNames : List (String × String) :=
  ownNames.map (("", ·)) ++
  [("-webkit-", "flex-grow flex-shrink flex-basis order align-content justify-content align-self " ++
    "align-items box-decoration-break text-emphasis-style text-emphasis-color text-emphasis " ++
    "text-emphasis-position clip-path mask-image mask-repeat mask-position-x mask-position-y " ++
    "mask-position mask-clip mask-origin mask-size mask filter backdrop-filter print-color-adjust " ++
    "text-decoration-skip-ink"),
    ("-webkit- -ms-", "flex-direction flex-wrap flex-flow flex"),
    ("-webkit- -moz-", "background-clip box-shadow box-sizing border-top-left-radius " ++
    "border-top-right-radius border-bottom-left-radius border-bottom-right-radius border-radius " ++
    "transform-style backface-visibility perspective perspective-origin text-decoration-line " ++
    "text-decoration-style text-decoration-color text-decoration"),
    ("-webkit- -moz- -ms-", "transition-property transition-duration transition-delay " ++
    "transition-timing-function transition hyphens text-size-adjust user-select appearance"),
    ("-webkit- -moz- -o-", "border-image animation-name animation-duration " ++
    "animation-timing-function animation-iteration-count animation-direction animation-play-state " ++
    "animation-delay animation-fill-mode animation"),
    ("-webkit- -moz- -ms- -o-", "transform transform-origin"),
    ("-moz- -o-", "tab-size"),
    ("-moz-", "text-align-last"),
    ("-o-", "text-overflow")]

def makersNames : List String :=
  (("box-orient box-direction box-ordinal-group box-align box-flex box-pack box-lines".splitOn " ").flatMap
    fun n => ["-webkit-" ++ n, "-moz-" ++ n]) ++
  ["-ms-flex-pack", "-ms-flex-order", "-ms-flex-align", "-ms-flex-item-align", "-ms-flex-line-pack",
    "-ms-flex-positive", "-ms-flex-negative", "-ms-flex-preferred-size"] ++
  ["-webkit-box-flex-group", "-webkit-mask-composite", "-webkit-mask-source-type", "-webkit-mask-box-image",
    "-webkit-mask-box-image-source", "-webkit-mask-box-image-slice", "-webkit-mask-box-image-width",
    "-webkit-mask-box-image-outset", "-webkit-mask-box-image-repeat"]

/-- A name of a property as it is written: the mark of a maker, and the rest, if it is known. -/
def knownName? (n : Text) : Option (Text × Text) :=
  let n := n.map Char.toLower
  let (maker, rest) := splitMaker n
  if makersNames.any (·.toList == n) then some (maker, rest)
  else if knownNames.any fun (marks, names) =>
      (names.splitOn " ").any (·.toList == rest) &&
        (maker.isEmpty || (marks.splitOn " ").any (·.toList == maker)) then
    some (maker, rest)
  else none

def propertyName (n : Text) : Text :=
  match knownName? n with
  | some (maker, rest) => maker ++ rest
  | none => if sameLetters n "all" then "all" else identifierText n

def isCustomName (n : Text) : Bool := "--".toList.isPrefixOf n

end ComponentConverter.Stylesheet
