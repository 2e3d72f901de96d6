import ComponentConverter.Stylesheet.Value.Calculation
import ComponentConverter.Stylesheet.Value.ColorSpace

namespace ComponentConverter.Stylesheet

/-- A colour of red, green and blue parts and an opacity out of 255, or one that is kept in the
form it was given in, by its place in a space. One that is `unrounded` has no parts yet; it is
written like one that has. -/
inductive Color where
  | current
  | parts (red green blue alpha : Nat)
  | system (name : Text)
  | inSpace (space : ColorSpace) (place : Coordinates)
  | unrounded (space : ColorSpace) (place : Coordinates)
  | byScheme (light dark : Color)
  deriving Repr, BEq

namespace Color

def named : List (String × Nat) :=
  [("aliceblue", 0xF0F8FF), ("antiquewhite", 0xFAEBD7), ("aqua", 0x00FFFF),
    ("aquamarine", 0x7FFFD4), ("azure", 0xF0FFFF), ("beige", 0xF5F5DC), ("bisque", 0xFFE4C4),
    ("black", 0x000000), ("blanchedalmond", 0xFFEBCD), ("blue", 0x0000FF), ("blueviolet", 0x8A2BE2),
    ("brown", 0xA52A2A), ("burlywood", 0xDEB887), ("cadetblue", 0x5F9EA0), ("chartreuse", 0x7FFF00),
    ("chocolate", 0xD2691E), ("coral", 0xFF7F50), ("cornflowerblue", 0x6495ED),
    ("cornsilk", 0xFFF8DC), ("crimson", 0xDC143C), ("cyan", 0x00FFFF), ("darkblue", 0x00008B),
    ("darkcyan", 0x008B8B), ("darkgoldenrod", 0xB8860B), ("darkgray", 0xA9A9A9),
    ("darkgreen", 0x006400), ("darkgrey", 0xA9A9A9), ("darkkhaki", 0xBDB76B),
    ("darkmagenta", 0x8B008B), ("darkolivegreen", 0x556B2F), ("darkorange", 0xFF8C00),
    ("darkorchid", 0x9932CC), ("darkred", 0x8B0000), ("darksalmon", 0xE9967A),
    ("darkseagreen", 0x8FBC8F), ("darkslateblue", 0x483D8B), ("darkslategray", 0x2F4F4F),
    ("darkslategrey", 0x2F4F4F), ("darkturquoise", 0x00CED1), ("darkviolet", 0x9400D3),
    ("deeppink", 0xFF1493), ("deepskyblue", 0x00BFFF), ("dimgray", 0x696969), ("dimgrey", 0x696969),
    ("dodgerblue", 0x1E90FF), ("firebrick", 0xB22222), ("floralwhite", 0xFFFAF0),
    ("forestgreen", 0x228B22), ("fuchsia", 0xFF00FF), ("gainsboro", 0xDCDCDC),
    ("ghostwhite", 0xF8F8FF), ("gold", 0xFFD700), ("goldenrod", 0xDAA520), ("gray", 0x808080),
    ("green", 0x008000), ("greenyellow", 0xADFF2F), ("grey", 0x808080), ("honeydew", 0xF0FFF0),
    ("hotpink", 0xFF69B4), ("indianred", 0xCD5C5C), ("indigo", 0x4B0082), ("ivory", 0xFFFFF0),
    ("khaki", 0xF0E68C), ("lavender", 0xE6E6FA), ("lavenderblush", 0xFFF0F5),
    ("lawngreen", 0x7CFC00), ("lemonchiffon", 0xFFFACD), ("lightblue", 0xADD8E6),
    ("lightcoral", 0xF08080), ("lightcyan", 0xE0FFFF), ("lightgoldenrodyellow", 0xFAFAD2),
    ("lightgray", 0xD3D3D3), ("lightgreen", 0x90EE90), ("lightgrey", 0xD3D3D3),
    ("lightpink", 0xFFB6C1), ("lightsalmon", 0xFFA07A), ("lightseagreen", 0x20B2AA),
    ("lightskyblue", 0x87CEFA), ("lightslategray", 0x778899), ("lightslategrey", 0x778899),
    ("lightsteelblue", 0xB0C4DE), ("lightyellow", 0xFFFFE0), ("lime", 0x00FF00),
    ("limegreen", 0x32CD32), ("linen", 0xFAF0E6), ("magenta", 0xFF00FF), ("maroon", 0x800000),
    ("mediumaquamarine", 0x66CDAA), ("mediumblue", 0x0000CD), ("mediumorchid", 0xBA55D3),
    ("mediumpurple", 0x9370DB), ("mediumseagreen", 0x3CB371), ("mediumslateblue", 0x7B68EE),
    ("mediumspringgreen", 0x00FA9A), ("mediumturquoise", 0x48D1CC), ("mediumvioletred", 0xC71585),
    ("midnightblue", 0x191970), ("mintcream", 0xF5FFFA), ("mistyrose", 0xFFE4E1),
    ("moccasin", 0xFFE4B5), ("navajowhite", 0xFFDEAD), ("navy", 0x000080), ("oldlace", 0xFDF5E6),
    ("olive", 0x808000), ("olivedrab", 0x6B8E23), ("orange", 0xFFA500), ("orangered", 0xFF4500),
    ("orchid", 0xDA70D6), ("palegoldenrod", 0xEEE8AA), ("palegreen", 0x98FB98),
    ("paleturquoise", 0xAFEEEE), ("palevioletred", 0xDB7093), ("papayawhip", 0xFFEFD5),
    ("peachpuff", 0xFFDAB9), ("peru", 0xCD853F), ("pink", 0xFFC0CB), ("plum", 0xDDA0DD),
    ("powderblue", 0xB0E0E6), ("purple", 0x800080), ("rebeccapurple", 0x663399), ("red", 0xFF0000),
    ("rosybrown", 0xBC8F8F), ("royalblue", 0x4169E1), ("saddlebrown", 0x8B4513),
    ("salmon", 0xFA8072), ("sandybrown", 0xF4A460), ("seagreen", 0x2E8B57), ("seashell", 0xFFF5EE),
    ("sienna", 0xA0522D), ("silver", 0xC0C0C0), ("skyblue", 0x87CEEB), ("slateblue", 0x6A5ACD),
    ("slategray", 0x708090), ("slategrey", 0x708090), ("snow", 0xFFFAFA), ("springgreen", 0x00FF7F),
    ("steelblue", 0x4682B4), ("tan", 0xD2B48C), ("teal", 0x008080), ("thistle", 0xD8BFD8),
    ("tomato", 0xFF6347), ("turquoise", 0x40E0D0), ("violet", 0xEE82EE), ("wheat", 0xF5DEB3),
    ("white", 0xFFFFFF), ("whitesmoke", 0xF5F5F5), ("yellow", 0xFFFF00), ("yellowgreen", 0x9ACD32)]

def shortNames : List String :=
  ["navy", "green", "teal", "indigo", "maroon", "purple", "olive", "gray", "sienna", "brown",
    "silver", "peru", "tan", "orchid", "plum", "violet", "khaki", "azure", "wheat", "beige",
    "salmon", "linen", "red", "tomato", "coral", "orange", "pink", "gold", "bisque", "snow",
    "ivory"]

def systemNames : List String :=
  ["accentcolor", "accentcolortext", "activetext", "buttonborder", "buttonface", "buttontext", "canvas",
    "canvastext", "field", "fieldtext", "graytext", "highlight", "highlighttext", "linktext", "mark",
    "marktext", "selecteditem", "selecteditemtext", "visitedtext", "activeborder", "activecaption",
    "appworkspace", "background", "buttonhighlight", "buttonshadow", "captiontext", "inactiveborder",
    "inactivecaption", "inactivecaptiontext", "infobackground", "infotext", "menu", "menutext",
    "scrollbar", "threeddarkshadow", "threedface", "threedhighlight", "threedlightshadow",
    "threedshadow", "window", "windowframe", "windowtext"]

def transparent : Color := .parts 0 0 0 0

def ofNumber (rgb : Nat) : Color := .parts (rgb / 65536) (rgb / 256 % 256) (rgb % 256) 255

def ofName? (name : Text) : Option Color :=
  let name := name.map Char.toLower
  if name == "currentcolor" then some .current
  else if name == "transparent" then some transparent
  else
    match named.find? fun entry => entry.1.toList == name with
    | some entry => some (ofNumber entry.2)
    | none => if systemNames.any (·.toList == name) then some (.system name) else none

def shortName? (rgb : Nat) : Option String := shortNames.find? fun name => named.contains (name, rgb)

def hexPair (n : Nat) : Text := [Nat.digitChar (n / 16 % 16), Nat.digitChar (n % 16)]

def compact (pairs : List Text) : Text :=
  if pairs.all fun p => p[0]? == p[1]? then pairs.flatMap (·.take 1) else pairs.flatten

def partText (x : Float32) : Text := if x.isNaN then "none" else Number.text x

def fullLight? : ColorSpace → Option Float32
  | .lab | .lch => some 100
  | .oklab | .oklch => some 1
  | _ => none

def outOf255 (x : Float32) : Nat := (x * 255).round.toUInt8.toNat

def hexText (r g b a : Nat) : Text :=
  let pairs := [hexPair r, hexPair g, hexPair b]
  if a == 255 then
    match shortName? (r * 65536 + g * 256 + b) with
    | some name => name.toList
    | none => '#' :: compact pairs
  else '#' :: compact (pairs ++ [hexPair a])

def text : Color → Text
  | .current => "currentColor"
  | .system name => name
  | .parts r g b a => hexText r g b a
  | .unrounded space place =>
    let c := ColorSpace.srgb.shown (space.convert .srgb place)
    hexText (outOf255 c.first) (outOf255 c.second) (outOf255 c.third) (outOf255 c.alpha)
  | .inSpace space c =>
    let name := space.name.toList
    let opacity :=
      if c.alpha.isNaN || 1.1920929e-7 < (c.alpha - 1).abs then " / " ++ partText c.alpha else []
    match fullLight? space with
    | some full =>
      let light := if c.first.isNaN then "none".toList else Number.percentage (c.first / full)
      name ++ ['('] ++ spaced [light, partText c.second, partText c.third] ++ opacity ++ [')']
    | none =>
      "color(" ++ spaced [name, partText c.first, partText c.second, partText c.third] ++ opacity ++ [')']
  | .byScheme light dark => "light-dark(" ++ light.text ++ ", " ++ dark.text ++ [')']

def ofHex? (digits : Text) : Option Color := do
  let values ← digits.mapM hexDigit?
  match values with
  | [r, g, b] => return .parts (r * 17) (g * 17) (b * 17) 255
  | [r, g, b, a] => return .parts (r * 17) (g * 17) (b * 17) (a * 17)
  | [r, r', g, g', b, b'] => return .parts (r * 16 + r') (g * 16 + g') (b * 16 + b') 255
  | [r, r', g, g', b, b', a, a'] =>
    return .parts (r * 16 + r') (g * 16 + g') (b * 16 + b') (a * 16 + a')
  | _ => none

def ofShares (c : Coordinates) : Color :=
  .parts (outOf255 c.first) (outOf255 c.second) (outOf255 c.third) (outOf255 c.alpha)

/-- The colour at a place, rounded to parts unless something is missing there. -/
def rounded (space : ColorSpace) (place : Coordinates) : Color :=
  if place.hasMissing then .unrounded space place
  else
    match space with
    | .srgb => ofShares place
    | _ => ofShares (ColorSpace.srgb.shown (space.convert .srgb place))

def place? : Color → Option (ColorSpace × Coordinates)
  | .parts r g b a =>
    let share (n : Nat) : Float32 := Float32.ofNat n / 255
    some (.srgb, ⟨share r, share g, share b, share a⟩)
  | .inSpace space place | .unrounded space place => some (space, place)
  | _ => none

def placeIn? (space : ColorSpace) (c : Color) : Option Coordinates :=
  c.place?.map fun (source, place) => source.convert space place

def ofPlace (space : ColorSpace) (place : Coordinates) : Color :=
  match space with
  | .srgb | .hsl | .hwb => .unrounded space place
  | _ => .inSpace space place

/-- Mixes shares of two colours in a space. A colour from another space is brought into the bounds
of this one. -/
def mix? (space : ColorSpace) (way : ColorSpace.HueWay) (a : Color) (p : Float32) (b : Color) (q : Float32) :
    Option Color := do
  let taken (c : Color) : Option Coordinates := do
    let (source, place) ← c.place?
    return if source = space then place
      else space.withoutPowerless (space.bounded ColorSpace.convert (source.convert space place))
  return ofPlace space (space.mix way (← taken a) p (← taken b) q)

end Color

end ComponentConverter.Stylesheet
