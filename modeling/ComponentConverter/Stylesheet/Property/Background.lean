import ComponentConverter.Stylesheet.Value.Image

namespace ComponentConverter.Stylesheet

open Reader

namespace Background

inductive Size where
  | word (word : Text)
  | explicit (width height : Extent)
  deriving Repr, BEq

namespace Size

def usual : Size := .explicit .auto .auto

def read : Reader Size :=
  (do
    let w ← lengthPercentageOrAuto
    return .explicit w ((← optional? lengthPercentageOrAuto).getD .auto)) <|>
  (.word <$> oneOf "cover contain")

def text : Size → Text
  | .word w => w
  | .explicit w h => spaced (w.text :: unlessUsual .auto Extent.text h)

end Size

def repeatPair : Reader (Pair Text) :=
  (do word "repeat-x"; return ⟨"repeat", "no-repeat"⟩) <|>
  (do word "repeat-y"; return ⟨"no-repeat", "repeat"⟩) <|>
  Pair.read (oneOf "repeat space round no-repeat")

def repeatText (p : Pair Text) : Text :=
  if p == ⟨"repeat", "no-repeat"⟩ then "repeat-x"
  else if p == ⟨"no-repeat", "repeat"⟩ then "repeat-y"
  else p.text id

def usualRepeat : Pair Text := ⟨"repeat", "repeat"⟩

def attachment : Reader Text := oneOf "scroll fixed local"

def origin : Reader Text := oneOf "border-box padding-box content-box"

def clip : Reader Text := oneOf "border-box padding-box content-box border text"

structure Layer where
  color : Option Color
  position : Option Position
  size : Option Size
  image : Option Text
  repetition : Option (Pair Text)
  attachment : Option Text
  origin : Option Text
  clip : Option Text

def Layer.empty : Layer := ⟨none, none, none, none, none, none, none, none⟩

def layerStep (l : Layer) : Reader Layer :=
  (do return { l with color := ← fill l.color Stylesheet.color }) <|>
  (do
    let p ← fill l.position Position.read
    let s ← optional? do
      slash
      Size.read
    return { l with position := p, size := s }) <|>
  (do return { l with image := ← fill l.image Stylesheet.image }) <|>
  (do return { l with repetition := ← fill l.repetition repeatPair }) <|>
  (do return { l with attachment := ← fill l.attachment attachment }) <|>
  (do return { l with origin := ← fill l.origin origin }) <|>
  (do return { l with clip := ← fill l.clip clip })

def Layer.text (l : Layer) : Text :=
  let borderBox := "border-box".toList
  let paddingBox := "padding-box".toList
  let color := (l.color.filter (· != .transparent)).map Color.text
  let image := l.image.filter (· != "none".toList)
  let size := (l.size.filter (· != Size.usual)).map fun s => " / ".toList ++ s.text
  let position :=
    if (l.position.map fun p => !p.isZero).getD false || size.isSome then
      let p := l.position.getD ⟨.distance .zero, .distance .zero⟩
      [p.text ++ size.getD []]
    else []
  let origin := l.origin.getD paddingBox
  let clip := (l.clip.orElse fun _ => l.origin).getD borderBox
  let isBox := clip != "border" && clip != "text"
  let showsOrigin := origin != paddingBox || (clip != borderBox && isBox)
  let showsClip := (showsOrigin && clip != origin) || clip != borderBox
  let parts := color.toList ++ image.toList ++ position ++
    ((l.repetition.filter (· != usualRepeat)).map repeatText).toList ++
    (l.attachment.filter (· != "scroll".toList)).toList ++
    (if showsOrigin then [origin] else []) ++ (if showsClip then [clip] else [])
  if parts.isEmpty then "none" else spaced parts

def layer : Reader Text := do return (← steps layerStep Layer.empty).text

end Background

namespace Mask

def boxes : String := "border-box padding-box content-box margin-box fill-box stroke-box view-box"

def composite : Reader Text := oneOf "add subtract intersect exclude"

def makersComposite : Reader Text :=
  oneOf ("clear copy source-over source-in source-out source-atop destination-over destination-in " ++
    "destination-out destination-atop xor")

def mode : Reader Text := oneOf "luminance alpha match-source"

structure Layer where
  image : Option Text
  position : Option Position
  size : Option Background.Size
  repetition : Option (Pair Text)
  origin : Option Text
  clip : Option Text
  composite : Option Text
  mode : Option Text

def layerStep (l : Layer) : Reader Layer :=
  (do return { l with image := ← fill l.image Stylesheet.image }) <|>
  (do
    let p ← fill l.position Position.read
    let s ← optional? do
      slash
      Background.Size.read
    return { l with position := p, size := s }) <|>
  (do return { l with repetition := ← fill l.repetition Background.repeatPair }) <|>
  (do return { l with origin := ← fill l.origin (oneOf boxes) }) <|>
  (do return { l with clip := ← fill l.clip (oneOf (boxes ++ " no-clip")) }) <|>
  (do return { l with composite := ← fill l.composite composite }) <|>
  (do return { l with mode := ← fill l.mode mode })

def layer : Reader Text := do
  let l ← steps layerStep ⟨none, none, none, none, none, none, none, none⟩
  let borderBox := "border-box".toList
  let size := (l.size.filter (· != Background.Size.usual)).map fun s => " / ".toList ++ s.text
  let p := l.position.getD ⟨.distance .zero, .distance .zero⟩
  let position := if !p.isZero || size.isSome then [p.text ++ size.getD []] else []
  let origin := l.origin.getD borderBox
  let clip := (l.clip.orElse fun _ => l.origin).getD borderBox
  let box :=
    if origin == borderBox && clip == borderBox then [] else origin :: if clip == origin then [] else [clip]
  return spaced ([l.image.getD "none"] ++ position ++
    ((l.repetition.filter (· != Background.usualRepeat)).map Background.repeatText).toList ++ box ++
    (l.composite.filter (· != "add".toList)).toList ++ (l.mode.filter (· != "match-source".toList)).toList)

end Mask

def backgroundReaders : List (String × Reader Text) :=
  let list (r : Reader Text) : Reader Text := listed <$> commaList r
  [("background-color", Color.text <$> color), ("background-image", list image),
    ("background-position-x", list (Placement.text "left" "right" <$> Position.acrossReader)),
    ("background-position-y", list (Placement.text "top" "bottom" <$> Position.downReader)),
    ("background-position", list (Position.text <$> Position.read)),
    ("background-size", list (Background.Size.text <$> Background.Size.read)),
    ("background-repeat", list (Background.repeatText <$> Background.repeatPair)),
    ("background-attachment", list Background.attachment),
    ("background-clip", list Background.clip),
    ("background-origin", list Background.origin),
    ("background", list Background.layer),
    ("mask-image", list image),
    ("mask-mode", list Mask.mode),
    ("mask-repeat", list (Background.repeatText <$> Background.repeatPair)),
    ("mask-position-x", list (Placement.text "left" "right" <$> Position.acrossReader)),
    ("mask-position-y", list (Placement.text "top" "bottom" <$> Position.downReader)),
    ("mask-position", list (Position.text <$> Position.read)),
    ("mask-clip", list (oneOf (Mask.boxes ++ " no-clip"))),
    ("mask-origin", list (oneOf Mask.boxes)),
    ("mask-size", list (Background.Size.text <$> Background.Size.read)),
    ("mask-type", oneOf "luminance alpha"),
    ("mask-composite", list Mask.composite),
    ("-webkit-mask-composite", list Mask.makersComposite),
    ("mask-source-type", list (oneOf "auto luminance alpha")),
    ("mask", list Mask.layer)]

end ComponentConverter.Stylesheet
