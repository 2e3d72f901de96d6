import ComponentConverter.Stylesheet.Property.Grid
import ComponentConverter.Stylesheet.Property.Name

namespace ComponentConverter.Stylesheet

open Reader

inductive Easing where
  | word (word : Text)
  | curve (x1 y1 x2 y2 : Float32)
  | stairs (count : Int) (jump : Text)
  deriving Repr, BEq

namespace Easing

def words : String := "linear ease ease-in ease-out ease-in-out"

def namedCurves : List (String × Easing) :=
  [("ease", .curve 0.25 0.1 0.25 1), ("ease-in", .curve 0.42 0 1 1), ("ease-out", .curve 0 0 0.58 1),
    ("ease-in-out", .curve 0.42 0 0.58 1)]

def jump : Reader Text := do
  let w ← oneOf "start end jump-start jump-end jump-none jump-both"
  return if w == "jump-start" then "start"
    else if w == "jump-end" then "end" else w

def read : Reader Easing :=
  (.word <$> oneOf words) <|>
  (do Reader.word "step-start"; return .stairs 1 "start") <|>
  (do Reader.word "step-end"; return .stairs 1 "end") <|>
  (call "cubic-bezier" do
    let x1 ← number
    comma
    let y1 ← number
    comma
    let x2 ← number
    comma
    return .curve x1 y1 x2 (← number)) <|>
  (call "steps" do
    let n ← integer
    let j ← optional? do
      comma
      jump
    return .stairs n (j.getD "end"))

def isUsual (e : Easing) : Bool := e == .word "ease" || e == .curve 0.25 0.1 0.25 1

def text (e : Easing) : Text :=
  match namedCurves.find? (·.2 == e) with
  | some (w, _) => w.toList
  | none =>
    match e with
    | .word w => w
    | .curve x1 y1 x2 y2 =>
      "cubic-bezier(" ++ listed ([x1, y1, x2, y2].map Number.text) ++ [')']
    | .stairs n j =>
      if n == 1 && j == "start" then "step-start"
      else if n == 1 && j == "end" then "step-end"
      else "steps(" ++ listed (integerText n :: unlessUsual "end".toList id j) ++ [')']

def isWord (n : Text) : Bool := ((words ++ " step-start step-end").splitOn " ").any (·.toList == n)

end Easing

namespace Motion

def timeText (q : Quantity) : Text := q.text false

structure Transition where
  property : Option Text
  duration : Option Quantity
  delay : Option Quantity
  easing : Option Easing

def transitionStep (t : Transition) : Reader Transition :=
  (do return { t with duration := ← fill t.duration time }) <|>
  (do return { t with easing := ← fill t.easing Easing.read }) <|>
  (do return { t with delay := ← fill t.delay time }) <|>
  (do return { t with property := ← fill t.property (propertyName <$> name) })

def isZero (q : Option Quantity) : Bool := q.all Quantity.isZero

def shownTime (q : Option Quantity) : Text := timeText (q.getD (.seconds 0))

def transition : Reader Text := do
  let t ← steps transitionStep ⟨none, none, none, none⟩
  return spaced ([t.property.getD "all"] ++
    (if isZero t.duration && isZero t.delay then [] else [shownTime t.duration]) ++
    ((t.easing.filter (!·.isUsual)).map Easing.text).toList ++
    (if isZero t.delay then [] else [shownTime t.delay]))

def count : Reader Text := oneOf "infinite" <|> (Number.text <$> number)

def directions : String := "normal reverse alternate alternate-reverse"

def fillModes : String := "none forwards backwards both"

def playStates : String := "running paused"

def quotedName (v : Text) : Text :=
  if isReserved v || sameLetters v "none" then stringText v else identifierText v

def animationName : Reader (Option (Text × Text)) :=
  (do word "none"; return none) <|> (do let v ← string; return some (v, quotedName v)) <|>
    (do let n ← customName; return some (n, identifierText n))

def nameText (n : Option (Text × Text)) : Text := (n.map Prod.snd).getD "none"

structure Animation where
  name : Option (Option (Text × Text))
  duration : Option Quantity
  easing : Option Easing
  delay : Option Quantity
  count : Option Text
  direction : Option Text
  fillMode : Option Text
  playState : Option Text
  timeline : Option Text

def timeline : Reader Text :=
  oneOf "auto none" <|> (do
    let n ← name
    guard (isCustomName n)
    return identifierText n) <|>
  (call "scroll" do
    let step (s : Option Text × Option Text) : Reader (Option Text × Option Text) :=
      (do return (← fill s.1 (oneOf "root nearest self"), s.2)) <|>
      (do return (s.1, ← fill s.2 (oneOf "block inline x y")))
    let (scroller, axis) ← steps step (none, none)
    return "scroll(" ++ spaced ((scroller.filter (· != "nearest".toList)).toList ++
      (axis.filter (· != "block".toList)).toList) ++ [')']) <|>
  (call "view" do
    let auto := lengthPercentageOrAuto
    let step (s : Option Text × Option (Pair Extent)) : Reader (Option Text × Option (Pair Extent)) :=
      (do return (← fill s.1 (oneOf "block inline x y"), s.2)) <|>
      (do return (s.1, ← fill s.2 (Pair.read auto)))
    let (axis, inset) ← steps step (none, none)
    return "view(" ++ spaced ((axis.filter (· != "block".toList)).toList ++
      ((inset.filter (· != ⟨.auto, .auto⟩)).map (Pair.text Extent.text)).toList) ++ [')'])

def animationStep (a : Animation) : Reader Animation :=
  (do return { a with duration := ← fill a.duration time }) <|>
  (do return { a with easing := ← fill a.easing Easing.read }) <|>
  (do return { a with delay := ← fill a.delay time }) <|>
  (do return { a with count := ← fill a.count count }) <|>
  (do return { a with direction := ← fill a.direction (oneOf directions) }) <|>
  (do return { a with fillMode := ← fill a.fillMode (oneOf fillModes) }) <|>
  (do return { a with playState := ← fill a.playState (oneOf playStates) }) <|>
  (do return { a with name := ← fill a.name animationName }) <|>
  (do return { a with timeline := ← fill a.timeline timeline })

/-- A part is written where it is not the usual one, and where the name could be taken for it. -/
def Animation.text (a : Animation) : Text :=
  let timeline := (a.timeline.filter (· != "auto".toList)).toList
  match a.name.getD none with
  | none => spaced ("none" :: timeline)
  | some (chosen, shown) =>
    let isAmong (ws : String) : Bool := (ws.splitOn " ").any (sameLetters ·.toList chosen)
    let part (value : Option Text) (usual : String) (isTaken : Bool) : List Text :=
      let value := value.getD usual.toList
      if value != usual.toList || isTaken then [value] else []
    let easing := a.easing.getD (.word "ease")
    spaced ((if isZero a.duration && isZero a.delay then [] else [shownTime a.duration]) ++
      (if easing.isUsual && !Easing.isWord chosen then [] else [easing.text]) ++
      (if isZero a.delay then [] else [shownTime a.delay]) ++
      part a.count "1" (chosen == "infinite") ++
      part a.direction "normal" (isAmong directions) ++
      part a.fillMode "none" (!isAmong "none" && isAmong fillModes) ++
      part a.playState "running" (isAmong playStates) ++
      [shown] ++ timeline)

def animation : Reader Text := do
  let a ← steps animationStep ⟨none, none, none, none, none, none, none, none, none⟩
  return a.text

inductive RangeEnd where
  | usual
  | distance (value : Calculation)
  | named (name : Text) (offset : Calculation)
  deriving Repr, BEq

namespace RangeEnd

def whole : Calculation := .value (.percentage 1)

def none : Calculation := .value (.percentage 0)

def read (implied : Calculation) : Reader RangeEnd :=
  (do word "normal"; return .usual) <|>
  (.distance <$> lengthPercentage) <|> do
    let n ← oneOf "cover contain entry exit entry-crossing exit-crossing"
    return .named n ((← optional? lengthPercentage).getD implied)

def text (implied : Calculation) : RangeEnd → Text
  | .usual => "normal"
  | .distance c => c.valueText
  | .named n c => spaced (n :: unlessUsual implied Calculation.valueText c)

end RangeEnd

def range : Reader Text := do
  let first ← RangeEnd.read RangeEnd.none
  let follows : RangeEnd := match first with
    | .named n _ => .named n RangeEnd.whole
    | _ => .usual
  let second := (← optional? (RangeEnd.read RangeEnd.whole)).getD follows
  let isShown : Bool := match first, second with
    | .named .., .named .. => second != follows
    | _, _ => second != .usual
  return spaced (first.text RangeEnd.none ::
    if isShown then [second.text RangeEnd.whole] else [])

end Motion

def motionReaders : List (String × Reader Text) :=
  let list (r : Reader Text) : Reader Text := listed <$> commaList r
  let times := list (Motion.timeText <$> time)
  let easings := list (Easing.text <$> Easing.read)
  [("transition-property", list (propertyName <$> name)), ("transition-duration", times), ("transition-delay", times),
    ("transition-timing-function", easings),
    ("transition", list Motion.transition),
    ("animation-name", list (Motion.nameText <$> Motion.animationName)),
    ("animation-duration", times),
    ("animation-timing-function", easings),
    ("animation-iteration-count", list Motion.count),
    ("animation-direction", list (oneOf Motion.directions)),
    ("animation-play-state", list (oneOf Motion.playStates)),
    ("animation-delay", times),
    ("animation-fill-mode", list (oneOf Motion.fillModes)),
    ("animation-composition", list (oneOf "replace add accumulate")),
    ("animation-timeline", list Motion.timeline),
    ("animation-range-start",
      list (Motion.RangeEnd.text Motion.RangeEnd.none <$> Motion.RangeEnd.read Motion.RangeEnd.none)),
    ("animation-range-end",
      list (Motion.RangeEnd.text Motion.RangeEnd.whole <$> Motion.RangeEnd.read Motion.RangeEnd.whole)),
    ("animation-range", list Motion.range),
    ("animation", list Motion.animation)]

end ComponentConverter.Stylesheet
