import ComponentConverter.Stylesheet.Value.ColorReading
import ComponentConverter.Stylesheet.Value.Sides

namespace ComponentConverter.Stylesheet

open Reader

namespace Writing

def inOrder (ws : List String) (found : List Text) : List Text := (ws.map String.toList).filter found.contains

structure Case where
  letters : Option Text
  others : List Text

def caseStep (c : Case) : Reader Case := do
  guard (c.letters != some "none".toList)
  (do
    let w ← fill c.letters (oneOf "none uppercase lowercase capitalize")
    return { c with letters := w }) <|>
  (do return { c with others := (← oneOf "full-width full-size-kana") :: c.others })

/-- A word for no change ends the list, and takes back what stands before it. -/
def transform : Reader Text := do
  let c ← steps caseStep ⟨none, []⟩
  guard (c.letters.isSome || !c.others.isEmpty)
  if c.letters == some "none".toList then return "none"
  return spaced (c.letters.toList ++ inOrder ["full-width", "full-size-kana"] c.others)

def spacing : Reader Text := Extent.text <$> Extent.read "normal" length

structure Indent where
  value : Option Calculation
  isHanging : Bool
  isEachLine : Bool

def indentStep (i : Indent) : Reader Indent :=
  (do return { i with value := ← fill i.value lengthPercentage }) <|>
  (do
    guard !i.isHanging
    word "hanging"
    return { i with isHanging := true }) <|>
  (do
    guard !i.isEachLine
    word "each-line"
    return { i with isEachLine := true })

def indent : Reader Text := do
  let i ← steps indentStep ⟨none, false, false⟩
  let c ← ofOption i.value
  return spaced ([c.valueText] ++ (if i.isHanging then ["hanging".toList] else []) ++
    if i.isEachLine then ["each-line".toList] else [])

def lineWords : List String := ["underline", "overline", "line-through", "blink"]

def errorWords : List String := ["spelling-error", "grammar-error"]

def decorationLine : Reader (List Text) := do
  let step (found : List Text) : Reader (List Text) := do
    let w ← keyword ("none" :: lineWords ++ errorWords)
    guard (found.all (· == "none") || lineWords.any (·.toList == w))
    return w :: found
  let found ← steps step []
  guard !found.isEmpty
  return match inOrder errorWords found with
    | w :: _ => [w]
    | [] => inOrder lineWords found

def decorationLineText (lines : List Text) : Text :=
  if lines.isEmpty then "none" else spaced lines

def decorationStyle : Reader Text := oneOf "solid double dotted dashed wavy"

def thickness : Reader Extent := Extent.read "auto from-font" lengthPercentage

structure Decoration where
  line : Option (List Text)
  thickness : Option Extent
  style : Option Text
  color : Option Color

def decorationStep (d : Decoration) : Reader Decoration :=
  (do return { d with line := ← fill d.line decorationLine }) <|>
  (do return { d with thickness := ← fill d.thickness thickness }) <|>
  (do return { d with style := ← fill d.style decorationStyle }) <|>
  (do return { d with color := ← fill d.color Stylesheet.color })

/-- Without a line the other parts count for nothing. -/
def decoration : Reader Text := do
  let d ← steps decorationStep ⟨none, none, none, none⟩
  let lines := d.line.getD []
  if lines.isEmpty then return "none"
  return spaced ([decorationLineText lines] ++ ((d.thickness.filter (· != .auto)).map Extent.text).toList ++
    (d.style.filter (· != "solid".toList)).toList ++ ((d.color.filter (· != .current)).map Color.text).toList)

inductive Emphasis where
  | none
  | shape (fill : Option Text) (shape : Option Text)
  | string (value : Text)
  deriving BEq

def emphasisStyle : Reader Emphasis :=
  (do word "none"; return .none) <|> (.string <$> string) <|> do
    let step (s : Option Text × Option Text) : Reader (Option Text × Option Text) :=
      (do return (s.1, ← fill s.2 (oneOf "dot circle double-circle triangle sesame"))) <|>
      (do return (← fill s.1 (oneOf "filled open"), s.2))
    let (f, s) ← steps step (Option.none, Option.none)
    guard (f.isSome || s.isSome)
    return .shape f s

def emphasisText : Emphasis → Text
  | .none => "none"
  | .string v => stringText v
  | .shape f s =>
    let f := f.getD "filled"
    spaced ((if s.isNone || f != "filled" then [f] else []) ++ s.toList)

structure EmphasisParts where
  style : Option Emphasis
  color : Option Color

def emphasis : Reader Text := do
  let step (e : EmphasisParts) : Reader EmphasisParts :=
    (do return { e with style := ← fill e.style emphasisStyle }) <|>
    (do return { e with color := ← fill e.color Stylesheet.color })
  let e ← steps step ⟨Option.none, Option.none⟩
  let style := e.style.getD .none
  return spaced (emphasisText style ::
    if style == .none then [] else ((e.color.filter (· != .current)).map Color.text).toList)

def emphasisPosition : Reader Text :=
  (do
    let v ← oneOf "over under"
    let h := (← optional? (oneOf "left right")).getD "right"
    return spaced (v :: unlessUsual "right".toList id h)) <|>
  (do
    let h ← oneOf "left right"
    let v ← oneOf "over under"
    return spaced (v :: unlessUsual "right".toList id h))

end Writing

def writingReaders : List (String × Reader Text) :=
  [("text-transform", Writing.transform), ("white-space", oneOf "normal pre nowrap pre-wrap break-spaces pre-line"),
    ("tab-size", (Number.text <$> number) <|> (Calculation.valueText <$> length)),
    ("word-break", oneOf "normal keep-all break-all break-word"),
    ("line-break", oneOf "auto loose normal strict anywhere"),
    ("hyphens", oneOf "none manual auto"),
    ("overflow-wrap", oneOf "normal break-word anywhere"),
    ("word-wrap", oneOf "normal break-word anywhere"),
    ("text-align", oneOf "start end left right center justify match-parent justify-all"),
    ("text-align-last", oneOf "auto start end left right center justify match-parent"),
    ("text-justify", oneOf "auto none inter-word inter-character"),
    ("word-spacing", Writing.spacing),
    ("letter-spacing", Writing.spacing),
    ("text-indent", Writing.indent),
    ("text-decoration-line", Writing.decorationLineText <$> Writing.decorationLine),
    ("text-decoration-style", Writing.decorationStyle),
    ("text-decoration-color", Color.text <$> color),
    ("text-decoration-thickness", Extent.text <$> Writing.thickness),
    ("text-decoration", Writing.decoration),
    ("text-decoration-skip-ink", oneOf "auto none all"),
    ("text-emphasis-style", Writing.emphasisText <$> Writing.emphasisStyle),
    ("text-emphasis-color", Color.text <$> color),
    ("text-emphasis", Writing.emphasis),
    ("text-emphasis-position", Writing.emphasisPosition),
    ("text-size-adjust", oneOf "auto none" <|> (Number.percentage <$> percentage)),
    ("direction", oneOf "ltr rtl"),
    ("unicode-bidi", oneOf "normal embed isolate bidi-override isolate-override plaintext"),
    ("box-decoration-break", oneOf "slice clone")]

end ComponentConverter.Stylesheet
