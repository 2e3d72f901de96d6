import ComponentConverter.Stylesheet.Declaration

namespace ComponentConverter.Stylesheet

/-- A rule. A `block` holds declarations before other rules, a `group` holds rules only, and `frames`
are those of an animation. A statement that is `bound` to others of its kind stands right below
them. -/
inductive Rule where
  | block (head : Text) (declarations : List Declaration) (rules : List Rule)
  | group (head : Text) (rules : List Rule)
  | frames (head : Text) (rules : List Rule)
  | lines (head : Text) (lines : List Text)
  | tables (head : Text) (tables : List (Text × List Text))
  | declarations (declarations : List Declaration)
  | statement (text : Text) (isBound : Bool)
  | unknown (head body : Text)
  deriving Repr

def newLine (depth : Nat) : Text := '\n' :: List.replicate (2 * depth) ' '

def byImportance (ds : List Declaration) : List Declaration := ds.filter (!·.isImportant) ++ ds.filter (·.isImportant)

def declarationLines (depth : Nat) (ds : List Declaration) : Text :=
  (byImportance ds).flatMap fun d => newLine depth ++ d.text

def linesText (depth : Nat) (head : Text) (lines : List Text) : Text :=
  head ++ " \x7b" ++ lines.flatMap (newLine (depth + 1) ++ ·) ++ newLine depth ++ ['\x7d']

namespace Rule

def isBound : Rule → Bool
  | .statement _ bound => bound
  | _ => false

def gapText (depth : Nat) (before after : Rule) : Text :=
  (if before.isBound && after.isBound then [] else ['\n']) ++ newLine depth

mutual

def text (depth : Nat) : Rule → Text
  | .block head ds rules =>
    let gap :=
      if rules.isEmpty then [] else (if ds.isEmpty then [] else ['\n']) ++ newLine (depth + 1)
    head ++ " \x7b" ++ declarationLines (depth + 1) ds ++ gap ++ texts (depth + 1) rules ++ newLine depth ++ ['\x7d']
  | .group head rules =>
    head ++ " \x7b" ++ newLine (depth + 1) ++ texts (depth + 1) rules ++ newLine depth ++ ['\x7d']
  | .frames head rules =>
    let gap := if rules.isEmpty then [] else newLine (depth + 1)
    head ++ " \x7b" ++ gap ++ texts (depth + 1) rules ++ newLine depth ++ ['\x7d']
  | .lines head ls => linesText depth head ls
  | .tables head ts =>
    let gap := if ts.isEmpty then [] else newLine depth
    head ++ " \x7b" ++ gap ++ ts.flatMap (fun (name, ls) => linesText depth name ls ++ newLine depth) ++ ['\x7d']
  | .declarations ds => (newLine depth).intercalate ((byImportance ds).map Declaration.text)
  | .statement text _ => text ++ [';']
  | .unknown head body =>
    head ++ " \x7b" ++ newLine (depth + 1) ++ body ++ newLine depth ++ ['\x7d']

def texts (depth : Nat) : List Rule → Text
  | [] => []
  | [r] => text depth r
  | r :: next :: rs => text depth r ++ gapText depth r next ++ texts depth (next :: rs)

end

end Rule

end ComponentConverter.Stylesheet
