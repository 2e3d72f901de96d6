import ComponentConverter.Stylesheet.Body

namespace ComponentConverter.Stylesheet

def keptComments : List Piece → List Text
  | [] => []
  | p :: ps =>
    match p.head with
    | .space _ => keptComments ps
    | .comment ('!' :: t) => ('!' :: t) :: keptComments ps
    | _ => []

inductive Stage where
  | layers
  | imports
  | namespaces
  | body
  deriving Repr, DecidableEq

namespace Stage

def rank : Stage → Nat
  | .layers => 0
  | .imports => 1
  | .namespaces => 2
  | .body => 3

def required? (keyword : Text) : Option (Stage × Cause) :=
  if sameLetters keyword "import" then some (.imports, .lateImport)
  else if sameLetters keyword "namespace" then some (.namespaces, .lateNamespace)
  else none

def next (stage : Stage) (keyword : Option Text) : Entry → Stage
  | .rule (.statement _ true) =>
    match keyword.bind required? with
    | some (required, _) => required
    | none => if stage = .layers then .layers else .body
  | .rule (.statement _ false) | .nothing => stage
  | .rule _ | .declaration _ => .body

end Stage

structure Sheet where
  rest : List Piece
  stage : Stage
  isFirst : Bool

/-- Reads one entry at the top. A first rule for the encoding is passed over up to its semicolon. -/
def topStep (blocks : BlockReader) (stop : Location) (s : Sheet) : Except Fault (Option (Entry × Sheet)) := do
  let keyword := s.rest.head?.bind fun p =>
    match p.head with
    | .atKeyword k => some (k, p.stop)
    | _ => none
  if s.isFirst && (keyword.map fun k => sameLetters k.1 "charset").getD false then
    return some (.nothing, { s with rest := (s.rest.dropWhile (!·.is .semicolon)).drop 1, isFirst := false })
  if let some (k, place) := keyword then
    if let some (required, cause) := Stage.required? k then
      if required.rank < s.stage.rank then throw ⟨cause, place⟩
  let isRule := (s.rest.head?.map fun p => !(p.isBlank || p.is .commentOpen || p.is .commentClose)).getD false
  let found ← entryStep blocks .top 0 stop s.rest
  return found.map fun (entry, rest) =>
    (entry, ⟨rest, s.stage.next (keyword.map Prod.fst) entry, s.isFirst && !isRule⟩)

def format (t : Text) : Except Fault Text := do
  let (ps, stop) := pieces t
  let (entries, _) ← gather (topStep (readBlock depthBound) stop) ps.length ⟨ps, .layers, true⟩
  let comments := (keptComments ps).flatMap fun c => "/*".toList ++ c ++ "*/\n".toList
  return comments ++ Rule.texts 0 (arrangeRules entries) ++ ['\n']

end ComponentConverter.Stylesheet
