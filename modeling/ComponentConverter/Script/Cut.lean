import ComponentConverter.Script.Node

namespace ComponentConverter.Script

/-- What a walk over a tree brings up: a range to cut out, or a part that could not be read. -/
inductive Finding where
  | cut (span : Span)
  | unreadable (span : Span)
  deriving Repr, DecidableEq

namespace Finding

def cut? : Finding → Option Span
  | .cut span => some span
  | .unreadable _ => none

def unreadable? : Finding → Option Span
  | .cut _ => none
  | .unreadable span => some span

end Finding

/-- A cut between two offsets; nothing is to be cut if there is nothing between them. -/
def cutBetween (start stop : Nat) : List Finding :=
  if start < stop then [.cut ⟨start, stop⟩] else []

def plainArguments : List Node → List Node
  | .mk .typeArguments _ _ :: arguments => arguments
  | arguments => arguments

def boundFunction? (callee : Node) (arguments : List Node) : Option Node :=
  match callee.bare with
  | .mk .member _ [receiver, name] =>
    if receiver.bare.form.isFunction ∧ name.form = .property "bind" ∧ (plainArguments arguments).map Node.form = [.this]
    then some receiver.bare
    else none
  | _ => none

mutual

def findings : Node → List Finding
  | .mk .invalid span _ => [.unreadable span]
  | .mk (.functionExpression ..) _ _ => []
  | .mk .functionDeclaration _ _ => []
  | .mk .member span [receiver, .mk (.property _) place _] =>
    if receiver.bare.form = .this then cutBetween span.start place.start else findings receiver
  | .mk .member span [receiver, .mk .computed _ [index]] =>
    if receiver.bare.form = .this then
      cutBetween span.start index.start ++ cutBetween index.stop span.stop ++ findings index
    else findings receiver ++ findings index
  | .mk .call span (callee :: arguments) =>
    match boundFunction? callee arguments with
    | some f =>
      cutBetween span.start f.start ++ cutBetween f.stop span.stop ++ findingsWithin callee
    | none => findings callee ++ findingsAmong arguments
  | .mk _ _ children => findingsAmong children

def findingsWithin : Node → List Finding
  | .mk .parentheses _ [inner] => findingsWithin inner
  | .mk .member _ (receiver :: _) => findingsWithin receiver
  | .mk (.functionExpression ..) _ children => findingsAmong children
  | _ => []

def findingsAmong : List Node → List Finding
  | [] => []
  | n :: ns => findings n ++ findingsAmong ns

end

def findingsOfFunction (f : Node) : List Finding := findingsAmong f.children

/-- The text from `start` to `stop` without the given ranges, which are in order; one that
starts inside the range before it is passed over. -/
def skipping (text : Text) (stop : Nat) : Nat → List Span → Text
  | start, [] => (Span.mk start stop).slice text
  | start, cut :: cuts =>
    if cut.start < start then skipping text stop start cuts
    else (Span.mk start cut.start).slice text ++ skipping text stop cut.stop cuts

def without (text : Text) (range : Span) (cuts : List Span) : Text :=
  skipping text range.stop range.start ((cuts.filter (·.Within range)).mergeSort fun a b => a.start ≤ b.start)

end ComponentConverter.Script
