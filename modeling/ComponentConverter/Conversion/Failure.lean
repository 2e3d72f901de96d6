import ComponentConverter.Markup.Fault
import ComponentConverter.Script.Issue

namespace ComponentConverter

inductive Failure where
  | component (faults : List Markup.Fault)
  | template (faults : List Markup.Fault)
  | script (issue : Script.Issue)
  | multipleDefaultExports (span : Span)
  deriving Repr, DecidableEq

namespace Failure

def message : Failure → String
  | .component _ => "unable to split component into blocks"
  | .template faults => s!"{faults.length} error(s) while parsing template"
  | .script issue => "unable to parse script: " ++ issue.message
  | .multipleDefaultExports _ =>
    "unable to parse script: multiple `export default` declarations"

def faults : Failure → List Markup.Fault
  | .component faults | .template faults => faults
  | .script _ | .multipleDefaultExports _ => []

def span? : Failure → Option Span
  | .component faults | .template faults => faults.head?.map (·.span)
  | .script issue => some issue.span
  | .multipleDefaultExports span => some span

end Failure

end ComponentConverter
