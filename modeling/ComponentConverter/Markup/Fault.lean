import ComponentConverter.Markup.Token

namespace ComponentConverter.Markup

inductive Expectation where
  | attributeOrClose
  | close
  | tagName
  deriving Repr, DecidableEq

def Expectation.describe : Expectation → String
  | .attributeOrClose => "attribute or '>'"
  | .close => "'>'"
  | .tagName => "tag name"

inductive Cause where
  | unexpectedToken (expected : Expectation) (found : Kind)
  | unclosedTag (tag : Text)
  | mismatchedClosingTag (expected found : Text)
  | strayClosingTag (tag : Text)
  | unclosedAttributeValue
  | unclosedComment
  | duplicateAttribute (name : Text)
  | forbiddenTag (tag : Text)
  | invalidFor (expression : Text)
  | elseWithoutIf (directive : String) (tag : Text)
  | textBetweenBranches (text : Text)
  | multipleRoots
  | textOutsideRoot (text : Text)
  | emptyTemplate
  | unclosedBlock (tag : Text)
  | duplicateBlock (tag : Text)
  deriving Repr, DecidableEq

def Cause.message : Cause → String
  | .unexpectedToken expected found =>
    "unexpected token: expected " ++ expected.describe ++ ", found " ++ found.describe
  | .unclosedTag tag => "unclosed tag: <" ++ .ofList tag ++ ">"
  | .mismatchedClosingTag expected found =>
    "mismatched closing tag: expected </" ++ .ofList expected ++ ">, found </" ++ .ofList found ++ ">"
  | .strayClosingTag tag => "unexpected closing tag </" ++ .ofList tag ++ ">"
  | .unclosedAttributeValue => "unclosed attribute value"
  | .unclosedComment => "unclosed comment"
  | .duplicateAttribute name => "duplicate attribute: " ++ .ofList name
  | .forbiddenTag tag => "<" ++ .ofList tag ++ "> is not allowed inside a template"
  | .invalidFor expression => "invalid v-for expression: " ++ .ofList expression
  | .elseWithoutIf directive tag =>
    directive ++ " used on element <" ++ .ofList tag ++ "> without corresponding v-if"
  | .textBetweenBranches text =>
    "text \"" ++ .ofList text ++ "\" between v-if and v-else(-if) is not allowed"
  | .multipleRoots =>
    "component template should contain exactly one root element; " ++
      "use v-else-if to chain additional root elements"
  | .textOutsideRoot text => "text \"" ++ .ofList text ++ "\" outside the root element"
  | .emptyTemplate => "component template requires a root element"
  | .unclosedBlock tag => "unclosed <" ++ .ofList tag ++ "> block"
  | .duplicateBlock tag => "a component may contain only one <" ++ .ofList tag ++ "> block"

structure Fault where
  cause : Cause
  span : Span
  deriving Repr, DecidableEq

def Fault.message (f : Fault) : String := f.cause.message

end ComponentConverter.Markup
