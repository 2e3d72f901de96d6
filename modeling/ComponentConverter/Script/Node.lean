import ComponentConverter.Text.Span

namespace ComponentConverter.Script

inductive Assertion where
  | ofType
  | satisfying
  | constant
  deriving Repr, DecidableEq

inductive Form where
  | this
  | name (name : String)
  | string (value : Option Text)
  | boolean (value : Bool)
  | literal
  | template
  | taggedTemplate
  | invalid
  | parentheses
  | sequence
  | array
  | hole
  | object
  | spread
  | shorthand (name : String)
  | initialized (name : String)
  | pair
  | method (isAsync isGenerator : Bool)
  | accessor
  | key (name : Option String)
  | quotedKey (value : Option Text)
  | member
  | property (name : String)
  | privateName
  | computed
  | optional
  | call
  | typeArguments
  | functionExpression (isAsync isGenerator isNamed : Bool)
  | functionDeclaration
  | arrow (isAsync : Bool)
  | assignment (isPlain : Bool)
  | classExpression
  | conditional
  | binary (operator : String)
  | unary
  | update
  | awaited
  | newExpression (hasArguments : Bool)
  | superReference
  | importReference
  | assertion (kind : Assertion)
  | cast
  | nonNull
  | instantiation
  | typed
  | declarator (isInitialized isAnnotated : Bool)
  | block
  | returnStatement
  | expressionStatement
  | emptyStatement
  | exportDefault
  | exportDefaultDeclaration
  | other
  deriving Repr, DecidableEq

def Form.isFunction : Form → Bool
  | .functionExpression .. => true
  | _ => false

inductive Node where
  | mk (form : Form) (span : Span) (children : List Node)
  deriving Repr

namespace Node

def form : Node → Form
  | .mk form _ _ => form

def span : Node → Span
  | .mk _ span _ => span

def children : Node → List Node
  | .mk _ _ children => children

def start (n : Node) : Nat := n.span.start

def stop (n : Node) : Nat := n.span.stop

def leaf (form : Form) (span : Span) : Node := .mk form span []

def bare : Node → Node
  | .mk .parentheses _ [inner] => bare inner
  | n => n

def elements (n : Node) : List Node := n.children.filter (·.form != .hole)

def body? (n : Node) : Option Node := n.children.getLast?.filter (·.form == .block)

end Node

end ComponentConverter.Script
