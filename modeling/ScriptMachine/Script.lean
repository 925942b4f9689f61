import ScriptMachine.Number
import ScriptMachine.Opcode

/-!
# Scripts

A script is a tree of nodes, each with the place in the source text that it came from. There is one
kind of node for everything; which nodes may stand where is for the compiler to say.
-/

namespace ScriptMachine

structure Position where
  offset : Nat := 0
  line : Nat := 1
  column : Nat := 1
  deriving DecidableEq, Inhabited, Repr

namespace Position

def text (p : Position) : String :=
  toString p.line ++ ":" ++ toString p.column

end Position

/-- A stretch of source text. -/
structure Span where
  start : Position := {}
  stop : Position := {}
  deriving DecidableEq, Inhabited, Repr

namespace Span

/-- A stretch is written by where it starts. -/
def text (s : Span) : String :=
  s.start.text

end Span

inductive BinaryOp where
  | add | sub | mul | div | mod
  | and | or
  | equal | notEqual
  | less | greater | lessEqual | greaterEqual
  deriving DecidableEq, Inhabited, Repr

namespace BinaryOp

def opcode : BinaryOp → Opcode
  | .add => .add
  | .sub => .sub
  | .mul => .mul
  | .div => .div
  | .mod => .mod
  | .and => .and
  | .or => .or
  | .equal => .cmpEqual
  | .notEqual => .cmpNotEqual
  | .less => .cmpLessThan
  | .greater => .cmpMoreThan
  | .lessEqual => .cmpLessThanOrEqual
  | .greaterEqual => .cmpMoreThanOrEqual

def symbol : BinaryOp → String
  | .add => "+"
  | .sub => "-"
  | .mul => "*"
  | .div => "/"
  | .mod => "%"
  | .and => "&&"
  | .or => "||"
  | .equal => "=="
  | .notEqual => "!="
  | .less => "<"
  | .greater => ">"
  | .lessEqual => "<="
  | .greaterEqual => ">="

def all : List BinaryOp :=
  [.add, .sub, .mul, .div, .mod, .and, .or, .equal, .notEqual, .less, .greater, .lessEqual,
    .greaterEqual]

def ofSymbol? (symbol : String) : Option BinaryOp :=
  all.find? (·.symbol == symbol)

end BinaryOp

inductive UnaryOp where
  | neg
  | not
  deriving DecidableEq, Inhabited, Repr

namespace UnaryOp

def opcode : UnaryOp → Opcode
  | .neg => .neg
  | .not => .not

end UnaryOp

inductive Node where
  | number (span : Span) (value : Number)
  | bool (span : Span) (value : Bool)
  | text (span : Span) (value : String)
  /-- The value of a local. -/
  | read (span : Span) (name : String)
  /-- A local comes into being. -/
  | declare (span : Span) (name : String)
  | array (span : Span) (elements : List Node)
  | block (span : Span) (statements : List Node)
  /-- One link of an if chain; `next` is the next link or what stands after the last else. -/
  | branch (span : Span) (condition body : Node) (next : Option Node)
  | forEach (span : Span) (name : String) (collection body : Node)
  | binary (span : Span) (op : BinaryOp) (left right : Node)
  | unary (span : Span) (op : UnaryOp) (inner : Node)
  | assign (span : Span) (target value : Node)
  | result (span : Span) (value : Option Node)
  /-- Leaves the innermost loop. -/
  | leave (span : Span)
  /-- The signature of a host function. -/
  | signature (span : Span) (name : String) (parameters : List String)
  | function (span : Span) (name : String) (parameters : List String) (body : Node)
  | call (span : Span) (name : String) (arguments : List Node)
  deriving Inhabited

namespace Node

def span : Node → Span
  | .number span _ | .bool span _ | .text span _ | .read span _ | .declare span _ | .array span _
  | .block span _ | .branch span _ _ _ | .forEach span _ _ _ | .binary span _ _ _ | .unary span _ _
  | .assign span _ _ | .result span _ | .leave span | .signature span _ _ | .function span _ _ _
  | .call span _ _ => span

def withSpan (span : Span) : Node → Node
  | .number _ value => .number span value
  | .bool _ value => .bool span value
  | .text _ value => .text span value
  | .read _ name => .read span name
  | .declare _ name => .declare span name
  | .array _ elements => .array span elements
  | .block _ statements => .block span statements
  | .branch _ condition body next => .branch span condition body next
  | .forEach _ name collection body => .forEach span name collection body
  | .binary _ op left right => .binary span op left right
  | .unary _ op inner => .unary span op inner
  | .assign _ target value => .assign span target value
  | .result _ value => .result span value
  | .leave _ => .leave span
  | .signature _ name parameters => .signature span name parameters
  | .function _ name parameters body => .function span name parameters body
  | .call _ name arguments => .call span name arguments

end Node

end ScriptMachine
