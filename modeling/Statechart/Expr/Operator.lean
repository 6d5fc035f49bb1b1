/-!
Operators of expressions: their binding strength and their spelling in the output.
-/

namespace Statechart

inductive BinaryOp where
  | or | and
  | bitOr | bitXor | bitAnd
  | eq | ne
  | lt | gt | le | ge
  | shiftLeft | shiftRight
  | add | sub
  | mul | div | mod
  deriving Repr, DecidableEq

namespace BinaryOp

/-- A higher number binds tighter. Operators of one strength group to the left. -/
def strength : BinaryOp → Nat
  | or => 0
  | and => 1
  | bitOr => 2
  | bitXor => 3
  | bitAnd => 4
  | eq | ne => 5
  | lt | gt | le | ge => 6
  | shiftLeft | shiftRight => 7
  | add | sub => 8
  | mul | div | mod => 9

/-- The operator as it is written in the output. -/
def spelling : BinaryOp → String
  | or => "or"
  | and => "and"
  | bitOr => "|"
  | bitXor => "^"
  | bitAnd => "&"
  | eq => "=="
  | ne => "!="
  | lt => "<"
  | gt => ">"
  | le => "<="
  | ge => ">="
  | shiftLeft => "<<"
  | shiftRight => ">>"
  | add => "+"
  | sub => "-"
  | mul => "*"
  | div => "/"
  | mod => "%"

end BinaryOp

inductive UnaryOp where
  | minus
  | complement
  | not
  deriving Repr, DecidableEq

/-- The operator as it is written in front of its operand. -/
def UnaryOp.spelling : UnaryOp → String
  | minus => "-"
  | complement => "~"
  | not => " not "

/-- Operators that have a form which stores its result. -/
inductive UpdateOp where
  | mul | div | mod | add | sub | shiftLeft | shiftRight | bitAnd | bitOr
  deriving Repr, DecidableEq

def UpdateOp.binary : UpdateOp → BinaryOp
  | mul => .mul
  | div => .div
  | mod => .mod
  | add => .add
  | sub => .sub
  | shiftLeft => .shiftLeft
  | shiftRight => .shiftRight
  | bitAnd => .bitAnd
  | bitOr => .bitOr

/-- Assignments: two spellings of the plain one, and those that compute first. -/
inductive AssignOp where
  | store
  | colonStore
  | update (op : UpdateOp)
  deriving Repr, DecidableEq

/-- One up or one down. -/
inductive StepOp where
  | up
  | down
  deriving Repr, DecidableEq

def StepOp.binary : StepOp → BinaryOp
  | up => .add
  | down => .sub

end Statechart
