import Statechart.Expr.Operator

/-!
Expressions of conditions and actions, and how they are written in the output. Assignments
that compute are written out in full, and so are steps up and down.
-/

namespace Statechart

inductive Expr where
  /-- An identifier or a number. -/
  | atom (text : String)
  | group (inner : Expr)
  /-- The brackets keep the spelling they were read with. -/
  | index (base : Expr) (opening : String) (inner : Expr) (closing : String)
  | unary (op : UnaryOp) (operand : Expr)
  | binary (op : BinaryOp) (left right : Expr)
  | assign (op : AssignOp) (target value : Expr)
  | step (op : StepOp) (target : Expr)
  | comma (left right : Expr)
  deriving Repr, DecidableEq

namespace Expr

/-- How an assignment is written, given the texts of its sides. -/
def assignment (op : AssignOp) (target value : String) : String :=
  match op with
  | .store | .colonStore => target ++ " = " ++ value
  | .update op =>
    target ++ " = (" ++ target ++ ") " ++ op.binary.spelling ++ " (" ++ value ++ ")"

/-- The text of an expression, with every atom put through `name`. -/
def render (name : String → String) : Expr → String
  | atom s => name s
  | group e => "(" ++ e.render name ++ ")"
  | index b o e c => b.render name ++ o ++ e.render name ++ c
  | unary op e => op.spelling ++ e.render name
  | binary op l r => l.render name ++ " " ++ op.spelling ++ " " ++ r.render name
  | assign op t v => assignment op (t.render name) (v.render name)
  | step op t => t.render name ++ " = " ++ t.render name ++ " " ++ op.binary.spelling ++ " 1"
  | comma l r => l.render name ++ ", " ++ r.render name

end Expr

end Statechart
