import Statechart.Expr.Basic
import Statechart.Expr.Symbol

/-!
Reading expressions token by token. What is still open around the place of reading is a stack
of frames, innermost first; between two brackets they come in the order comma, assignments,
step, binary operators of falling strength, signs. A token that ends an operand first closes
the frames that bind tighter than it does.
-/

namespace Statechart

/-- Conditions index by plain numbers and do not assign; actions do both by expressions. -/
inductive Dialect where
  | condition
  | action
  deriving Repr, DecidableEq

namespace Expr

inductive Frame where
  /-- A plus sign before the operand. It cannot be closed. -/
  | plus
  | unary (op : UnaryOp)
  | binary (op : BinaryOp) (left : Expr)
  /-- A step written before its target. -/
  | step (op : StepOp)
  | assign (op : AssignOp) (target : Expr)
  | comma (left : Expr)
  | group
  | index (base : Expr) (opening : String)
  deriving Repr, DecidableEq

/-- What can be done with an operand besides combining it. -/
inductive Extent where
  /-- An atom or a group, which may be indexed. -/
  | primary
  | unary
  /-- A target with its step behind it: nothing can be done. -/
  | whole
  deriving Repr, DecidableEq

/-- Where the reading of an expression stands. -/
inductive Position where
  /-- An operand has to come. -/
  | operand (frames : List Frame)
  /-- The number that indexes `base` has to come. -/
  | indexNumber (frames : List Frame) (base : Expr) (opening : String)
  /-- The closing bracket after that number has to come. -/
  | indexClose (frames : List Frame) (base : Expr) (opening : String) (number : String)
  /-- An operand has been read. -/
  | after (frames : List Frame) (e : Expr) (extent : Extent)
  deriving Repr, DecidableEq

/-- The answer to a token: the reading goes on, the expression is complete without the token,
or the token cannot stand there. -/
inductive Outcome where
  | more (p : Position)
  | done (e : Expr)
  | stuck
  deriving Repr, DecidableEq

/-- Closes the signs before an operand. -/
def closeUnary : List Frame → Expr → Except Fault (List Frame × Expr)
  | .plus :: _, _ => .error .unaryPlus
  | .unary op :: fs, e => closeUnary fs (.unary op e)
  | fs, e => .ok (fs, e)

/-- Closes the binary operators that bind at least as tight as `strength`. -/
def closeBinary (strength : Nat) : List Frame → Expr → List Frame × Expr
  | .binary op l :: fs, e =>
    if strength ≤ op.strength then closeBinary strength fs (.binary op l e)
    else (.binary op l :: fs, e)
  | fs, e => (fs, e)

/-- Closes everything up to the bracket around the operand, or up to the bottom. -/
def closeAll : List Frame → Expr → List Frame × Expr
  | .binary op l :: fs, e => closeAll fs (.binary op l e)
  | .step op :: fs, e => closeAll fs (.step op e)
  | .assign op t :: fs, e => closeAll fs (.assign op t e)
  | .comma l :: fs, e => closeAll fs (.comma l e)
  | fs, e => (fs, e)

/-- Whether a whole assignment may start here. -/
def startsAssignment : List Frame → Bool
  | [] | .assign _ _ :: _ | .comma _ :: _ | .group :: _ | .index _ _ :: _ => true
  | _ => false

/-- Tokens that may come directly after an operand, indexing apart. -/
def mayFollow : Dialect → Symbol → Bool
  | _, .binary _ | _, .rightParen => true
  | .condition, _ => false
  | .action, k =>
    match k with
    | .assign _ | .step _ | .rightBracket | .comma | .semicolon | .newline | .rightBrace => true
    | _ => false

/-- The token `k` comes where an operand has to start. -/
def startOperand (fs : List Frame) (k : Symbol) (text : String) : Outcome :=
  match k with
  | .identifier | .number => .more (.after fs (.atom text) .primary)
  | .leftParen => .more (.operand (.group :: fs))
  | .binary .add => .more (.operand (.plus :: fs))
  | .binary .sub => .more (.operand (.unary .minus :: fs))
  | .complement => .more (.operand (.unary .complement :: fs))
  | .not => .more (.operand (.unary .not :: fs))
  | .step op => if startsAssignment fs then .more (.operand (.step op :: fs)) else .stuck
  | _ => .stuck

/-- The token `k`, which may follow an operand, comes after `e`; the signs before `e` are
closed. Without `commas`, a comma outside brackets ends the expression. -/
def continueWith (commas : Bool) (fs : List Frame) (e : Expr) (extent : Extent)
    (k : Symbol) (text : String) : Outcome :=
  let free := extent != .whole && startsAssignment fs
  match k with
  | .binary op =>
    match extent, closeBinary op.strength fs e with
    | .whole, _ | _, (.step _ :: _, _) => .stuck
    | _, (fs, e) => .more (.operand (.binary op e :: fs))
  | .assign op => if free then .more (.operand (.assign op e :: fs)) else .stuck
  | .step op => if free then .more (.after fs (.step op e) .whole) else .stuck
  | _ =>
    match k, closeAll fs e with
    | .rightParen, (.group :: fs, e) => .more (.after fs (.group e) .primary)
    | .rightBracket, (.index b o :: fs, e) => .more (.after fs (.index b o e text) .unary)
    | .comma, ([], e) => if commas then .more (.operand [.comma e]) else .done e
    | .comma, (fs, e) => .more (.operand (.comma e :: fs))
    | _, ([], e) => .done e
    | _, _ => .stuck

/-- Reads one token of an expression. -/
def Position.step (d : Dialect) (commas : Bool) (p : Position) (k : Symbol) (text : String) :
    Except Fault Outcome :=
  match p with
  | .operand fs => .ok (startOperand fs k text)
  | .indexNumber fs b o => .ok (if k = .number then .more (.indexClose fs b o text) else .stuck)
  | .indexClose fs b o n =>
    .ok (if k = .rightBracket then .more (.after fs (.index b o (.atom n) text) .unary) else .stuck)
  | .after fs e extent =>
    if k = .leftBracket then
      .ok <| match extent, d with
        | .primary, .action => .more (.operand (.index e text :: fs))
        | .primary, .condition => .more (.indexNumber fs e text)
        | _, _ => .stuck
    else if !mayFollow d k then .ok .stuck
    else do
      let (fs, e) ← closeUnary fs e
      return continueWith commas fs e extent k text

end Expr

end Statechart
