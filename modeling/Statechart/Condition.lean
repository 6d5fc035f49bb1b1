import Statechart.Expr.Reader

/-!
Conditions: one expression without assignments, or nothing. Line ends count as blanks.
-/

namespace Statechart.Condition

def lexer : Lexer Symbol where
  skipped := Symbol.isSpace
  rules :=
    [⟨.run (· == '\n') (· == '\n'), fun _ => none, true⟩,
     Symbol.commentRule,
     Symbol.nameRule fun _ => .identifier,
     Symbol.leftBracketRule,
     Symbol.rightBracketRule,
     Symbol.numberRule,
     Symbol.spelledRule ["||"] (.binary .or),
     Symbol.spelledRule [">>"] (.binary .shiftRight),
     Symbol.spelledRule ["<<"] (.binary .shiftLeft),
     Symbol.spelledRule ["&&"] (.binary .and),
     Symbol.spelledRule ["<="] (.binary .le),
     Symbol.spelledRule [">="] (.binary .ge),
     Symbol.spelledRule ["=="] (.binary .eq),
     Symbol.spelledRule ["!="] (.binary .ne)]
  literal? := Symbol.ofChar?

/-- One more token; `none` stands for a text of which nothing has been read. -/
def step (p : Option Expr.Position) (t : Token Symbol) : Except Fault (Option Expr.Position) := do
  match ← (p.getD (.operand [])).step .condition false t.kind t.text with
  | .more p => return some p
  | _ => throw (.unexpected t.line t.kind.label)

/-- The end of the text ends an operand, too. -/
def finish : Option Expr.Position → Except Fault (Option Expr)
  | none => return none
  | some (.after fs e _) => do
    let (fs, e) ← Expr.closeUnary fs e
    match Expr.closeAll fs e with
    | ([], e) => return some e
    | _ => throw .unfinished
  | some _ => throw .unfinished

def reader : Reader Symbol (Option Expr.Position) (Option Expr) := ⟨none, step, finish⟩

/-- The expression of a condition whose first line has the given number. -/
def read (line : Nat) (text : String) : Except Fault (Option Expr) × Nat :=
  reader.run (lexer.scan line text.toList)

/-- The text of a condition in the output. -/
def render : Option Expr → String
  | none => ""
  | some e => e.render id

/-- A condition in the words of the output. -/
def parse (line : Nat) (text : String) : Except Fault String × Nat :=
  let (r, line) := read line text
  (r.map render, line)

end Statechart.Condition
