import Statechart.Table

/-!
Variables of a chart: those of its data and those that labels declare.
-/

namespace Statechart

inductive VarType where
  | int
  | byte
  | other (name : String)
  deriving Repr, DecidableEq

def VarType.name : VarType → String
  | int => "int"
  | byte => "byte"
  | other s => s

/-- Where a variable comes from: an input signal, the chart itself, or a label. -/
inductive Scope where
  | input
  | inner
  | label
  | other (name : String)
  deriving Repr, DecidableEq

def Scope.name : Scope → String
  | input => "input"
  | inner => "local"
  | label => "label"
  | other s => s

structure Variable where
  type : VarType
  const : Bool
  init : Option String
  scope : Scope
  deriving Repr, DecidableEq

/-- Variables by name. A data element need not carry a name. -/
abbrev Variables := Table (Option String) Variable

end Statechart
