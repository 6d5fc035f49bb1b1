import Statechart.Variable
import Statechart.Fault

/-!
What charts are made of: states in a hierarchy, transitions and data. Texts are not judged here,
and what the document leaves out is absent.
-/

namespace Statechart.Chart

structure Transition where
  ssid : Option String
  /-- The identifier of the source; a default transition has none. -/
  source : Option String
  destination : Option String
  /-- The text of the execution order. -/
  order : Option String
  deriving Repr, DecidableEq

/-- A state with its default transitions and the states directly in it. A composite state has
room for children, whether there are any or not. -/
inductive State where
  | mk (ssid : Option String) (composite : Bool) (defaults : List Transition)
      (substates : List State)
  deriving Repr

namespace State

def ssid : State → Option String
  | mk s _ _ _ => s

def isComposite : State → Bool
  | mk _ c _ _ => c

def defaults : State → List Transition
  | mk _ _ d _ => d

def substates : State → List State
  | mk _ _ _ s => s

end State

inductive ContainerKind where
  | state
  | chart
  | other
  deriving Repr, DecidableEq

/-- What a state or a transition stands in. -/
structure Container where
  kind : ContainerKind
  ssid : Option String
  deriving Repr, DecidableEq

/-- An item with what is around it, innermost first. -/
structure Placed (α : Type) where
  item : α
  around : List Container
  deriving Repr

structure Datum where
  name : Option String
  type : Option String
  scope : Option String
  init : Option String
  deriving Repr, DecidableEq

/-- The type of a datum as it is written in the output. -/
def Datum.varType : Datum → Except Fault VarType
  | ⟨_, some "int16", _, _⟩ | ⟨_, some "int32", _, _⟩ | ⟨_, some "uint8", _, _⟩
  | ⟨_, some "uint16", _, _⟩ | ⟨_, some "uint32", _, _⟩ | ⟨_, some "int", _, _⟩ => .ok .int
  | ⟨_, some "int8", _, _⟩ | ⟨_, some "boolean", _, _⟩ => .ok .byte
  | d => .error (.unsupported (.variableType d.type))

/-- The variable that a datum defines. -/
def Datum.variable (d : Datum) : Except Fault Variable := do
  let type ← d.varType
  match d.scope with
  | some "LOCAL_DATA" | some "OUTPUT_DATA" => return ⟨type, false, d.init, .inner⟩
  | some "INPUT_DATA" => return ⟨type, false, d.init, .input⟩
  | some "CONSTANT" => return ⟨type, true, d.init, .inner⟩
  | s => throw (.unsupported (.variableScope s))

end Statechart.Chart
