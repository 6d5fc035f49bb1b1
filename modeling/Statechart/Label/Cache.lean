import Statechart.Chart.Outline
import Statechart.Label.Basic

/-!
Labels of a chart, read once for each identifier and kept. A label that fails is not kept, but
the line counters stay where it left them. Flattening widens labels in place.
-/

namespace Statechart.Label

structure Cache where
  states : Table (Option String) StateLabel
  transitions : Table (Option String) TransitionLabel
  /-- The variables that the labels declare. -/
  vars : Variables
  lines : Lines
  deriving Repr

namespace Cache

/-- A cache that holds nothing, with the counters where earlier charts left them. -/
def fresh (lines : Lines) : Cache := ⟨.empty, .empty, .empty, lines⟩

/-- Work on the labels of a chart. -/
abbrev Work := ExceptT Fault (StateM Cache)

/-- Reads a label and advances the counters. -/
def reading {α : Type} (r : Reading α) : Work α := fun cache =>
  let (a, lines) := r.run.run cache.lines
  (a, { cache with lines })

/-- The label of the state with an identifier. -/
def state (chart : Chart) (ssid : Option String) : Work StateLabel := do
  match (← get).states.get? ssid with
  | some l => return l
  | none =>
    match ← chart.label? "state" ssid with
    | none => throw (.unknownState ssid)
    | some text =>
      let (l, vars) ← reading (readState text ssid)
      modify fun c => { c with states := c.states.insert ssid l, vars := c.vars.merge vars }
      return l

/-- The label of the transition with an identifier; without a text it is empty. -/
def transition (chart : Chart) (ssid : Option String) : Work TransitionLabel := do
  match (← get).transitions.get? ssid with
  | some l => return l
  | none =>
    let text := (← chart.label? "transition" ssid).getD ""
    let (l, vars) ← reading (readTransition text ssid)
    modify fun c =>
      { c with transitions := c.transitions.insert ssid l, vars := c.vars.merge vars }
    return l

def setState (ssid : Option String) (l : StateLabel) : Work Unit :=
  modify fun c => { c with states := c.states.insert ssid l }

def setTransition (ssid : Option String) (l : TransitionLabel) : Work Unit :=
  modify fun c => { c with transitions := c.transitions.insert ssid l }

end Cache

end Statechart.Label
