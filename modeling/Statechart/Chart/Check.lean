import Statechart.Chart.Outline

/-!
What a document has to be before it is compiled: one machine, charts in the supported action
language, no events, no junctions, and labelled states of the supported type.
-/

namespace Statechart.Chart

open Xml (Node Place)

/-- A state has a label, and it is an exclusive state. -/
def checkState (n : Node) : Except Fault Unit := do
  if (n.property? "labelString").getD "" == "" then throw (.invalid .unlabelledState)
  match n.property? "type" with
  | some "OR_STATE" => return
  | some "AND_STATE" => throw (.unsupported .andStates)
  | some "FUNC_STATE" => throw (.unsupported .functions)
  | t => throw (.unsupported (.stateType t))

/-- Whether a chart is written in the other action language. -/
def usesOtherLanguage (n : Node) : Bool := n.property? "actionLanguage" == some "2"

def check (root : Node) : Except Fault Unit := do
  let top : Place := ⟨root, []⟩
  if (root.tagged "Stateflow").isEmpty then throw (.invalid .notStateflow)
  if (root.path ["Stateflow", "machine"]).length != 1 then throw (.invalid .machines)
  if (chartPlaces root).any (usesOtherLanguage ·.node) then throw (.invalid .actionLanguage)
  if !(top.descendants "event").isEmpty then throw (.unsupported .events)
  if !(top.descendants "junction").isEmpty then throw (.unsupported .junctions)
  (top.descendants "state").forM (checkState ·.node)

end Statechart.Chart
