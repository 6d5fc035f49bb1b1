import Statechart.Label.Cache
import Statechart.Planar.Basic
import Statechart.Text.Numeral

/-!
Flattening a chart. A transition from a composite state becomes one from each leaf in it, and
a transition to a composite state becomes one for each way that default transitions lead to a
leaf, and one to the state `error` for the case that none of them can be taken. Actions are
put in the order of execution.
-/

namespace Statechart.Planar

open Chart (State Transition Container Placed)
open Xml (Place)
open Label.Cache (Work)

variable (chart : Chart)

/-! ## States -/

/-- Climbs from a state through the states around it. Their names go in front of its name and
their during actions in front of its own. -/
def climb (ssid : Option String) : List Container → String → Work String
  | [], _ => throw .missingElement
  | ⟨.state, outer⟩ :: around, name => do
    let l ← Label.Cache.state chart outer
    let own ← Label.Cache.state chart ssid
    Label.Cache.setState ssid { own with during := l.during ++ own.during }
    climb ssid around (l.name ++ "_" ++ name)
  | _ :: _, name => return name

/-- The states directly around an item, innermost first. -/
def enclosingStates (around : List Container) : List (Option String) :=
  (around.takeWhile (·.kind == .state)).map (·.ssid)

def leafState (s : Placed State) : Work PlanarState := do
  let ssid := s.item.ssid
  let l ← Label.Cache.state chart ssid
  let longName ← climb chart ssid s.around l.name
  return ⟨longName, ← Label.Cache.state chart ssid, enclosingStates s.around⟩

/-- A state without actions that no chart has. -/
def bareState (name : String) : PlanarState := ⟨name, ⟨name, [], [], []⟩, []⟩

/-- The leaf states of the chart, and the two states that every planar chart has. -/
def planarStates : Work (Table (Option String) PlanarState) := do
  let leaves ← (chart.states.filter (!·.item.isComposite)).mapM fun s => do
    return (s.item.ssid, ← leafState chart s)
  return ((Table.ofList leaves).insert (some "start") (bareState "start")).insert (some "error")
    (bareState "error")

/-! ## Actions along the hierarchy -/

/-- During and exit actions of the states around a source. Exiting ends at `parent`. -/
def leaving (parent : Option String) :
    List Container → Bool → List String → List String → Work (List String × List String)
  | [], _, _, _ => throw .missingElement
  | ⟨.state, ssid⟩ :: around, exiting, during, exits => do
    let exiting := exiting && ssid != parent
    let l ← Label.Cache.state chart ssid
    leaving parent around exiting (l.during ++ during) (if exiting then exits ++ l.exit else exits)
  | _ :: _, _, during, exits => return (during, exits)

/-- Entry actions of the states around a destination, down from `parent`. -/
def arriving (parent : Option String) : List Container → List String → Work (List String)
  | [], _ => throw .missingElement
  | ⟨.state, ssid⟩ :: around, entries =>
    if ssid == parent then return entries
    else do
      let l ← Label.Cache.state chart ssid
      arriving parent around (l.entry ++ entries)
  | _ :: _, entries => return entries

/-- How many steps out of a state the chart is. -/
def levelOf : List Container → Except Fault Int
  | [] => throw .missingElement
  | ⟨.chart, _⟩ :: _ => return 1
  | _ :: around => do return (← levelOf around) + 1

/-! ## Leaves below a source -/

mutual

/-- The leaves of a state with the exit actions on the way out of it. -/
def exitPaths : State → List String → Work (List (Option String × List String))
  | .mk ssid composite _ substates, exits =>
    if composite then exitPathsOf substates exits else return [(ssid, exits)]

def exitPathsOf : List State → List String → Work (List (Option String × List String))
  | [], _ => return []
  | s :: ss, exits => do
    let l ← Label.Cache.state chart s.ssid
    return (← exitPaths s (l.exit ++ exits)) ++ (← exitPathsOf ss exits)

end

/-! ## Default paths below a destination -/

/-- A way into a state: the leaf it ends in, the conditions that it takes and the actions on
it. -/
structure EntryPath where
  target : Option String
  conditions : List String
  actions : List String
  deriving Repr, DecidableEq

/-- Puts a transition in front of the first one that does not come before it. -/
def insertByOrder (t : String × Transition) :
    List (String × Transition) → List (String × Transition)
  | [] => [t]
  | u :: us => if u.1 < t.1 then u :: insertByOrder t us else t :: u :: us

/-- Transitions in the order of their order texts. Two or more can be ordered only if each has
a text. -/
def sortByOrder : List Transition → Except Fault (List Transition)
  | [] => .ok []
  | [t] => .ok [t]
  | ts => do
    let keyed ← ts.mapM fun t =>
      match t.order with
      | some o => .ok (o, t)
      | none => .error .missingText
    return (keyed.foldr insertByOrder []).map (·.2)

/-- The ways into a state, given the conditions and actions so far. -/
abbrev Entering := List String → List String → Work (List EntryPath)

/-- Tries default transitions in turn. Each excludes the ones before it, and if all are
excluded the way ends in `error`. What a destination is entered by is looked up with `inside`. -/
def tryDefaults (inside : Option String → Except Fault (Option Entering))
    (conditions actions : List String) :
    List String → List Transition → Work (List EntryPath)
  | excluded, [] => return [⟨some "error", conditions ++ excluded, actions⟩]
  | excluded, t :: ts => do
    let enter? ← inside t.destination
    let l ← Label.Cache.transition chart t.ssid
    let taken := if l.condition == "" then [] else [l.condition]
    let d ← Label.Cache.state chart t.destination
    match enter? with
    | none => throw .missingElement
    | some enter =>
      let paths ← enter (conditions ++ excluded ++ taken)
        (actions ++ l.conditionActions ++ l.transitionActions ++ d.entry)
      let others ← tryDefaults inside conditions actions (excluded ++ [negate [l.condition]]) ts
      return paths ++ others

/-- How the state with an identifier directly in the one at a place is entered. -/
def enterSubstate (enter : Place → Entering) (p : Place) (ssid : Option String) :
    Except Fault (Option Entering) := do
  return (← Chart.substate? p ssid).map enter

/-- The ways into the state at a place along default transitions, which may be nested as deep as
`depth` says. -/
def entryPaths : Nat → Place → Entering
  | 0, _ => fun _ _ => throw .endless
  | depth + 1, p => fun conditions actions => do
    let s := State.ofNode p.node
    if s.isComposite then
      tryDefaults chart (enterSubstate (entryPaths depth) p) conditions actions []
        (← sortByOrder s.defaults)
    else return [⟨s.ssid, conditions, actions⟩]

/-- As many default transitions as elements can be nested; if there are more, one is met again and
there is no end. -/
def maxDepth : Nat :=
  (chart.place.node :: chart.place.above).foldr (fun n depth => (n.inside []).length + 1 + depth) 0

/-! ## Transitions -/

/-- The identifier that stands for the state before the first transition. -/
def startId : String := "start"

/-- The identifier of the source; without a source it is the one of the start. -/
def sourceKey (t : Transition) : String := t.source.getD startId

/-- An initial transition starts before the first state. -/
def isInitial (t : Transition) : Bool := sourceKey t == startId

/-- Where the state with an identifier is, which has to be there. -/
def placeAt (ssid : Option String) : Work Place := do
  match ← chart.place? ssid with
  | some p => return p
  | none => throw .missingElement

def stateAt (ssid : Option String) : Work (Placed State) := do
  return .ofPlace State.ofNode (← placeAt chart ssid)

def orderOf (t : Transition) : Except Fault Int :=
  match t.order with
  | none => .error .missingText
  | some s =>
    match Text.readInt s with
    | none => .error .notANumber
    | some n => .ok n

/-- Puts during and exit actions of the source and the states around it into the label of a
transition inside `parent`. -/
def widenBySource (t : Transition) (parent : Option String) : Work Unit :=
  if isInitial t then return ()
  else do
    let source := some (sourceKey t)
    let l ← Label.Cache.state chart source
    let inner := source == parent
    let s ← stateAt chart source
    let (during, exits) ← leaving chart parent s.around (!inner) (if inner then l.during else [])
      (if inner then [] else l.exit)
    let own ← Label.Cache.transition chart t.ssid
    Label.Cache.setTransition t.ssid
      { own with
        conditionActions := during ++ own.conditionActions
        transitionActions := exits ++ own.transitionActions }

/-- The entry actions of a destination itself, which is not entered from inside it. -/
def ownEntries (parent destination : Option String) : Work (List String) :=
  if destination == parent then return []
  else (·.entry) <$> Label.Cache.state chart destination

/-- Puts entry actions of the destination and the states around it into the label of a
transition inside `parent`. -/
def widenByDestination (t : Transition) (parent : Option String) : Work Unit := do
  let own ← ownEntries chart parent t.destination
  let d ← stateAt chart t.destination
  let entries ← arriving chart parent d.around own
  let l ← Label.Cache.transition chart t.ssid
  Label.Cache.setTransition t.ssid { l with transitionActions := l.transitionActions ++ entries }

/-- The leaves below the source with the exit actions on the way out to it. -/
def leavesFrom (t : Transition) : Work (List (Option String × List String)) :=
  if isInitial t then return [(some startId, [])]
  else do exitPaths chart (← stateAt chart (some (sourceKey t))).item []

def levelFrom (t : Transition) : Work Int :=
  if isInitial t then return 0
  else do levelOf (← stateAt chart (some (sourceKey t))).around

/-- Initial, outer or inner. -/
def rankIn (parent : Option String) (t : Transition) : Int :=
  if isInitial t then 0 else if parent == some (sourceKey t) then 2 else 1

/-- The planar transitions that a transition becomes. A default transition inside a state
becomes none of its own. -/
def planarTransitions (t : Placed Transition) : Work (List PlanarTransition) := do
  let ssid := t.item.ssid
  let _ ← Label.Cache.transition chart ssid
  match t.around.head? with
  | none => throw .missingElement
  | some parent =>
    if isInitial t.item && parent.kind != .chart then return []
    else
      widenBySource chart t.item parent.ssid
      widenByDestination chart t.item parent.ssid
      let exits ← leavesFrom chart t.item
      let l ← Label.Cache.transition chart ssid
      let destination ← placeAt chart t.item.destination
      let entries ← entryPaths chart (maxDepth chart) destination
        (if l.condition == "" then [] else [l.condition]) []
      let level ← levelFrom chart t.item
      let order ← orderOf t.item
      return exits.flatMap fun (leaf, exit) => entries.map fun e =>
        { ssid, source := leaf, target := e.target, conditions := e.conditions
          actions := l.conditionActions ++ exit ++ l.transitionActions ++ e.actions
          level, rank := rankIn parent.ssid t.item, order }

/-- The transition that is left when no initial transition can be taken. -/
def startFails : PlanarTransition where
  ssid := some startId
  source := some startId
  target := some "error"
  conditions := []
  actions := []
  level := 1
  rank := 0
  order := 0

/-- The variables of data. -/
def dataVariables (data : List Chart.Datum) : Except Fault Variables := do
  let entries ← data.mapM fun d => do return (d.name, ← d.variable)
  return .ofList entries

def flattening : Work PlanarChart := do
  let states ← planarStates chart
  let transitions ← chart.transitions.mapM (planarTransitions chart)
  let vars ← dataVariables chart.data
  return {
    id := chart.id
    name := chart.name
    states
    transitions := transitions.flatten ++ [startFails]
    vars := vars.merge (← get).vars }

/-- The planar chart of a chart; the counters run on. -/
def flatten : Label.Reading PlanarChart := fun lines =>
  let (r, cache) := (flattening chart).run.run (.fresh lines)
  (r, cache.lines)

end Statechart.Planar
