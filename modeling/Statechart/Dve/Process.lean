import Statechart.Dve.Output
import Statechart.Planar.Basic

/-!
A planar chart as a process. Each transition becomes an edge whose guard also negates the
transitions that come before it, and each state with during actions becomes a loop that is
taken when no transition is. Edges are built as data and printed last.
-/

namespace Statechart.Dve

/-- Which names states and processes get. -/
inductive NameStyle where
  | id
  | hierarchical
  | short
  deriving Repr, DecidableEq

structure Options where
  names : NameStyle
  /-- The interval of integer inputs, if a process feeds them. -/
  inputs : Option (Int × Int)
  /-- Whether chart steps and feeding steps alternate. -/
  alternate : Bool
  deriving Repr, DecidableEq

/-! ## Edges -/

structure Edge where
  source : Option String
  target : Option String
  guard : List String
  effect : List String
  deriving Repr, DecidableEq

/-- An edge with a conjunct that never holds is not written. -/
def Edge.isDead (e : Edge) : Bool := e.guard.contains never

def turnGuard (alternate : Bool) : List String := if alternate then ["not " ++ turn] else []

def turnEffect (alternate : Bool) : List String := if alternate then [turn ++ " = 1"] else []

/-- The transitions with the source of `t` that come before `t`. -/
def rivals (ts : List PlanarTransition) (t : PlanarTransition) : List PlanarTransition :=
  ts.filter fun u => u.source == t.source && u.before t

def edgeOf (alternate : Bool) (ts : List PlanarTransition) (t : PlanarTransition) : Edge where
  source := t.source
  target := t.target
  guard := t.conditions ++ turnGuard alternate ++ (rivals ts t).map (negate ·.conditions)
  effect := t.actions ++ turnEffect alternate

/-- One edge per transition, dead ones included. -/
def edges (alternate : Bool) (chart : PlanarChart) : List Edge :=
  chart.transitions.map (edgeOf alternate chart.transitions)

def loopOf (alternate : Bool) (ts : List PlanarTransition) (ssid : Option String)
    (s : PlanarState) : Edge where
  source := ssid
  target := ssid
  guard := turnGuard alternate ++ (ts.filter (·.source == ssid)).map (negate ·.conditions)
  effect := s.label.during ++ turnEffect alternate

/-- One loop per state with during actions, dead ones included. -/
def loops (alternate : Bool) (chart : PlanarChart) : List Edge :=
  (chart.states.entries.filter fun e => !e.2.label.during.isEmpty).map
    fun e => loopOf alternate chart.transitions e.1 e.2

/-! ## Text -/

/-- The name of a state. `start` and `error` keep theirs in every style. -/
def stateId (style : NameStyle) (states : Table (Option String) PlanarState)
    (ssid : Option String) : Except Fault String :=
  if style == .id || ssid == some "start" || ssid == some "error" then
    match ssid with
    | some s => .ok ("state_" ++ s)
    | none => .error .missingText
  else
    match states.get? ssid with
    | none => .error (.unknownState ssid)
    | some s => .ok ("state_" ++ if style == .hierarchical then s.longName else s.label.name)

def processName (style : NameStyle) (chart : PlanarChart) : String :=
  "process_" ++ worded (if style == .id then chart.id else chart.name)

/-- The declaration of a variable. Fed inputs are declared elsewhere. -/
def declaration (opts : Options) (name : Option String) (v : Variable) : String :=
  if opts.inputs.isSome && v.scope == .input then ""
  else
    "\t" ++ (if v.scope == .input then "input " else "") ++ (if v.const then "const " else "") ++
      v.type.name ++ " " ++ worded name ++
      (match v.init with
       | none | some "" => ""
       | some s => " = " ++ s) ++ ";\n"

/-- The line of an edge between two named states. -/
def edgeLine (source target : String) (guard effect : List String) : String :=
  "\t\t" ++ source ++ " -> " ++ target ++ " \x7b" ++
    (if guard.isEmpty then "" else " guard " ++ ", ".intercalate guard ++ ";") ++
    (if effect.isEmpty then "" else " effect " ++ ", ".intercalate effect ++ ";") ++ " \x7d\n"

/-- The line of an edge, or nothing for a dead one. Its ends have to have names in any case. -/
def Edge.line? (style : NameStyle) (states : Table (Option String) PlanarState) (e : Edge) :
    Except Fault (Option String) := do
  let source ← stateId style states e.source
  let target ← stateId style states e.target
  return if e.isDead then none else some (edgeLine source target e.guard e.effect)

/-- The lines that there are, with the word for transitions before the first. -/
def edgeSection (lines : List (Except Fault (Option String))) : Pieces :=
  let written : Pieces := lines.filterMap fun l =>
    match l with
    | .ok none => none
    | .ok (some s) => some (.ok s)
    | .error f => some (.error f)
  match written with
  | [] => []
  | p :: ps => p.map ("\ttrans\n" ++ ·) :: ps

/-- The declaration of the states. -/
def stateSection (style : NameStyle) (states : Table (Option String) PlanarState) :
    Except Fault String := do
  let names ← states.keys.mapM (stateId style states)
  return "\tstate " ++ ", ".intercalate names ++ ";\n\tinit state_start;\n"

def processPieces (opts : Options) (chart : PlanarChart) : Pieces :=
  [.ok ("process " ++ processName opts.names chart ++ " \x7b\n")] ++
  chart.vars.entries.map (fun e => .ok (declaration opts e.1 e.2)) ++
  [stateSection opts.names chart.states] ++
  edgeSection ((edges opts.alternate chart ++ loops opts.alternate chart).map
    (·.line? opts.names chart.states)) ++
  [.ok "\x7d\n\n"]

end Statechart.Dve
