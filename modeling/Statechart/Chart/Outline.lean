import Statechart.Chart.Basic
import Statechart.Xml.Path

/-!
Reading charts off a document tree. Children of a chart or of a state stand in elements
`Children`, so what a state or a transition stands in is two elements up.
-/

namespace Statechart

open Xml (Node Place)

namespace Chart

/-- A transition element without what is around it. -/
def Transition.ofNode (n : Node) : Transition where
  ssid := n.attribute? "SSID"
  source := n.propertyIn? "src" "SSID"
  destination := n.propertyIn? "dst" "SSID"
  order := n.property? "executionOrder"

/-- The default transitions among the children of a state. -/
def defaultsOf (n : Node) : List Transition :=
  ((n.path ["Children", "transition"]).map Transition.ofNode).filter (·.source.isNone)

mutual

/-- A state element and everything in it. -/
def State.ofNode : Node → State
  | .element name attributes children =>
    let n := Node.element name attributes children
    .mk (n.attribute? "SSID") (!(n.tagged "Children").isEmpty) (defaultsOf n) (substatesOf children)
  | .text _ => .mk none false [] []
  | .other => .mk none false [] []

/-- The states in the lists of children among the nodes of a state. -/
def substatesOf : List Node → List State
  | [] => []
  | n :: ns => statesIn n ++ substatesOf ns

/-- The states in a list of children. -/
def statesIn : Node → List State
  | .element name _ children => if name == ⟨none, "Children"⟩ then statesAmong children else []
  | .text _ => []
  | .other => []

/-- The states among nodes. -/
def statesAmong : List Node → List State
  | [] => []
  | n :: ns => (if n.hasTag "state" then [State.ofNode n] else []) ++ statesAmong ns

end

def Container.ofNode (n : Node) : Container where
  kind := if n.hasTag "state" then .state else if n.hasTag "chart" then .chart else .other
  ssid := n.attribute? "SSID"

/-- An element read by `f`, with what is around it. -/
def Placed.ofPlace {α : Type} (f : Node → α) (p : Place) : Placed α :=
  ⟨f p.node, p.enclosing.map Container.ofNode⟩

def Datum.ofNode (n : Node) : Datum where
  name := n.attribute? "name"
  type := n.property? "dataType"
  scope := n.property? "scope"
  init := n.propertyIn? "props" "initialValue"

end Chart

/-- A chart is a place in a document: its element and what is around it. -/
structure Chart where
  place : Place
  deriving Repr

namespace Chart

variable (c : Chart)

def id : Option String := c.place.node.attribute? "id"

def name : Option String := c.place.node.property? "name"

/-- The states at any depth, in document order. -/
def states : List (Placed State) :=
  (c.place.descendants "state").map (Placed.ofPlace State.ofNode)

def transitions : List (Placed Transition) :=
  (c.place.descendants "transition").map (Placed.ofPlace Transition.ofNode)

def data : List Datum := (c.place.descendants "data").map (Datum.ofNode ·.node)

/-- The end of a path expression, by which only elements with an identifier are taken. An absent
identifier is worded, and none is altered, so a quotation mark in it ends the quoted text. -/
def withId (ssid : Option String) : List Char :=
  "[@SSID=\"".toList ++ (worded ssid).toList ++ "\"]".toList

/-- The path to the elements of a name with an identifier, anywhere in the chart. -/
def pathTo (tag : String) (ssid : Option String) : List Char :=
  ".//".toList ++ tag.toList ++ withId ssid

/-- Where the state with an identifier is looked up. -/
def place? (ssid : Option String) : Except Fault (Option Place) :=
  c.place.find (pathTo "state" ssid)

/-- Where the state with an identifier directly in the state at a place is looked up. -/
def substate? (p : Place) (ssid : Option String) : Except Fault (Option Place) :=
  p.find ("Children/state".toList ++ withId ssid)

/-- The text of the label that is looked up for the element of a name with an identifier. -/
def label? (tag : String) (ssid : Option String) : Except Fault (Option String) := do
  let p ← c.place.find (pathTo tag ssid ++ "/P[@Name=\"labelString\"]".toList)
  return p.map (·.node.leadingText)

/-- The chart of a chart element. -/
def ofPlace (p : Place) : Chart := ⟨p⟩

/-- Where the charts of a document stand. -/
def chartPlaces (root : Node) : List Place :=
  (Place.mk root []).path ["Stateflow", "machine", "Children", "chart"]

/-- The charts of a document. -/
def ofDocument (root : Node) : List Chart := (chartPlaces root).map ofPlace

end Chart

end Statechart
