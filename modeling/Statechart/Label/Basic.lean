import Statechart.Action.Reader
import Statechart.Condition
import Statechart.Label.Parts
import Statechart.Label.Section

/-!
Labels of states and transitions with their actions in the words of the output. The texts of
several labels share running line counters, one for each of the four languages, which failing
texts advance, too.
-/

namespace Statechart

/-- The line counters of the four languages. -/
structure Lines where
  action : Nat
  condition : Nat
  state : Nat
  transition : Nat
  deriving Repr, DecidableEq

/-- The counters at the outset. -/
def Lines.initial : Lines := ⟨1, 1, 1, 1⟩

structure StateLabel where
  name : String
  entry : List String
  during : List String
  exit : List String
  deriving Repr, DecidableEq

structure TransitionLabel where
  condition : String
  conditionActions : List String
  transitionActions : List String
  deriving Repr, DecidableEq

namespace Label

/-- Reading labels: it may fail, and the counters run on in either case. -/
abbrev Reading := ExceptT Fault (StateM Lines)

def readAction (text owner : String) (vars : Variables) : Reading (List String × Variables) :=
  fun lines =>
    let (r, n) := Action.parse lines.action text owner vars
    (r, { lines with action := n })

def readCondition (text : String) : Reading String := fun lines =>
  let (r, n) := Condition.parse lines.condition text
  (r, { lines with condition := n })

def readSections (text : String) : Reading (List Section) := fun lines =>
  let (r, n) := Section.read lines.state text
  (r, { lines with state := n })

def readParts (text : String) : Reading Parts := fun lines =>
  let (r, n) := Parts.read lines.transition text
  (r, { lines with transition := n })

/-- Action text with a semicolon at its end. Blank text has no end to look at. -/
def withSemicolon (text : String) : Except Fault String :=
  match (Text.trim text.toList).getLast? with
  | none => .error .blankAction
  | some c => .ok (if c == ';' then text else text ++ ";")

/-- The statements of one part of a label. -/
def readPart (text owner : String) (vars : Variables) : Reading (List String × Variables) := do
  readAction (← withSemicolon text) owner vars

/-! ## State labels -/

/-- The name in a state label ends at the first slash of its first line, else at the end of
the line. -/
def nameChars (cs : List Char) : List Char :=
  let first := cs.takeWhile (· != '\n')
  if first.contains '/' then first.takeWhile (· != '/') else first

def stateName (label : String) : String := String.ofList (nameChars label.toList)

/-- Beginnings that are taken for a heading. -/
def headingStarts : List String := ["entry", "en", "during", "du", "exit", "ex", "bind", "on"]

/-- The text behind the name. Without a heading at its front it is entry action text. -/
def bodyOf (label : String) : String :=
  let cs := label.toList
  let body := String.ofList (Text.trim (cs.drop ((nameChars cs).length + 1)))
  if body == "" || headingStarts.any (·.toList.isPrefixOf body.toList) then body
  else "en:" ++ body

/-- The words of a heading cover the entry, during or exit actions. -/
def covers (a b : ActionWord) (words : List ActionWord) : Bool :=
  words.contains a || words.contains b

/-- A label with a section's statements added. -/
def addStatements (l : StateLabel) (words : List ActionWord) (ss : List String) : StateLabel where
  name := l.name
  entry := if covers .entry .en words then l.entry ++ ss else l.entry
  during := if covers .during .du words then l.during ++ ss else l.during
  exit := if covers .exit .ex words then l.exit ++ ss else l.exit

/-- Adds sections in turn to a label and to the variables that it declares. -/
def addSections (owner : String) :
    StateLabel → Variables → List Section → Reading (StateLabel × Variables)
  | l, vars, [] => return (l, vars)
  | l, vars, ⟨heading, body⟩ :: rest => do
    match heading with
    | .bind => throw (.unsupported .bindActions)
    | .on _ => throw (.unsupported .eventActions)
    | .actions words =>
      let (ss, vars) ← readPart body owner vars
      addSections owner (addStatements l words ss) vars rest

/-- The variables of a label are named after its owner. -/
def stateOwner (ssid : Option String) : String := "state_" ++ worded ssid ++ "_"

def transitionOwner (ssid : Option String) : String := "trans_" ++ worded ssid ++ "_"

/-- The label of a state and the variables that it declares. -/
def readState (label : String) (ssid : Option String) : Reading (StateLabel × Variables) := do
  let sections ← readSections (bodyOf label)
  addSections (stateOwner ssid) ⟨Text.trimmed (stateName label), [], [], []⟩ .empty sections

/-! ## Transition labels -/

/-- The statements of a part that may be absent. -/
def readPart? (text? : Option String) (owner : String) (vars : Variables) :
    Reading (List String × Variables) :=
  match text? with
  | none => return ([], vars)
  | some text => readPart text owner vars

/-- The label of a transition and the variables that it declares. -/
def readTransition (label : String) (ssid : Option String) :
    Reading (TransitionLabel × Variables) := do
  let parts ← readParts (Text.trimmed label)
  if parts.event.isSome then throw (.unsupported .transitionEvents)
  let condition ← match parts.condition with
    | none => pure ""
    | some c => Text.trimmed <$> readCondition c
  let owner := transitionOwner ssid
  let (ca, vars) ← readPart? parts.conditionAction owner .empty
  let (ta, vars) ← readPart? parts.transitionAction owner vars
  return (⟨condition, ca, ta⟩, vars)

end Label

end Statechart
