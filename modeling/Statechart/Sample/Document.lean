/-!
Sample documents of any size: a ring of states with three transitions each, data of every type
and scope, and on demand a nested state and inputs.
-/

namespace Statechart.Sample

/-! ## Elements -/

def escaped (s : String) : String :=
  String.ofList <| s.toList.flatMap fun
    | '<' => "&lt;".toList
    | '>' => "&gt;".toList
    | '&' => "&amp;".toList
    | c => [c]

def property (name value : String) : String :=
  "<P Name=\"" ++ name ++ "\">" ++ escaped value ++ "</P>"

/-- An identified element; `content` is markup. -/
def identified (kind ssid content : String) : String :=
  "<" ++ kind ++ " SSID=\"" ++ ssid ++ "\">" ++ content ++ "</" ++ kind ++ ">"

def state (ssid : Int) (label : String) (content : String) : String :=
  identified "state" (toString ssid)
    (property "labelString" label ++ property "type" "OR_STATE" ++ content)

/-- A transition. A default transition has no source. -/
def transition (ssid : String) (source : Option Int) (target : Int) (order : Nat)
    (label : Option String) : String :=
  let reference (i : Int) := property "SSID" (toString i)
  identified "transition" ssid
    ("<src>" ++ (source.map reference).getD "" ++ "</src><dst>" ++ reference target ++ "</dst>" ++
      property "executionOrder" (toString order) ++
      (label.map (property "labelString")).getD "")

def data (name type scope : String) (init : Option String) : String :=
  "<data name=\"" ++ name ++ "\">" ++ property "dataType" type ++ property "scope" scope ++
    (init.map fun v => "<props>" ++ property "initialValue" v ++ "</props>").getD "" ++ "</data>"

def children (content : String) : String := "<Children>" ++ content ++ "</Children>"

/-! ## Parts of a sample -/

/-- The numbers from 1 to `n`. -/
def upTo (n : Nat) : List Nat := (List.range n).map (· + 1)

/-- The states of the ring. -/
def ringStates (n : Nat) : String :=
  String.join <| (upTo n).map fun (i : Nat) => state i ("S" ++ toString i) ""

/-- From each state of the ring one transition to each of the next three. -/
def ringTransitions (n : Nat) : String :=
  String.join <| (upTo n).flatMap fun i =>
    [("t", 0), ("u", 1), ("v", 2)].map fun (letter, k) =>
      transition (letter ++ toString i) (some i) ((i + k) % n + 1 : Nat) (k + 1) none

/-- A state `p` with three states in it, and the transitions inside and between them. -/
def nested (p : Int) : String :=
  state p "Parent\nen: pa = 1\ndu: pd = 1\nex: pe = 0" <| children <|
    state (p + 1) "Child1\nen: q = 1\ndu: q = 2\nex: q = 0" "" ++
    state (p + 2) "Child2/ q = 3" "" ++
    state (p + 3) "Solo" "" ++
    transition "td1" none (p + 1) 1 (some "[pa > 0]") ++
    transition "td2" none (p + 2) 2 (some "") ++
    transition "tc1" (some (p + 1)) (p + 2) 1 (some "[q > 3]\x7br = 1\x7d/s = 2") ++
    transition "tin" (some p) (p + 1) 1 (some "[pd >= 5]") ++
    transition "tself" (some (p + 1)) p 2 (some "")

/-- The transitions between the ring and the nested state `p`. -/
def bridges (p : Int) : String :=
  transition "tsup" (some 1) p 3 (some "[a == 42]") ++
  transition "tdeep" (some 2) (p + 1) 3 (some "[a == 7]") ++
  transition "tout" (some p) 2 2 (some "[pa < 0]") ++
  transition "texit" (some (p + 1)) 3 3 (some "[q < 0]")

def dataTypes : List String := ["int32", "int16", "uint8", "uint16", "uint32", "int8", "boolean"]

def dataScopes : List String := ["LOCAL_DATA", "OUTPUT_DATA", "CONSTANT"]

/-- The item of a list that comes up at number `i` if the list is gone through again and
again. -/
def cycled (items : List String) (i : Nat) : String := items.getD (i % items.length) ""

/-- One variable for each state of the ring. -/
def ringData (n : Nat) : String :=
  String.join <| (upTo n).map fun i =>
    data ("a" ++ toString i) (cycled dataTypes i) (cycled dataScopes i) (some (toString i))

def inputData : String :=
  data "inp0" "int32" "INPUT_DATA" none ++ data "inp1" "boolean" "INPUT_DATA" none

/-- The identifier of the nested state is behind those of a small ring. -/
def nestedId (states : Int) : Int := 100 + states

/-- A document whose ring has so many states. -/
def document (states : Int) (withNested withInputs : Bool) : String :=
  let n := states.toNat
  let p := nestedId states
  "<?xml version=\"1.0\"?><ModelInformation><Stateflow><machine id=\"1\"><Children>" ++
    "<chart id=\"42\">" ++ property "name" "Bench" ++
    children (ringStates n ++ transition "t0" none 1 1 none ++ ringTransitions n ++
      (if withNested then nested p ++ bridges p else "") ++ ringData n ++
      (if withInputs then inputData else "")) ++
    "</chart></Children></machine></Stateflow></ModelInformation>"

end Statechart.Sample
