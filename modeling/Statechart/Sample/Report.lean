import Statechart.Command.Run
import Statechart.Sample.Chart
import Statechart.Sample.Document
import Statechart.Trace
import Statechart.Xml.Document

/-!
Reports on samples: each takes a size, runs one part of the library on samples of this size and
tells how large the results are.
-/

namespace Statechart.Sample

/-- The text of an output that has no fault. -/
def textOf (o : Dve.Output) : Except Fault String :=
  match o.fault with
  | none => .ok o.text
  | some f => .error f

def lengthOf (o : Dve.Output) : Except Fault Nat := String.length <$> textOf o

/-! ## Processes -/

/-- The sizes of a sample process under each style of names and under alternation. -/
def processReport (transitions : Int) : Except Fault (List Nat) := do
  let c ← chart transitions 4
  let styles : List Dve.Options :=
    [⟨.id, none, false⟩, ⟨.hierarchical, none, false⟩, ⟨.short, none, false⟩,
     ⟨.id, some (0, 7), true⟩]
  styles.mapM fun opts => lengthOf (.ofPieces (Dve.processPieces opts c))

/-! ## Feeding -/

/-- A chart that has nothing but inputs. -/
def inputChart (inputs : List (String × VarType)) : PlanarChart where
  id := none
  name := none
  states := .empty
  transitions := []
  vars := .ofList (inputs.map fun e => (some e.1, ⟨e.2, false, none, .input⟩))

structure FeedReport where
  alternating : Nat
  plain : Nat
  withoutInputs : String
  withByte : String
  deriving Repr, DecidableEq

/-- What is written to feed a byte and so many integers from 0 to 2. -/
def feedReport (ints : Int) : Except Fault FeedReport := do
  let mixed := inputChart <|
    (List.range ints.toNat).map (fun i => ("in" ++ toString i, VarType.int)) ++ [("flag", .byte)]
  let feed (interval : Int × Int) (alternate : Bool) (charts : List PlanarChart) :=
    textOf (.ofPieces (Dve.feedPieces interval alternate charts))
  return {
    alternating := (← feed (0, 2) true [mixed]).length
    plain := (← feed (0, 2) false [mixed]).length
    withoutInputs := ← feed (0, 1) false []
    withByte := ← feed (0, 1) false [inputChart [("b0", .byte)]] }

/-! ## Planar charts and systems -/

structure PlanarReport where
  states : Nat
  transitions : Nat
  /-- The names of the variables, sorted. -/
  vars : List String
  name : Option String
  id : Option String
  size : Nat
  deriving Repr, DecidableEq

/-- The planar chart of a sample document, and the size of its process. -/
def planarReport (states : Int) : Except Fault PlanarReport := do
  let root ← parseDocument Xml.read (document states true true).toUTF8
  match ← planarCharts root with
  | [] => throw .missingElement
  | c :: _ =>
    return {
      states := c.states.entries.length
      transitions := c.transitions.length
      vars := (c.vars.keys.map worded).mergeSort fun a b => decide (a ≤ b)
      name := c.name
      id := c.id
      size := ← lengthOf (.ofPieces (Dve.processPieces ⟨.id, none, false⟩ c)) }

/-- The sizes of a sample system under different options. -/
def systemReport (states : Int) : Except Fault (List Nat) :=
  let bytes := (document states true true).toUTF8
  let options : List Dve.Options :=
    [⟨.id, none, false⟩, ⟨.id, some (0, 2), true⟩, ⟨.hierarchical, some (0, 1), false⟩,
     ⟨.short, some (0, 1), true⟩]
  options.mapM fun opts => lengthOf (compile Xml.read opts bytes)

/-! ## The command -/

structure CommandReport where
  /-- The codes of the runs, none for success. -/
  codes : List (Option Nat)
  /-- How many bytes all of them wrote. -/
  size : Nat
  deriving Repr, DecidableEq

/-- The files that command runs start from: a sample, and documents that are refused. -/
def commandFiles (states : Int) : Command.Files :=
  let plain (s : String) : Command.Entry := .file (.bytes s.toUTF8)
  .ofList
    [(["model.xml"], plain (document states true true)),
     (["empty.slx"], .file (.archive [])),
     (["other.xml"], plain "<a/>"),
     (["event.xml"], plain ("<ModelInformation><Stateflow><machine><Children><chart>" ++
       "<Children><event/></Children></chart></Children></machine></Stateflow>" ++
       "</ModelInformation>"))]

def output : String := "out.dve"

/-- The command lines of the runs: five that succeed and six that do not. -/
def commandLines : List (List String) :=
  [["model.xml", output],
   ["model.xml", output, "-n", "hierarchical"],
   ["model.xml", output, "-f"],
   ["model.xml", output, "-f", "-a"],
   ["model.xml", output, "-i", "0,2"],
   ["model.xml", output, "-i", "0,1,2"],
   ["model.xml", output, "-i", "a,b"],
   ["model.xml", output, "-i", "7,0"],
   ["empty.slx", output],
   ["other.xml", output],
   ["event.xml", output]]

/-- The code of one run, and how many bytes it wrote. -/
def commandRun (files : Command.Files) (args : List String) : Except Fault (Option Nat × Nat) :=
  let out := Command.run Xml.read files none args
  let size := match out.files.content [output] with
    | .bytes data => data.size
    | .archive _ => 0
  match out.ending with
  | .done 0 _ => .ok (none, size)
  | .done code _ | .usage code => .ok (some code, size)
  | .failed f => .error f

/-- Runs of the command on a sample document. -/
def commandReport (states : Int) : Except Fault CommandReport := do
  let runs ← commandLines.mapM (commandRun (commandFiles states))
  return ⟨runs.map (·.1), (runs.map (·.2)).foldl Nat.add 0⟩

/-! ## Traces -/

def traceModel : String := "byte b;\nint i;\nint k;\nconst x;\n"

/-- A line of inputs with `count` values that go through the numbers below `bound`. -/
def inputLine (name : String) (bound count : Nat) : String :=
  name ++ " = [" ++ " ".intercalate ((List.range count).map fun i => toString (i % bound)) ++ "]\n"

/-- The inputs of the runs: of both types, of integers only, and with one of no type. -/
def traceInputs (count : Nat) : List String :=
  [inputLine "b" 2 count ++ inputLine "i" 8 count,
   inputLine "i" 8 count ++ inputLine "k" 8 count,
   inputLine "b" 2 count ++ inputLine "x" 2 count]

/-- A simulation of two charts that count on by two in each of `count` steps. -/
def simulation (count : Nat) : String :=
  let line (process value : Nat) :=
    "process_" ++ toString process ++ ": out = " ++ toString value ++ ", q = 0\n"
  "initial\n\n" ++ String.join ((List.range count).map fun i =>
    "feed\n\n" ++ line 1 (2 * i) ++ line 2 (2 * i + 1) ++ "\n")

/-- How much the traces of so many steps write. -/
def traceReport (steps : Int) : Except Fault Nat := do
  let count := steps.toNat
  let sizes ← (traceInputs count).mapM fun inputs =>
    let run := Trace.run .literal "model.dve" traceModel inputs "out" (simulation count)
    match run.fault with
    | none => .ok run.output.length
    | some f => .error f
  return sizes.foldl Nat.add 0

end Statechart.Sample
