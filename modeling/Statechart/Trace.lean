import Statechart.Dve.Feed
import Statechart.Text.Blank
import Statechart.Text.Search

/-!
Traces: from rows of input values to the steps of a simulation that feed them, and from the
simulation back to the values of a variable. A step is the number of the feeding edge that
assigns the values of a row, and after each row the charts take one step of their own. The
initial values count as the first row that an edge assigns.
-/

namespace Statechart.Trace

/-- A variable with one value for each row. -/
structure Signal where
  name : String
  values : List String
  deriving Repr, DecidableEq

/-! ## Searching -/

/-- On the first line that has the name, what stands in front of the last place of it. -/
def frontOf (name : String) (text : List Char) : Except Fault (List Char) :=
  let hit := (Text.lines text).findSome? fun l =>
    Text.beforeLast? name.toList (l.filter (· != '\n'))
  match hit, name.isEmpty && text.isEmpty with
  | some cs, _ => .ok cs
  | none, true => .ok []
  | none, false => .error .malformedLine

/-- The value after `mark`, up to a comma. -/
def valueAfter? (mark : List Char) : List Char → Option (List Char)
  | [] => none
  | c :: cs =>
    let value := ((c :: cs).drop mark.length).takeWhile (· != ',')
    if mark.isPrefixOf (c :: cs) && !value.isEmpty then some value else valueAfter? mark cs

def valueOf (name : String) (text : List Char) : Except Fault (List Char) :=
  match valueAfter? (name ++ " = ").toList text with
  | some v => .ok v
  | none => .error .malformedLine

/-- The characters that do not stand for themselves in a pattern, and the line end. -/
def specials : List Char := ".^$*+?\x7b\x7d[]\\|()\n".toList

/-- How variables are searched for. A name is searched for as a pattern, which finds the name
itself if it has no special characters, and whatever the pattern means if it has. -/
structure Patterns where
  front : String → List Char → Except Fault (List Char)
  value : String → List Char → Except Fault (List Char)
  front_plain : ∀ name text, (∀ c ∈ name.toList, c ∉ specials) →
    front name text = frontOf name text
  value_plain : ∀ name text, (∀ c ∈ name.toList, c ∉ specials) →
    value name text = valueOf name text

/-- Every name finds itself. -/
def Patterns.literal : Patterns := ⟨frontOf, valueOf, fun _ _ _ => rfl, fun _ _ _ => rfl⟩

/-! ## Reading inputs -/

/-- The name on a line: what stands in front of the first bracket or equals sign, which is not
the first character. -/
def nameOn (line : List Char) : Except Fault (List Char) :=
  match line with
  | [] | '\n' :: _ => .error .malformedLine
  | c :: cs =>
    let isMark (c : Char) := c == '[' || c == '='
    let more := cs.takeWhile fun c => !isMark c && c != '\n'
    match cs.drop more.length with
    | d :: _ => if isMark d then .ok (Text.trim (c :: more)) else .error .malformedLine
    | [] => .error .malformedLine

/-- The values on a line: the words between the first opening and the last closing bracket, with
at least one character between the two. -/
def valuesOn (line : List Char) : Except Fault (List String) :=
  match line.dropWhile (· != '[') with
  | [] => .error .malformedLine
  | _ :: inner =>
    match Text.beforeLast? [']'] inner with
    | none | some [] => .error .malformedLine
    | some cs => .ok (Text.words (String.ofList cs))

def signalOn (line : List Char) : Except Fault Signal := do
  let name ← nameOn line
  return ⟨String.ofList name, ← valuesOn line⟩

/-- The type of a variable is what stands in front of its name in the model. -/
def typeIn (patterns : Patterns) (model : List Char) (name : String) : Except Fault String := do
  return String.ofList (Text.trim (← patterns.front name model))

/-- Signals by type, and the types that are neither. -/
structure Inputs where
  bytes : List Signal
  ints : List Signal
  strange : List String
  deriving Repr, DecidableEq

/-- Reads input lines up to the first one that fails. -/
def readInputs (patterns : Patterns) (model : List Char) :
    Inputs → List (List Char) → Inputs × Option Fault
  | ins, [] => (ins, none)
  | ins, l :: ls =>
    let read : Except Fault (Signal × String) := do
      let s ← signalOn l
      return (s, ← typeIn patterns model s.name)
    match read with
    | .error f => (ins, some f)
    | .ok (s, "byte") => readInputs patterns model { ins with bytes := ins.bytes ++ [s] } ls
    | .ok (s, "int") => readInputs patterns model { ins with ints := ins.ints ++ [s] } ls
    | .ok (_, type) => readInputs patterns model { ins with strange := ins.strange ++ [type] } ls

/-- Puts a signal in front of the first one whose name does not come earlier in the model. -/
def insertByPlace (s : Nat × Signal) : List (Nat × Signal) → List (Nat × Signal)
  | [] => [s]
  | t :: ts => if t.1 < s.1 then t :: insertByPlace s ts else s :: t :: ts

/-- Signals in the order in which the model names them. -/
def sortByPlace (model : List Char) (signals : List Signal) : List Signal :=
  let placed := signals.map fun s =>
    (((Text.before? s.name.toList model).map List.length).getD 0, s)
  (placed.foldr insertByPlace []).map (·.2)

/-! ## Numbers of steps -/

/-- How many edges feed so many bytes and integers from 0 to 7. -/
def edgeCount (bytes ints : Nat) : Nat := Nat.pow 8 ints * Nat.pow 2 bytes

/-- The values that the edge with number `n` assigns. -/
def edgeValues (bytes ints n : Nat) : List String :=
  (Dve.digits (List.replicate bytes 2 ++ List.replicate ints 8) n).map toString

/-- The edge that assigns a row. -/
def edgeOf? (bytes ints : Nat) (row : List String) : Option Nat :=
  (List.range (edgeCount bytes ints)).find? fun n => edgeValues bytes ints n == row

/-- The values of signals in a row. -/
def rowAt (signals : List Signal) (i : Nat) : Except Fault (List String) :=
  signals.mapM fun s =>
    match s.values[i]? with
    | some v => .ok v
    | none => .error .missingValue

/-- The numbers of steps for rows. The first row that an edge assigns gives none. -/
def stepsOf (bytes ints : Nat) : Bool → List (List String) → List Nat
  | _, [] => []
  | caught, row :: rows =>
    let close := edgeCount bytes ints + 1
    match caught, edgeOf? bytes ints row with
    | true, some n => (n + 1) :: close :: stepsOf bytes ints true rows
    | false, some _ => close :: stepsOf bytes ints true rows
    | caught, none => close :: stepsOf bytes ints caught rows

/-- The first signal, bytes first, says how many rows there are. -/
def rowCount (ins : Inputs) : Except Fault Nat :=
  match ins.bytes ++ ins.ints with
  | [] => .error .missingValue
  | s :: _ => .ok s.values.length

/-- The steps that feed the rows of inputs. -/
def steps (model : List Char) (ins : Inputs) : Except Fault (List Nat) := do
  let count ← rowCount ins
  let signals := sortByPlace model ins.bytes ++ sortByPlace model ins.ints
  let rows ← (List.range count).mapM (rowAt signals)
  return stepsOf ins.bytes.length ins.ints.length false rows

/-! ## Reading the simulation -/

/-- Every second block of lines, from the first on. A block ends with an empty line, and one
that does not end is left out. -/
def everySecondBlock : List (List Char) → List (List Char) → Bool → List (List (List Char))
  | [], _, _ => []
  | l :: ls, block, skip =>
    if l == ['\n'] then
      if skip then everySecondBlock ls [] false
      else (block ++ [l]) :: everySecondBlock ls [] true
    else everySecondBlock ls (block ++ [l]) skip

/-- The values of a variable on the lines of chart processes. -/
def valuesOf (patterns : Patterns) (watched : String) (simulation : List Char) :
    Except Fault (List String) := do
  let blocks := (everySecondBlock (Text.lines simulation) [] false).drop 1
  let lines := blocks.flatten.filter ("process_".toList.isPrefixOf ·)
  lines.mapM fun l => do
    return String.ofList (← patterns.value watched l)

/-! ## The whole run -/

structure Run where
  /-- What is reported on the way. -/
  report : String
  /-- The command line of the simulation, if it got that far. -/
  command : Option (List String)
  /-- The values of the variable, one on a line. -/
  output : String
  fault : Option Fault
  deriving Repr, DecidableEq

/-- The command line that simulates steps of a model file. -/
def command (file : String) (steps : List Nat) : List String :=
  ["divine", "simulate", "--no-reduce",
   "--trace=" ++ ",".intercalate ((1 :: steps).map toString), file]

/-- Runs a trace; `simulation` is what the simulation of it prints. -/
def run (patterns : Patterns) (file model inputs watched simulation : String) : Run :=
  let model := Text.unifyLines model.toList
  let (ins, failed) :=
    readInputs patterns model ⟨[], [], []⟩ (Text.lines (Text.unifyLines inputs.toList))
  let report := String.join (ins.strange.map fun t =>
    "Wrong variable type in the model: " ++ t ++ "\n")
  match failed with
  | some f => ⟨report, none, "", some f⟩
  | none =>
    match steps model ins with
    | .error f => ⟨report, none, "", some f⟩
    | .ok ss =>
      match valuesOf patterns watched simulation.toList with
      | .error f => ⟨report, some (command file ss), "", some f⟩
      | .ok vs => ⟨report, some (command file ss), String.join (vs.map (· ++ "\n")), none⟩

end Statechart.Trace
