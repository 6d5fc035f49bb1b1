import Statechart.Dve.Output
import Statechart.Planar.Basic

/-!
The process that feeds inputs: one edge for each combination of values, bytes from 0 to 1 and
integers from an interval. The combinations are counted in mixed radix with the first byte
variable as the lowest digit.
-/

namespace Statechart.Dve

/-- The digits of `n` in the given radices, lowest first. -/
def digits : List Int → Int → List Int
  | [], _ => []
  | r :: rs, n => n.fmod r :: digits rs (n.fdiv r)

/-- The inputs of several charts, with their types, in the order of the charts. -/
def inputsOf (charts : List PlanarChart) : List (Option String × VarType) :=
  charts.flatMap fun c =>
    (c.vars.entries.filter (·.2.scope == .input)).map fun e => (e.1, e.2.type)

def bytesOf (inputs : List (Option String × VarType)) : List (Option String) :=
  (inputs.filter (·.2 == .byte)).map (·.1)

def intsOf (inputs : List (Option String × VarType)) : List (Option String) :=
  (inputs.filter (·.2 != .byte)).map (·.1)

/-- The number of values in an interval. -/
def width (interval : Int × Int) : Int := interval.2 - interval.1 + 1

/-- How many combinations there are; none if that is no positive number. -/
def combinations (interval : Int × Int) (bytes ints : List (Option String)) : Nat :=
  (Int.pow (width interval) ints.length * Int.pow 2 bytes.length).toNat

/-- The values of the variables, bytes first, in the combination with number `n`. -/
def valuesAt (interval : Int × Int) (bytes ints : List (Option String)) (n : Nat) : List Int :=
  let ds := digits (bytes.map (fun _ => 2) ++ ints.map (fun _ => width interval)) n
  ds.take bytes.length ++ (ds.drop bytes.length).map (· + interval.1)

/-- Assignments with a comma behind every variable that is not named as the last one. -/
def assignments (last : Option String) (names : List (Option String)) (values : List Int) :
    String :=
  String.join <| (names.zip values).map fun (name, value) =>
    worded name ++ " = " ++ toString value ++ if name == last then "" else ", "

/-- The variable after which no comma is written. -/
def lastInput (bytes ints : List (Option String)) : Option String :=
  ((ints.getLast?).or bytes.getLast?).join

def feedLine (alternate : Bool) (assigned : String) : String :=
  "\t\tstart -> start \x7b " ++
    (if alternate then "guard " ++ turn ++ "; effect " ++ turn ++ " = 0, " else "effect ") ++
    assigned ++ "; \x7d\n"

/-- The declarations of fed inputs and the process that feeds them, if there are any. -/
def feedPieces (interval : Int × Int) (alternate : Bool)
    (charts : List PlanarChart) : Pieces :=
  let inputs := inputsOf charts
  let bytes := bytesOf inputs
  let ints := intsOf inputs
  let declared :=
    (if alternate then [.ok ("byte " ++ turn ++ ";\n")] else []) ++
      inputs.map fun e => .ok (e.2.name ++ " " ++ worded e.1 ++ ";\n")
  if inputs.isEmpty then declared
  else
    declared ++ [.ok "\nprocess feed_inputs \x7b\n\tstate start;\n\tinit start;\n\ttrans\n"] ++
    (List.range (combinations interval bytes ints)).map (fun n =>
      .ok (feedLine alternate
        (assignments (lastInput bytes ints) (bytes ++ ints) (valuesAt interval bytes ints n)))) ++
    [.ok "\x7d\n\n"]

end Statechart.Dve
