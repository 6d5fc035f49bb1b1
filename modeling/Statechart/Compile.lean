import Statechart.Chart.Check
import Statechart.Dve.Feed
import Statechart.Dve.Process
import Statechart.Planar.Flatten

/-!
The whole way from a document to a system of processes. How bytes are read as a document is left
to a reader.
-/

namespace Statechart

variable (read : Xml.DocumentReader)

/-- The root of a document. -/
def parseDocument (bytes : ByteArray) : Except Fault Xml.Node :=
  match read bytes with
  | some root => .ok root
  | none => .error .illFormed

/-- The planar charts of a document, without a check of it. -/
def planarCharts (root : Xml.Node) : Except Fault (List PlanarChart) :=
  ((Chart.ofDocument root).mapM Planar.flatten |>.run Lines.initial).1

/-- The text of a system of planar charts. -/
def systemPieces (opts : Dve.Options) (charts : List PlanarChart) : Dve.Pieces :=
  (match opts.inputs with
   | none => []
   | some interval => Dve.feedPieces interval opts.alternate charts) ++
  charts.flatMap (Dve.processPieces opts) ++ [.ok "system async;\n\n"]

/-- The planar charts of a document that passes the check. -/
def chartsOf (bytes : ByteArray) : Except Fault (List PlanarChart) := do
  let root ← match parseDocument read bytes with
    | .ok root => pure root
    | .error _ => throw (.invalid .unreadable)
  Chart.check root
  planarCharts root

/-- What is written for a document. -/
def compile (opts : Dve.Options) (bytes : ByteArray) : Dve.Output :=
  match chartsOf read bytes with
  | .error f => ⟨"", some f⟩
  | .ok charts => .ofPieces (systemPieces opts charts)

end Statechart
