import Statechart.Fault

/-!
Text that is written piece by piece. A fault ends the writing, and what was written before it
stays.
-/

namespace Statechart.Dve

structure Output where
  text : String
  fault : Option Fault
  deriving Repr, DecidableEq

abbrev Pieces := List (Except Fault String)

/-- The variable that holds whose turn it is, if chart steps and feeding steps alternate. -/
def turn : String := "sf2dve_alt"

namespace Output

/-- Writes pieces after `text`, up to the first fault. -/
def extend (text : String) : Pieces → Output
  | [] => ⟨text, none⟩
  | .ok s :: ps => extend (text ++ s) ps
  | .error f :: _ => ⟨text, some f⟩

def ofPieces (ps : Pieces) : Output := extend "" ps

end Output

end Statechart.Dve
