import Statechart.Compile
import Statechart.Proofs.Dve.Enumeration
import Statechart.Proofs.Trace.Located

/-!
The lines that feed inputs, by their numbers. The text of a system begins with the declarations of
inputs and one line for each combination of their values (`modelOf_eq`), and the line that assigns
given values has the number of which they are the digits (`idxOf_valueLine`). So the steps that feed
rows of values are what a trace computes from the inputs in their order (`stepsFor_eq`).
-/

namespace Statechart.Trace

open Dve (NameStyle inputsOf bytesOf intsOf digits number InRange fedNames valueLine valueLines)

variable {charts : List PlanarChart}

/-! ## Lines that feed inputs -/

/-- The text of charts that are fed integers from 0 to 7, without alternation. -/
def modelOf (style : NameStyle) (charts : List PlanarChart) : String :=
  (Dve.Output.ofPieces (systemPieces ⟨style, some (0, 7), false⟩ charts)).text

def byteCount (charts : List PlanarChart) : Nat := (bytesOf (inputsOf charts)).length

def intCount (charts : List PlanarChart) : Nat := (intsOf (inputsOf charts)).length

theorem extend_text (text : String) (ps : Dve.Pieces) :
    ∃ after, (Dve.Output.extend text ps).text = text ++ after := by
  induction ps generalizing text with
  | nil => exact ⟨"", by simp [Dve.Output.extend]⟩
  | cons p ps ih =>
    cases p with
    | error f => exact ⟨"", by simp [Dve.Output.extend]⟩
    | ok s =>
      obtain ⟨after, hafter⟩ := ih (text ++ s)
      exact ⟨s ++ after, by rw [Dve.Output.extend, hafter, String.append_assoc]⟩

/-- The text begins with the declarations of inputs and the lines that feed them. -/
theorem modelOf_eq (style : NameStyle) (h : inputsOf charts ≠ []) :
    ∃ after, modelOf style charts = String.join (Dve.declarationLines false charts) ++
      (Dve.feedHeading ++ (String.join (valueLines (0, 7) false charts) ++ after)) := by
  have hpieces : ∃ ps, systemPieces ⟨style, some (0, 7), false⟩ charts =
      (Dve.declarationLines false charts ++
        Dve.feedHeading :: valueLines (0, 7) false charts).map .ok ++ ps := by
    refine ⟨.ok "\x7d\n\n" :: (charts.flatMap (Dve.processPieces ⟨style, some (0, 7), false⟩) ++
      [.ok "system async;\n\n"]), ?_⟩
    simp [systemPieces, Dve.feedPieces_eq_texts (0, 7) false h]
  obtain ⟨ps, hpieces⟩ := hpieces
  obtain ⟨after, hafter⟩ := extend_text ("" ++ String.join (Dve.declarationLines false charts ++
    Dve.feedHeading :: valueLines (0, 7) false charts)) ps
  refine ⟨after, ?_⟩
  rw [modelOf, hpieces, Dve.Output.ofPieces, Dve.Output.extend_append, hafter, String.empty_append,
    String.join_append, String.join_cons, String.append_assoc, String.append_assoc]

/-- The text in which a trace searches. -/
def searched (style : NameStyle) (charts : List PlanarChart) : List Char :=
  Text.unifyLines (modelOf style charts).toList

theorem searched_eq (style : NameStyle) (h : inputsOf charts ≠ [])
    (hinputs : ∀ e ∈ inputsOf charts, Proper e) :
    ∃ rest, searched style charts = declarations (inputsOf charts) ++ rest := by
  unfold searched
  obtain ⟨after, hafter⟩ := modelOf_eq style h
  have hline (e : Option String × VarType) :
      (Dve.declarationLine e.2 (worded e.1)).toList = entry e ++ [';', '\n'] := by
    have hblank : " ".toList = [' '] := rfl
    have hend : ";\n".toList = [';', '\n'] := rfl
    simp only [Dve.declarationLine, String.toList_append, entry, hblank, hend, List.append_assoc,
      List.cons_append, List.nil_append]
  have hhead : (String.join (Dve.declarationLines false charts)).toList =
      declarations (inputsOf charts) := by
    rw [String.toList_join, declarations]
    simp only [Dve.declarationLines, Bool.false_eq_true, if_false, List.nil_append,
      List.flatMap_map, hline]
  have hreturn : '\r' ∉ declarations (inputsOf charts) := by
    intro hmem
    obtain ⟨e, he, hmem⟩ := List.mem_flatMap.mp hmem
    have hentry := (hinputs e he).not_mem_entry (c := '\r') (by decide) (by decide)
    simp [hentry] at hmem
  rw [hafter, String.toList_append, hhead, Text.unifyLines_append hreturn]
  exact ⟨_, rfl⟩

/-! ## Numbers of lines -/

theorem valueLines_eq (charts : List PlanarChart) :
    valueLines (0, 7) false charts =
      (List.range (edgeCount (byteCount charts) (intCount charts))).map fun n : Nat =>
        valueLine false charts (digits (radices (byteCount charts) (intCount charts)) n) := by
  have hraise (bytes : Nat) (ds : List Int) : Dve.raise 0 bytes ds = ds := by
    simp [Dve.raise]
  have hcount : Dve.combinations (0, 7) (bytesOf (inputsOf charts)) (intsOf (inputsOf charts)) =
      edgeCount (byteCount charts) (intCount charts) := by
    rw [Dve.combinations_eq_prod, prod_radices, Int.toNat_natCast, byteCount, intCount]
  simp only [valueLines, hcount, Dve.valuesAt_eq_raise, hraise, byteCount, intCount]

theorem length_valueLines (charts : List PlanarChart) :
    (valueLines (0, 7) false charts).length = edgeCount (byteCount charts) (intCount charts) := by
  rw [valueLines_eq, List.length_map, List.length_range]

theorem length_fedNames (charts : List PlanarChart) :
    (fedNames charts).length = byteCount charts + intCount charts := by
  rw [fedNames, List.length_map, Dve.fedInputs, List.length_append, byteCount, intCount]

theorem length_toString {d : Int} (hlow : 0 ≤ d) (hhigh : d < 8) :
    (toString d).toList.length = 1 := by
  obtain ⟨n, rfl⟩ := Int.eq_ofNat_of_zero_le hlow
  show n.repr.toList.length = 1
  rw [Nat.toList_repr, Nat.toDigits_of_lt_base (by omega)]
  rfl

/-- Assignments of single digits tell them. -/
theorem assignments_inj {last : Option String} {names : List (Option String)} {ds ds' : List Int}
    (hlength : ds.length = names.length) (hlength' : ds'.length = names.length)
    (hds : ∀ d ∈ ds, 0 ≤ d ∧ d < 8) (hds' : ∀ d ∈ ds', 0 ≤ d ∧ d < 8)
    (h : Dve.assignments last names ds = Dve.assignments last names ds') : ds = ds' := by
  induction names generalizing ds ds' with
  | nil => rw [List.length_eq_zero_iff.mp hlength, List.length_eq_zero_iff.mp hlength']
  | cons name names ih =>
    cases ds with
    | nil => cases hlength
    | cons d ds =>
      cases ds' with
      | nil => cases hlength'
      | cons d' ds' =>
        have hd := hds d (List.mem_cons_self ..)
        have hd' := hds' d' (List.mem_cons_self ..)
        have hdigit : (toString d).toList.length = (toString d').toList.length := by
          rw [length_toString hd.1 hd.2, length_toString hd'.1 hd'.2]
        have htext := String.toList_inj.mpr h
        simp only [Dve.assignments, List.zip_cons_cons, List.map_cons, String.join_cons,
          String.toList_append, List.append_assoc] at htext
        have htail := List.append_cancel_left (List.append_cancel_left htext)
        obtain ⟨hsame, hmore⟩ := List.append_inj htail hdigit
        have hrest := ih (Nat.succ.inj hlength) (Nat.succ.inj hlength')
          (fun x hx => hds x (List.mem_cons_of_mem _ hx))
          (fun x hx => hds' x (List.mem_cons_of_mem _ hx))
          (String.toList_inj.mp (List.append_cancel_left hmore))
        rw [Text.toString_injective (String.toList_inj.mp hsame), hrest]

theorem valueLine_inj {ds ds' : List Int}
    (h : InRange (radices (byteCount charts) (intCount charts)) ds)
    (h' : InRange (radices (byteCount charts) (intCount charts)) ds')
    (heq : valueLine false charts ds = valueLine false charts ds') : ds = ds' := by
  have hnames : (radices (byteCount charts) (intCount charts)).length =
      (Dve.fedInputs charts).length := by
    rw [Dve.length_radicesOf, ← length_fedNames, fedNames, List.length_map]
  have hlength := h.length_eq
  have hlength' := h'.length_eq
  rw [hnames] at hlength hlength'
  have hassigned := Dve.feedLine_injective false heq
  exact assignments_inj hlength.symm hlength'.symm (h.lt (radices_le_eight _ _))
    (h'.lt (radices_le_eight _ _)) hassigned

/-- A row of values is assigned by the line with its number, and by no other. -/
theorem idxOf_valueLine {ds : List Int}
    (h : InRange (radices (byteCount charts) (intCount charts)) ds) :
    valueLine false charts ds ∈ valueLines (0, 7) false charts ∧
      (valueLines (0, 7) false charts).idxOf (valueLine false charts ds) =
        (number (radices (byteCount charts) (intCount charts)) ds).toNat := by
  have hbounds := Dve.number_bounds h
  rw [prod_radices] at hbounds
  have hpos := radices_pos (byteCount charts) (intCount charts)
  obtain ⟨n, hn⟩ := Int.eq_ofNat_of_zero_le hbounds.1
  have hlt : n < edgeCount (byteCount charts) (intCount charts) := by omega
  have hnodup : (valueLines (0, 7) false charts).Nodup := by
    rw [valueLines_eq]
    refine List.Nodup.map_on (fun a ha b hb hab => ?_) List.nodup_range
    have hdigits := valueLine_inj (Dve.digits_inRange hpos a) (Dve.digits_inRange hpos b) hab
    have hnumbers := congrArg (number (radices (byteCount charts) (intCount charts))) hdigits
    rw [List.mem_range] at ha hb
    rw [Dve.number_digits hpos (by omega) (by rw [prod_radices]; omega),
      Dve.number_digits hpos (by omega) (by rw [prod_radices]; omega)] at hnumbers
    omega
  have hget : (valueLines (0, 7) false charts)[n]? = some (valueLine false charts ds) := by
    rw [valueLines_eq, List.getElem?_map, List.getElem?_range hlt, Option.map_some, ← hn,
      Dve.digits_number h]
  refine ⟨List.mem_of_getElem? hget, ?_⟩
  obtain ⟨hn', hline⟩ := List.getElem?_eq_some_iff.mp hget
  rw [← hline, hnodup.idxOf_getElem, hn]
  rfl

/-! ## Steps that feed rows -/

/-- Values that the inputs can have, in so many rows. -/
def Fits (charts : List PlanarChart) (rows : Nat) (value : String → Nat → Int) : Prop :=
  ∀ e ∈ inputsOf charts, ∀ i < rows,
    0 ≤ value (worded e.1) i ∧ value (worded e.1) i < if e.2 = .byte then 2 else 8

/-- The steps for rows of values: after each row but the first, the number of the line that
assigns it, and after each row the number behind those of all lines. -/
def stepsFor (charts : List PlanarChart) (rows : Nat) (value : String → Nat → Int) : List Nat :=
  let lines := valueLines (0, 7) false charts
  let close := lines.length + 1
  close :: (List.range (rows - 1)).flatMap fun i =>
    [lines.idxOf (valueLine false charts ((fedNames charts).map (value · (i + 1)))) + 1, close]

theorem Fits.inRange {rows : Nat} {value : String → Nat → Int} (h : Fits charts rows value)
    {i : Nat} (hi : i < rows) :
    InRange (radices (byteCount charts) (intCount charts)) ((fedNames charts).map (value · i)) := by
  -- the inputs of one type have one radix
  have hpart (keep : Option String × VarType → Bool) (r : Int)
      (hr : ∀ e, keep e = true → (if e.2 = .byte then 2 else 8) = r) :
      InRange (List.replicate (((inputsOf charts).filter keep).map (·.1)).length r)
        (((((inputsOf charts).filter keep).map (·.1)).map worded).map (value · i)) := by
    have hlength (names : List (Option String)) :
        names.length = ((names.map worded).map (value · i)).length := by simp
    rw [hlength]
    refine Dve.inRange_replicate fun d hd => ?_
    obtain ⟨x, hx, rfl⟩ := List.mem_map.mp hd
    obtain ⟨name, hname, rfl⟩ := List.mem_map.mp hx
    obtain ⟨e, he, rfl⟩ := List.mem_map.mp hname
    obtain ⟨he, htype⟩ := List.mem_filter.mp he
    have hfit := h e he i hi
    rwa [hr e htype] at hfit
  rw [fedNames, Dve.fedInputs, List.map_append, List.map_append, radices_eq, byteCount, intCount]
  refine Dve.InRange.append (hpart _ 2 fun e htype => ?_) (hpart _ 8 fun e htype => ?_)
  · exact if_pos (by simpa using htype)
  · exact if_neg (by simpa using htype)

/-- These are the steps that a trace gets if it knows the inputs and their order. -/
theorem stepsFor_eq {rows : Nat} (hrows : 1 ≤ rows) {value : String → Nat → Int}
    (h : Fits charts rows value) :
    stepsFor charts rows value = stepsOf (byteCount charts) (intCount charts) false
      ((List.range rows).map fun i => (fedNames charts).map fun x => toString (value x i)) := by
  obtain ⟨more, rfl⟩ : ∃ more, rows = more + 1 := ⟨rows - 1, by omega⟩
  have hall : ((List.range (more + 1)).map fun i =>
      (fedNames charts).map fun x => toString (value x i)) =
      ((fedNames charts).map (value · 0)).map toString ::
        ((List.range more).map fun i => (fedNames charts).map (value · (i + 1))).map
          (·.map toString) := by
    simp [List.range_succ_eq_map, Function.comp_def]
  have hfirst := edgeOf?_number (h.inRange (i := 0) (by omega))
  have hmore : ∀ ds ∈ (List.range more).map fun i => (fedNames charts).map (value · (i + 1)),
      InRange (radices (byteCount charts) (intCount charts)) ds := by
    intro ds hds
    obtain ⟨i, hi, rfl⟩ := List.mem_map.mp hds
    rw [List.mem_range] at hi
    exact h.inRange (by omega)
  rw [hall, stepsOf_first hfirst, stepsOf_digits hmore, List.flatMap_map, stepsFor,
    length_valueLines, Nat.add_sub_cancel]
  refine congrArg _ (List.flatMap_congr fun i hi => ?_)
  rw [List.mem_range] at hi
  rw [(idxOf_valueLine (h.inRange (by omega))).2]

end Statechart.Trace
