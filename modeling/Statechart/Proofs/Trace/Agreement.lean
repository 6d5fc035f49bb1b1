import Statechart.Proofs.Dve.Alternation
import Statechart.Proofs.Trace.Feeding

/-!
Traces and the process that feeds inputs. Both number the combinations of values, and a trace finds
out which inputs there are, of which types and in which order, by searching the text. It gives the
numbers of the right lines for every file of values exactly if no name of an input occurs in the
declaration of an input before it (`steps_agree_iff`).
-/

namespace Statechart.Trace

open Dve (NameStyle inputsOf bytesOf intsOf number unit fedNames fedNames_perm valueLine
  valueLines)

variable {patterns : Patterns} {charts : List PlanarChart} {style : NameStyle}

/-- For every file with a line of values for each input, a trace gives the steps that feed them. -/
def Agrees (patterns : Patterns) (style : NameStyle) (charts : List PlanarChart) : Prop :=
  ∀ (names : List String) (rows : Nat) (value : String → Nat → Int),
    names.Perm ((inputsOf charts).map (worded ·.1)) → 1 ≤ rows → Fits charts rows value →
    ∀ file watched simulation : String,
      (run patterns file (modelOf style charts) (sheet (names.map (signalOf rows value))) watched
        simulation).command = some (command file (stepsFor charts rows value))

/-! ## Names by type -/

def byteNames (charts : List PlanarChart) : List String := (bytesOf (inputsOf charts)).map worded

def intNames (charts : List PlanarChart) : List String := (intsOf (inputsOf charts)).map worded

theorem fedNames_eq (charts : List PlanarChart) :
    fedNames charts = byteNames charts ++ intNames charts :=
  List.map_append

/-- If all types are found, the inputs of a type are those for which it is found. -/
theorem filter_kind {model : List Char} (hinputs : ∀ e ∈ inputsOf charts, Proper e)
    (htypes : ∀ e ∈ inputsOf charts, typeIn patterns model (worded e.1) = .ok e.2.name) :
    ((inputsOf charts).map (worded ·.1)).filter (kindOf patterns model · == "byte") =
        byteNames charts ∧
      ((inputsOf charts).map (worded ·.1)).filter (kindOf patterns model · == "int") =
        intNames charts := by
  have hkind : ∀ e ∈ inputsOf charts, kindOf patterns model (worded e.1) = e.2.name := by
    intro e he
    rw [kindOf, htypes e he]
    rfl
  have hfilter (type : String) (keep : Option String × VarType → Bool)
      (hkeep : ∀ e ∈ inputsOf charts, (e.2.name == type) = keep e) :
      ((inputsOf charts).map (worded ·.1)).filter (kindOf patterns model · == type) =
        (((inputsOf charts).filter keep).map (·.1)).map worded := by
    rw [List.filter_map, List.map_map]
    refine congrArg _ (List.filter_congr fun e he => ?_)
    rw [Function.comp_apply, hkind e he, hkeep e he]
  refine ⟨hfilter "byte" _ fun e he => ?_, hfilter "int" _ fun e he => ?_⟩
  · rcases (hinputs e he).type with h | h <;> rw [h] <;> decide
  · rcases (hinputs e he).type with h | h <;> rw [h] <;> decide

/-- Places grow among the inputs of each type if they do among inputs of one type. -/
theorem places_iff {model : List Char} (hinputs : ∀ e ∈ inputsOf charts, Proper e) :
    ((inputsOf charts).Pairwise fun e e' =>
      e.2 = e'.2 → place model (worded e.1) < place model (worded e'.1)) ↔
      ((byteNames charts).Pairwise fun x y => place model x < place model y) ∧
        (intNames charts).Pairwise fun x y => place model x < place model y := by
  simp only [byteNames, intNames, bytesOf, intsOf, List.pairwise_map, List.pairwise_filter]
  rw [← List.pairwise_and_iff]
  refine List.Pairwise.iff_of_mem fun {e e'} he he' => ?_
  rcases (hinputs e he).type with h | h <;> rcases (hinputs e' he').type with h' | h' <;>
    simp [h, h']

/-! ## Inputs that are found -/

/-- What a trace of these charts is run with. -/
theorem command_eq (patterns : Patterns) (style : NameStyle) (hne : inputsOf charts ≠ [])
    (hinputs : ∀ e ∈ inputsOf charts, Proper e) {names : List String}
    (hperm : names.Perm ((inputsOf charts).map (worded ·.1))) {rows : Nat}
    (hrows : 1 ≤ rows) {value : String → Nat → Int} (hfits : Fits charts rows value)
    (file watched simulation : String) :
    let bytes := found patterns "byte" (searched style charts) names
    let ints := found patterns "int" (searched style charts) names
    (run patterns file (modelOf style charts) (sheet (names.map (signalOf rows value))) watched
      simulation).command =
      if bytes ++ ints = [] then none
      else some (command file (stepsOf bytes.length ints.length false
        ((List.range rows).map fun i => (bytes ++ ints).map fun x => toString (value x i)))) := by
  have hnames : ∀ x ∈ names, ∃ e ∈ inputsOf charts, worded e.1 = x := fun x hx =>
    List.mem_map.mp (hperm.mem_iff.mp hx)
  apply run_command hrows
  · intro x hx
    obtain ⟨e, he, rfl⟩ := hnames x hx
    exact (hinputs e he).name
  · intro x hx i hi
    obtain ⟨e, he, rfl⟩ := hnames x hx
    exact (hfits e he i hi).1
  · intro x hx
    obtain ⟨e, he, rfl⟩ := hnames x hx
    obtain ⟨rest, hrest⟩ := searched_eq style hne hinputs
    obtain ⟨type, htype⟩ := exists_typeIn hinputs he rest
    rw [← hrest] at htype
    exact ⟨type, htype⟩

/-- A trace that finds the inputs as they are declared gives the steps that feed them. -/
theorem agrees_of_located (hne : inputsOf charts ≠ []) (hinputs : ∀ e ∈ inputsOf charts, Proper e)
    (h : Located patterns (searched style charts) (inputsOf charts)) :
    Agrees patterns style charts := by
  intro names rows value hperm hrows hfits file watched simulation
  obtain ⟨hbytes, hints⟩ := filter_kind hinputs h.types
  obtain ⟨hbytePlaces, hintPlaces⟩ := (places_iff hinputs).mp h.places
  have hfoundBytes : found patterns "byte" (searched style charts) names = byteNames charts :=
    inOrder_eq (hbytes ▸ hperm.filter _) hbytePlaces
  have hfoundInts : found patterns "int" (searched style charts) names = intNames charts :=
    inOrder_eq (hints ▸ hperm.filter _) hintPlaces
  have hfed : fedNames charts ≠ [] := by
    intro hnil
    have hperm := fedNames_perm charts
    rw [hnil, List.nil_perm, Dve.inputNames, List.map_eq_nil_iff] at hperm
    exact hne hperm
  rw [command_eq patterns style hne hinputs hperm hrows hfits, hfoundBytes, hfoundInts,
    ← fedNames_eq, if_neg hfed, stepsFor_eq hrows hfits, byteNames, intNames, List.length_map,
    List.length_map]
  rfl

/-! ## Traces that agree -/

theorem command_injective {file : String} {steps steps' : List Nat}
    (h : command file steps = command file steps') : steps = steps' := by
  have hsplit (ns : List Nat) : List.splitOn ',' (",".intercalate ((1 :: ns).map toString)).toList =
      (1 :: ns).map fun n => n.repr.toList := by
    have hcomma : ",".toList = [','] := rfl
    rw [String.toList_intercalate, hcomma, List.map_map, List.splitOn_intercalate]
    · rfl
    · intro l hl hmem
      obtain ⟨n, -, rfl⟩ := List.mem_map.mp hl
      exact absurd (Text.isDigit_of_mem_repr hmem) (by decide)
    · simp
  have htext : "--trace=" ++ ",".intercalate ((1 :: steps).map toString) =
      "--trace=" ++ ",".intercalate ((1 :: steps').map toString) := by
    simp only [command, List.cons.injEq, true_and, and_true] at h
    exact h
  have hnumbers := congrArg (fun s => List.splitOn ',' s.toList)
    ((String.append_right_inj _).mp htext)
  simp only [hsplit] at hnumbers
  rw [List.map_cons, List.map_cons, List.cons.injEq] at hnumbers
  refine List.map_injective_iff.mpr (fun m n hmn => ?_) hnumbers.2
  exact Text.natRepr_injective (String.toList_inj.mp hmn)

/-- The values of two rows, of which the second has a single 1. -/
def unitValue (name : String) (x : String) (i : Nat) : Int := if i = 1 ∧ x = name then 1 else 0

theorem fits_unitValue (charts : List PlanarChart) (name : String) :
    Fits charts 2 (unitValue name) := by
  intro e he i hi
  unfold unitValue
  split <;> split <;> decide

theorem unitRows_eq (names : List String) (name : String) :
    ((List.range 2).map fun i => names.map fun x => toString (unitValue name x i)) =
      unitRows names name := by
  simp [unitRows, unitValue, List.range_succ, unit, Function.comp_def]

/-- No variable is found twice. -/
theorem nodup_found {model : List Char} {names : List String} (hnodup : names.Nodup) :
    (found patterns "byte" model names ++ found patterns "int" model names).Nodup := by
  have hbytes := found_perm patterns "byte" model names
  have hints := found_perm patterns "int" model names
  refine List.nodup_append.mpr ⟨hbytes.nodup_iff.mpr (hnodup.filter _),
    hints.nodup_iff.mpr (hnodup.filter _), fun x hx y hy hxy => ?_⟩
  have hint := kindOf_of_mem_found hy
  rw [← hxy, kindOf_of_mem_found hx] at hint
  exact absurd hint (by decide)

theorem mem_of_mem_found {model : List Char} {names : List String} {x : String}
    (hx : x ∈ found patterns "byte" model names ++ found patterns "int" model names) :
    x ∈ names := by
  rcases List.mem_append.mp hx with hx | hx
  · exact List.mem_of_mem_filter ((found_perm patterns "byte" model names).mem_iff.mp hx)
  · exact List.mem_of_mem_filter ((found_perm patterns "int" model names).mem_iff.mp hx)

/-- If a trace gives the right steps, it finds the inputs of each type in their order. -/
theorem found_of_agrees (hne : inputsOf charts ≠ []) (hinputs : ∀ e ∈ inputsOf charts, Proper e)
    (hnodup : ((inputsOf charts).map (worded ·.1)).Nodup) (h : Agrees patterns style charts)
    {names : List String} (hperm : names.Perm ((inputsOf charts).map (worded ·.1))) :
    found patterns "byte" (searched style charts) names = byteNames charts ∧
      found patterns "int" (searched style charts) names = intNames charts := by
  have hsteps : ∀ x, stepsOf (found patterns "byte" (searched style charts) names).length
      (found patterns "int" (searched style charts) names).length false
        (unitRows (found patterns "byte" (searched style charts) names ++
          found patterns "int" (searched style charts) names) x) =
      stepsOf (byteCount charts) (intCount charts) false (unitRows (fedNames charts) x) := by
    intro x
    have hrun := h names 2 (unitValue x) hperm (by decide) (fits_unitValue charts x) "" "" ""
    rw [command_eq patterns style hne hinputs hperm (by decide) (fits_unitValue charts x),
      stepsFor_eq (by decide) (fits_unitValue charts x), unitRows_eq, unitRows_eq] at hrun
    split at hrun
    · cases hrun
    · exact command_injective (Option.some.inj hrun)
  have hweights := fun x =>
    number_unit_of_steps (length_fedNames charts) List.length_append (hsteps x)
  have hfed : (fedNames charts).Nodup := (fedNames_perm charts).nodup_iff.mpr hnodup
  have hall : found patterns "byte" (searched style charts) names ++
      found patterns "int" (searched style charts) names = fedNames charts := by
    apply Dve.eq_of_weights (two_le_radices _ _) (two_le_radices _ _) _ _ hfed
      (nodup_found (hperm.nodup_iff.mpr hnodup))
    · intro x hx
      exact (fedNames_perm charts).mem_iff.mpr (hperm.mem_iff.mp (mem_of_mem_found hx))
    · exact fun x _ => (hweights x).2
    · rw [Dve.length_radicesOf, length_fedNames]
    · rw [Dve.length_radicesOf, List.length_append]
  -- as many inputs and as many lines leave one way to divide the inputs
  have hcounts := (hweights "").1
  rw [edgeCount_eq, edgeCount_eq] at hcounts
  have hsum := congrArg List.length hall
  rw [List.length_append, length_fedNames] at hsum
  have hpower := Nat.pow_right_injective (Nat.le_refl 2) hcounts
  rw [fedNames_eq] at hall
  refine List.append_inj hall ?_
  rw [byteNames, List.length_map, ← byteCount]
  omega

/-- A trace that gives the right steps finds the inputs as they are declared. -/
theorem located_of_agrees (hne : inputsOf charts ≠ []) (hinputs : ∀ e ∈ inputsOf charts, Proper e)
    (hnodup : ((inputsOf charts).map (worded ·.1)).Nodup) (h : Agrees patterns style charts) :
    Located patterns (searched style charts) (inputsOf charts) := by
  have htypes : ∀ e ∈ inputsOf charts,
      typeIn patterns (searched style charts) (worded e.1) = .ok e.2.name := by
    intro e he
    obtain ⟨rest, hrest⟩ := searched_eq style hne hinputs
    obtain ⟨type, htype⟩ := exists_typeIn hinputs he rest
    obtain ⟨hbytes, hints⟩ := found_of_agrees hne hinputs hnodup h (.refl _)
    have hkind : kindOf patterns (searched style charts) (worded e.1) = e.2.name := by
      rcases (hinputs e he).type with hbyte | hint
      · have hmem : worded e.1 ∈ byteNames charts :=
          List.mem_map_of_mem (List.mem_map_of_mem (List.mem_filter.mpr ⟨he, by simp [hbyte]⟩))
        rw [kindOf_of_mem_found (hbytes ▸ hmem), hbyte]
        rfl
      · have hmem : worded e.1 ∈ intNames charts :=
          List.mem_map_of_mem (List.mem_map_of_mem (List.mem_filter.mpr ⟨he, by simp [hint]⟩))
        rw [kindOf_of_mem_found (hints ▸ hmem), hint]
        rfl
    rw [← hrest] at htype
    rw [kindOf, htype] at hkind
    rw [htype, ← hkind]
    rfl
  refine ⟨htypes, (places_iff hinputs).mpr ?_⟩
  -- a file that lists the inputs in reverse shows that places do not coincide
  obtain ⟨hbytes, hints⟩ := found_of_agrees hne hinputs hnodup h (List.reverse_perm _)
  obtain ⟨hbyteKind, hintKind⟩ := filter_kind hinputs htypes
  rw [found, List.filter_reverse, hbyteKind] at hbytes
  rw [found, List.filter_reverse, hintKind] at hints
  have hfed := (fedNames_perm charts).nodup_iff.mpr hnodup
  rw [fedNames_eq] at hfed
  obtain ⟨hbyteNodup, hintNodup, -⟩ := List.nodup_append.mp hfed
  exact ⟨places_of_inOrder_reverse hbyteNodup hbytes, places_of_inOrder_reverse hintNodup hints⟩

/-- Traces give, for every file of values, the numbers of the lines that assign them exactly if no
name of an input occurs in the declaration of an input before it. -/
theorem steps_agree_iff (patterns : Patterns) (style : NameStyle) (charts : List PlanarChart)
    (hne : inputsOf charts ≠ []) (hinputs : ∀ e ∈ inputsOf charts, Proper e)
    (hnodup : ((inputsOf charts).map (worded ·.1)).Nodup) :
    (∀ rows value, Fits charts rows value → ∀ i < rows,
      valueLine false charts ((fedNames charts).map (value · i)) ∈ valueLines (0, 7) false charts) ∧
    (Agrees patterns style charts ↔ Apart (inputsOf charts)) := by
  refine ⟨fun rows value hfits i hi => (idxOf_valueLine (hfits.inRange hi)).1, ?_⟩
  obtain ⟨rest, hrest⟩ := searched_eq style hne hinputs
  have hlocated := located_iff_apart patterns hinputs rest
  rw [← hrest] at hlocated
  rw [← hlocated]
  exact ⟨located_of_agrees hne hinputs hnodup, agrees_of_located hne hinputs⟩

/-- Charts with a switch and a level, whose names have nothing in common. -/
theorem steps_agree_iff_panel :
    let charts := [Planar.planarOf (Dve.rest
      [.data "on" "boolean" "INPUT_DATA", .data "level" "int" "INPUT_DATA"])]
    (inputsOf charts ≠ [] ∧ (∀ e ∈ inputsOf charts, Proper e) ∧
      ((inputsOf charts).map (worded ·.1)).Nodup ∧ Apart (inputsOf charts)) ∧
      Agrees .literal .short charts := by
  intro charts
  have hlist : inputsOf charts = [(some "on", .byte), (some "level", .int)] := by decide +kernel
  have hne : inputsOf charts ≠ [] := by
    rw [hlist]
    decide
  have hinputs : ∀ e ∈ inputsOf charts, Proper e := by
    rw [hlist]
    decide +kernel
  have hnodup : ((inputsOf charts).map (worded ·.1)).Nodup := by
    rw [hlist]
    decide
  have hapart : Apart (inputsOf charts) := by
    rw [hlist]
    decide +kernel
  exact ⟨⟨hne, hinputs, hnodup, hapart⟩,
    (steps_agree_iff .literal .short charts hne hinputs hnodup).2.mpr hapart⟩

/-- Two inputs that are first found at one place keep the order of the file. -/
theorem found_x_xy (rest : List Char) :
    let model := declarations [(some "xy", .byte), (some "x", .byte)] ++ rest
    found patterns "byte" model ["x", "xy"] = ["x", "xy"] ∧
      found patterns "int" model ["x", "xy"] = [] := by
  intro model
  have hproper : Proper (some "xy", .byte) := by decide +kernel
  have hsearch : ∀ x ∈ ["x", "xy"], Text.IsWord x.toList ∧
      Text.beforeLast? x.toList (entry (some "xy", .byte) ++ [';']) = some "byte ".toList ∧
      Text.before? x.toList (declarations [(some "xy", .byte), (some "x", .byte)]) =
        some "byte ".toList := by decide +kernel
  have hkind : ∀ x ∈ ["x", "xy"], kindOf patterns model x = "byte" := by
    intro x hx
    obtain ⟨hword, hlast, -⟩ := hsearch x hx
    rw [kindOf, show model = _ from declarations_cons .., typeIn_first hproper hword hlast]
    decide +kernel
  have hplace : ∀ x ∈ ["x", "xy"], place model x = 5 := by
    intro x hx
    rw [place, Text.before?_append (hsearch x hx).2.2]
    rfl
  simp only [List.forall_mem_cons, List.not_mem_nil, false_implies, implies_true, and_true]
    at hkind hplace
  constructor
  · simp [found, hkind, inOrder, sortByPlace_eq, hplace, insertByPlace]
  · simp [found, hkind, inOrder, sortByPlace_eq]

/-- An input whose name starts the name of the one before it: the file sets `x` in its second
row, and the trace feeds the line that sets `xy`. -/
theorem wrong_line_fed :
    let charts := [Planar.planarOf (Dve.rest
      [.data "xy" "boolean" "INPUT_DATA", .data "x" "boolean" "INPUT_DATA"])]
    inputsOf charts = [(some "xy", .byte), (some "x", .byte)] ∧
      Fits charts 2 (unitValue "x") ∧
      stepsFor charts 2 (unitValue "x") = [5, 3, 5] ∧
      (run .literal "model.dve" (modelOf .id charts)
        (sheet (["x", "xy"].map (signalOf 2 (unitValue "x")))) "" "").command =
          some (command "model.dve" [5, 2, 5]) := by
  intro charts
  have hlist : inputsOf charts = [(some "xy", .byte), (some "x", .byte)] := by decide +kernel
  have hinputs : ∀ e ∈ inputsOf charts, Proper e := by
    rw [hlist]
    decide +kernel
  have hfound : found .literal "byte" (searched .id charts) ["x", "xy"] = ["x", "xy"] ∧
      found .literal "int" (searched .id charts) ["x", "xy"] = [] := by
    obtain ⟨rest, hrest⟩ := searched_eq .id (by rw [hlist]; decide) hinputs
    rw [hrest, hlist]
    exact found_x_xy rest
  have hperm : ["x", "xy"].Perm ((inputsOf charts).map (worded ·.1)) := by
    rw [hlist]
    decide
  have hrun := command_eq .literal .id (by rw [hlist]; decide) hinputs hperm (by decide)
    (fits_unitValue charts "x") "model.dve" "" ""
  rw [hfound.1, hfound.2] at hrun
  refine ⟨hlist, fits_unitValue charts "x", by decide +kernel, hrun.trans ?_⟩
  decide +kernel

end Statechart.Trace
