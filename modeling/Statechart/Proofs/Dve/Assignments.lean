import Mathlib.Data.List.Count
import Statechart.Proofs.Compile
import Statechart.Proofs.Dve.Alternation
import Statechart.Proofs.Text.Places

/-!
The text that feeds inputs. It declares every input and has a line for every combination of values,
in which a comma stands behind each input that is not named as the last one. So the assignments of
a line are separated if no other input has that name (`assignments_eq`), and the text is well formed
exactly if no name is declared twice (`feed_well_formed_iff`).
-/

namespace Statechart.Dve

/-! ## Inputs in the order of a line -/

/-- The inputs in the order in which a line assigns them. -/
def fedInputs (charts : List PlanarChart) : List (Option String) :=
  bytesOf (inputsOf charts) ++ intsOf (inputsOf charts)

/-- The last of them. -/
def lastFed (charts : List PlanarChart) : Option String :=
  lastInput (bytesOf (inputsOf charts)) (intsOf (inputsOf charts))

variable {charts : List PlanarChart}

theorem fedInputs_perm (charts : List PlanarChart) :
    (fedInputs charts).Perm ((inputsOf charts).map (·.1)) := by
  have hperm := List.filter_append_perm (fun e : Option String × VarType => e.2 == .byte)
    (inputsOf charts)
  have hnames := hperm.map (·.1)
  rw [List.map_append] at hnames
  exact hnames

/-- The names of all inputs, in the order of the charts. -/
def inputNames (charts : List PlanarChart) : List String := (inputsOf charts).map (worded ·.1)

theorem inputNames_eq (charts : List PlanarChart) :
    inputNames charts = ((inputsOf charts).map (·.1)).map worded := by
  rw [List.map_map]
  rfl

/-- The names of the inputs in the order of a line. -/
def fedNames (charts : List PlanarChart) : List String := (fedInputs charts).map worded

theorem fedNames_perm (charts : List PlanarChart) :
    (fedNames charts).Perm (inputNames charts) := by
  rw [inputNames_eq]
  exact (fedInputs_perm charts).map worded

theorem fedInputs_ne_nil (h : inputsOf charts ≠ []) : fedInputs charts ≠ [] := by
  intro hnil
  have hperm := fedInputs_perm charts
  rw [hnil, List.nil_perm, List.map_eq_nil_iff] at hperm
  exact h hperm

theorem fedInputs_concat (h : inputsOf charts ≠ []) :
    ∃ front, fedInputs charts = front ++ [lastFed charts] := by
  have hne := fedInputs_ne_nil h
  refine ⟨(fedInputs charts).dropLast, ?_⟩
  have hlast : lastFed charts = (fedInputs charts).getLast hne := by
    rw [lastFed, lastInput, ← List.getLast?_append, ← fedInputs, List.getLast?_eq_some_getLast hne]
    rfl
  rw [hlast, List.dropLast_concat_getLast]

theorem length_digits (rs : List Int) (n : Int) : (digits rs n).length = rs.length := by
  induction rs generalizing n with
  | nil => rfl
  | cons r rs ih => rw [digits, List.length_cons, ih, List.length_cons]

theorem length_valuesAt (interval : Int × Int) (bytes ints : List (Option String)) (n : Nat) :
    (valuesAt interval bytes ints n).length = (bytes ++ ints).length := by
  simp only [valuesAt, List.length_append, List.length_take, List.length_map, List.length_drop,
    length_digits]
  omega

/-! ## Assignments -/

/-- The assignments of values to variables. -/
def assigned (names : List (Option String)) (values : List Int) : List String :=
  List.zipWith (fun name value => worded name ++ " = " ++ toString value) names values

theorem assigned_cons (name : Option String) (names : List (Option String)) (value : Int)
    (values : List Int) : assigned (name :: names) (value :: values) =
      (worded name ++ " = " ++ toString value) :: assigned names values := rfl

theorem assigned_ne_nil {names : List (Option String)} (hnames : names ≠ []) {values : List Int}
    (hlength : values.length = names.length) : assigned names values ≠ [] := by
  intro hnil
  have hzero := congrArg List.length hnil
  rw [assigned, List.length_zipWith, hlength, Nat.min_self] at hzero
  exact hnames (List.length_eq_zero_iff.mp hzero)

theorem assignments_cons (last name : Option String) (names : List (Option String)) (value : Int)
    (values : List Int) :
    assignments last (name :: names) (value :: values) =
      worded name ++ " = " ++ toString value ++ (if name == last then "" else ", ") ++
        assignments last names values := by
  rw [assignments, List.zip_cons_cons, List.map_cons, String.join_cons]
  rfl

/-- Where no other variable has the name of the last one, a comma stands between any two
assignments and nowhere else. -/
theorem assignments_eq {last : Option String} {front : List (Option String)} (hlast : last ∉ front)
    {values : List Int} (hlength : values.length = (front ++ [last]).length) :
    assignments last (front ++ [last]) values =
      ", ".intercalate (assigned (front ++ [last]) values) := by
  induction front generalizing values with
  | nil =>
    obtain ⟨value, rfl⟩ := List.length_eq_one_iff.mp hlength
    rw [List.nil_append, assignments_cons, if_pos (beq_self_eq_true last), assigned_cons]
    simp [assignments, assigned]
  | cons name front ih =>
    cases values with
    | nil => cases hlength
    | cons value values =>
      rw [List.mem_cons, not_or] at hlast
      have hname : ¬ (name == last) = true := by simpa using Ne.symm hlast.1
      have hrest := ih hlast.2 (Nat.succ.inj hlength)
      have hne : assigned (front ++ [last]) values ≠ [] :=
        assigned_ne_nil (by simp) (Nat.succ.inj hlength)
      rw [List.cons_append, assignments_cons, if_neg hname, hrest, assigned_cons,
        String.intercalate_cons_of_ne_nil hne]

/-! ## Lines -/

/-- The line of an edge with these assignments. If steps alternate, the edge waits for its turn and
gives it back. -/
def assigningLine (alternate : Bool) (effect : List String) : String :=
  edgeLine "start" "start" (if alternate then [turn] else [])
    ((if alternate then [turn ++ " = 0"] else []) ++ effect)

/-- A line has its assignments in a row, with commas between them. -/
theorem edgeLine_congr (source target : String) (guard : List String) {effect effect' : List String}
    (h : effect ≠ []) (h' : effect' ≠ [])
    (heq : ", ".intercalate effect = ", ".intercalate effect') :
    edgeLine source target guard effect = edgeLine source target guard effect' := by
  have hempty : effect.isEmpty = false := by simpa using h
  have hempty' : effect'.isEmpty = false := by simpa using h'
  rw [edgeLine, edgeLine, hempty, hempty', heq]

theorem feedLine_intercalate (alternate : Bool) {effect : List String} (h : effect ≠ []) :
    feedLine alternate (", ".intercalate effect) = assigningLine alternate effect := by
  cases alternate with
  | true =>
    rw [feedLine_eq]
    refine edgeLine_congr _ _ _ (by simp) (by simp) ?_
    rw [String.intercalate_cons_cons, String.intercalate_singleton]
    exact (String.intercalate_cons_of_ne_nil h).symm
  | false =>
    have hlead : "\t\tstart -> start \x7b " ++ "effect " =
        "\t\t" ++ "start" ++ " -> " ++ "start" ++ " \x7b" ++ "" ++ " effect " := by decide +kernel
    have htail : "; \x7d\n" = ";" ++ " \x7d\n" := by decide +kernel
    have hempty : effect.isEmpty = false := by simpa using h
    show "\t\tstart -> start \x7b " ++ "effect " ++ ", ".intercalate effect ++ "; \x7d\n" =
      edgeLine "start" "start" [] effect
    rw [edgeLine, hempty, hlead, htail]
    simp only [List.isEmpty_nil, if_true, Bool.false_eq_true, if_false, String.append_assoc]

theorem feedLine_injective (alternate : Bool) : Function.Injective (feedLine alternate) := by
  intro a b h
  unfold feedLine at h
  exact (String.append_right_inj _).mp ((String.append_left_inj _).mp h)

/-- Inputs with names of their own have one with the name of the last. -/
theorem count_lastFed (hne : inputsOf charts ≠ []) (h : ((inputsOf charts).map (·.1)).Nodup) :
    (fedInputs charts).count (lastFed charts) = 1 := by
  have hnodup := (fedInputs_perm charts).nodup_iff.mpr h
  obtain ⟨front, hfront⟩ := fedInputs_concat hne
  refine List.count_eq_one_of_mem hnodup ?_
  rw [hfront]
  exact List.mem_append_right _ (List.mem_singleton_self _)

/-- The line that assigns values to the inputs. -/
def valueLine (alternate : Bool) (charts : List PlanarChart) (values : List Int) : String :=
  feedLine alternate (assignments (lastFed charts) (fedInputs charts) values)

theorem valueLine_eq (alternate : Bool) (hne : inputsOf charts ≠ [])
    (h : (fedInputs charts).count (lastFed charts) = 1) {values : List Int}
    (hlength : values.length = (fedInputs charts).length) :
    valueLine alternate charts values =
      assigningLine alternate (assigned (fedInputs charts) values) := by
  obtain ⟨front, hfront⟩ := fedInputs_concat hne
  have hlast : lastFed charts ∉ front := by
    intro hmem
    have hpos := List.count_pos_iff.mpr hmem
    rw [hfront, List.count_append, List.count_singleton_self] at h
    omega
  have htext := assignments_eq hlast (hfront ▸ hlength)
  rw [← hfront] at htext
  rw [valueLine, htext,
    feedLine_intercalate alternate (assigned_ne_nil (fedInputs_ne_nil hne) hlength)]

/-! ## The whole text -/

def declarationLine (type : VarType) (name : String) : String := type.name ++ " " ++ name ++ ";\n"

/-- The declarations of the turn, if there is one, and of the inputs. -/
def declarationLines (alternate : Bool) (charts : List PlanarChart) : List String :=
  (if alternate then [declarationLine .byte turn] else []) ++
    (inputsOf charts).map fun e => declarationLine e.2 (worded e.1)

def feedHeading : String := "\nprocess feed_inputs \x7b\n\tstate start;\n\tinit start;\n\ttrans\n"

/-- One line for each combination of values. -/
def valueLines (interval : Int × Int) (alternate : Bool) (charts : List PlanarChart) :
    List String :=
  let bytes := bytesOf (inputsOf charts)
  let ints := intsOf (inputsOf charts)
  (List.range (combinations interval bytes ints)).map fun n =>
    valueLine alternate charts (valuesAt interval bytes ints n)

theorem feedPieces_eq_texts (interval : Int × Int) (alternate : Bool) (h : inputsOf charts ≠ []) :
    feedPieces interval alternate charts =
      (declarationLines alternate charts ++
        feedHeading :: (valueLines interval alternate charts ++ ["\x7d\n\n"])).map .ok := by
  have hne : (inputsOf charts).isEmpty = false := by simpa using h
  have hturn : (if alternate then [.ok ("byte " ++ turn ++ ";\n")] else [] : Pieces) =
      (if alternate then [declarationLine .byte turn] else []).map .ok := by
    cases alternate <;> rfl
  simp only [feedPieces, hne, Bool.false_eq_true, if_false, hturn, declarationLines, valueLines,
    List.map_append, List.map_cons, List.map_map, List.append_assoc, List.singleton_append,
    List.map_nil]
  rfl

/-! ## Declarations -/

/-- How often a name is declared, as a byte or as an integer. -/
def declarationsOf (name : String) (ps : Pieces) : Nat :=
  ps.count (.ok (declarationLine .byte name)) + ps.count (.ok (declarationLine .int name))

/-- All inputs are bytes or integers. -/
def Typed (charts : List PlanarChart) : Prop :=
  ∀ e ∈ inputsOf charts, e.2 = .byte ∨ e.2 = .int

theorem declarationLine_eq_iff {type type' : VarType} (h : type = .byte ∨ type = .int)
    (h' : type' = .byte ∨ type' = .int) {name name' : String} :
    declarationLine type name = declarationLine type' name' ↔ type = type' ∧ name = name' := by
  have hname {a b front : String} (heq : front ++ a ++ ";\n" = front ++ b ++ ";\n") : a = b :=
    (String.append_right_inj _).mp ((String.append_left_inj _).mp heq)
  constructor
  · intro heq
    have hhead := congrArg (fun s => s.toList.head?) heq
    rcases h with rfl | rfl <;> rcases h' with rfl | rfl
    · exact ⟨rfl, hname heq⟩
    · simp [declarationLine, VarType.name] at hhead
    · simp [declarationLine, VarType.name] at hhead
    · exact ⟨rfl, hname heq⟩
  · rintro ⟨rfl, rfl⟩
    rfl

theorem head?_declarationLine {type : VarType} (h : type = .byte ∨ type = .int) (name : String) :
    (declarationLine type name).toList.head? = some 'b' ∨
      (declarationLine type name).toList.head? = some 'i' := by
  rcases h with rfl | rfl
  · exact .inl (by simp [declarationLine, VarType.name])
  · exact .inr (by simp [declarationLine, VarType.name])

theorem feedLine_start (alternate : Bool) (text : String) :
    "\t\tstart -> start ".toList <+: (feedLine alternate text).toList := by
  have hlead : "\t\tstart -> start \x7b " = "\t\tstart -> start " ++ "\x7b " := by decide +kernel
  have hassoc (a b c d e : String) : a ++ b ++ c ++ d ++ e = a ++ (b ++ c ++ d ++ e) := by
    simp only [String.append_assoc]
  unfold feedLine
  generalize (if alternate then _ else "effect ") = middle
  have hline := (congrArg (· ++ middle ++ text ++ "; \x7d\n") hlead).trans (hassoc ..)
  exact ⟨_, (String.toList_append.symm).trans (congrArg String.toList hline.symm)⟩

theorem head?_of_start {line : String} (h : "\t\tstart -> start ".toList <+: line.toList) :
    line.toList.head? = some '\t' := by
  have hlead : "\t\tstart -> start ".toList.head? = some '\t' := by decide +kernel
  obtain ⟨rest, hrest⟩ := h
  rw [← hrest, List.head?_append, hlead, Option.some_or]

/-- A declaration is neither the heading, nor a line of values, nor the end. -/
theorem declarationLine_not_mem (interval : Int × Int) (alternate : Bool)
    (charts : List PlanarChart) {type : VarType} (h : type = .byte ∨ type = .int) (name : String) :
    declarationLine type name ∉
      feedHeading :: (valueLines interval alternate charts ++ ["\x7d\n\n"]) := by
  have hletter := head?_declarationLine h name
  intro hmem
  rcases List.mem_cons.mp hmem with heq | hmem
  · rw [heq] at hletter
    exact absurd hletter (by decide +kernel)
  · rcases List.mem_append.mp hmem with hmem | hmem
    · obtain ⟨n, -, heq⟩ := List.mem_map.mp hmem
      rw [← heq, valueLine, head?_of_start (feedLine_start ..)] at hletter
      exact absurd hletter (by decide)
    · rw [List.mem_singleton.mp hmem] at hletter
      exact absurd hletter (by decide +kernel)

/-- Inputs declare a name as often as they have it. -/
theorem count_declarationLine {inputs : List (Option String × VarType)}
    (h : ∀ e ∈ inputs, e.2 = .byte ∨ e.2 = .int) (name : String) :
    (inputs.map fun e => declarationLine e.2 (worded e.1)).count (declarationLine .byte name) +
      (inputs.map fun e => declarationLine e.2 (worded e.1)).count (declarationLine .int name) =
        (inputs.map (worded ·.1)).count name := by
  induction inputs with
  | nil => rfl
  | cons e inputs ih =>
    rw [List.forall_mem_cons] at h
    have hrest := ih h.2
    have hbyte : declarationLine e.2 (worded e.1) = declarationLine .byte name ↔
        e.2 = .byte ∧ worded e.1 = name := declarationLine_eq_iff h.1 (.inl rfl)
    have hint : declarationLine e.2 (worded e.1) = declarationLine .int name ↔
        e.2 = .int ∧ worded e.1 = name := declarationLine_eq_iff h.1 (.inr rfl)
    simp only [List.map_cons, List.count_cons, beq_iff_eq, hbyte, hint]
    rcases h.1 with htype | htype <;>
      simp only [htype, true_and, reduceCtorEq, false_and, if_false] <;> omega

theorem declarationsOf_eq (interval : Int × Int) (alternate : Bool) (hne : inputsOf charts ≠ [])
    (htyped : Typed charts) (name : String) :
    declarationsOf name (feedPieces interval alternate charts) =
      (inputNames charts).count name + if alternate = true ∧ turn = name then 1 else 0 := by
  have hcount {type : VarType} (htype : type = .byte ∨ type = .int) :
      (feedPieces interval alternate charts).count (.ok (declarationLine type name)) =
        (declarationLines alternate charts).count (declarationLine type name) := by
    rw [feedPieces_eq_texts interval alternate hne,
      List.count_map_of_injective _ _ fun a b h => Except.ok.inj h, List.count_append,
      List.count_eq_zero_of_not_mem (declarationLine_not_mem interval alternate charts htype name),
      Nat.add_zero]
  have hturn : (if alternate then [declarationLine .byte turn] else []).count
        (declarationLine .byte name) +
      (if alternate then [declarationLine .byte turn] else []).count (declarationLine .int name) =
        if alternate = true ∧ turn = name then 1 else 0 := by
    cases alternate with
    | false => rfl
    | true => simp [List.count_singleton, declarationLine_eq_iff]
  have hinputs := count_declarationLine htyped name
  rw [declarationsOf, hcount (.inl rfl), hcount (.inr rfl), declarationLines, List.count_append,
    List.count_append, inputNames]
  omega

/-- Every input is declared exactly once if no two have one name and none is named as the turn. -/
theorem declared_once_iff (interval : Int × Int) (alternate : Bool) (hne : inputsOf charts ≠ [])
    (htyped : Typed charts) :
    (∀ name ∈ inputNames charts,
      declarationsOf name (feedPieces interval alternate charts) = 1) ↔
      (inputNames charts).Nodup ∧ (alternate = true → turn ∉ inputNames charts) := by
  rw [List.nodup_iff_count_eq_one]
  constructor
  · intro h
    refine ⟨fun name hname => ?_, fun halternate hturn => ?_⟩
    · have hpos := List.count_pos_iff.mpr hname
      have hone := h name hname
      rw [declarationsOf_eq interval alternate hne htyped] at hone
      omega
    · have hpos := List.count_pos_iff.mpr hturn
      have hone := h turn hturn
      rw [declarationsOf_eq interval alternate hne htyped, if_pos ⟨halternate, rfl⟩] at hone
      omega
  · rintro ⟨hnodup, hturn⟩ name hname
    rw [declarationsOf_eq interval alternate hne htyped, hnodup name hname, if_neg]
    rintro ⟨halternate, rfl⟩
    exact hturn halternate hname

/-! ## Separators -/

/-- The line has assignments to variables with such names, and a comma between any two of them. -/
def IsAssigning (alternate : Bool) (names : List String) (line : String) : Prop :=
  ∃ pairs : List (String × Int), pairs ≠ [] ∧ (∀ p ∈ pairs, p.1 ∈ names) ∧
    line = assigningLine alternate (pairs.map fun p => p.1 ++ " = " ++ toString p.2)

/-- Every line that goes from the start to the start is of that kind. -/
def Separated (alternate : Bool) (names : List String) (ps : Pieces) : Prop :=
  ∀ line, .ok line ∈ ps → "\t\tstart -> start ".toList <+: line.toList →
    IsAssigning alternate names line

theorem separated_iff (interval : Int × Int) (alternate : Bool) (hne : inputsOf charts ≠ [])
    (htyped : Typed charts) (names : List String) :
    Separated alternate names (feedPieces interval alternate charts) ↔
      ∀ line ∈ valueLines interval alternate charts, IsAssigning alternate names line := by
  have hmem (line : String) : .ok line ∈ feedPieces interval alternate charts ↔
      line ∈ declarationLines alternate charts ∨ line = feedHeading ∨
        line ∈ valueLines interval alternate charts ∨ line = "\x7d\n\n" := by
    simp only [feedPieces_eq_texts interval alternate hne, List.mem_map, List.mem_append,
      List.mem_cons, List.not_mem_nil, or_false, Except.ok.injEq, exists_eq_right]
  constructor
  · intro h line hline
    refine h line ((hmem line).mpr (.inr (.inr (.inl hline)))) ?_
    obtain ⟨n, -, rfl⟩ := List.mem_map.mp hline
    exact feedLine_start ..
  · intro h line hline hstart
    have hhead := head?_of_start hstart
    have hdeclared {type : VarType} (htype : type = .byte ∨ type = .int) (name : String) :
        line ≠ declarationLine type name := by
      rintro rfl
      have hletter := head?_declarationLine htype name
      rw [hhead] at hletter
      exact absurd hletter (by decide)
    rcases (hmem line).mp hline with hline | rfl | hline | rfl
    · exfalso
      rcases List.mem_append.mp hline with hline | hline
      · split at hline
        · exact hdeclared (.inl rfl) _ (List.mem_singleton.mp hline)
        · cases hline
      · obtain ⟨e, he, rfl⟩ := List.mem_map.mp hline
        exact hdeclared (htyped e he) _ rfl
    · exact absurd hhead (by decide +kernel)
    · exact h line hline
    · exact absurd hhead (by decide +kernel)

/-- Lines are right if no other input has the name of the last one. -/
theorem isAssigning_of_count (interval : Int × Int) (alternate : Bool) (hne : inputsOf charts ≠ [])
    (h : (fedInputs charts).count (lastFed charts) = 1) :
    ∀ line ∈ valueLines interval alternate charts,
      IsAssigning alternate (inputNames charts) line := by
  intro line hline
  obtain ⟨n, -, rfl⟩ := List.mem_map.mp hline
  have hlength := length_valuesAt interval (bytesOf (inputsOf charts)) (intsOf (inputsOf charts)) n
  generalize valuesAt interval (bytesOf (inputsOf charts)) (intsOf (inputsOf charts)) n = values
    at hlength ⊢
  have hassigned : assigned (fedInputs charts) values =
      ((fedNames charts).zip values).map fun p => p.1 ++ " = " ++ toString p.2 := by
    rw [assigned, fedNames, List.zip, List.map_zipWith, List.zipWith_map_left]
  refine ⟨(fedNames charts).zip values, ?_, fun p hp => ?_, ?_⟩
  · have hnonempty := assigned_ne_nil (fedInputs_ne_nil hne) hlength
    rw [hassigned] at hnonempty
    simpa using hnonempty
  · have hname := (List.of_mem_zip hp).1
    exact (fedNames_perm charts).mem_iff.mp hname
  · rw [valueLine_eq alternate hne h hlength, hassigned]

/-! ## Commas that are missing -/

/-- A name that can not be taken for a part of an assignment. -/
def IsPlain (name : String) : Prop := ',' ∉ name.toList ∧ '=' ∉ name.toList

theorem mem_toString {value : Int} {c : Char} (h : c ∈ (toString value).toList) :
    c = '-' ∨ c.isDigit = true := by
  cases value with
  | ofNat n => exact .inr (Text.isDigit_of_mem_repr h)
  | negSucc n =>
    have hsign : (toString (Int.negSucc n)).toList = '-' :: (n + 1).repr.toList :=
      String.toList_append
    rw [hsign, List.mem_cons] at h
    exact h.imp_right Text.isDigit_of_mem_repr

theorem count_assignment {name : String} (h : IsPlain name) (value : Int) :
    (name ++ " = " ++ toString value).toList.count ',' = 0 ∧
      (name ++ " = " ++ toString value).toList.count '=' = 1 := by
  have hvalue {c : Char} (hsign : c ≠ '-') (hdigit : c.isDigit = false) :
      (toString value).toList.count c = 0 := by
    refine List.count_eq_zero_of_not_mem fun hmem => ?_
    rcases mem_toString hmem with heq | heq
    · exact hsign heq
    · rw [hdigit] at heq
      cases heq
  have hsign : " = ".toList = [' ', '=', ' '] := by decide
  simp only [String.toList_append, List.count_append, hsign]
  rw [List.count_eq_zero_of_not_mem h.1, List.count_eq_zero_of_not_mem h.2,
    hvalue (by decide) (by decide), hvalue (by decide) (by decide)]
  decide

/-- Every assignment has an equals sign, and those that are not to the last variable have a
comma. -/
theorem count_assignments (last : Option String) {names : List (Option String)}
    (h : ∀ name ∈ names, IsPlain (worded name)) {values : List Int}
    (hlength : values.length = names.length) :
    (assignments last names values).toList.count ',' + names.count last = names.length ∧
      (assignments last names values).toList.count '=' = names.length := by
  induction names generalizing values with
  | nil => exact ⟨rfl, rfl⟩
  | cons name names ih =>
    cases values with
    | nil => cases hlength
    | cons value values =>
      rw [List.forall_mem_cons] at h
      obtain ⟨hcommas, hsigns⟩ := ih h.2 (Nat.succ.inj hlength)
      obtain ⟨hcomma, hsign⟩ := count_assignment h.1 value
      have hseparator : ", ".toList = [',', ' '] := by decide
      rw [assignments_cons, String.toList_append, String.toList_append, List.count_append,
        List.count_append, List.count_append, List.count_append, List.count_cons, hcomma, hsign,
        List.length_cons]
      by_cases hname : (name == last) = true
      · rw [if_pos hname, if_pos hname]
        simp only [String.toList_empty, List.count_nil]
        omega
      · rw [if_neg hname, if_neg hname, hseparator]
        have hone : [',', ' '].count ',' = 1 ∧ [',', ' '].count '=' = 0 := by decide
        omega

/-- Separated assignments have a comma less than they have equals signs. -/
theorem count_intercalate {pairs : List (String × Int)} (hne : pairs ≠ [])
    (h : ∀ p ∈ pairs, IsPlain p.1) :
    (", ".intercalate (pairs.map fun p => p.1 ++ " = " ++ toString p.2)).toList.count ',' + 1 =
      (", ".intercalate (pairs.map fun p => p.1 ++ " = " ++ toString p.2)).toList.count '=' := by
  induction pairs with
  | nil => exact absurd rfl hne
  | cons p pairs ih =>
    rw [List.forall_mem_cons] at h
    obtain ⟨hcomma, hsign⟩ := count_assignment h.1 p.2
    by_cases hrest : pairs = []
    · subst hrest
      rw [List.map_cons, List.map_nil, String.intercalate_singleton, hcomma, hsign]
    · have hcounts := ih hrest h.2
      have hseparator : ", ".toList = [',', ' '] := by decide
      have hone : [',', ' '].count ',' = 1 ∧ [',', ' '].count '=' = 0 := by decide
      rw [List.map_cons, String.intercalate_cons_of_ne_nil (by simpa using hrest),
        String.toList_append, String.toList_append, List.count_append, List.count_append,
        List.count_append, List.count_append, hcomma, hsign, hseparator]
      omega

theorem not_isAssigning {alternate : Bool} {names : List String} (h : ∀ name ∈ names, IsPlain name)
    {text : String} (hcount : text.toList.count ',' + 1 ≠ text.toList.count '=') :
    ¬ IsAssigning alternate names (feedLine alternate text) := by
  rintro ⟨pairs, hne, hnames, hline⟩
  rw [← feedLine_intercalate alternate (by simpa using hne)] at hline
  have htext := feedLine_injective alternate hline
  rw [htext] at hcount
  exact hcount (count_intercalate hne fun p hp => h p.1 (hnames p hp))

/-- A comma is missing behind every other input that has the name of the last one. -/
theorem separated_iff_count {interval : Int × Int} (hinterval : interval.1 ≤ interval.2)
    (alternate : Bool) (hne : inputsOf charts ≠ []) (htyped : Typed charts)
    (hplain : ∀ name ∈ inputNames charts, IsPlain name) :
    Separated alternate (inputNames charts) (feedPieces interval alternate charts) ↔
      (fedInputs charts).count (lastFed charts) = 1 := by
  rw [separated_iff interval alternate hne htyped]
  refine ⟨fun h => ?_, isAssigning_of_count interval alternate hne⟩
  by_contra hcount
  have hfirst := List.mem_map_of_mem (f := fun n => valueLine alternate charts
    (valuesAt interval (bytesOf (inputsOf charts)) (intsOf (inputsOf charts)) n))
    (List.mem_range.mpr (combinations_pos hinterval (bytesOf (inputsOf charts))
      (intsOf (inputsOf charts))))
  refine not_isAssigning hplain ?_ (h _ hfirst)
  have hnames : ∀ name ∈ fedInputs charts, IsPlain (worded name) := by
    intro name hname
    exact hplain _ ((fedNames_perm charts).mem_iff.mp (List.mem_map_of_mem hname))
  obtain ⟨hcommas, hsigns⟩ := count_assignments (lastFed charts) hnames (length_valuesAt interval
    (bytesOf (inputsOf charts)) (intsOf (inputsOf charts)) 0)
  omega

/-! ## Well-formed text -/

/-- Every input is declared exactly once, and the assignments of every line are separated. -/
structure WellFormed (alternate : Bool) (names : List String) (ps : Pieces) : Prop where
  declared : ∀ name ∈ names, declarationsOf name ps = 1
  separated : Separated alternate names ps

/-- What feeds inputs is well formed exactly if no two inputs have one name, whichever charts they
are inputs of, and none is named as the turn where there is one. The lines alone are right exactly
if no other input is named as the last one. -/
theorem feed_well_formed_iff (interval : Int × Int) (alternate : Bool) (charts : List PlanarChart)
    (hinterval : interval.1 ≤ interval.2) (hne : inputsOf charts ≠ []) (htyped : Typed charts) :
    (WellFormed alternate (inputNames charts) (feedPieces interval alternate charts) ↔
      (inputNames charts).Nodup ∧ (alternate = true → turn ∉ inputNames charts)) ∧
    ((∀ name ∈ inputNames charts, IsPlain name) →
      (Separated alternate (inputNames charts) (feedPieces interval alternate charts) ↔
        (fedInputs charts).count (lastFed charts) = 1)) := by
  have hdeclared := declared_once_iff interval alternate hne htyped
  refine ⟨⟨fun h => hdeclared.mp h.declared, fun h => ⟨hdeclared.mpr h, ?_⟩⟩,
    separated_iff_count hinterval alternate hne htyped⟩
  rw [separated_iff interval alternate hne htyped]
  apply isAssigning_of_count interval alternate hne
  have hnames := h.1
  rw [inputNames_eq] at hnames
  exact count_lastFed hne (hnames.of_map _)

/-- A chart with a switch and one with a level. -/
def controls : List PlanarChart :=
  [Planar.planarOf (rest [.data "on" "boolean" "INPUT_DATA"]),
    Planar.planarOf (rest [.data "level" "int" "INPUT_DATA"])]

theorem inputsOf_controls : inputsOf controls = [(some "on", .byte), (some "level", .int)] := by
  decide +kernel

theorem feed_well_formed_iff_controls :
    ((-2 : Int) ≤ 3 ∧ inputsOf controls ≠ [] ∧ Typed controls) ∧
      WellFormed true (inputNames controls) (feedPieces (-2, 3) true controls) := by
  have hne : inputsOf controls ≠ [] := by
    rw [inputsOf_controls]
    decide
  have htyped : Typed controls := by
    unfold Typed
    rw [inputsOf_controls]
    decide
  refine ⟨⟨by decide, hne, htyped⟩, ?_⟩
  refine (feed_well_formed_iff (-2, 3) true controls (by decide) hne htyped).1.mpr ?_
  rw [inputNames, inputsOf_controls]
  decide +kernel

/-- One signal that is the input of two charts: it is declared twice, and no comma stands between
its two assignments. -/
theorem shared_input_malformed :
    let charts := [Planar.planarOf (rest [.data "x" "boolean" "INPUT_DATA"]),
      Planar.planarOf (rest [.data "x" "boolean" "INPUT_DATA"])]
    inputsOf charts = [(some "x", .byte), (some "x", .byte)] ∧
      declarationsOf "x" (feedPieces (0, 1) false charts) = 2 ∧
      .ok "\t\tstart -> start \x7b effect x = 1x = 0; \x7d\n" ∈ feedPieces (0, 1) false charts ∧
      ¬ Separated false (inputNames charts) (feedPieces (0, 1) false charts) ∧
      ¬ WellFormed false (inputNames charts) (feedPieces (0, 1) false charts) := by
  intro charts
  have hlist : inputsOf charts = [(some "x", .byte), (some "x", .byte)] := by decide +kernel
  have hline : .ok "\t\tstart -> start \x7b effect x = 1x = 0; \x7d\n" ∈
      feedPieces (0, 1) false charts := by decide +kernel
  have hseparated : ¬ Separated false (inputNames charts) (feedPieces (0, 1) false charts) := by
    intro h
    have hstart := h _ hline (by decide +kernel)
    have htext : "\t\tstart -> start \x7b effect x = 1x = 0; \x7d\n" =
        feedLine false "x = 1x = 0" := by decide +kernel
    rw [htext] at hstart
    refine not_isAssigning (fun name hname => ?_) (by decide +kernel) hstart
    have hname' : name = "x" := by
      rw [inputNames, hlist] at hname
      simpa [worded] using hname
    rw [hname']
    exact ⟨by decide, by decide⟩
  exact ⟨hlist, by decide +kernel, hline, hseparated, fun h => hseparated h.separated⟩

end Statechart.Dve
