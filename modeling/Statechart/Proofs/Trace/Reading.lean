import Mathlib.Data.List.Perm.Basic
import Statechart.Proofs.Runs
import Statechart.Proofs.Text.Places
import Statechart.Trace

/-!
What becomes of a file of signals. Lines of signals are read back (`signalOn_line`), and sorting by
place orders them as the model first names them, those with one first place as they are in the file
(`sortByPlace_pairwise`). So the steps of a file follow from the types that are found for its
variables and from the order of their first places (`run_command`).
-/

namespace Statechart.Trace

open Text (IsWord isWord)

variable {patterns : Patterns}

/-! ## Lines of signals -/

def Signal.line (s : Signal) : String := s.name ++ " = [" ++ " ".intercalate s.values ++ "]\n"

/-- A file of signals. -/
def sheet (signals : List Signal) : String := String.join (signals.map Signal.line)

/-- A signal that can be written on a line: its name and its values are words. -/
structure Signal.Plain (s : Signal) : Prop where
  name : IsWord s.name.toList
  values_ne : s.values ≠ []
  values : ∀ v ∈ s.values, IsWord v.toList

theorem mem_of_mem_intercalate {c : Char} {separator : String} {ws : List String}
    (h : c ∈ (separator.intercalate ws).toList) :
    c ∈ separator.toList ∨ ∃ w ∈ ws, c ∈ w.toList := by
  induction ws with
  | nil => cases h
  | cons w ws ih =>
    cases ws with
    | nil =>
      rw [String.intercalate_singleton] at h
      exact .inr ⟨w, List.mem_cons_self .., h⟩
    | cons v ws =>
      rw [String.intercalate_cons_cons, String.toList_append, String.toList_append,
        List.mem_append, List.mem_append] at h
      rcases h with (h | h) | h
      · exact .inr ⟨w, List.mem_cons_self .., h⟩
      · exact .inl h
      · rcases ih h with h | ⟨u, hu, h⟩
        · exact .inl h
        · exact .inr ⟨u, List.mem_cons_of_mem _ hu, h⟩

theorem Signal.line_toList (s : Signal) :
    s.line.toList = s.name.toList ++ ' ' :: '=' :: ' ' :: '[' ::
      ((" ".intercalate s.values).toList ++ [']', '\n']) := by
  have hopen : " = [".toList = [' ', '=', ' ', '['] := rfl
  have hclose : "]\n".toList = [']', '\n'] := rfl
  simp only [Signal.line, String.toList_append, hopen, hclose, List.append_assoc, List.cons_append,
    List.nil_append]

theorem nameOn_line {w rest : List Char} (hw : IsWord w) :
    nameOn (w ++ ' ' :: '=' :: rest) = .ok w := by
  have hmark : ∀ c ∈ w, c ≠ '[' ∧ c ≠ '=' ∧ c ≠ '\n' := fun c hc =>
    ⟨fun h => hw.not_mem (by decide) (h ▸ hc), fun h => hw.not_mem (by decide) (h ▸ hc),
      fun h => hw.not_mem (by decide) (h ▸ hc)⟩
  have htrim : Text.trim (w ++ [' ']) = w :=
    Text.trim_concat (fun c hc => hw.not_blank (List.mem_of_mem_head? hc))
      (fun c hc => hw.not_blank (List.mem_of_mem_getLast? hc)) (by decide)
  cases w with
  | nil => exact absurd rfl hw.1
  | cons c cs =>
    have hc := hmark c (List.mem_cons_self ..)
    have hmore : (cs ++ ' ' :: '=' :: rest).takeWhile
        (fun c => !(c == '[' || c == '=') && c != '\n') = cs ++ [' '] := by
      rw [List.takeWhile_append_of_pos]
      · rfl
      · intro d hd
        have hd := hmark d (List.mem_cons_of_mem _ hd)
        simp [hd.1, hd.2.1, hd.2.2]
    have hdrop : (cs ++ ' ' :: '=' :: rest).drop (cs ++ [' ']).length = '=' :: rest := by
      have happend : cs ++ ' ' :: '=' :: rest = (cs ++ [' ']) ++ '=' :: rest := by simp
      rw [happend, List.drop_left]
    rw [List.cons_append]
    unfold nameOn
    split
    · next heq => cases heq
    · next heq => exact absurd (List.cons.inj heq).1 hc.2.2
    · next heq =>
      obtain ⟨rfl, rfl⟩ := List.cons.inj heq
      simp only [hmore, hdrop]
      exact congrArg Except.ok htrim

theorem valuesOn_line {w : List Char} (hw : IsWord w) {values : List String} (hne : values ≠ [])
    (hvalues : ∀ v ∈ values, IsWord v.toList) :
    valuesOn (w ++ ' ' :: '=' :: ' ' :: '[' ::
      ((" ".intercalate values).toList ++ [']', '\n'])) = .ok values := by
  have hdrop (inner : List Char) : (w ++ ' ' :: '=' :: ' ' :: '[' :: inner).dropWhile (· != '[') =
      '[' :: inner := by
    rw [List.dropWhile_append_of_pos]
    · rfl
    · intro c hc
      have hbracket : c ≠ '[' := fun h => hw.not_mem (by decide) (h ▸ hc)
      simpa using hbracket
  have hclose : Text.beforeLast? [']'] [']', '\n'] = some [] := by decide
  have hlast := Text.beforeLast?_append hclose (" ".intercalate values).toList
  rw [List.append_nil] at hlast
  have hinner : (" ".intercalate values).toList ≠ [] := by
    intro hnil
    have hwords := Text.words_intercalate hvalues
    rw [Text.words, hnil] at hwords
    exact hne hwords.symm
  unfold valuesOn
  rw [hdrop]
  simp only [hlast]
  rw [String.ofList_toList, Text.words_intercalate hvalues]

/-- A line of a signal is read back. -/
theorem signalOn_line {s : Signal} (hs : s.Plain) : signalOn s.line.toList = .ok s := by
  rw [Signal.line_toList, signalOn, nameOn_line hs.name,
    valuesOn_line hs.name hs.values_ne hs.values]
  show Except.ok (⟨String.ofList s.name.toList, s.values⟩ : Signal) = .ok s
  rw [String.ofList_toList]

/-- A line of a signal has no line end before its own. -/
theorem Signal.Plain.line_ends {s : Signal} (hs : s.Plain) :
    ∃ body, s.line.toList = body ++ ['\n'] ∧ '\n' ∉ body ∧ '\r' ∉ body := by
  have hbody (c : Char) (hc : isWord c = false) (hmark : c ∉ [' ', '=', '[', ']']) :
      c ∉ s.name.toList ++ ' ' :: '=' :: ' ' :: '[' ::
        ((" ".intercalate s.values).toList ++ [']']) := by
    have hname := hs.name.not_mem hc
    have hvalues : c ∉ (" ".intercalate s.values).toList := by
      intro hmem
      rcases mem_of_mem_intercalate hmem with hmem | ⟨v, hv, hmem⟩
      · exact hmark (List.mem_singleton.mp hmem ▸ List.mem_cons_self ..)
      · exact (hs.values v hv).not_mem hc hmem
    simp only [List.mem_cons, List.not_mem_nil, or_false, not_or] at hmark
    simp only [List.mem_append, List.mem_cons, List.not_mem_nil, or_false, not_or]
    exact ⟨hname, hmark.1, hmark.2.1, hmark.1, hmark.2.2.1, hvalues, hmark.2.2.2⟩
  refine ⟨_, ?_, hbody '\n' (by decide) (by decide), hbody '\r' (by decide) (by decide)⟩
  rw [Signal.line_toList]
  simp only [List.append_assoc, List.cons_append, List.nil_append]

theorem lines_flatMap {signals : List Signal} (hs : ∀ s ∈ signals, s.Plain) :
    Text.lines (signals.flatMap (·.line.toList)) = signals.map (·.line.toList) := by
  induction signals with
  | nil => rfl
  | cons s signals ih =>
    obtain ⟨body, hbody, hends, -⟩ := (hs s (List.mem_cons_self ..)).line_ends
    have hrest := ih fun s' hs' => hs s' (List.mem_cons_of_mem _ hs')
    rw [List.flatMap_cons, List.map_cons, hbody, List.append_assoc, List.singleton_append,
      Text.lines_append hends, hrest]

/-- The lines of a file of signals are those of the signals. -/
theorem lines_sheet {signals : List Signal} (hs : ∀ s ∈ signals, s.Plain) :
    Text.lines (Text.unifyLines (sheet signals).toList) = signals.map (·.line.toList) := by
  have hreturn : '\r' ∉ signals.flatMap (·.line.toList) := by
    intro hmem
    obtain ⟨s, hs', hmem⟩ := List.mem_flatMap.mp hmem
    obtain ⟨body, hbody, -, hno⟩ := (hs s hs').line_ends
    rw [hbody] at hmem
    simp [hno] at hmem
  have hunify := Text.unifyLines_append hreturn []
  rw [List.append_nil] at hunify
  rw [sheet, String.toList_join, List.flatMap_map, hunify]
  exact (List.append_nil _).symm ▸ lines_flatMap hs

/-! ## Reading a file -/

/-- Signals go where their types send them. -/
theorem readInputs_lines {model : List Char} {kind : String → String} {signals : List Signal}
    (hs : ∀ s ∈ signals, s.Plain)
    (hkind : ∀ s ∈ signals, typeIn patterns model s.name = .ok (kind s.name))
    (ins : Inputs) :
    ∃ strange, readInputs patterns model ins (signals.map (·.line.toList)) =
      (⟨ins.bytes ++ signals.filter (kind ·.name == "byte"),
        ins.ints ++ signals.filter (kind ·.name == "int"), strange⟩, none) := by
  induction signals generalizing ins with
  | nil => exact ⟨ins.strange, by simp [readInputs]⟩
  | cons s signals ih =>
    have hsignal := signalOn_line (hs s (List.mem_cons_self ..))
    have htype := hkind s (List.mem_cons_self ..)
    have hread : (do
        let s ← signalOn s.line.toList
        return (s, ← typeIn patterns model s.name) : Except Fault (Signal × String)) =
          .ok (s, kind s.name) := by
      rw [hsignal]
      show (do return (s, ← typeIn patterns model s.name) : Except Fault (Signal × String)) = _
      rw [htype]
      rfl
    have hrest := ih (fun s' hs' => hs s' (List.mem_cons_of_mem _ hs'))
      (fun s' hs' => hkind s' (List.mem_cons_of_mem _ hs'))
    rw [List.map_cons, readInputs, hread]
    by_cases hbyte : kind s.name = "byte"
    · obtain ⟨strange, hstrange⟩ := hrest { ins with bytes := ins.bytes ++ [s] }
      refine ⟨strange, ?_⟩
      simp [hbyte, hstrange]
    · by_cases hint : kind s.name = "int"
      · obtain ⟨strange, hstrange⟩ := hrest { ins with ints := ins.ints ++ [s] }
        refine ⟨strange, ?_⟩
        simp [hint, hstrange]
      · obtain ⟨strange, hstrange⟩ := hrest { ins with strange := ins.strange ++ [kind s.name] }
        refine ⟨strange, ?_⟩
        simp [hbyte, hint, hstrange]

/-! ## Sorting by place -/

/-- Where the model first names a variable. -/
def place (model : List Char) (name : String) : Nat :=
  ((Text.before? name.toList model).map List.length).getD 0

theorem insertByPlace_perm (s : Nat × Signal) (ts : List (Nat × Signal)) :
    (insertByPlace s ts).Perm (s :: ts) := by
  induction ts with
  | nil => exact .refl _
  | cons t ts ih =>
    rw [insertByPlace]
    split
    · exact (ih.cons t).trans (.swap s t ts)
    · exact .refl _

theorem foldr_insertByPlace_perm (ts : List (Nat × Signal)) :
    (ts.foldr insertByPlace []).Perm ts := by
  induction ts with
  | nil => exact .refl _
  | cons t ts ih => exact (insertByPlace_perm t _).trans (ih.cons t)

/-- One signal comes before another because of its place or, at the same place, by an order that
there was before. -/
def Earlier (Q : Signal → Signal → Prop) (s t : Nat × Signal) : Prop :=
  s.1 < t.1 ∨ (s.1 = t.1 ∧ Q s.2 t.2)

theorem insertByPlace_pairwise {Q : Signal → Signal → Prop} {s : Nat × Signal}
    {ts : List (Nat × Signal)} (hs : ∀ t ∈ ts, Q s.2 t.2) (hts : ts.Pairwise (Earlier Q)) :
    (insertByPlace s ts).Pairwise (Earlier Q) := by
  induction ts with
  | nil => exact List.pairwise_singleton ..
  | cons t ts ih =>
    obtain ⟨ht, hts⟩ := List.pairwise_cons.mp hts
    rw [insertByPlace]
    split
    · next hlt =>
      refine List.pairwise_cons.mpr ⟨fun u hu => ?_, ?_⟩
      · rcases List.mem_cons.mp ((insertByPlace_perm s ts).mem_iff.mp hu) with rfl | hu
        · exact .inl hlt
        · exact ht u hu
      · exact ih (fun u hu => hs u (List.mem_cons_of_mem _ hu)) hts
    · next hge =>
      refine List.pairwise_cons.mpr ⟨fun u hu => ?_, List.pairwise_cons.mpr ⟨ht, hts⟩⟩
      have hle : s.1 ≤ u.1 := by
        rcases List.mem_cons.mp hu with rfl | hu
        · omega
        · rcases ht u hu with h | h <;> omega
      rcases Nat.lt_or_eq_of_le hle with hlt | heq
      · exact .inl hlt
      · exact .inr ⟨heq, hs u hu⟩

theorem foldr_insertByPlace_pairwise {Q : Signal → Signal → Prop} {ts : List (Nat × Signal)}
    (hts : ts.Pairwise fun s t => Q s.2 t.2) :
    (ts.foldr insertByPlace []).Pairwise (Earlier Q) := by
  induction ts with
  | nil => exact .nil
  | cons t ts ih =>
    obtain ⟨ht, hts⟩ := List.pairwise_cons.mp hts
    refine insertByPlace_pairwise (fun u hu => ht u ?_) (ih hts)
    exact (foldr_insertByPlace_perm ts).mem_iff.mp hu

theorem sortByPlace_eq (model : List Char) (signals : List Signal) :
    sortByPlace model signals =
      ((signals.map fun s => (place model s.name, s)).foldr insertByPlace []).map (·.2) := rfl

theorem sortByPlace_perm (model : List Char) (signals : List Signal) :
    (sortByPlace model signals).Perm signals := by
  have hperm := foldr_insertByPlace_perm (signals.map fun s => (place model s.name, s))
  have hsignals := hperm.map (·.2)
  rw [List.map_map] at hsignals
  simpa [sortByPlace_eq, Function.comp_def] using hsignals

/-- Sorting by place keeps the order of signals that have one place. -/
theorem sortByPlace_pairwise {Q : Signal → Signal → Prop} (model : List Char)
    {signals : List Signal} (h : signals.Pairwise Q) :
    (sortByPlace model signals).Pairwise fun s t =>
      place model s.name < place model t.name ∨
        (place model s.name = place model t.name ∧ Q s t) := by
  have hsorted := foldr_insertByPlace_pairwise
    (List.pairwise_map.mpr h : (signals.map fun s => (place model s.name, s)).Pairwise
      fun s t => Q s.2 t.2)
  rw [sortByPlace_eq, List.pairwise_map]
  refine hsorted.imp_of_mem fun {s t} hs ht hearlier => ?_
  have hplace : ∀ u ∈ (signals.map fun s => (place model s.name, s)).foldr insertByPlace [],
      u.1 = place model u.2.name := by
    intro u hu
    obtain ⟨v, -, rfl⟩ := List.mem_map.mp ((foldr_insertByPlace_perm _).mem_iff.mp hu)
    rfl
  rwa [Earlier, hplace s hs, hplace t ht] at hearlier

theorem insertByPlace_map (g : Signal → Signal) (s : Nat × Signal) (ts : List (Nat × Signal)) :
    insertByPlace (s.1, g s.2) (ts.map fun t => (t.1, g t.2)) =
      (insertByPlace s ts).map fun t => (t.1, g t.2) := by
  induction ts with
  | nil => rfl
  | cons t ts ih =>
    rw [List.map_cons, insertByPlace, insertByPlace]
    split
    · rw [ih, List.map_cons]
    · rfl

/-- Sorting looks at names only. -/
theorem sortByPlace_map (model : List Char) (g : Signal → Signal) (hg : ∀ s, (g s).name = s.name)
    (signals : List Signal) :
    sortByPlace model (signals.map g) = (sortByPlace model signals).map g := by
  have hfold : ∀ ts : List (Nat × Signal), (ts.map fun t => (t.1, g t.2)).foldr insertByPlace [] =
      (ts.foldr insertByPlace []).map fun t => (t.1, g t.2) := by
    intro ts
    induction ts with
    | nil => rfl
    | cons t ts ih =>
      rw [List.map_cons, List.foldr_cons, List.foldr_cons, ih]
      exact insertByPlace_map g t _
  have hplaced := hfold (signals.map fun s => (place model s.name, s))
  simp only [List.map_map, Function.comp_def] at hplaced
  rw [sortByPlace_eq, sortByPlace_eq, List.map_map]
  simp only [Function.comp_def, hg, hplaced, List.map_map]

/-- Names in the order in which the model first names them. -/
def inOrder (model : List Char) (names : List String) : List String :=
  (sortByPlace model (names.map fun x => ⟨x, []⟩)).map (·.name)

theorem inOrder_perm (model : List Char) (names : List String) :
    (inOrder model names).Perm names := by
  have hperm := (sortByPlace_perm model (names.map fun x => ⟨x, []⟩)).map (·.name)
  rw [List.map_map] at hperm
  simpa [inOrder, Function.comp_def] using hperm

theorem inOrder_pairwise {Q : String → String → Prop} (model : List Char) {names : List String}
    (h : names.Pairwise Q) :
    (inOrder model names).Pairwise fun x y =>
      place model x < place model y ∨ (place model x = place model y ∧ Q x y) := by
  have hsignals : (names.map fun x => (⟨x, []⟩ : Signal)).Pairwise fun s t => Q s.name t.name :=
    List.pairwise_map.mpr h
  exact List.pairwise_map.mpr (sortByPlace_pairwise model hsignals)

/-- Names whose places grow are in order, however they are listed. -/
theorem inOrder_eq {model : List Char} {names listed : List String} (hperm : listed.Perm names)
    (hplaces : names.Pairwise fun x y => place model x < place model y) :
    inOrder model listed = names := by
  have hne : names.Pairwise fun x y => place model x ≠ place model y :=
    hplaces.imp fun h => Nat.ne_of_lt h
  have hlisted : listed.Pairwise fun x y => place model x ≠ place model y :=
    hperm.symm.pairwise hne fun h => h.symm
  have hsorted : (inOrder model listed).Pairwise fun x y => place model x < place model y :=
    (inOrder_pairwise model hlisted).imp fun h => h.resolve_right fun h => h.2 h.1
  refine List.Perm.eq_of_pairwise ?_ hsorted hplaces ((inOrder_perm model listed).trans hperm)
  intro x y _ _ hxy hyx
  omega

/-- Only names whose places grow are in order if they are listed in reverse. -/
theorem places_of_inOrder_reverse {model : List Char} {names : List String} (hnodup : names.Nodup)
    (h : inOrder model names.reverse = names) :
    names.Pairwise fun x y => place model x < place model y := by
  have hindex : names.Pairwise fun x y => names.idxOf x < names.idxOf y := by
    rw [List.pairwise_iff_getElem]
    intro i j hi hj hij
    rwa [hnodup.idxOf_getElem, hnodup.idxOf_getElem]
  have hsorted := inOrder_pairwise model (List.pairwise_reverse.mpr hindex)
  rw [h] at hsorted
  refine hsorted.imp₂ (fun x y hplace hlt => ?_) hindex
  rcases hplace with hplace | hplace
  · exact hplace
  · exact absurd hplace.2 (by omega)

/-! ## Steps of a file -/

/-- A signal that has the value `value name i` in row `i`. -/
def signalOf (rows : Nat) (value : String → Nat → Int) (name : String) : Signal :=
  ⟨name, (List.range rows).map fun i => toString (value name i)⟩

theorem plain_signalOf {rows : Nat} (hrows : 1 ≤ rows) {value : String → Nat → Int}
    {name : String} (hname : IsWord name.toList) (hvalue : ∀ i < rows, 0 ≤ value name i) :
    (signalOf rows value name).Plain where
  name := hname
  values_ne := by
    intro h
    have hlength := congrArg List.length h
    simp only [signalOf, List.length_map, List.length_range, List.length_nil] at hlength
    omega
  values := by
    intro v hv
    obtain ⟨i, hi, rfl⟩ := List.mem_map.mp hv
    obtain ⟨n, hn⟩ := Int.eq_ofNat_of_zero_le (hvalue i (List.mem_range.mp hi))
    rw [hn]
    exact Text.isWord_repr n

/-- All signals have a value in each row. -/
theorem rowAt_signals {rows i : Nat} (hi : i < rows) (value : String → Nat → Int)
    (names : List String) :
    rowAt (names.map (signalOf rows value)) i = .ok (names.map fun x => toString (value x i)) := by
  have hrow : rowAt (names.map (signalOf rows value)) i =
      .ok ((names.map (signalOf rows value)).map fun s => toString (value s.name i)) := by
    refine mapM_eq_map fun s hs => ?_
    obtain ⟨x, -, rfl⟩ := List.mem_map.mp hs
    simp [signalOf, hi]
  rw [hrow, List.map_map]
  rfl

/-- Signals with as many values each have so many rows, and the steps are those of the rows. -/
theorem steps_eq {model : List Char} {ins : Inputs} {rows : Nat} {row : Nat → List String}
    (hne : ins.bytes ++ ins.ints ≠ [])
    (hlength : ∀ s ∈ ins.bytes ++ ins.ints, s.values.length = rows)
    (hrow : ∀ i < rows,
      rowAt (sortByPlace model ins.bytes ++ sortByPlace model ins.ints) i = .ok (row i)) :
    steps model ins =
      .ok (stepsOf ins.bytes.length ins.ints.length false ((List.range rows).map row)) := by
  have hcount : rowCount ins = .ok rows := by
    rw [rowCount]
    cases hall : ins.bytes ++ ins.ints with
    | nil => exact absurd hall hne
    | cons s signals => exact congrArg _ (hlength s (hall ▸ List.mem_cons_self ..))
  have hrows : (List.range rows).mapM
      (rowAt (sortByPlace model ins.bytes ++ sortByPlace model ins.ints)) =
        .ok ((List.range rows).map row) :=
    mapM_eq_map fun i hi => hrow i (List.mem_range.mp hi)
  rw [steps, hcount]
  show (do
    let rows ← (List.range rows).mapM (rowAt _)
    return stepsOf _ _ false rows : Except Fault (List Nat)) = _
  rw [hrows]
  rfl

theorem steps_signals {rows : Nat} {value : String → Nat → Int} {bytes ints : List String}
    (hne : bytes ++ ints ≠ []) (model : List Char) (strange : List String) :
    steps model ⟨bytes.map (signalOf rows value), ints.map (signalOf rows value), strange⟩ =
      .ok (stepsOf bytes.length ints.length false ((List.range rows).map fun i =>
        (inOrder model bytes ++ inOrder model ints).map fun x => toString (value x i))) := by
  have hsort (names : List String) : sortByPlace model (names.map (signalOf rows value)) =
      (inOrder model names).map (signalOf rows value) := by
    have hmap := sortByPlace_map model (fun s => signalOf rows value s.name) (fun _ => rfl)
      (names.map fun x => ⟨x, []⟩)
    rw [List.map_map] at hmap
    rw [inOrder, List.map_map]
    exact hmap
  have hlength (names : List String) :
      names.length = (names.map (signalOf rows value)).length := (List.length_map _).symm
  rw [hlength bytes, hlength ints]
  refine steps_eq ?_ (fun s hs => ?_) fun i hi => ?_
  · rw [← List.map_append]
    simpa using hne
  · rw [← List.map_append] at hs
    obtain ⟨x, -, rfl⟩ := List.mem_map.mp hs
    simp [signalOf]
  · rw [hsort, hsort, ← List.map_append]
    exact rowAt_signals hi value _

/-- A run that can read its inputs gets as far as its steps. -/
theorem command_of_read {model inputs : String} {ins : Inputs}
    (h : readInputs patterns (Text.unifyLines model.toList) ⟨[], [], []⟩
      (Text.lines (Text.unifyLines inputs.toList)) = (ins, none))
    (file watched simulation : String) :
    (run patterns file model inputs watched simulation).command =
      (steps (Text.unifyLines model.toList) ins).toOption.map (command file) := by
  simp only [run, h]
  cases steps (Text.unifyLines model.toList) ins with
  | error f => rfl
  | ok ss =>
    cases valuesOf patterns watched simulation.toList with
    | error f => rfl
    | ok vs => rfl

/-- The type that is found for a variable. -/
def kindOf (patterns : Patterns) (model : List Char) (name : String) : String :=
  (typeIn patterns model name).toOption.getD ""

/-- The variables for which a type is found, in the order of the model. -/
def found (patterns : Patterns) (type : String) (model : List Char) (names : List String) :
    List String :=
  inOrder model (names.filter (kindOf patterns model · == type))

theorem found_perm (patterns : Patterns) (type : String) (model : List Char) (names : List String) :
    (found patterns type model names).Perm (names.filter (kindOf patterns model · == type)) :=
  inOrder_perm model _

theorem kindOf_of_mem_found {type : String} {model : List Char} {names : List String} {x : String}
    (hx : x ∈ found patterns type model names) : kindOf patterns model x = type := by
  have hfilter := (List.mem_filter.mp ((found_perm patterns type model names).mem_iff.mp hx)).2
  exact beq_iff_eq.mp hfilter

/-- What a file is run with: the steps for its bytes and integers as they are found. Without any
there is nothing to run. -/
theorem run_command {model : String} {names : List String} {rows : Nat}
    {value : String → Nat → Int} (hrows : 1 ≤ rows) (hnames : ∀ x ∈ names, IsWord x.toList)
    (hvalue : ∀ x ∈ names, ∀ i < rows, 0 ≤ value x i)
    (htypes : ∀ x ∈ names, ∃ type, typeIn patterns (Text.unifyLines model.toList) x = .ok type)
    (file watched simulation : String) :
    let bytes := found patterns "byte" (Text.unifyLines model.toList) names
    let ints := found patterns "int" (Text.unifyLines model.toList) names
    (run patterns file model (sheet (names.map (signalOf rows value))) watched simulation).command =
      if bytes ++ ints = [] then none
      else some (command file (stepsOf bytes.length ints.length false
        ((List.range rows).map fun i => (bytes ++ ints).map fun x => toString (value x i)))) := by
  intro bytes ints
  have hplain : ∀ s ∈ names.map (signalOf rows value), s.Plain := by
    intro s hs
    obtain ⟨x, hx, rfl⟩ := List.mem_map.mp hs
    exact plain_signalOf hrows (hnames x hx) (hvalue x hx)
  have hkinds : ∀ s ∈ names.map (signalOf rows value),
      typeIn patterns (Text.unifyLines model.toList) s.name =
        .ok (kindOf patterns (Text.unifyLines model.toList) s.name) := by
    intro s hs
    obtain ⟨x, hx, rfl⟩ := List.mem_map.mp hs
    obtain ⟨type, htype⟩ := htypes x hx
    show typeIn patterns _ x = .ok (kindOf patterns _ x)
    rw [kindOf, htype]
    rfl
  obtain ⟨strange, hread⟩ := readInputs_lines hplain hkinds ⟨[], [], []⟩
  have hfilter (type : String) : (names.map (signalOf rows value)).filter
      (kindOf patterns (Text.unifyLines model.toList) ·.name == type) =
        (names.filter (kindOf patterns (Text.unifyLines model.toList) · == type)).map
          (signalOf rows value) := by
    rw [List.filter_map]
    rfl
  rw [List.nil_append, List.nil_append, hfilter, hfilter, ← lines_sheet hplain] at hread
  rw [command_of_read hread]
  have hbytes := found_perm patterns "byte" (Text.unifyLines model.toList) names
  have hints := found_perm patterns "int" (Text.unifyLines model.toList) names
  have hperm := hbytes.append hints
  by_cases hne : names.filter (kindOf patterns (Text.unifyLines model.toList) · == "byte") ++
      names.filter (kindOf patterns (Text.unifyLines model.toList) · == "int") = []
  · obtain ⟨hbytes', hints'⟩ := List.append_eq_nil_iff.mp hne
    rw [if_pos (List.perm_nil.mp (hne ▸ hperm)), hbytes', hints']
    rfl
  · have hempty : bytes ++ ints ≠ [] := fun h => hne (List.nil_perm.mp (h ▸ hperm))
    rw [if_neg hempty, steps_signals hne, hbytes.length_eq, hints.length_eq]
    rfl

end Statechart.Trace
