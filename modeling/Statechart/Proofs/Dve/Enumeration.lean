import Mathlib.Data.Set.Function
import Mathlib.Tactic.NormNum
import Statechart.Proofs.Dve.Assignments
import Statechart.Proofs.Trace.Numbers

/-!
Every combination of input values has a line of its own. The numbers below the product of the
radices have all the digits that the radices allow (`bijOn_digits`), the digits of integers are
raised to their interval (`bijOn_raise`), and a line tells the values that it assigns
(`assigned_injective`). So the lines that feed inputs are in bijection with the combinations of
values (`feed_enumerates`).
-/

namespace Statechart.Dve

variable {charts : List PlanarChart}

/-! ## Digits -/

theorem inRange_append_iff {rs rs' ds : List Int} :
    InRange (rs ++ rs') ds ↔ ∃ as bs, ds = as ++ bs ∧ InRange rs as ∧ InRange rs' bs := by
  constructor
  · intro h
    induction rs generalizing ds with
    | nil => exact ⟨[], ds, rfl, .nil, h⟩
    | cons r rs ih =>
      cases h with
      | cons hd hrest =>
        obtain ⟨as, bs, rfl, has, hbs⟩ := ih hrest
        exact ⟨_ :: as, bs, rfl, .cons hd has, hbs⟩
  · rintro ⟨as, bs, rfl, has, hbs⟩
    exact has.append hbs

theorem inRange_replicate_iff {k : Nat} {r : Int} {ds : List Int} :
    InRange (List.replicate k r) ds ↔ ds.length = k ∧ ∀ d ∈ ds, 0 ≤ d ∧ d < r := by
  constructor
  · intro h
    have hlength := h.length_eq
    rw [List.length_replicate] at hlength
    exact ⟨hlength.symm, h.lt fun r' hr' => Int.le_of_eq (List.eq_of_mem_replicate hr')⟩
  · rintro ⟨rfl, h⟩
    exact inRange_replicate h

/-- The digits that the radices allow are those of the numbers below their product. -/
theorem bijOn_digits {rs : List Int} (hrs : ∀ r ∈ rs, 0 < r) :
    Set.BijOn (fun n : Nat => digits rs n) (Set.Iio rs.prod.toNat) {ds | InRange rs ds} := by
  refine ⟨fun n _ => digits_inRange hrs n, fun m hm n hn h => ?_, fun ds hds => ?_⟩
  · rw [Set.mem_Iio] at hm hn
    have hnumbers : number rs (digits rs m) = number rs (digits rs n) := congrArg (number rs) h
    rw [number_digits hrs (by omega) (by omega), number_digits hrs (by omega) (by omega)]
      at hnumbers
    omega
  · have hbounds := number_bounds hds
    refine ⟨(number rs ds).toNat, ?_, ?_⟩
    · rw [Set.mem_Iio]
      omega
    · show digits rs ((number rs ds).toNat : Int) = ds
      rw [Int.toNat_of_nonneg hbounds.1, digits_number hds]

/-! ## Values -/

/-- The values that so many bytes and integers can have. -/
def Valuations (interval : Int × Int) (bytes ints : Nat) : Set (List Int) :=
  {values | ∃ bs is, values = bs ++ is ∧ bs.length = bytes ∧ is.length = ints ∧
    (∀ b ∈ bs, b = 0 ∨ b = 1) ∧ ∀ i ∈ is, interval.1 ≤ i ∧ i ≤ interval.2}

/-- Values for digits: integers start from the low end of their interval. -/
def raise (low : Int) (bytes : Nat) (ds : List Int) : List Int :=
  ds.take bytes ++ (ds.drop bytes).map (· + low)

theorem raise_append (low : Int) (bs is : List Int) :
    raise low bs.length (bs ++ is) = bs ++ is.map (· + low) := by
  rw [raise, List.take_left, List.drop_left]

theorem inRange_radicesOf_iff {interval : Int × Int} {bytes ints : Nat} {ds : List Int} :
    InRange (radicesOf interval bytes ints) ds ↔ ∃ bs is, ds = bs ++ is ∧ bs.length = bytes ∧
      is.length = ints ∧ (∀ b ∈ bs, b = 0 ∨ b = 1) ∧ ∀ i ∈ is, 0 ≤ i ∧ i < width interval := by
  have hbit (b : Int) : 0 ≤ b ∧ b < 2 ↔ b = 0 ∨ b = 1 := by omega
  simp only [radicesOf, inRange_append_iff, inRange_replicate_iff, hbit, and_assoc,
    and_left_comm]

theorem bijOn_raise (interval : Int × Int) (bytes ints : Nat) :
    Set.BijOn (raise interval.1 bytes) {ds | InRange (radicesOf interval bytes ints) ds}
      (Valuations interval bytes ints) := by
  refine ⟨fun ds hds => ?_, fun ds hds es hes h => ?_, fun values hvalues => ?_⟩
  · obtain ⟨bs, is, rfl, rfl, rfl, hbs, his⟩ := inRange_radicesOf_iff.mp hds
    refine ⟨bs, is.map (· + interval.1), raise_append .., rfl, List.length_map .., hbs, ?_⟩
    intro i hi
    obtain ⟨d, hd, rfl⟩ := List.mem_map.mp hi
    have hrange := his d hd
    unfold width at hrange
    omega
  · obtain ⟨bs, is, rfl, rfl, rfl, -, -⟩ := inRange_radicesOf_iff.mp hds
    obtain ⟨bs', is', rfl, hlength, -, -, -⟩ := inRange_radicesOf_iff.mp hes
    rw [raise_append, ← hlength, raise_append] at h
    obtain ⟨rfl, hints⟩ := List.append_inj h hlength.symm
    rw [List.map_injective_iff.mpr (add_left_injective interval.1) hints]
  · obtain ⟨bs, is, rfl, rfl, rfl, hbs, his⟩ := hvalues
    refine ⟨bs ++ is.map (· - interval.1), inRange_radicesOf_iff.mpr
      ⟨bs, is.map (· - interval.1), rfl, rfl, List.length_map .., hbs, ?_⟩, ?_⟩
    · intro i hi
      obtain ⟨d, hd, rfl⟩ := List.mem_map.mp hi
      have hrange := his d hd
      unfold width
      omega
    · rw [raise_append, List.map_map]
      simp [Function.comp_def]

theorem valuesAt_eq_raise (interval : Int × Int) (bytes ints : List (Option String)) (n : Nat) :
    valuesAt interval bytes ints n =
      raise interval.1 bytes.length (digits (radicesOf interval bytes.length ints.length) n) := by
  rw [valuesAt, List.map_const', List.map_const']
  rfl

theorem combinations_eq_prod (interval : Int × Int) (bytes ints : List (Option String)) :
    combinations interval bytes ints =
      (radicesOf interval bytes.length ints.length).prod.toNat := by
  rw [prod_radicesOf]
  rfl

/-- The values of the combinations are all values, each once. -/
theorem bijOn_valuesAt {interval : Int × Int} (h : interval.1 ≤ interval.2)
    (bytes ints : List (Option String)) :
    Set.BijOn (valuesAt interval bytes ints) (Set.Iio (combinations interval bytes ints))
      (Valuations interval bytes.length ints.length) := by
  have hall := (bijOn_raise interval bytes.length ints.length).comp
    (bijOn_digits (radicesOf_pos h bytes.length ints.length))
  rw [combinations_eq_prod]
  exact hall.congr fun n _ => (valuesAt_eq_raise interval bytes ints n).symm

/-! ## Lines -/

theorem toString_append_comma {m n : Int} {xs ys : List Char}
    (h : (toString m).toList ++ ',' :: xs = (toString n).toList ++ ',' :: ys) :
    m = n ∧ xs = ys := by
  have hno (k : Int) : ∀ c ∈ (toString k).toList, (c != ',') = true := by
    intro c hc
    rcases mem_toString hc with rfl | hdigit
    · rfl
    · have hcomma : c ≠ ',' := by
        rintro rfl
        cases hdigit
      simpa using hcomma
  have hfront := congrArg (List.takeWhile (· != ',')) h
  rw [List.takeWhile_append_of_pos (hno m), List.takeWhile_append_of_pos (hno n)] at hfront
  simp only [List.takeWhile_cons, bne_self_eq_false, Bool.false_eq_true, if_false,
    List.append_nil] at hfront
  have hsame : m = n := Text.toString_injective (String.toList_inj.mp hfront)
  subst hsame
  exact ⟨rfl, (List.cons.inj (List.append_cancel_left h)).2⟩

/-- Separated assignments tell the values. -/
theorem assigned_injective {names : List (Option String)} {values values' : List Int}
    (hlength : values.length = names.length) (hlength' : values'.length = names.length)
    (h : ", ".intercalate (assigned names values) = ", ".intercalate (assigned names values')) :
    values = values' := by
  induction names generalizing values values' with
  | nil => rw [List.length_eq_zero_iff.mp hlength, List.length_eq_zero_iff.mp hlength']
  | cons name names ih =>
    cases values with
    | nil => cases hlength
    | cons value values =>
      cases values' with
      | nil => cases hlength'
      | cons value' values' =>
        have hsize := Nat.succ.inj hlength
        have hsize' := Nat.succ.inj hlength'
        by_cases hnames : names = []
        · subst hnames
          obtain rfl := List.length_eq_zero_iff.mp hsize
          obtain rfl := List.length_eq_zero_iff.mp hsize'
          rw [assigned_cons, assigned_cons, assigned, List.zipWith_nil_left,
            String.intercalate_singleton, String.intercalate_singleton] at h
          rw [Text.toString_injective ((String.append_right_inj _).mp h)]
        · have hcomma : ", ".toList = [',', ' '] := by decide
          have htext := String.toList_inj.mpr h
          rw [assigned_cons, assigned_cons,
            String.intercalate_cons_of_ne_nil (assigned_ne_nil hnames hsize),
            String.intercalate_cons_of_ne_nil (assigned_ne_nil hnames hsize')] at htext
          simp only [String.toList_append, hcomma, List.append_assoc, List.cons_append,
            List.nil_append] at htext
          obtain ⟨rfl, hrest⟩ := toString_append_comma
            (List.append_cancel_left (List.append_cancel_left htext))
          rw [ih hsize hsize' (String.toList_inj.mp (List.cons.inj hrest).2)]

theorem length_valueLines (interval : Int × Int) (alternate : Bool) (charts : List PlanarChart) :
    (valueLines interval alternate charts).length =
      combinations interval (bytesOf (inputsOf charts)) (intsOf (inputsOf charts)) := by
  rw [valueLines, List.length_map, List.length_range]

theorem getElem?_valueLines (interval : Int × Int) (alternate : Bool) (hne : inputsOf charts ≠ [])
    (h : (fedInputs charts).count (lastFed charts) = 1) {k : Nat}
    (hk : k < (valueLines interval alternate charts).length) :
    (valueLines interval alternate charts)[k]? = some (assigningLine alternate
      (assigned (fedInputs charts)
        (valuesAt interval (bytesOf (inputsOf charts)) (intsOf (inputsOf charts)) k))) := by
  rw [length_valueLines] at hk
  rw [valueLines, List.getElem?_map, List.getElem?_range hk, Option.map_some,
    valueLine_eq alternate hne h (length_valuesAt ..)]

/-- Lines with the same text assign the same values. -/
theorem assigningLine_inj {alternate : Bool} {names : List (Option String)} (hnames : names ≠ [])
    {values values' : List Int} (hlength : values.length = names.length)
    (hlength' : values'.length = names.length)
    (h : assigningLine alternate (assigned names values) =
      assigningLine alternate (assigned names values')) : values = values' := by
  rw [← feedLine_intercalate alternate (assigned_ne_nil hnames hlength),
    ← feedLine_intercalate alternate (assigned_ne_nil hnames hlength')] at h
  exact assigned_injective hlength hlength' (feedLine_injective alternate h)

/-- A line assigns the values of one valuation, and the lines assign every valuation once: bytes are
0 or 1, integers are in the interval, and there are no other lines. -/
theorem feed_enumerates (interval : Int × Int) (alternate : Bool) (charts : List PlanarChart)
    (hinterval : interval.1 ≤ interval.2) (hne : inputsOf charts ≠ [])
    (hnodup : ((inputsOf charts).map (·.1)).Nodup) :
    let bytes := (bytesOf (inputsOf charts)).length
    let ints := (intsOf (inputsOf charts)).length
    ∃ (lines : List String) (values : Nat → List Int),
      Writes (feedPieces interval alternate charts)
        (String.join (declarationLines alternate charts) ++ feedHeading ++ String.join lines ++
          "\x7d\n\n") ∧
      (lines.length : Int) = (interval.2 - interval.1 + 1) ^ ints * 2 ^ bytes ∧
      (∀ k < lines.length, ∀ v : List Int, v.length = bytes + ints →
        (lines[k]? = some (assigningLine alternate (assigned (fedInputs charts) v)) ↔
          v = values k)) ∧
      Set.BijOn values (Set.Iio lines.length) (Valuations interval bytes ints) := by
  intro bytes ints
  refine ⟨valueLines interval alternate charts,
    valuesAt interval (bytesOf (inputsOf charts)) (intsOf (inputsOf charts)), ?_, ?_, ?_, ?_⟩
  · have hwrites := writes_texts (declarationLines alternate charts ++
      feedHeading :: (valueLines interval alternate charts ++ ["\x7d\n\n"]))
    rw [← feedPieces_eq_texts interval alternate hne] at hwrites
    simp only [String.join_append, String.join_cons, String.join_nil, String.append_empty,
      ← String.append_assoc] at hwrites
    exact hwrites
  · rw [length_valueLines, combinations]
    refine Int.toNat_of_nonneg (Int.mul_nonneg (Int.pow_nonneg ?_) (Int.pow_nonneg (by decide)))
    rw [width]
    omega
  · intro k hk v hv
    have hline := getElem?_valueLines interval alternate hne (count_lastFed hne hnodup) hk
    rw [hline, Option.some.injEq]
    constructor
    · intro heq
      exact (assigningLine_inj (fedInputs_ne_nil hne) (length_valuesAt ..)
        (hv.trans List.length_append.symm) heq).symm
    · rintro rfl
      rfl
  · rw [length_valueLines]
    exact bijOn_valuesAt hinterval _ _

/-- A switch and a level from -2 to 3, with alternation: twelve lines. -/
theorem feed_enumerates_controls :
    ((-2 : Int) ≤ 3 ∧ inputsOf controls ≠ [] ∧ ((inputsOf controls).map (·.1)).Nodup) ∧
      ∃ (lines : List String) (values : Nat → List Int), lines.length = 12 ∧
        Writes (feedPieces (-2, 3) true controls) (String.join (declarationLines true controls) ++
          feedHeading ++ String.join lines ++ "\x7d\n\n") ∧
        (∀ k < 12, ∀ v : List Int, v.length = 2 → (lines[k]? =
          some (assigningLine true (assigned [some "on", some "level"] v)) ↔ v = values k)) ∧
        Set.BijOn values (Set.Iio 12) (Valuations (-2, 3) 1 1) := by
  have hne : inputsOf controls ≠ [] := by
    rw [inputsOf_controls]
    decide
  have hnodup : ((inputsOf controls).map (·.1)).Nodup := by
    rw [inputsOf_controls]
    decide
  have hnames : fedInputs controls = [some "on", some "level"] := by
    rw [fedInputs, inputsOf_controls]
    decide
  have hbytes : (bytesOf (inputsOf controls)).length = 1 := by
    rw [inputsOf_controls]
    rfl
  have hints : (intsOf (inputsOf controls)).length = 1 := by
    rw [inputsOf_controls]
    rfl
  obtain ⟨lines, values, hwrites, hlength, hlines, hvalues⟩ :=
    feed_enumerates (-2, 3) true controls (by decide) hne hnodup
  rw [hbytes, hints] at hlength hvalues
  have htwelve : lines.length = 12 := by
    norm_num at hlength
    omega
  simp only [htwelve, hnames, hbytes, hints] at hlines hvalues
  exact ⟨⟨by decide, hne, hnodup⟩, lines, values, htwelve, hwrites, hlines, hvalues⟩

end Statechart.Dve
