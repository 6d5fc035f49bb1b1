import Mathlib.Algebra.BigOperators.Group.List.Basic
import Mathlib.Algebra.Order.Ring.Int
import Mathlib.Data.List.Perm.Basic
import Mathlib.Tactic.Ring
import Statechart.Proofs.Text.Places
import Statechart.Trace

/-!
Rows of values as numbers in mixed radix. Digits that the radices allow are the digits of exactly
one number below the product of the radices (`digits_number`, `number_digits`), so the edge that
assigns a row is found by its number (`edgeOf?_digits`). A row with a single 1 has the weight of
its place as its number, and weights grow along the places (`weight_pairwise`).
-/

namespace Statechart.Dve

/-- The number with the given digits, lowest first. -/
def number : List Int → List Int → Int
  | r :: rs, d :: ds => d + r * number rs ds
  | _, _ => 0

/-- Digits that the radices allow. -/
def InRange (rs ds : List Int) : Prop := List.Forall₂ (fun r d => 0 ≤ d ∧ d < r) rs ds

theorem InRange.length_eq {rs ds : List Int} (h : InRange rs ds) : rs.length = ds.length :=
  List.Forall₂.length_eq h

theorem InRange.lt {rs ds : List Int} (h : InRange rs ds) {m : Int} (hrs : ∀ r ∈ rs, r ≤ m) :
    ∀ d ∈ ds, 0 ≤ d ∧ d < m := by
  unfold InRange at h
  induction h with
  | nil => simp
  | @cons r d rs ds hd hrest ih =>
    intro x hx
    rcases List.mem_cons.mp hx with rfl | hx
    · have hr := hrs r (List.mem_cons_self ..)
      omega
    · exact ih (fun r' hr' => hrs r' (List.mem_cons_of_mem _ hr')) x hx

theorem InRange.append {rs rs' ds ds' : List Int} (h : InRange rs ds) (h' : InRange rs' ds') :
    InRange (rs ++ rs') (ds ++ ds') := by
  unfold InRange at h
  induction h with
  | nil => exact h'
  | cons hd hrest ih => exact .cons hd ih

theorem inRange_replicate {r : Int} {ds : List Int} (h : ∀ d ∈ ds, 0 ≤ d ∧ d < r) :
    InRange (List.replicate ds.length r) ds := by
  induction ds with
  | nil => exact .nil
  | cons d ds ih =>
    exact .cons (h d (List.mem_cons_self ..)) (ih fun x hx => h x (List.mem_cons_of_mem _ hx))

theorem digits_inRange {rs : List Int} (hrs : ∀ r ∈ rs, 0 < r) (n : Int) :
    InRange rs (digits rs n) := by
  induction rs generalizing n with
  | nil => exact .nil
  | cons r rs ih =>
    have hr := hrs r (List.mem_cons_self ..)
    have hdigit : 0 ≤ n.fmod r ∧ n.fmod r < r :=
      ⟨Int.fmod_nonneg_of_pos n hr, Int.fmod_lt_of_pos n hr⟩
    exact .cons hdigit (ih (fun r' hr' => hrs r' (List.mem_cons_of_mem _ hr')) _)

theorem digits_number {rs ds : List Int} (h : InRange rs ds) :
    digits rs (number rs ds) = ds := by
  unfold InRange at h
  induction h with
  | nil => rfl
  | @cons r d rs ds hd hrest ih =>
    have hr : 0 ≤ r := by omega
    have hdigit : (d + r * number rs ds).fmod r = d := by
      rw [Int.fmod_eq_emod_of_nonneg _ hr, Int.add_mul_emod_self_left, Int.emod_eq_of_lt hd.1 hd.2]
    have hmore : (d + r * number rs ds).fdiv r = number rs ds := by
      rw [Int.fdiv_eq_ediv_of_nonneg _ hr, Int.add_mul_ediv_left _ _ (by omega),
        Int.ediv_eq_zero_of_lt hd.1 hd.2, Int.zero_add]
    rw [number, digits, hdigit, hmore, ih]

theorem number_bounds {rs ds : List Int} (h : InRange rs ds) :
    0 ≤ number rs ds ∧ number rs ds < rs.prod := by
  unfold InRange at h
  induction h with
  | nil => exact ⟨Int.le_refl 0, by decide⟩
  | @cons r d rs ds hd hrest ih =>
    have hr : 0 ≤ r := by omega
    have hlow := Int.mul_nonneg hr ih.1
    have hhigh : r * (number rs ds + 1) ≤ r * rs.prod := Int.mul_le_mul_of_nonneg_left ih.2 hr
    rw [Int.mul_add, Int.mul_one] at hhigh
    rw [number, List.prod_cons]
    omega

theorem number_digits {rs : List Int} (hrs : ∀ r ∈ rs, 0 < r) {n : Int} (hlow : 0 ≤ n)
    (hhigh : n < rs.prod) : number rs (digits rs n) = n := by
  induction rs generalizing n with
  | nil =>
    rw [List.prod_nil] at hhigh
    have hn : n = 0 := by omega
    rw [hn]
    rfl
  | cons r rs ih =>
    have hr := hrs r (List.mem_cons_self ..)
    rw [List.prod_cons] at hhigh
    have hrest : number rs (digits rs (n.fdiv r)) = n.fdiv r := by
      apply ih (fun r' hr' => hrs r' (List.mem_cons_of_mem _ hr'))
      · exact Int.fdiv_nonneg hlow (by omega)
      · rw [Int.fdiv_eq_ediv_of_nonneg _ (by omega)]
        exact Int.ediv_lt_of_lt_mul hr (by rwa [Int.mul_comm])
    rw [digits, number, hrest]
    exact Int.fmod_add_mul_fdiv n r

/-! ## Radices -/

/-- The radices of so many bytes and integers. -/
def radicesOf (interval : Int × Int) (bytes ints : Nat) : List Int :=
  List.replicate bytes 2 ++ List.replicate ints (width interval)

theorem mem_radicesOf {interval : Int × Int} {bytes ints : Nat} {r : Int}
    (h : r ∈ radicesOf interval bytes ints) : r = 2 ∨ r = width interval :=
  (List.mem_append.mp h).imp List.eq_of_mem_replicate List.eq_of_mem_replicate

theorem radicesOf_pos {interval : Int × Int} (h : interval.1 ≤ interval.2) (bytes ints : Nat) :
    ∀ r ∈ radicesOf interval bytes ints, 0 < r := by
  intro r hr
  rcases mem_radicesOf hr with rfl | rfl
  · decide
  · rw [width]
    omega

theorem length_radicesOf (interval : Int × Int) (bytes ints : Nat) :
    (radicesOf interval bytes ints).length = bytes + ints := by
  rw [radicesOf, List.length_append, List.length_replicate, List.length_replicate]

theorem prod_radicesOf (interval : Int × Int) (bytes ints : Nat) :
    (radicesOf interval bytes ints).prod = width interval ^ ints * 2 ^ bytes := by
  rw [radicesOf, List.prod_append, List.prod_replicate, List.prod_replicate, Int.mul_comm]

/-! ## Weights -/

section Weights

variable {α : Type} [DecidableEq α]

/-- The row that has 1 for one variable and 0 for the others. -/
def unit (names : List α) (name : α) : List Int := names.map fun x => if x = name then 1 else 0

theorem number_unit_cons_of_ne (r : Int) (rs : List Int) {x name : α} (h : x ≠ name)
    (names : List α) :
    number (r :: rs) (unit (x :: names) name) = r * number rs (unit names name) := by
  rw [unit, List.map_cons, if_neg h, number, ← unit, Int.zero_add]

theorem number_unit_of_not_mem (rs : List Int) {names : List α} {name : α} (h : name ∉ names) :
    number rs (unit names name) = 0 := by
  induction names generalizing rs with
  | nil => cases rs <;> rfl
  | cons x names ih =>
    cases rs with
    | nil => rfl
    | cons r rs =>
      have hx : x ≠ name := fun hx => h (hx ▸ List.mem_cons_self ..)
      have hrest := ih rs fun hmem => h (List.mem_cons_of_mem _ hmem)
      rw [number_unit_cons_of_ne r rs hx, hrest, Int.mul_zero]

theorem number_unit_cons_self (r : Int) (rs : List Int) {name : α} {names : List α}
    (h : name ∉ names) : number (r :: rs) (unit (name :: names) name) = 1 := by
  rw [unit, List.map_cons, if_pos rfl, number, ← unit, number_unit_of_not_mem rs h, Int.mul_zero,
    Int.add_zero]

theorem number_unit_pos {rs : List Int} (hrs : ∀ r ∈ rs, 2 ≤ r) {names : List α}
    (hlength : rs.length = names.length) (hnodup : names.Nodup) {name : α} (h : name ∈ names) :
    0 < number rs (unit names name) := by
  induction names generalizing rs with
  | nil => cases h
  | cons x names ih =>
    cases rs with
    | nil => cases hlength
    | cons r rs =>
      obtain ⟨hx, hnodup⟩ := List.nodup_cons.mp hnodup
      rcases List.mem_cons.mp h with rfl | h
      · rw [number_unit_cons_self r rs hx]
        decide
      · have hne : x ≠ name := fun hne => hx (hne ▸ h)
        have hr := hrs r (List.mem_cons_self ..)
        have hrest := ih (fun r' hr' => hrs r' (List.mem_cons_of_mem _ hr'))
          (Nat.succ.inj hlength) hnodup h
        rw [number_unit_cons_of_ne r rs hne]
        exact Int.mul_pos (by omega) hrest

/-- Later places weigh more. -/
theorem weight_pairwise {rs : List Int} (hrs : ∀ r ∈ rs, 2 ≤ r) {names : List α}
    (hlength : rs.length = names.length) (hnodup : names.Nodup) :
    names.Pairwise fun x y => number rs (unit names x) < number rs (unit names y) := by
  induction names generalizing rs with
  | nil => exact .nil
  | cons x names ih =>
    cases rs with
    | nil => cases hlength
    | cons r rs =>
      obtain ⟨hx, hnodup⟩ := List.nodup_cons.mp hnodup
      have hr := hrs r (List.mem_cons_self ..)
      have hrs' : ∀ r ∈ rs, 2 ≤ r := fun r' hr' => hrs r' (List.mem_cons_of_mem _ hr')
      have hlength' : rs.length = names.length := Nat.succ.inj hlength
      have hne : ∀ y ∈ names, x ≠ y := fun y hy hxy => hx (hxy ▸ hy)
      refine List.pairwise_cons.mpr ⟨fun y hy => ?_, ?_⟩
      · have hpos := number_unit_pos hrs' hlength' hnodup hy
        rw [number_unit_cons_self r rs hx, number_unit_cons_of_ne r rs (hne y hy)]
        have hmore := Int.mul_le_mul hr hpos (by decide) (by omega)
        omega
      · refine (ih hrs' hlength' hnodup).imp_of_mem fun {y z} hy hz hlt => ?_
        rw [number_unit_cons_of_ne r rs (hne y hy), number_unit_cons_of_ne r rs (hne z hz)]
        exact Int.mul_lt_mul_of_pos_left hlt (by omega)

/-- Weights tell which variables there are, and in which order. -/
theorem eq_of_weights {rs rs' : List Int} (hrs : ∀ r ∈ rs, 2 ≤ r) (hrs' : ∀ r ∈ rs', 2 ≤ r)
    {names names' : List α} (hlength : rs.length = names.length)
    (hlength' : rs'.length = names'.length) (hnodup : names.Nodup) (hnodup' : names'.Nodup)
    (hsub : ∀ x ∈ names', x ∈ names)
    (h : ∀ x ∈ names, number rs' (unit names' x) = number rs (unit names x)) : names' = names := by
  have hmem : ∀ x ∈ names, x ∈ names' := by
    intro x hx
    by_contra hnot
    have hpos := number_unit_pos hrs hlength hnodup hx
    rw [← h x hx, number_unit_of_not_mem rs' hnot] at hpos
    exact absurd hpos (by decide)
  have hperm : names'.Perm names :=
    (List.perm_ext_iff_of_nodup hnodup' hnodup).mpr fun x => ⟨hsub x, hmem x⟩
  have hgrow' : names'.Pairwise fun x y => number rs (unit names x) < number rs (unit names y) :=
    (weight_pairwise hrs' hlength' hnodup').imp_of_mem fun {x y} hx hy hlt => by
      rwa [h x (hsub x hx), h y (hsub y hy)] at hlt
  refine hperm.eq_of_pairwise (fun x y _ _ hxy hyx => ?_) hgrow'
    (weight_pairwise hrs hlength hnodup)
  exact absurd hxy (by omega)

end Weights

end Statechart.Dve

namespace Statechart.Trace

open Dve (digits number InRange)

/-! ## Numbers of edges -/

/-- The radices in which traces count: integers are from 0 to 7. -/
abbrev radices (bytes ints : Nat) : List Int := Dve.radicesOf (0, 7) bytes ints

theorem radices_eq (bytes ints : Nat) :
    radices bytes ints = List.replicate bytes 2 ++ List.replicate ints 8 := rfl

theorem radices_pos (bytes ints : Nat) : ∀ r ∈ radices bytes ints, 0 < r :=
  Dve.radicesOf_pos (by decide) bytes ints

theorem two_le_radices (bytes ints : Nat) : ∀ r ∈ radices bytes ints, 2 ≤ r := by
  intro r hr
  rcases Dve.mem_radicesOf hr with rfl | rfl
  · decide
  · decide

theorem radices_le_eight (bytes ints : Nat) : ∀ r ∈ radices bytes ints, r ≤ 8 := by
  intro r hr
  rcases Dve.mem_radicesOf hr with rfl | rfl
  · decide
  · decide

theorem prod_radices (bytes ints : Nat) :
    (radices bytes ints).prod = (edgeCount bytes ints : Int) := by
  rw [Dve.prod_radicesOf, edgeCount]
  push_cast
  rfl

theorem edgeCount_eq (bytes ints : Nat) : edgeCount bytes ints = 2 ^ (bytes + 3 * ints) := by
  show 8 ^ ints * 2 ^ bytes = 2 ^ (bytes + 3 * ints)
  rw [Nat.pow_add, Nat.pow_mul, Nat.mul_comm]

/-- A row of digits is assigned by the edge whose number has these digits. -/
theorem edgeValues_beq {bytes ints n : Nat} {ds : List Int} :
    (edgeValues bytes ints n == ds.map toString) = true ↔ digits (radices bytes ints) n = ds := by
  rw [beq_iff_eq]
  exact (List.map_injective_iff.mpr Text.toString_injective).eq_iff

theorem edgeOf?_digits {bytes ints : Nat} {ds : List Int} {n : Nat} :
    edgeOf? bytes ints (ds.map toString) = some n ↔
      InRange (radices bytes ints) ds ∧ number (radices bytes ints) ds = n := by
  have hpos := radices_pos bytes ints
  rw [edgeOf?, List.find?_range_eq_some, edgeValues_beq, List.mem_range]
  constructor
  · rintro ⟨rfl, hn, -⟩
    refine ⟨Dve.digits_inRange hpos n, Dve.number_digits hpos (by omega) ?_⟩
    rw [prod_radices]
    omega
  · rintro ⟨hrange, hn⟩
    have hbounds := Dve.number_bounds hrange
    rw [prod_radices, hn] at hbounds
    refine ⟨by rw [← hn, Dve.digits_number hrange], by omega, fun j hj => ?_⟩
    rw [Bool.not_eq_true', ← Bool.not_eq_true, edgeValues_beq]
    rintro rfl
    -- a smaller number with the same digits would be the same number
    rw [Dve.number_digits hpos (by omega) (by rw [prod_radices]; omega)] at hn
    omega

theorem edgeOf?_number {bytes ints : Nat} {ds : List Int} (h : InRange (radices bytes ints) ds) :
    edgeOf? bytes ints (ds.map toString) = some (number (radices bytes ints) ds).toNat :=
  edgeOf?_digits.mpr ⟨h, (Int.toNat_of_nonneg (Dve.number_bounds h).1).symm⟩

theorem stepsOf_first {bytes ints n : Nat} {row : List String}
    (h : edgeOf? bytes ints row = some n) (rows : List (List String)) :
    stepsOf bytes ints false (row :: rows) =
      (edgeCount bytes ints + 1) :: stepsOf bytes ints true rows := by
  simp only [stepsOf, h]

/-- Steps for rows of digits, after one row has been assigned. -/
theorem stepsOf_digits {bytes ints : Nat} {rows : List (List Int)}
    (h : ∀ ds ∈ rows, InRange (radices bytes ints) ds) :
    stepsOf bytes ints true (rows.map (·.map toString)) =
      rows.flatMap fun ds =>
        [(number (radices bytes ints) ds).toNat + 1, edgeCount bytes ints + 1] := by
  induction rows with
  | nil => rfl
  | cons ds rows ih =>
    have hedge := edgeOf?_number (h ds (List.mem_cons_self ..))
    have hrest := ih fun ds' hds' => h ds' (List.mem_cons_of_mem _ hds')
    simp only [List.map_cons, List.flatMap_cons, stepsOf, hedge, hrest]
    rfl

/-! ## Rows with a single 1 -/

/-- A row of 0 and 1 is assigned whatever the types are. -/
theorem inRange_bits {bytes ints : Nat} {ds : List Int} (hlength : ds.length = bytes + ints)
    (hds : ∀ d ∈ ds, 0 ≤ d ∧ d < 2) : InRange (radices bytes ints) ds := by
  have hbytes : InRange (List.replicate (ds.take bytes).length 2) (ds.take bytes) :=
    Dve.inRange_replicate fun d hd => hds d (List.mem_of_mem_take hd)
  have hints : InRange (List.replicate (ds.drop bytes).length 8) (ds.drop bytes) :=
    Dve.inRange_replicate fun d hd => by
      have hbit := hds d (List.mem_of_mem_drop hd)
      omega
  have hall := hbytes.append hints
  rwa [List.take_append_drop, List.length_take, List.length_drop, hlength,
    Nat.min_eq_left (by omega), Nat.add_sub_cancel_left] at hall

variable {α : Type} [DecidableEq α] {bytes ints bytes' ints' : Nat} {names names' : List α}
  {name : α}

theorem inRange_unit (hlength : names.length = bytes + ints) :
    InRange (radices bytes ints) (Dve.unit names name) := by
  refine inRange_bits (by rw [Dve.unit, List.length_map, hlength]) fun d hd => ?_
  obtain ⟨x, -, rfl⟩ := List.mem_map.mp hd
  split <;> decide

/-- Two rows: first 0 for all variables, then 1 for one of them. -/
def unitRows (names : List α) (name : α) : List (List String) :=
  [(names.map fun _ => (0 : Int)).map toString, (Dve.unit names name).map toString]

theorem stepsOf_unitRows (hlength : names.length = bytes + ints) :
    stepsOf bytes ints false (unitRows names name) =
      [edgeCount bytes ints + 1, (number (radices bytes ints) (Dve.unit names name)).toNat + 1,
        edgeCount bytes ints + 1] := by
  have hzeros : InRange (radices bytes ints) (names.map fun _ => 0) := by
    refine inRange_bits (by rw [List.length_map, hlength]) fun d hd => ?_
    obtain ⟨x, -, rfl⟩ := List.mem_map.mp hd
    decide
  have hunit : ∀ ds ∈ [Dve.unit names name], InRange (radices bytes ints) ds := by
    intro ds hds
    rw [List.mem_singleton.mp hds]
    exact inRange_unit hlength
  have hsteps := stepsOf_digits hunit
  rw [unitRows, stepsOf_first (edgeOf?_number hzeros)]
  exact congrArg _ hsteps

/-- Equal steps for these rows mean that the variable has the same weight. -/
theorem number_unit_of_steps (hlength : names.length = bytes + ints)
    (hlength' : names'.length = bytes' + ints')
    (h : stepsOf bytes' ints' false (unitRows names' name) =
      stepsOf bytes ints false (unitRows names name)) :
    edgeCount bytes' ints' = edgeCount bytes ints ∧
      number (radices bytes' ints') (Dve.unit names' name) =
        number (radices bytes ints) (Dve.unit names name) := by
  rw [stepsOf_unitRows hlength, stepsOf_unitRows hlength'] at h
  simp only [List.cons.injEq, Nat.add_right_cancel_iff, and_true] at h
  have hlow : 0 ≤ number (radices bytes ints) (Dve.unit names name) :=
    (Dve.number_bounds (inRange_unit hlength)).1
  have hlow' : 0 ≤ number (radices bytes' ints') (Dve.unit names' name) :=
    (Dve.number_bounds (inRange_unit hlength')).1
  exact ⟨h.1, by omega⟩

end Statechart.Trace
