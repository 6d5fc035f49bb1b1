import Statechart.Text.Numeral

/-!
Numerals of equally many plain digits. As texts they are ordered as their numbers are
(`readInt_lt_iff`); with different numbers of digits they need not be.
-/

namespace Statechart.Text

theorem isDigit_iff {c : Char} : c.isDigit = true ↔ 48 ≤ c.toNat ∧ c.toNat ≤ 57 := by
  simp only [Char.isDigit, Bool.and_eq_true, decide_eq_true_eq, ge_iff_le, UInt32.le_iff_toNat_le]
  exact Iff.rfl

theorem digitValue?_of_isDigit {c : Char} (h : c.isDigit = true) :
    digitValue? c = some (c.toNat - 48) := by
  have hrange := isDigit_iff.mp h
  simp [digitValue?, digitZeros, hrange]

theorem digitsFrom_cons {c : Char} (h : c.isDigit = true) (acc : Nat) (cs : List Char) :
    digitsFrom acc (c :: cs) = digitsFrom (acc * 10 + (c.toNat - 48)) cs := by
  have hc : c ≠ '_' := by
    rintro rfl
    cases h
  rw [digitsFrom]
  · rw [digitValue?_of_isDigit h, Option.bind_some]
  · exact fun heq _ => hc heq
  · exact fun _ _ heq _ => hc heq

/-- A number that is smaller so far stays smaller. -/
theorem digitsFrom_lt {ds es : List Char} (hds : ∀ c ∈ ds, c.isDigit = true)
    (hes : ∀ c ∈ es, c.isDigit = true) (hlen : ds.length = es.length) {a b m n : Nat}
    (hm : digitsFrom a ds = some m) (hn : digitsFrom b es = some n) (hab : a < b) : m < n := by
  induction ds generalizing es a b with
  | nil =>
    obtain rfl := List.eq_nil_of_length_eq_zero hlen.symm
    cases hm
    cases hn
    exact hab
  | cons c ds ih =>
    cases es with
    | nil => cases hlen
    | cons d es =>
      rw [List.forall_mem_cons] at hds hes
      rw [digitsFrom_cons hds.1] at hm
      rw [digitsFrom_cons hes.1] at hn
      have hc := isDigit_iff.mp hds.1
      have hd := isDigit_iff.mp hes.1
      exact ih hds.2 hes.2 (by simpa using hlen) hm hn (by omega)

theorem digitsFrom_lt_iff {ds es : List Char} (hds : ∀ c ∈ ds, c.isDigit = true)
    (hes : ∀ c ∈ es, c.isDigit = true) (hlen : ds.length = es.length) {a m n : Nat}
    (hm : digitsFrom a ds = some m) (hn : digitsFrom a es = some n) : ds < es ↔ m < n := by
  induction ds generalizing es a with
  | nil =>
    obtain rfl := List.eq_nil_of_length_eq_zero hlen.symm
    cases hm
    cases hn
    simp
  | cons c ds ih =>
    cases es with
    | nil => cases hlen
    | cons d es =>
      rw [List.forall_mem_cons] at hds hes
      rw [digitsFrom_cons hds.1] at hm
      rw [digitsFrom_cons hes.1] at hn
      have hc := isDigit_iff.mp hds.1
      have hd := isDigit_iff.mp hes.1
      have hrest : ds.length = es.length := by simpa using hlen
      rw [List.cons_lt_cons_iff]
      rcases Nat.lt_trichotomy c.toNat d.toNat with hlt | heq | hgt
      · have hless := digitsFrom_lt hds.2 hes.2 hrest hm hn (by omega)
        exact iff_of_true (.inl hlt) hless
      · obtain rfl : c = d := Char.toNat_inj.mp heq
        simpa [Char.lt_irrefl] using ih hds.2 hes.2 hrest hm hn
      · have hmore := digitsFrom_lt hes.2 hds.2 hrest.symm hn hm (by omega)
        refine iff_of_false ?_ (by omega)
        rintro (hlt | ⟨rfl, -⟩)
        · exact absurd hlt (Nat.lt_asymm hgt)
        · exact absurd hgt (Nat.lt_irrefl _)

theorem trimBy_eq_self {p : Char → Bool} {cs : List Char} (h : ∀ c ∈ cs, p c = false) :
    trimBy p cs = cs := by
  have hdrop : ∀ xs : List Char, (∀ c ∈ xs, p c = false) → xs.dropWhile p = xs := by
    intro xs hxs
    cases xs with
    | nil => rfl
    | cons x xs => simp [hxs x (List.mem_cons_self ..)]
  rw [trimBy, hdrop cs h, hdrop cs.reverse (by simpa using h), List.reverse_reverse]

/-- Plain digits are read as the number that they spell. -/
theorem readInt_digits {s : String} (hs : ∀ c ∈ s.toList, c.isDigit = true) {n : Int}
    (h : readInt s = some n) : ∃ m : Nat, digitsFrom 0 s.toList = some m ∧ n = m := by
  have hmargin : ∀ c ∈ s.toList, isMargin c = false := by
    intro c hc
    have hrange := isDigit_iff.mp (hs c hc)
    have hblank : isBlank c = false := by
      simp only [isBlank]
      simp
      omega
    simp [isMargin, hblank]
  unfold readInt at h
  rw [trimBy_eq_self hmargin] at h
  dsimp only at h
  split at h
  · cases h
  · cases hcs : s.toList with
    | nil =>
      rw [hcs] at h
      cases h
    | cons c cs =>
      have hc := hs c (by simp [hcs])
      rw [hcs] at h
      split at h
      · next heq =>
        cases heq
        cases hc
      · next heq =>
        cases heq
        cases hc
      · obtain ⟨m, hm, rfl⟩ := Option.map_eq_some_iff.mp h
        refine ⟨m, ?_, rfl⟩
        rw [digits?, digitValue?_of_isDigit hc] at hm
        simpa [digitsFrom_cons hc] using hm

/-- Numerals with equally many digits are ordered as their numbers are. -/
theorem readInt_lt_iff {s t : String} (hs : ∀ c ∈ s.toList, c.isDigit = true)
    (ht : ∀ c ∈ t.toList, c.isDigit = true) (hlen : s.toList.length = t.toList.length) {m n : Int}
    (hm : readInt s = some m) (hn : readInt t = some n) : s < t ↔ m < n := by
  obtain ⟨k, hk, rfl⟩ := readInt_digits hs hm
  obtain ⟨l, hl, rfl⟩ := readInt_digits ht hn
  rw [String.lt_iff, digitsFrom_lt_iff hs ht hlen hk hl]
  omega

end Statechart.Text
