import Mathlib.Data.List.Basic
import Mathlib.Data.List.DropRight
import Statechart.Text.Blank
import Statechart.Text.Search
import Statechart.Text.Word

/-!
Searching for words. A word has no blanks and no marks in it, so it occurs in a text that is cut
at a mark only if it occurs on one side of the cut (`infix_append_cons`). The first place of a
word does not move if text is added behind it (`before?_append`), and text in which it does not
occur moves it by its length (`before?_skip`). Text that is put behind a text comes behind the
blanks at its end, too (`trim_append`).
-/

namespace Statechart.Text

/-- A text of word characters only, with at least one. -/
def IsWord (w : List Char) : Prop := w ≠ [] ∧ ∀ c ∈ w, isWord c = true

instance (w : List Char) : Decidable (IsWord w) :=
  @instDecidableAnd _ _ _ (List.decidableBAll (isWord · = true) w)

theorem IsWord.not_mem {w : List Char} (hw : IsWord w) {c : Char} (hc : isWord c = false) :
    c ∉ w := by
  intro hmem
  rw [hw.2 c hmem] at hc
  cases hc

theorem isWord_of_range {c : Char} (low length : Nat)
    (hall : ∀ k < length, isWord (Char.ofNat (low + k)) = false) (hlow : low ≤ c.toNat)
    (hhigh : c.toNat < low + length) : isWord c = false := by
  have hc := hall (c.toNat - low) (by omega)
  rwa [Nat.add_sub_cancel' hlow, Char.ofNat_toNat] at hc

/-- No blank is a word character. -/
theorem isWord_of_isBlank {c : Char} (h : isBlank c = true) : isWord c = false := by
  simp only [isBlank, Bool.or_eq_true, Bool.and_eq_true, decide_eq_true_eq, beq_iff_eq] at h
  rcases h with (((((((((h | h) | h) | h) | h) | h) | h) | h) | h) | h) | h
  · exact isWord_of_range 9 5 (by decide +kernel) (by omega) (by omega)
  · exact isWord_of_range 28 5 (by decide +kernel) (by omega) (by omega)
  · exact isWord_of_range 133 1 (by decide +kernel) (by omega) (by omega)
  · exact isWord_of_range 160 1 (by decide +kernel) (by omega) (by omega)
  · exact isWord_of_range 5760 1 (by decide +kernel) (by omega) (by omega)
  · exact isWord_of_range 8192 11 (by decide +kernel) (by omega) (by omega)
  · exact isWord_of_range 8232 1 (by decide +kernel) (by omega) (by omega)
  · exact isWord_of_range 8233 1 (by decide +kernel) (by omega) (by omega)
  · exact isWord_of_range 8239 1 (by decide +kernel) (by omega) (by omega)
  · exact isWord_of_range 8287 1 (by decide +kernel) (by omega) (by omega)
  · exact isWord_of_range 12288 1 (by decide +kernel) (by omega) (by omega)

theorem IsWord.not_blank {w : List Char} (hw : IsWord w) {c : Char} (hc : c ∈ w) :
    isBlank c = false := by
  by_contra h
  have hblank : isBlank c = true := by simpa using h
  exact hw.not_mem (isWord_of_isBlank hblank) hc

theorem isWord_of_isDigit {c : Char} (h : c.isDigit = true) : isWord c = true := by
  have hsmall : c.toNat < 128 := by
    simp only [Char.isDigit, Bool.and_eq_true, decide_eq_true_eq] at h
    have hle := UInt32.le_iff_toNat_le.mp h.2
    exact Nat.lt_of_le_of_lt hle (by decide)
  exact isWord_of_isAlphanum (by simp [Char.isAlphanum, h]) hsmall

theorem isDigit_of_mem_repr {n : Nat} {c : Char} (hc : c ∈ n.repr.toList) : c.isDigit = true := by
  rw [Nat.toList_repr] at hc
  exact Nat.isDigit_of_mem_toDigits (by decide) (by decide) hc

/-- A number is a word. -/
theorem isWord_repr (n : Nat) : IsWord n.repr.toList := by
  constructor
  · rw [Nat.toList_repr]
    exact Nat.toDigits_ne_nil
  · intro c hc
    exact isWord_of_isDigit (isDigit_of_mem_repr hc)

theorem natRepr_injective : Function.Injective Nat.repr := by
  intro m n h
  have hdigits := congrArg (fun s => Nat.ofDigitChars 10 s.toList 0) h
  simpa only [Nat.toList_repr, Nat.ofDigitChars_ten_toDigits] using hdigits

/-- Numbers with one text are one number. -/
theorem toString_injective : Function.Injective (toString : Int → String) := by
  have hsign (m n : Nat) : m.repr ≠ "-" ++ (n + 1).repr := by
    intro h
    have hmem : '-' ∈ m.repr.toList := by simp [h]
    exact absurd (isDigit_of_mem_repr hmem) (by decide)
  intro a b h
  cases a with
  | ofNat m =>
    cases b with
    | ofNat n => exact congrArg Int.ofNat (natRepr_injective h)
    | negSucc n => exact absurd h (hsign m n)
  | negSucc m =>
    cases b with
    | ofNat n => exact absurd h.symm (hsign n m)
    | negSucc n =>
      have hsucc := natRepr_injective ((String.append_right_inj "-").mp h)
      rw [Nat.succ.inj hsucc]

/-! ## Occurrences -/

theorem prefix_of_prefix_append_cons {p : List Char} {c : Char} (hc : c ∉ p) (xs ys : List Char)
    (h : p <+: xs ++ c :: ys) : p <+: xs := by
  induction xs generalizing p with
  | nil =>
    cases p with
    | nil => exact List.nil_prefix
    | cons d p =>
      obtain ⟨rfl, -⟩ := List.cons_prefix_cons.mp h
      exact absurd (List.mem_cons_self ..) hc
  | cons x xs ih =>
    cases p with
    | nil => exact List.nil_prefix
    | cons d p =>
      rw [List.cons_append, List.cons_prefix_cons] at h
      have hrest := ih (fun hmem => hc (List.mem_cons_of_mem _ hmem)) h.2
      exact List.cons_prefix_cons.mpr ⟨h.1, hrest⟩

/-- A place of what has no mark in it is in front of the mark or behind it. -/
theorem place_append_cons {p : List Char} {c : Char} (hc : c ∉ p) (b xs ys : List Char)
    (h : b ++ p <+: xs ++ c :: ys) :
    b ++ p <+: xs ∨ ∃ b', b = xs ++ c :: b' ∧ b' ++ p <+: ys := by
  induction xs generalizing b with
  | nil =>
    cases b with
    | nil => exact .inl (prefix_of_prefix_append_cons hc [] ys h)
    | cons x b =>
      rw [List.cons_append, List.nil_append, List.cons_prefix_cons] at h
      exact .inr ⟨b, by rw [h.1]; rfl, h.2⟩
  | cons x xs ih =>
    cases b with
    | nil => exact .inl (prefix_of_prefix_append_cons hc (x :: xs) ys h)
    | cons d b =>
      rw [List.cons_append, List.cons_append, List.cons_prefix_cons] at h
      rcases ih b h.2 with hleft | ⟨b', rfl, hright⟩
      · exact .inl (List.cons_prefix_cons.mpr ⟨h.1, hleft⟩)
      · exact .inr ⟨b', by rw [h.1]; rfl, hright⟩

/-- What has no mark in it occurs on one side of the mark. -/
theorem infix_append_cons {p xs ys : List Char} {c : Char} (hc : c ∉ p) :
    p <:+: xs ++ c :: ys ↔ p <:+: xs ∨ p <:+: ys := by
  constructor
  · intro h
    induction xs with
    | nil =>
      rcases List.infix_cons_iff.mp h with h | h
      · have hp := prefix_of_prefix_append_cons hc [] ys h
        exact .inl hp.isInfix
      · exact .inr h
    | cons x xs ih =>
      rcases List.infix_cons_iff.mp h with h | h
      · have hp := prefix_of_prefix_append_cons hc (x :: xs) ys h
        exact .inl hp.isInfix
      · rcases ih h with h | h
        · exact .inl (List.infix_cons h)
        · exact .inr h
  · rintro (h | h)
    · exact h.trans (List.prefix_append ..).isInfix
    · exact h.trans ((List.suffix_cons ..).trans (List.suffix_append ..)).isInfix

/-! ## First places -/

theorem before?_eq_none {p xs : List Char} : before? p xs = none ↔ ¬ p <:+: xs := by
  induction xs with
  | nil => simp [before?]
  | cons x xs ih =>
    rw [before?, List.infix_cons_iff, not_or, ← ih, ← List.isPrefixOf_iff_prefix]
    split
    · simp_all
    · simp_all

theorem exists_before? {p xs : List Char} (h : p <:+: xs) : ∃ b, before? p xs = some b := by
  cases hb : before? p xs with
  | none => exact absurd h (before?_eq_none.mp hb)
  | some b => exact ⟨b, rfl⟩

theorem before?_occurs {p xs b : List Char} (h : before? p xs = some b) : b ++ p <+: xs := by
  induction xs generalizing b with
  | nil =>
    simp only [before?, List.isEmpty_iff] at h
    split at h
    · next hp =>
      cases h
      simp [hp]
    · cases h
  | cons x xs ih =>
    rw [before?] at h
    split at h
    · next hp =>
      cases h
      exact List.isPrefixOf_iff_prefix.mp hp
    · obtain ⟨b, hb, rfl⟩ := Option.map_eq_some_iff.mp h
      exact List.cons_prefix_cons.mpr ⟨rfl, ih hb⟩

theorem before?_append {p xs b : List Char} (h : before? p xs = some b) (ys : List Char) :
    before? p (xs ++ ys) = some b := by
  induction xs generalizing b with
  | nil =>
    simp only [before?, List.isEmpty_iff] at h
    split at h
    · next hp =>
      cases h
      subst hp
      cases ys <;> simp [before?]
    · cases h
  | cons x xs ih =>
    rw [before?] at h
    rw [List.cons_append, before?]
    split at h
    · next hp =>
      have hlonger : p <+: x :: (xs ++ ys) :=
        (List.isPrefixOf_iff_prefix.mp hp).trans (List.prefix_append (x :: xs) ys)
      rw [if_pos (List.isPrefixOf_iff_prefix.mpr hlonger)]
      exact h
    · next hp =>
      obtain ⟨b', hb, rfl⟩ := Option.map_eq_some_iff.mp h
      -- the part fits into the text, so a match at the front does not need what is added
      have hfits : p.length ≤ (x :: xs).length := by
        have hlength := (before?_occurs hb).length_le
        simp only [List.length_append] at hlength
        simp only [List.length_cons]
        omega
      have hnot : ¬ p.isPrefixOf (x :: (xs ++ ys)) = true := by
        intro hlonger
        have hprefix : p <+: (x :: xs) ++ ys := List.isPrefixOf_iff_prefix.mp hlonger
        have hshort := List.prefix_of_prefix_length_le hprefix (List.prefix_append ..) hfits
        exact hp (List.isPrefixOf_iff_prefix.mpr hshort)
      rw [if_neg hnot, ih hb]
      rfl

theorem before?_skip {p xs : List Char} {c : Char} (hp : p ≠ []) (hc : c ∉ p) (h : ¬ p <:+: xs)
    (ys : List Char) :
    before? p (xs ++ c :: ys) = (before? p ys).map (fun b => xs ++ c :: b) := by
  induction xs with
  | nil =>
    have hnot : ¬ p.isPrefixOf (c :: ys) = true := by
      intro hprefix
      have hnil := prefix_of_prefix_append_cons hc [] ys (List.isPrefixOf_iff_prefix.mp hprefix)
      exact hp (List.prefix_nil.mp hnil)
    rw [List.nil_append, before?, if_neg hnot]
    rfl
  | cons x xs ih =>
    have hnot : ¬ p.isPrefixOf (x :: (xs ++ c :: ys)) = true := by
      intro hprefix
      have hshort := prefix_of_prefix_append_cons hc (x :: xs) ys
        (List.isPrefixOf_iff_prefix.mp hprefix)
      exact h hshort.isInfix
    rw [List.cons_append, before?, if_neg hnot, ih fun hinfix => h (List.infix_cons hinfix),
      Option.map_map]
    rfl

/-- What a text starts with does not occur later than the text. -/
theorem before?_le_of_start {p q xs b : List Char} (hpq : p <+: q) (h : before? q xs = some b) :
    ∃ a, before? p xs = some a ∧ a.length ≤ b.length := by
  induction xs generalizing b with
  | nil =>
    simp only [before?, List.isEmpty_iff] at h
    split at h
    · next hq =>
      subst hq
      rw [List.prefix_nil.mp hpq]
      exact ⟨[], rfl, Nat.zero_le _⟩
    · cases h
  | cons x xs ih =>
    rw [before?] at h ⊢
    by_cases hp : p.isPrefixOf (x :: xs) = true
    · exact ⟨[], if_pos hp, Nat.zero_le _⟩
    · have hq : ¬ q.isPrefixOf (x :: xs) = true := by
        intro hq
        exact hp (List.isPrefixOf_iff_prefix.mpr (hpq.trans (List.isPrefixOf_iff_prefix.mp hq)))
      rw [if_neg hq] at h
      obtain ⟨b', hb, rfl⟩ := Option.map_eq_some_iff.mp h
      obtain ⟨a, ha, hle⟩ := ih hb
      refine ⟨x :: a, ?_, Nat.succ_le_succ hle⟩
      rw [if_neg hp, ha]
      rfl

/-! ## Last places -/

theorem beforeLast?_eq_none {p xs : List Char} : beforeLast? p xs = none ↔ ¬ p <:+: xs := by
  induction xs with
  | nil => simp [beforeLast?]
  | cons x xs ih =>
    rw [beforeLast?, List.infix_cons_iff, not_or, ← ih, ← List.isPrefixOf_iff_prefix]
    cases beforeLast? p xs <;> simp

theorem exists_beforeLast? {p xs : List Char} (h : p <:+: xs) :
    ∃ b, beforeLast? p xs = some b := by
  cases hb : beforeLast? p xs with
  | none => exact absurd h (beforeLast?_eq_none.mp hb)
  | some b => exact ⟨b, rfl⟩

theorem beforeLast?_occurs {p xs b : List Char} (h : beforeLast? p xs = some b) :
    b ++ p <+: xs := by
  induction xs generalizing b with
  | nil =>
    simp only [beforeLast?, List.isEmpty_iff] at h
    split at h
    · next hp =>
      cases h
      simp [hp]
    · cases h
  | cons x xs ih =>
    rw [beforeLast?] at h
    split at h
    · next b' hb =>
      cases h
      exact List.cons_prefix_cons.mpr ⟨rfl, ih hb⟩
    · split at h
      · next hp =>
        cases h
        exact List.isPrefixOf_iff_prefix.mp hp
      · cases h

theorem beforeLast?_append {p ys b : List Char} (h : beforeLast? p ys = some b) (xs : List Char) :
    beforeLast? p (xs ++ ys) = some (xs ++ b) := by
  induction xs with
  | nil => exact h
  | cons x xs ih => rw [List.cons_append, beforeLast?, ih, List.cons_append]

/-- A word that ends at a mark does not occur again before it. -/
theorem beforeLast?_word {w : List Char} (hw : w ≠ []) {c : Char} (hc : c ∉ w) :
    beforeLast? w (w ++ [c]) = some [] := by
  cases w with
  | nil => exact absurd rfl hw
  | cons x w =>
    have hnone : beforeLast? (x :: w) (w ++ [c]) = none := by
      rw [beforeLast?_eq_none, infix_append_cons hc]
      rintro (h | h)
      · have hlength := h.length_le
        simp only [List.length_cons] at hlength
        omega
      · exact absurd (List.infix_nil.mp h) hw
    have hprefix : (x :: w).isPrefixOf (x :: (w ++ [c])) = true :=
      List.isPrefixOf_iff_prefix.mpr (List.prefix_append (x :: w) [c])
    rw [List.cons_append, beforeLast?, hnone]
    exact if_pos hprefix

/-! ## Lines -/

theorem linesFrom_append {l : List Char} (hl : '\n' ∉ l) (line rest : List Char) :
    linesFrom line (l ++ '\n' :: rest) = (line.reverse ++ l ++ ['\n']) :: linesFrom [] rest := by
  induction l generalizing line with
  | nil => simp [linesFrom]
  | cons c l ih =>
    have hc : c ≠ '\n' := fun h => hl (h ▸ List.mem_cons_self ..)
    have hrest := ih (fun h => hl (List.mem_cons_of_mem _ h)) (c :: line)
    rw [List.cons_append, linesFrom, hrest]
    · simp
    · exact hc

theorem lines_append {l : List Char} (hl : '\n' ∉ l) (rest : List Char) :
    lines (l ++ '\n' :: rest) = (l ++ ['\n']) :: lines rest :=
  linesFrom_append hl [] rest

/-- One character of a text whose line ends become one kind. -/
def unifyStep (acc : List Char × Bool) (c : Char) : List Char × Bool :=
  if c == '\r' then ('\n' :: acc.1, true)
  else if c == '\n' && acc.2 then (acc.1, false)
  else (c :: acc.1, false)

theorem unifyLines_eq (cs : List Char) :
    unifyLines cs = (cs.foldl unifyStep ([], false)).1.reverse := rfl

theorem foldl_unifyStep_of_not_mem {xs : List Char} (h : '\r' ∉ xs) (acc : List Char) :
    xs.foldl unifyStep (acc, false) = (xs.reverse ++ acc, false) := by
  induction xs generalizing acc with
  | nil => rfl
  | cons x xs ih =>
    have hx : x ≠ '\r' := fun hx => h (hx ▸ List.mem_cons_self ..)
    have hstep : unifyStep (acc, false) x = (x :: acc, false) := by simp [unifyStep, hx]
    rw [List.foldl_cons, hstep, ih (fun hmem => h (List.mem_cons_of_mem _ hmem))]
    simp

/-- What was read before stays behind what is read next. -/
theorem foldl_unifyStep_acc (ys acc : List Char) (b : Bool) :
    (ys.foldl unifyStep (acc, b)).1 = (ys.foldl unifyStep ([], b)).1 ++ acc := by
  induction ys generalizing acc b with
  | nil => rfl
  | cons y ys ih =>
    obtain ⟨new, b', hstep⟩ : ∃ new b', ∀ acc, unifyStep (acc, b) y = (new ++ acc, b') := by
      by_cases hreturn : y = '\r'
      · exact ⟨['\n'], true, fun acc => by simp [unifyStep, hreturn]⟩
      · by_cases hend : (y == '\n' && b) = true
        · exact ⟨[], false, fun acc => by simp [unifyStep, hreturn, hend]⟩
        · exact ⟨[y], false, fun acc => by simp [unifyStep, hreturn, hend]⟩
    rw [List.foldl_cons, List.foldl_cons, hstep, hstep, ih, ih (new ++ []), List.append_nil,
      List.append_assoc]

/-- Line ends of other kinds change nothing in front of them. -/
theorem unifyLines_append {xs : List Char} (h : '\r' ∉ xs) (ys : List Char) :
    unifyLines (xs ++ ys) = xs ++ unifyLines ys := by
  rw [unifyLines_eq, unifyLines_eq, List.foldl_append, foldl_unifyStep_of_not_mem h,
    foldl_unifyStep_acc]
  simp

/-! ## Blank ends -/

theorem dropWhile_of_head {xs : List Char} (hfirst : ∀ c ∈ xs.head?, isBlank c = false) :
    xs.dropWhile isBlank = xs := by
  cases xs with
  | nil => rfl
  | cons x xs => simp [hfirst x rfl]

theorem trim_concat {xs : List Char} (hfirst : ∀ c ∈ xs.head?, isBlank c = false)
    (hlast : ∀ c ∈ xs.getLast?, isBlank c = false) {c : Char} (hc : isBlank c = true) :
    trim (xs ++ [c]) = xs := by
  have hback : xs.reverse.dropWhile isBlank = xs.reverse :=
    dropWhile_of_head (by rwa [List.head?_reverse])
  cases xs with
  | nil => simp [trim, trimBy, hc]
  | cons x xs =>
    have hfront : ((x :: xs) ++ [c]).dropWhile isBlank = (x :: xs) ++ [c] :=
      dropWhile_of_head (by simpa using hfirst)
    rw [trim, trimBy, hfront, List.reverse_append, List.reverse_singleton, List.singleton_append,
      List.dropWhile_cons_of_pos hc, hback, List.reverse_reverse]

theorem trim_eq_self {xs : List Char} (hfirst : ∀ c ∈ xs.head?, isBlank c = false)
    (hlast : ∀ c ∈ xs.getLast?, isBlank c = false) : trim xs = xs := by
  have hback : xs.reverse.dropWhile isBlank = xs.reverse :=
    dropWhile_of_head (by rwa [List.head?_reverse])
  rw [trim, trimBy, dropWhile_of_head hfirst, hback, List.reverse_reverse]

theorem trim_eq (cs : List Char) : trim cs = (cs.dropWhile isBlank).rdropWhile isBlank := rfl

theorem trim_eq_nil {cs : List Char} : trim cs = [] ↔ ∀ c ∈ cs, isBlank c = true := by
  rw [trim_eq, List.rdropWhile_eq_nil_iff]
  constructor
  · intro h c hc
    rw [← List.takeWhile_append_dropWhile (p := isBlank) (l := cs), List.mem_append] at hc
    rcases hc with hc | hc
    · exact List.mem_takeWhile_imp hc
    · exact h c hc
  · intro h c hc
    exact h c ((List.dropWhile_sublist _).mem hc)

theorem getLast?_rdropWhile (cs : List Char) :
    ∀ c ∈ (cs.rdropWhile isBlank).getLast?, isBlank c = false := by
  intro c hc
  rw [List.rdropWhile, List.getLast?_reverse] at hc
  have hnot := List.head?_dropWhile_not isBlank cs.reverse
  rwa [Option.mem_def.mp hc] at hnot

theorem rdropWhile_of_getLast? {xs : List Char} (hlast : ∀ c ∈ xs.getLast?, isBlank c = false) :
    xs.rdropWhile isBlank = xs := by
  rw [List.rdropWhile, dropWhile_of_head (by rwa [List.head?_reverse]), List.reverse_reverse]

/-- Text that ends in no blank keeps what stands in front of it. -/
theorem rdropWhile_append {xs : List Char} (hlast : ∀ c ∈ xs.getLast?, isBlank c = false)
    (ys : List Char) : (xs ++ ys).rdropWhile isBlank = xs ++ ys.rdropWhile isBlank := by
  have hback : xs.reverse.dropWhile isBlank = xs.reverse :=
    dropWhile_of_head (by rwa [List.head?_reverse])
  rw [List.rdropWhile, List.rdropWhile, List.reverse_append, List.dropWhile_append]
  split
  · next hempty => simp [List.isEmpty_iff.mp hempty, hback]
  · rw [List.reverse_append, List.reverse_reverse]

theorem rtakeWhile_append {ys : List Char} (hys : trim ys ≠ []) (xs : List Char) :
    (xs ++ ys).rtakeWhile isBlank = ys.rtakeWhile isBlank := by
  rw [List.rtakeWhile, List.rtakeWhile, List.reverse_append, List.takeWhile_append]
  split
  · next hlength =>
    refine absurd (trim_eq_nil.mpr fun c hc => ?_) hys
    have hall := (List.takeWhile_prefix (l := ys.reverse) isBlank).eq_of_length hlength
    rw [← List.mem_reverse, ← hall] at hc
    exact List.mem_takeWhile_imp hc
  · rfl

/-- Blanks at the end of a text do not count. -/
theorem trim_rdropWhile (cs : List Char) : trim (cs.rdropWhile isBlank) = trim cs := by
  have hblank : ∀ c ∈ cs.rtakeWhile isBlank, isBlank c = true := fun c => List.mem_rtakeWhile_imp
  have hreverse : ∀ c ∈ (cs.rtakeWhile isBlank).reverse, isBlank c = true := fun c hc =>
    hblank c (List.mem_reverse.mp hc)
  nth_rewrite 2 [← List.rdropWhile_append_rtakeWhile (p := isBlank) (l := cs)]
  rw [trim_eq, trim_eq, List.dropWhile_append]
  split
  · next hempty => rw [List.isEmpty_iff.mp hempty, List.dropWhile_eq_nil_iff.mpr hblank]
  · generalize (cs.rdropWhile isBlank).dropWhile isBlank = front
    rw [List.rdropWhile, List.rdropWhile, List.reverse_append,
      List.dropWhile_append_of_pos hreverse]

/-- Text that ends in no blank is put behind a text and the blanks at its end. -/
theorem trim_append {xs ys : List Char} (hxs : trim xs ≠ []) (hys : ys ≠ [])
    (hlast : ∀ c ∈ ys.getLast?, isBlank c = false) :
    trim (xs ++ ys) = trim xs ++ (xs.rtakeWhile isBlank ++ ys) := by
  have hne : ¬ (xs.dropWhile isBlank).isEmpty = true := by
    intro hempty
    rw [trim_eq, List.isEmpty_iff.mp hempty] at hxs
    exact hxs rfl
  have hfront : trim (xs.dropWhile isBlank) = trim xs := by
    rw [trim_eq, trim_eq, List.dropWhile_idempotent]
  have hending : (xs.dropWhile isBlank).rtakeWhile isBlank = xs.rtakeWhile isBlank := by
    rw [← rtakeWhile_append (hfront.symm ▸ hxs) (xs.takeWhile isBlank),
      List.takeWhile_append_dropWhile]
  rw [trim_eq, List.dropWhile_append, if_neg hne, rdropWhile_of_getLast?, trim_eq, ← hending,
    ← List.append_assoc, List.rdropWhile_append_rtakeWhile]
  rwa [List.getLast?_append_of_ne_nil _ hys]

/-! ## Words between blanks -/

theorem wordsFrom_append {w : List Char} (hw : ∀ c ∈ w, isBlank c = false) (run rest : List Char) :
    wordsFrom run (w ++ rest) = wordsFrom (w.reverse ++ run) rest := by
  induction w generalizing run with
  | nil => rfl
  | cons c w ih =>
    have hc := hw c (List.mem_cons_self ..)
    rw [List.cons_append, wordsFrom, if_neg (by simp [hc]),
      ih (fun d hd => hw d (List.mem_cons_of_mem _ hd))]
    simp

theorem wordsFrom_word {w rest : List Char} (hne : w ≠ []) (hw : ∀ c ∈ w, isBlank c = false)
    (hrest : ∀ c ∈ rest.head?, isBlank c = true) :
    wordsFrom [] (w ++ rest) = String.ofList w :: wordsFrom [] rest := by
  rw [wordsFrom_append hw, List.append_nil]
  cases rest with
  | nil => simp [wordsFrom, hne]
  | cons c rest => simp [wordsFrom, hrest c rfl, hne]

theorem wordsFrom_skip {b : List Char} (hb : ∀ c ∈ b, isBlank c = true) (rest : List Char) :
    wordsFrom [] (b ++ rest) = wordsFrom [] rest := by
  induction b with
  | nil => rfl
  | cons c b ih =>
    obtain ⟨hc, hb⟩ := List.forall_mem_cons.mp hb
    rw [List.cons_append, wordsFrom, if_pos hc]
    exact ih hb

/-- All words of a text are in front of the blanks at its end. -/
theorem wordsFrom_append_blanks {b : List Char} (hb : ∀ c ∈ b, isBlank c = true)
    (run cs : List Char) : wordsFrom run (cs ++ b) = wordsFrom run cs := by
  induction cs generalizing run with
  | nil =>
    cases b with
    | nil => rfl
    | cons c b =>
      obtain ⟨hc, hb⟩ := List.forall_mem_cons.mp hb
      have hnone := wordsFrom_skip hb []
      rw [List.append_nil] at hnone
      show (if isBlank c then _ else _) = _
      rw [if_pos hc, hnone]
      rfl
  | cons c cs ih =>
    rw [List.cons_append, wordsFrom, wordsFrom, ih, ih]

/-- Words that are written with single blanks between them are read back. -/
theorem words_intercalate {ws : List String} (h : ∀ w ∈ ws, IsWord w.toList) :
    words (" ".intercalate ws) = ws := by
  have hblank : isBlank ' ' = true := by decide
  unfold words
  induction ws with
  | nil => rfl
  | cons w ws ih =>
    have hw := h w (List.mem_cons_self ..)
    have hchars : ∀ c ∈ w.toList, isBlank c = false := fun c hc => hw.not_blank hc
    have hne : w.toList.reverse.isEmpty = false := by simpa using hw.1
    cases ws with
    | nil =>
      have hall := wordsFrom_append hchars [] []
      rw [List.append_nil, List.append_nil] at hall
      rw [String.intercalate_singleton, hall, wordsFrom, hne]
      simp
    | cons v ws =>
      have hrest := ih (fun u hu => h u (List.mem_cons_of_mem _ hu))
      rw [String.intercalate_cons_cons, String.toList_append, String.toList_append,
        List.append_assoc, wordsFrom_append hchars, List.append_nil]
      show wordsFrom w.toList.reverse (' ' :: (" ".intercalate (v :: ws)).toList) = _
      rw [wordsFrom, if_pos hblank, hne, hrest]
      simp

end Statechart.Text
