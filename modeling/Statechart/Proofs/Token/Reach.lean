import Mathlib.Data.List.TakeWhile
import Statechart.Proofs.Token.Append

/-!
How far a lexer has come in a text. `Lexer.Reaches` leads from a text to a rest of it, with the
tokens and the line ends in between; the place of a token in a scan is such a rest (`at_scanFrom`),
and so is the place where a scan ends (`reaches_scanFrom`). What stands at the place may be
exchanged without a change to what is in front of it, if no match goes on into the new rest and no
comment is open (`Reaches.switch`). A reader that fails at one of the tokens fails on the text
(`Refuses.run`).
-/

namespace Statechart

variable {κ : Type}

namespace Lexer

variable {lx : Lexer κ}

/-- From the text the lexer comes to the rest, with the tokens and the number of counted line ends
in between. -/
inductive Reaches (lx : Lexer κ) : List Char → List (κ × String) → Nat → List Char → Prop
  | done (y : List Char) : Reaches lx y [] 0 y
  | skip {c cs ts n y} : lx.skipped c = true → Reaches lx cs ts n y → Reaches lx (c :: cs) ts n y
  | drop {c cs m ts n y} : lx.skipped c = false → lx.match? (c :: cs) = some m → m.kind? = none →
      Reaches lx ((c :: cs).drop m.text.length) ts n y → Reaches lx (c :: cs) ts (m.lines + n) y
  | keep {c cs m k ts n y} : lx.skipped c = false → lx.match? (c :: cs) = some m →
      m.kind? = some k → Reaches lx ((c :: cs).drop m.text.length) ts n y →
      Reaches lx (c :: cs) ((k, String.ofList m.text) :: ts) (m.lines + n) y

/-- What is reached is cut as it stands. -/
theorem Reaches.cuts {x y : List Char} {ts us : List (κ × String)} {n : Nat}
    {rest : Option (List Char)} (h : lx.Reaches x ts n y) (hy : lx.Cuts y us rest) :
    lx.Cuts x (ts ++ us) rest := by
  induction h with
  | done => exact hy
  | skip hs _ ih => exact .skip hs (ih hy)
  | drop hs hm hk _ ih => exact .drop hs hm hk (ih hy)
  | keep hs hm hk _ ih => exact .keep hs hm hk (ih hy)

theorem Reaches.trans {x y z : List Char} {ts us : List (κ × String)} {n n' : Nat}
    (h : lx.Reaches x ts n y) (h' : lx.Reaches y us n' z) :
    lx.Reaches x (ts ++ us) (n + n') z := by
  induction h with
  | done =>
    rw [Nat.zero_add]
    exact h'
  | skip hs _ ih => exact .skip hs (ih h')
  | drop hs hm hk _ ih =>
    rw [Nat.add_assoc]
    exact .drop hs hm hk (ih h')
  | keep hs hm hk _ ih =>
    rw [Nat.add_assoc]
    exact .keep hs hm hk (ih h')

/-- A match takes characters from the front. -/
theorem length_drop_lt {c : Char} {cs : List Char} {m : Match κ}
    (hm : lx.match? (c :: cs) = some m) :
    ((c :: cs).drop m.text.length).length < (c :: cs).length := by
  obtain ⟨tail, htext, -⟩ := match?_text hm
  rw [List.length_drop, htext, List.length_cons, List.length_cons]
  omega

theorem append_drop {c : Char} {cs : List Char} {m : Match κ}
    (hm : lx.match? (c :: cs) = some m) : m.text ++ (c :: cs).drop m.text.length = c :: cs := by
  obtain ⟨tail, htext, hprefix⟩ := match?_text hm
  rw [htext]
  exact List.prefix_iff_eq_append.mp ((List.prefix_cons_inj c).mpr hprefix)

theorem Reaches.suffix {x y : List Char} {ts : List (κ × String)} {n : Nat}
    (h : lx.Reaches x ts n y) : y <:+ x := by
  induction h with
  | done y => exact List.suffix_refl y
  | skip _ _ ih => exact ih.trans (List.suffix_cons ..)
  | drop _ _ _ _ ih | keep _ _ _ _ ih => exact ih.trans (List.drop_suffix ..)

theorem Reaches.eq_nil {y : List Char} {ts : List (κ × String)} {n : Nat}
    (h : lx.Reaches y ts n y) : ts = [] := by
  generalize hw : y = w at h
  cases h with
  | done => rfl
  | skip _ h =>
    subst hw
    exact absurd h.suffix.length_le (Nat.not_succ_le_self _)
  | drop _ hm _ h | keep _ hm _ h =>
    subst hw
    exact absurd h.suffix.length_le (Nat.not_le.mpr (length_drop_lt hm))

/-! ## Places in a scan -/

/-- Passing over characters, which count as places. -/
theorem scanFrom_drop (lx : Lexer κ) (skip line offset : Nat) (cs : List Char) :
    lx.scanFrom skip line offset cs = lx.scanFrom 0 line (offset + skip) (cs.drop skip) := by
  induction cs generalizing skip offset with
  | nil => cases skip <;> rfl
  | cons c cs ih =>
    cases skip with
    | zero => rfl
    | succ skip =>
      rw [scanFrom, ih, List.drop_succ_cons, Nat.add_assoc, Nat.add_comm 1]

/-- The place of the token is where the rest starts, and the token is what is matched there. -/
structure At (lx : Lexer κ) (line offset : Nat) (cs : List Char) (ts : List (κ × String))
    (t : Token κ) (y : List Char) : Prop where
  offset : offset + cs.length = t.offset + y.length
  reaches : ∃ n, lx.Reaches cs ts n y ∧ t.line = line + n
  found : ∃ m, lx.match? y = some m ∧ m.kind? = some t.kind ∧ t.text = String.ofList m.text ∧
    t.next = t.line + m.lines
  fresh : y.head?.all lx.skipped = false

theorem scanFrom_rest {line offset : Nat} {c : Char} {cs : List Char} {m : Match κ}
    (hm : lx.match? (c :: cs) = some m) :
    lx.scanFrom (m.text.length - 1) line (offset + 1) cs =
      lx.scanFrom 0 line (offset + m.text.length) ((c :: cs).drop m.text.length) := by
  obtain ⟨tail, htext, -⟩ := match?_text hm
  rw [scanFrom_drop, htext, List.length_cons, Nat.add_sub_cancel, Nat.add_assoc, Nat.add_comm 1,
    List.drop_succ_cons]

/-- A match that is not kept. -/
theorem scanFrom_dropped {line offset : Nat} {c : Char} {cs : List Char} {m : Match κ}
    (hs : lx.skipped c = false) (hm : lx.match? (c :: cs) = some m) (hk : m.kind? = none) :
    lx.scanFrom 0 line offset (c :: cs) =
      lx.scanFrom 0 (line + m.lines) (offset + m.text.length)
        ((c :: cs).drop m.text.length) := by
  rw [scanFrom, hs, hm, ← scanFrom_rest hm]
  simp only [hk, Bool.false_eq_true, if_false]

theorem scanFrom_kept {line offset : Nat} {c : Char} {cs : List Char} {m : Match κ} {k : κ}
    (hs : lx.skipped c = false) (hm : lx.match? (c :: cs) = some m) (hk : m.kind? = some k) :
    lx.scanFrom 0 line offset (c :: cs) =
      (lx.scanFrom 0 (line + m.lines) (offset + m.text.length)
        ((c :: cs).drop m.text.length)).cons
        ⟨k, String.ofList m.text, line, offset, line + m.lines⟩ := by
  rw [scanFrom, hs, hm, ← scanFrom_rest hm]
  simp only [hk, Bool.false_eq_true, if_false]

theorem scanFrom_skipped {line offset : Nat} {c : Char} {cs : List Char}
    (hs : lx.skipped c = true) :
    lx.scanFrom 0 line offset (c :: cs) = lx.scanFrom 0 line (offset + 1) cs := by
  rw [scanFrom, hs]
  rfl

theorem At.skip {line offset : Nat} {c : Char} {cs : List Char} {ts : List (κ × String)}
    {t : Token κ} {y : List Char} (hs : lx.skipped c = true)
    (h : lx.At line (offset + 1) cs ts t y) : lx.At line offset (c :: cs) ts t y := by
  obtain ⟨n, hreaches, hline⟩ := h.reaches
  refine ⟨?_, ⟨n, .skip hs hreaches, hline⟩, h.found, h.fresh⟩
  have hplace := h.offset
  rw [List.length_cons]
  omega

/-- One more match in front, kept or not. -/
theorem At.behind {line offset : Nat} {c : Char} {cs : List Char} {m : Match κ}
    {ts : List (κ × String)} {t : Token κ} {y : List Char} (hs : lx.skipped c = false)
    (hm : lx.match? (c :: cs) = some m)
    (h : lx.At (line + m.lines) (offset + m.text.length) ((c :: cs).drop m.text.length) ts t y) :
    (m.kind? = none → lx.At line offset (c :: cs) ts t y) ∧
      ∀ k, m.kind? = some k →
        lx.At line offset (c :: cs) ((k, String.ofList m.text) :: ts) t y := by
  obtain ⟨n, hreaches, hline⟩ := h.reaches
  have hlength := congrArg List.length (append_drop hm)
  have hplace := h.offset
  rw [List.length_append] at hlength
  constructor
  · intro hk
    exact ⟨by omega, ⟨_, .drop hs hm hk hreaches, by omega⟩, h.found, h.fresh⟩
  · intro k hk
    exact ⟨by omega, ⟨_, .keep hs hm hk hreaches, by omega⟩, h.found, h.fresh⟩

/-- Every token of a scan has its place. -/
theorem at_scanFrom {line offset : Nat} {cs : List Char} {ts us : List (Token κ)} {t : Token κ}
    (h : (lx.scanFrom 0 line offset cs).tokens = ts ++ t :: us) :
    ∃ y, lx.At line offset cs (ts.map Token.bare) t y := by
  -- a match takes several characters at once, so the induction is on the length
  induction hn : cs.length using Nat.strongRecOn generalizing line offset cs ts with
  | ind n ih =>
    cases cs with
    | nil => cases ts <;> cases h
    | cons c cs =>
      cases hs : lx.skipped c with
      | true =>
        rw [scanFrom_skipped hs] at h
        obtain ⟨y, hy⟩ := ih cs.length (by rw [← hn]; exact Nat.lt_succ_self _) h rfl
        exact ⟨y, hy.skip hs⟩
      | false =>
        cases hm : lx.match? (c :: cs) with
        | none =>
          rw [scanFrom, hs, hm] at h
          cases ts <;> cases h
        | some m =>
          have hlt := length_drop_lt hm
          rw [hn] at hlt
          cases hk : m.kind? with
          | none =>
            rw [scanFrom_dropped hs hm hk] at h
            obtain ⟨y, hy⟩ := ih _ hlt h rfl
            exact ⟨y, (hy.behind hs hm).1 hk⟩
          | some k =>
            rw [scanFrom_kept hs hm hk] at h
            cases ts with
            | nil =>
              obtain ⟨rfl, -⟩ := List.cons.inj h
              exact ⟨c :: cs, rfl, ⟨0, .done _, rfl⟩, ⟨m, hm, hk, rfl, rfl⟩, hs⟩
            | cons t₀ ts =>
              obtain ⟨rfl, hrest⟩ := List.cons.inj h
              obtain ⟨y, hy⟩ := ih _ hlt hrest rfl
              exact ⟨y, (hy.behind hs hm).2 k hk⟩

end Lexer

/-- The line counter behind the last token. -/
def Tail.line : Tail → Nat
  | .complete line | .unknown _ line => line

namespace Lexer

variable {lx : Lexer κ}

/-- The end of a scan has its place, too. -/
theorem reaches_scanFrom (lx : Lexer κ) (line offset : Nat) (cs : List Char) :
    ∃ n, lx.Reaches cs ((lx.scanFrom 0 line offset cs).tokens.map Token.bare) n
        ((lx.scanFrom 0 line offset cs).tail.rest?.getD []) ∧
      (lx.scanFrom 0 line offset cs).tail.line = line + n := by
  induction hn : cs.length using Nat.strongRecOn generalizing line offset cs with
  | ind n ih =>
    cases cs with
    | nil => exact ⟨0, .done [], rfl⟩
    | cons c cs =>
      cases hs : lx.skipped c with
      | true =>
        rw [scanFrom_skipped hs]
        obtain ⟨l, hreaches, hline⟩ :=
          ih cs.length (by rw [← hn]; exact Nat.lt_succ_self _) line (offset + 1) cs rfl
        exact ⟨l, .skip hs hreaches, hline⟩
      | false =>
        cases hm : lx.match? (c :: cs) with
        | none =>
          rw [scanFrom, hs, hm]
          exact ⟨0, .done _, rfl⟩
        | some m =>
          have hlt := length_drop_lt hm
          rw [hn] at hlt
          obtain ⟨l, hreaches, hline⟩ := ih _ hlt (line + m.lines) (offset + m.text.length) _ rfl
          cases hk : m.kind? with
          | none =>
            rw [scanFrom_dropped hs hm hk]
            exact ⟨_, .drop hs hm hk hreaches, by omega⟩
          | some k =>
            rw [scanFrom_kept hs hm hk]
            exact ⟨_, .keep hs hm hk hreaches, hline.trans (Nat.add_assoc ..)⟩

end Lexer

/-! ## Another rest -/

namespace Pattern

/-- No match of the pattern at the front of the text goes on into the rest. -/
def Ends (x rest : List Char) : Pattern → Prop
  | run _ more => rest.head?.any more = false
  | spelled options => ∀ o ∈ options, o <+: x ++ rest → o <+: x
  | comment => rest.head? ≠ some '/' ∧ rest.head? ≠ some '*'

theorem takeWhile_of_length {p : Char → Bool} {cs y : List Char}
    (h : ((cs ++ y).takeWhile p).length ≤ cs.length) : (cs ++ y).takeWhile p = cs.takeWhile p := by
  induction cs with
  | nil => exact List.length_eq_zero_iff.mp (Nat.le_zero.mp h)
  | cons c cs ih =>
    rw [List.cons_append, List.takeWhile_cons] at h
    rw [List.cons_append, List.takeWhile_cons, List.takeWhile_cons]
    cases hc : p c with
    | false => rfl
    | true =>
      rw [hc] at h
      simp only [if_true, List.length_cons, Nat.add_le_add_iff_right] at h
      simp only [if_true, ih h]

theorem takeWhile_append_of_head {p : Char → Bool} (cs : List Char) {z : List Char}
    (h : z.head?.any p = false) : (cs ++ z).takeWhile p = cs.takeWhile p := by
  cases z with
  | nil => rw [List.append_nil]
  | cons d z => exact takeWhile_append h cs z

/-- A run that could go on behind the text, and does not, ends inside of it. -/
theorem takeWhile_switch {p : Char → Bool} {cs y : List Char} (hy : y.head?.any p = true)
    (h : ((cs ++ y).takeWhile p).length ≤ cs.length) (z : List Char) :
    (cs ++ z).takeWhile p = (cs ++ y).takeWhile p := by
  induction cs with
  | nil =>
    cases y with
    | nil => cases hy
    | cons d y => simp [show p d = true from hy] at h
  | cons c cs ih =>
    rw [List.cons_append, List.takeWhile_cons] at h
    rw [List.cons_append, List.cons_append, List.takeWhile_cons, List.takeWhile_cons]
    cases hc : p c with
    | false => rfl
    | true =>
      rw [hc] at h
      simp only [if_true, List.length_cons, Nat.add_le_add_iff_right] at h
      simp only [if_true, ih h]

theorem two_le_closing? {cs : List Char} {n : Nat} (h : closing? cs = some n) : 2 ≤ n := by
  fun_induction closing? cs generalizing n with
  | case1 cs =>
    cases h
    exact Nat.le_refl 2
  | case2 c cs _ ih =>
    obtain ⟨k, hk, rfl⟩ := Option.map_eq_some_iff.mp h
    exact Nat.le_succ_of_le (ih hk)
  | case3 => cases h

theorem closing?_of_le {cs y : List Char} {n : Nat} (h : closing? (cs ++ y) = some n)
    (hn : n ≤ cs.length) : closing? cs = some n := by
  have htwo := two_le_closing? h
  fun_induction closing? cs generalizing n with
  | case1 cs => exact h
  | case2 c cs hne ih =>
    rw [List.length_cons] at hn
    rw [List.cons_append, closing?] at h
    · obtain ⟨k, hk, rfl⟩ := Option.map_eq_some_iff.mp h
      rw [ih hk (Nat.le_of_succ_le_succ hn) (two_le_closing? hk)]
      rfl
    · rintro rest rfl heq
      cases cs with
      | nil => exact absurd (htwo.trans hn) (by decide)
      | cons d cs =>
        cases heq
        exact hne cs rfl rfl
  | case3 => exact absurd (htwo.trans hn) (by decide)

theorem size_spelled_switch {options : List (List Char)} {x y z : List Char}
    (hends : (spelled options).Ends x z) (hle : (spelled options).size (x ++ y) ≤ x.length) :
    (spelled options).size (x ++ z) = (spelled options).size (x ++ y) := by
  suffices hfind : options.find? (·.isPrefixOf (x ++ z)) = options.find? (·.isPrefixOf (x ++ y)) by
    rw [size, hfind, size]
  have hback {o : List Char} (ho : o ∈ options) (h : o.isPrefixOf (x ++ z) = true) :
      o.isPrefixOf (x ++ y) = true :=
    List.isPrefixOf_iff_prefix.mpr
      ((hends o ho (List.isPrefixOf_iff_prefix.mp h)).trans (List.prefix_append ..))
  cases hfound : options.find? (·.isPrefixOf (x ++ y)) with
  | none =>
    rw [List.find?_eq_none] at hfound ⊢
    exact fun o ho h => hfound o ho (hback ho h)
  | some o =>
    rw [size, hfound] at hle
    obtain ⟨ho, front, behind, rfl, hfront⟩ := List.find?_eq_some_iff_append.mp hfound
    refine List.find?_eq_some_iff_append.mpr ⟨?_, front, behind, rfl, fun a ha => ?_⟩
    · have hx := List.prefix_of_prefix_length_le (List.isPrefixOf_iff_prefix.mp ho)
        (List.prefix_append x y) hle
      exact List.isPrefixOf_iff_prefix.mpr (hx.trans (List.prefix_append ..))
    · have hnot := hfront a ha
      rw [Bool.not_eq_true'] at hnot ⊢
      rw [Bool.eq_false_iff] at hnot ⊢
      exact fun h => hnot (hback (List.mem_append_left _ ha) h)

/-- A match of two characters at least, or none. -/
theorem size_comment_slash {y : List Char} (hclosed : ∀ cs, y = '*' :: cs → closing? cs ≠ none) :
    comment.size ('/' :: y) = 0 ∨ 2 ≤ comment.size ('/' :: y) := by
  cases y with
  | nil => exact .inl rfl
  | cons d y =>
    by_cases hd : d = '/'
    · subst hd
      exact .inr (Nat.le_add_right ..)
    · by_cases hd' : d = '*'
      · subst hd'
        obtain ⟨n, hn⟩ := Option.ne_none_iff_exists'.mp (hclosed y rfl)
        right
        simp only [size, hn, Option.map_some, Option.getD_some]
        exact Nat.le_add_left ..
      · left
        simp [size, hd, hd']

theorem size_comment_switch {c : Char} {cs y z : List Char} (hends : comment.Ends (c :: cs) z)
    (hclosed : Closed (c :: (cs ++ y))) (hy : y.head?.any (· != '\n') = true)
    (hle : comment.size (c :: (cs ++ y)) ≤ (c :: cs).length) :
    comment.size (c :: (cs ++ z)) = comment.size (c :: (cs ++ y)) := by
  by_cases hc : c = '/'
  · subst hc
    cases cs with
    | nil =>
      have hz : comment.size ('/' :: z) = 0 := by
        cases z with
        | nil => rfl
        | cons e z =>
          obtain ⟨he, he'⟩ := hends
          simp only [List.head?_cons, ne_eq, Option.some.injEq] at he he'
          simp [size, he, he']
      -- what would be a comment takes more than the one character
      have hy' := size_comment_slash (y := y) fun cs h => hclosed cs (h ▸ rfl)
      simp only [List.nil_append, List.length_cons, List.length_nil] at hle ⊢
      omega
    | cons d cs =>
      by_cases hd : d = '/'
      · subst hd
        simp only [List.cons_append, size, List.length_cons] at hle ⊢
        rw [takeWhile_switch hy (by omega)]
      · by_cases hd' : d = '*'
        · subst hd'
          obtain ⟨n, hn⟩ := Option.ne_none_iff_exists'.mp (hclosed (cs ++ y) rfl)
          simp only [List.cons_append, size, List.length_cons, hn] at hle ⊢
          have hcs := closing?_of_le hn (by simpa using hle)
          rw [closing?_append hcs]
        · simp [size, hd, hd']
  · simp [size, hc]

theorem size_switch {p : Pattern} {c : Char} {cs y z : List Char} (hends : p.Ends (c :: cs) z)
    (hclosed : Closed (c :: (cs ++ y))) (hy : y.head?.any (· != '\n') = true)
    (hle : p.size (c :: (cs ++ y)) ≤ (c :: cs).length) :
    p.size (c :: (cs ++ z)) = p.size (c :: (cs ++ y)) := by
  cases p with
  | run first more =>
    cases hc : first c with
    | false => simp [size, hc]
    | true =>
      simp only [size, hc, if_true, List.length_cons] at hle ⊢
      rw [takeWhile_append_of_head cs hends, takeWhile_of_length (by omega)]
  | spelled options => exact size_spelled_switch hends hle
  | comment => exact size_comment_switch hends hclosed hy hle

end Pattern

theorem Rule.match?_switch {r : Rule κ} {c : Char} {cs y z : List Char}
    (hends : r.pattern.Ends (c :: cs) z) (hclosed : Pattern.Closed (c :: (cs ++ y)))
    (hy : y.head?.any (· != '\n') = true)
    (hle : r.pattern.size (c :: (cs ++ y)) ≤ (c :: cs).length) :
    r.match? (c :: (cs ++ z)) = r.match? (c :: (cs ++ y)) := by
  have htake (rest : List Char) :
      (c :: (cs ++ rest)).take (r.pattern.size (c :: (cs ++ y))) =
        (c :: cs).take (r.pattern.size (c :: (cs ++ y))) :=
    List.take_append_of_le_length hle
  rw [Rule.match?, Rule.match?, Pattern.size_switch hends hclosed hy hle]
  cases hn : r.pattern.size (c :: (cs ++ y)) with
  | zero => rfl
  | succ n =>
    rw [hn] at htake
    simp only [htake]

/-- A rule takes what its pattern does. -/
theorem Rule.match?_size {r : Rule κ} {cs : List Char} {m : Lexer.Match κ}
    (h : r.match? cs = some m) : m.text.length = r.pattern.size cs := by
  have hle := r.pattern.size_le cs
  unfold Rule.match? at h
  split at h
  · cases h
  · cases h
    rw [List.length_take]
    omega

theorem Rule.size_eq_zero {r : Rule κ} {cs : List Char} (h : r.match? cs = none) :
    r.pattern.size cs = 0 := by
  unfold Rule.match? at h
  split at h
  · assumption
  · cases h

namespace Lexer

variable {lx : Lexer κ}

theorem match?_switch {c : Char} {cs y z : List Char} {m : Match κ}
    (hends : ∀ r ∈ lx.rules, r.pattern.Ends (c :: cs) z)
    (hclosed : Pattern.Closed (c :: (cs ++ y))) (hy : y.head?.any (· != '\n') = true)
    (hm : lx.match? (c :: (cs ++ y)) = some m) (hle : m.text.length ≤ (c :: cs).length) :
    lx.match? (c :: (cs ++ z)) = some m := by
  have hnone {r : Rule κ} (hr : r ∈ lx.rules) (h : r.match? (c :: (cs ++ y)) = none) :
      r.match? (c :: (cs ++ z)) = none := by
    rw [Rule.match?_switch (hends r hr) hclosed hy
      (by rw [Rule.size_eq_zero h]; exact Nat.zero_le _)]
    exact h
  rw [match?_cons] at hm ⊢
  rcases Option.or_eq_some_iff.mp hm with hm | ⟨hrules, hliteral⟩
  · obtain ⟨front, r, behind, hsplit, hr, hfront⟩ := List.findSome?_eq_some_iff.mp hm
    have hmem : r ∈ lx.rules := hsplit ▸ List.mem_append_right _ List.mem_cons_self
    have hfound : lx.rules.findSome? (·.match? (c :: (cs ++ z))) = some m := by
      refine List.findSome?_eq_some_iff.mpr ⟨front, r, behind, hsplit, ?_, fun a ha => ?_⟩
      · rw [Rule.match?_switch (hends r hmem) hclosed hy (Rule.match?_size hr ▸ hle)]
        exact hr
      · exact hnone (hsplit ▸ List.mem_append_left _ ha) (hfront a ha)
    rw [hfound]
    rfl
  · rw [List.findSome?_eq_none_iff] at hrules
    rw [List.findSome?_eq_none_iff.mpr fun r hr => hnone hr (hrules r hr), Option.none_or]
    exact hliteral

/-- What a match in front of a reached rest takes is in front of that rest. -/
theorem Reaches.in_front {c : Char} {cs x y : List Char} {m : Match κ} {ts : List (κ × String)}
    {n : Nat} (hm : lx.match? (c :: cs) = some m)
    (h : lx.Reaches ((c :: cs).drop m.text.length) ts n y) (hw : c :: cs = x ++ y) :
    ∃ x', x = c :: x' ∧ cs = x' ++ y ∧ m.text.length ≤ (c :: x').length := by
  have hle := h.suffix.length_le
  have hlt := length_drop_lt hm
  have hwhole := congrArg List.length (append_drop hm)
  have hlength := congrArg List.length hw
  rw [List.length_append] at hlength hwhole
  cases x with
  | nil =>
    rw [List.length_nil] at hlength
    omega
  | cons d x =>
    obtain ⟨rfl, rfl⟩ := List.cons.inj hw
    exact ⟨x, rfl, rfl, by omega⟩

/-- Another rest, into which no match goes on from a place that the lexer comes to. Which tokens
leave no comment open is for the reader of the tokens to say; `P` is what it knows of them. -/
theorem Reaches.switch {P : List (κ × String) → Prop} (htail : ∀ {t ts}, P (t :: ts) → P ts)
    (hclosed : ∀ {x ts}, lx.Cuts x ts none → P ts → Pattern.Closed x)
    {w x y z : List Char} {ts us : List (κ × String)} {n : Nat} (h : lx.Reaches w ts n y)
    (hw : w = x ++ y) (hP : P (ts ++ us)) (hcuts : lx.Cuts y us none)
    (hy : y.head?.any (· != '\n') = true)
    (hends : ∀ x' ts₁ n₁ ts₂ n₂, lx.Reaches w ts₁ n₁ (x' ++ y) → lx.Reaches (x' ++ y) ts₂ n₂ y →
      ts₁ ++ ts₂ = ts → x' ≠ [] → ∀ r ∈ lx.rules, r.pattern.Ends x' z) :
    lx.Reaches (x ++ z) ts n z := by
  induction h generalizing x with
  | done y =>
    rw [List.self_eq_append_left.mp hw]
    exact .done z
  | @skip c cs ts n y hs hreaches ih =>
    cases x with
    | nil =>
      rw [List.nil_append] at hw
      subst hw
      exact absurd hreaches.suffix.length_le (Nat.not_succ_le_self _)
    | cons d x =>
      obtain ⟨rfl, rfl⟩ := List.cons.inj hw
      exact .skip hs (ih rfl hP hcuts hy fun x' ts₁ n₁ ts₂ n₂ h₁ =>
        hends x' ts₁ n₁ ts₂ n₂ (.skip hs h₁))
  | @drop c cs m ts n y hs hm hk hreaches ih =>
    obtain ⟨x, rfl, rfl, hle⟩ := hreaches.in_front hm hw
    have hwhole := Reaches.drop hs hm hk hreaches
    have hmatch := match?_switch (hends _ [] 0 _ _ (.done _) hwhole rfl (List.cons_ne_nil c x))
      (hclosed (hwhole.cuts hcuts) hP) hy hm hle
    have hrest (rest : List Char) : (c :: (x ++ rest)).drop m.text.length =
        (c :: x).drop m.text.length ++ rest := List.drop_append_of_le_length hle
    rw [List.cons_append]
    refine .drop hs hmatch hk ?_
    rw [hrest]
    exact ih (hrest y) hP hcuts hy fun x' ts₁ n₁ ts₂ n₂ h₁ =>
      hends x' ts₁ _ ts₂ n₂ (.drop hs hm hk h₁)
  | @keep c cs m k ts n y hs hm hk hreaches ih =>
    obtain ⟨x, rfl, rfl, hle⟩ := hreaches.in_front hm hw
    have hwhole := Reaches.keep hs hm hk hreaches
    have hmatch := match?_switch (hends _ [] 0 _ _ (.done _) hwhole rfl (List.cons_ne_nil c x))
      (hclosed (hwhole.cuts hcuts) hP) hy hm hle
    have hrest (rest : List Char) : (c :: (x ++ rest)).drop m.text.length =
        (c :: x).drop m.text.length ++ rest := List.drop_append_of_le_length hle
    rw [List.cons_append]
    refine .keep hs hmatch hk ?_
    rw [hrest]
    exact ih (hrest y) (htail hP) hcuts hy fun x' ts₁ n₁ ts₂ n₂ h₁ h₂ htokens =>
      hends x' (_ :: ts₁) _ ts₂ n₂ (.keep hs hm hk h₁) h₂ (congrArg (_ :: ·) htokens)

/-- A token starts at the place. -/
def Fresh (lx : Lexer κ) (y : List Char) : Prop :=
  y.head?.all lx.skipped = false ∧ ∃ m k, lx.match? y = some m ∧ m.kind? = some k

/-- There is one place where the next token starts. -/
theorem Reaches.unique {x y y' : List Char} {ts : List (κ × String)} {n n' : Nat}
    (h : lx.Reaches x ts n y) (h' : lx.Reaches x ts n' y') (hy : lx.Fresh y) (hy' : lx.Fresh y') :
    y = y' := by
  have hstart {c : Char} {cs : List Char} (hs : lx.skipped c = true) : ¬ lx.Fresh (c :: cs) :=
    fun h => Bool.noConfusion (hs.symm.trans h.1)
  have hkept {c : Char} {cs : List Char} {m : Match κ} (hm : lx.match? (c :: cs) = some m)
      (hk : m.kind? = none) : ¬ lx.Fresh (c :: cs) := by
    rintro ⟨-, m', k, hm', hk'⟩
    cases hm.symm.trans hm'
    cases hk.symm.trans hk'
  induction h generalizing n' with
  | done y =>
    cases h' with
    | done => rfl
    | skip hs _ => exact absurd hy (hstart hs)
    | drop _ hm hk _ => exact absurd hy (hkept hm hk)
  | skip hs _ ih =>
    cases h' with
    | done => exact absurd hy' (hstart hs)
    | skip _ h' => exact ih h' hy
    | _ => simp_all
  | drop hs hm hk _ ih =>
    cases h' with
    | done => exact absurd hy' (hkept hm hk)
    | drop _ hm' _ h' =>
      cases hm.symm.trans hm'
      exact ih h' hy
    | _ => simp_all
  | @keep c cs m k ts n y hs hm hk _ ih =>
    generalize htokens : (k, String.ofList m.text) :: ts = us at h'
    cases h' with
    | done => cases htokens
    | keep _ hm' _ h' =>
      cases hm.symm.trans hm'
      obtain ⟨-, rfl⟩ := List.cons.inj htokens
      exact ih h' hy
    | _ => simp_all

end Lexer

/-! ## Readers that fail -/

namespace Reader

variable {σ α : Type} {r : Reader κ σ α} {next : σ → κ × String → Option σ} {P : Fault → Prop}

/-- From the state the reader fails, at one of the tokens or at their end, with such a fault. -/
def Refuses (r : Reader κ σ α) (next : σ → κ × String → Option σ) (P : Fault → Prop) :
    σ → List (κ × String) → Prop
  | s, [] => ∃ f, r.finish s = .error f ∧ P f
  | s, t :: ts => (∀ u : Token κ, u.bare = t → ∃ f, r.step s u = .error f ∧ P f) ∨
      ∃ s', next s t = some s' ∧ r.Refuses next P s' ts

theorem Refuses.append {ts us : List (κ × String)} {s s' : σ} (hrun : ts.foldlM next s = some s')
    (h : r.Refuses next P s' us) : r.Refuses next P s (ts ++ us) := by
  induction ts generalizing s with
  | nil =>
    cases hrun
    exact h
  | cons t ts ih =>
    obtain ⟨s₁, hnext, hrun⟩ := Option.bind_eq_some_iff.mp hrun
    exact .inr ⟨s₁, hnext, ih hrun⟩

theorem Refuses.runFrom (hadvances : r.Advances next) {ts : List (Token κ)} {tail : Tail} {s : σ}
    (htail : tail.rest? = none) (h : r.Refuses next P s (ts.map Token.bare)) :
    ∃ f, (r.runFrom s ts tail).1 = .error f ∧ P f := by
  induction ts generalizing s with
  | nil =>
    cases tail with
    | complete line => exact h
    | unknown rest line => cases htail
  | cons t ts ih =>
    rw [Reader.runFrom]
    rcases h with h | ⟨s', hnext, h⟩
    · obtain ⟨f, hf, hP⟩ := h t rfl
      exact ⟨f, by rw [hf], hP⟩
    · rw [(hadvances s t s').mpr hnext]
      exact ih h

/-- A reader that fails on the tokens of a text fails on the text. -/
theorem Refuses.run (hadvances : r.Advances next) {lx : Lexer κ} {cs : List Char}
    {ts : List (κ × String)} (hcuts : lx.Cuts cs ts none) (h : r.Refuses next P r.start ts)
    (line : Nat) : ∃ f, (r.run (lx.scan line cs)).1 = .error f ∧ P f := by
  obtain ⟨rfl, htail⟩ := (lx.cuts_scan line cs).unique hcuts
  exact h.runFrom hadvances htail

end Reader

end Statechart
