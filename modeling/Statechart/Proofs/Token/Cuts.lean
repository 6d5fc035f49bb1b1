import Statechart.Proofs.Label.Lines

/-!
What a scan says about a text, places apart. `Lexer.Cuts` describes how a text is cut into tokens
and where it can not be cut further; a scan does just this (`cuts_scan`), and there is one way to do
it (`Cuts.unique`). A reader whose steps depend on the kind and the text of tokens alone succeeds
just if the text is cut to its end and the steps succeed in turn (`Reader.run_eq_ok`).
-/

namespace Statechart

variable {κ σ α : Type}

/-- A token without its place. -/
def Token.bare (t : Token κ) : κ × String := (t.kind, t.text)

/-- What a rule takes from the front of a text. -/
def Rule.match? (r : Rule κ) (cs : List Char) : Option (Lexer.Match κ) :=
  match r.pattern.size cs with
  | 0 => none
  | n => some ⟨r.kind? (String.ofList (cs.take n)), cs.take n, if r.countsLines then n else 0⟩

theorem Rule.match?_eq_none {r : Rule κ} {cs : List Char} (h : r.pattern.size cs = 0) :
    r.match? cs = none := by
  rw [Rule.match?, h]
  rfl

theorem Rule.match?_kind {r : Rule κ} {cs : List Char} {m : Lexer.Match κ}
    (h : r.match? cs = some m) : m.kind? = r.kind? (String.ofList m.text) := by
  unfold Rule.match? at h
  split at h
  · cases h
  · cases h
    rfl

/-- A run takes its first character and all that go on. -/
theorem Rule.match?_run (first rest : Char → Bool) (kind? : String → Option κ) (countsLines : Bool)
    (c : Char) (cs : List Char) :
    Rule.match? ⟨.run first rest, kind?, countsLines⟩ (c :: cs) =
      if first c then
        some ⟨kind? (String.ofList (c :: cs.takeWhile rest)), c :: cs.takeWhile rest,
          if countsLines then 1 + (cs.takeWhile rest).length else 0⟩
      else none := by
  have htake : (c :: cs).take (1 + (cs.takeWhile rest).length) = c :: cs.takeWhile rest := by
    rw [Nat.add_comm, List.take_succ_cons,
      ← List.prefix_iff_eq_take.mp (List.takeWhile_prefix rest)]
  cases hc : first c with
  | false => exact match?_eq_none (by simp [Pattern.size, hc])
  | true => simp [Rule.match?, Pattern.size, hc, htake]

/-- A rule with one spelling of one character. -/
theorem Rule.match?_spelled (a : Char) (kind? : String → Option κ) (c : Char) (cs : List Char) :
    Rule.match? ⟨.spelled [[a]], kind?, false⟩ (c :: cs) =
      if c == a then some ⟨kind? (String.ofList [c]), [c], 0⟩ else none := by
  by_cases hc : c = a
  · subst hc
    simp [Rule.match?, Pattern.size]
  · rw [Rule.match?_eq_none (by simp [Pattern.size, Ne.symm hc]), if_neg (by simpa using hc)]

namespace Lexer

variable {lx : Lexer κ}

theorem match?_cons (lx : Lexer κ) (c : Char) (cs : List Char) :
    lx.match? (c :: cs) = (lx.rules.findSome? (·.match? (c :: cs))).or
      ((lx.literal? c).map fun k => ⟨some k, [c], 0⟩) := rfl

/-- A match at the front of a text is a beginning of it, and it takes a character at least. -/
theorem match?_text {c : Char} {cs : List Char} {m : Match κ}
    (h : lx.match? (c :: cs) = some m) : ∃ tail, m.text = c :: tail ∧ tail <+: cs := by
  rcases Option.or_eq_some_iff.mp h with h | ⟨-, h⟩
  · obtain ⟨r, -, hr⟩ := List.exists_of_findSome?_eq_some h
    cases hn : r.pattern.size (c :: cs) with
    | zero =>
      rw [hn] at hr
      cases hr
    | succ n =>
      rw [hn] at hr
      cases hr
      exact ⟨cs.take n, rfl, List.take_prefix n cs⟩
  · obtain ⟨k, -, rfl⟩ := Option.map_eq_some_iff.mp h
    exact ⟨[], rfl, List.nil_prefix⟩

/-- The text is cut into the tokens, up to a rest at which none starts; without a rest it is cut to
its end. -/
inductive Cuts (lx : Lexer κ) : List Char → List (κ × String) → Option (List Char) → Prop
  | nil : Cuts lx [] [] none
  | stuck {c cs} : lx.skipped c = false → lx.match? (c :: cs) = none →
      Cuts lx (c :: cs) [] (some (c :: cs))
  | skip {c cs ts rest} : lx.skipped c = true → Cuts lx cs ts rest → Cuts lx (c :: cs) ts rest
  /-- What a rule matches need not be kept. -/
  | drop {c cs m ts rest} : lx.skipped c = false → lx.match? (c :: cs) = some m → m.kind? = none →
      Cuts lx ((c :: cs).drop m.text.length) ts rest → Cuts lx (c :: cs) ts rest
  | keep {c cs m k ts rest} : lx.skipped c = false → lx.match? (c :: cs) = some m →
      m.kind? = some k → Cuts lx ((c :: cs).drop m.text.length) ts rest →
      Cuts lx (c :: cs) ((k, String.ofList m.text) :: ts) rest

theorem Cuts.unique {cs : List Char} {ts ts' : List (κ × String)} {rest rest' : Option (List Char)}
    (h : lx.Cuts cs ts rest) (h' : lx.Cuts cs ts' rest') : ts = ts' ∧ rest = rest' := by
  induction h generalizing ts' with
  | nil =>
    cases h'
    exact ⟨rfl, rfl⟩
  | stuck hs hm => cases h' <;> simp_all
  | skip hs _ ih =>
    cases h' with
    | skip _ h' => exact ih h'
    | _ => simp_all
  | drop hs hm hk _ ih =>
    cases h' with
    | drop _ hm' _ h' =>
      cases hm.symm.trans hm'
      exact ih h'
    | _ => simp_all
  | keep hs hm hk _ ih =>
    cases h' with
    | keep _ hm' hk' h' =>
      cases hm.symm.trans hm'
      cases hk.symm.trans hk'
      obtain ⟨rfl, rfl⟩ := ih h'
      exact ⟨rfl, rfl⟩
    | _ => simp_all

/-- A token whose text is matched at the front. -/
theorem Cuts.token {t : κ × String} {cs : List Char} {ts : List (κ × String)}
    {rest : Option (List Char)} (hs : t.2.toList.head?.all lx.skipped = false)
    (hm : lx.match? (t.2.toList ++ cs) = some ⟨some t.1, t.2.toList, 0⟩)
    (h : lx.Cuts cs ts rest) : lx.Cuts (t.2.toList ++ cs) (t :: ts) rest := by
  have htext := String.ofList_toList (s := t.2)
  cases hw : t.2.toList with
  | nil =>
    rw [hw] at hs
    cases hs
  | cons c tail =>
    rw [hw] at hs hm htext
    have hkeep := Cuts.keep hs hm rfl (by simpa using h)
    rwa [htext] at hkeep

/-- Where a match is kept, the first token is that match. -/
theorem Cuts.of_kept {c : Char} {cs : List Char} {ts : List (κ × String)}
    {rest : Option (List Char)} (h : lx.Cuts (c :: cs) ts rest) (hs : lx.skipped c = false)
    {m : Match κ} {k : κ} (hm : lx.match? (c :: cs) = some m) (hk : m.kind? = some k) :
    ∃ us, ts = (k, String.ofList m.text) :: us ∧
      lx.Cuts ((c :: cs).drop m.text.length) us rest := by
  cases h with
  | stuck _ hm' => simp_all
  | skip hs' _ => simp_all
  | drop _ hm' hk' _ => simp_all
  | keep _ hm' hk' h =>
    cases hm.symm.trans hm'
    cases hk.symm.trans hk'
    exact ⟨_, rfl, h⟩

/-- Passing over characters is the same as dropping them, places apart. -/
theorem scanFrom_skip (lx : Lexer κ) (skip line offset : Nat) (cs : List Char) :
    (lx.scanFrom skip line offset cs).Alike (lx.scanFrom 0 line offset (cs.drop skip)) := by
  induction cs generalizing skip offset with
  | nil => cases skip <;> exact ⟨rfl, rfl⟩
  | cons c cs ih =>
    cases skip with
    | zero => exact ⟨rfl, rfl⟩
    | succ skip =>
      obtain ⟨htokens, htail⟩ := ih skip (offset + 1)
      obtain ⟨htokens', htail'⟩ := lx.scanFrom_alike (cs.drop skip) 0 line line (offset + 1) offset
      exact ⟨htokens.trans htokens', htail.trans htail'⟩

theorem cuts_scanFrom (lx : Lexer κ) (line offset : Nat) (cs : List Char) :
    lx.Cuts cs ((lx.scanFrom 0 line offset cs).tokens.map Token.bare)
      (lx.scanFrom 0 line offset cs).tail.rest? := by
  -- a match takes several characters at once, so the induction is on the length
  induction hn : cs.length using Nat.strongRecOn generalizing line offset cs with
  | ind n ih =>
    cases cs with
    | nil => exact .nil
    | cons c cs =>
      rw [List.length_cons] at hn
      rw [scanFrom]
      split
      · next hs => exact .skip hs (ih cs.length (by omega) line (offset + 1) cs rfl)
      · next hs =>
        have hs : lx.skipped c = false := by simpa using hs
        cases hm : lx.match? (c :: cs) with
        | none => exact .stuck hs hm
        | some m =>
          obtain ⟨tail, htext, -⟩ := match?_text hm
          have hdrop : (c :: cs).drop m.text.length = cs.drop (m.text.length - 1) := by
            rw [htext]
            rfl
          obtain ⟨htokens, htail⟩ :=
            lx.scanFrom_skip (m.text.length - 1) (line + m.lines) (offset + 1) cs
          have hrest := ih _ (by rw [List.length_drop]; omega) (line + m.lines) (offset + 1)
            (cs.drop (m.text.length - 1)) rfl
          have hcuts : lx.Cuts ((c :: cs).drop m.text.length)
              ((lx.scanFrom (m.text.length - 1) (line + m.lines) (offset + 1) cs).tokens.map
                Token.bare)
              (lx.scanFrom (m.text.length - 1) (line + m.lines) (offset + 1) cs).tail.rest? := by
            rw [hdrop, htail]
            exact htokens.symm ▸ hrest
          cases hk : m.kind? with
          | none =>
            simp only [hk]
            exact .drop hs hm hk hcuts
          | some k =>
            simp only [hk]
            exact .keep hs hm hk hcuts

theorem cuts_scan (lx : Lexer κ) (line : Nat) (cs : List Char) :
    lx.Cuts cs ((lx.scan line cs).tokens.map Token.bare) (lx.scan line cs).tail.rest? :=
  lx.cuts_scanFrom line 0 cs

/-- A lexer that leaves nothing of a text out. -/
structure Lossless (lx : Lexer κ) : Prop where
  skipped : ∀ c, lx.skipped c = false
  kept : ∀ r ∈ lx.rules, ∀ s, r.kind? s ≠ none

theorem Lossless.kind?_ne (h : lx.Lossless) {cs : List Char} {m : Match κ}
    (hm : lx.match? cs = some m) : m.kind? ≠ none := by
  rcases Option.or_eq_some_iff.mp hm with hm | ⟨-, hm⟩
  · obtain ⟨r, hr, hm⟩ := List.exists_of_findSome?_eq_some hm
    split at hm
    · cases hm
    · cases hm
      exact h.kept r hr _
  · cases cs with
    | nil => cases hm
    | cons c cs =>
      obtain ⟨k, -, rfl⟩ := Option.map_eq_some_iff.mp hm
      exact Option.some_ne_none k

/-- The texts of the tokens, one after the other, are the text that was cut. -/
theorem Cuts.flatMap_text (hlx : lx.Lossless) {cs : List Char} {ts : List (κ × String)}
    {rest : Option (List Char)} (h : lx.Cuts cs ts rest) :
    ts.flatMap (·.2.toList) ++ rest.getD [] = cs := by
  induction h with
  | nil => rfl
  | stuck _ _ => rfl
  | skip hs _ _ => rw [hlx.skipped] at hs; cases hs
  | drop _ hm hk _ _ => exact absurd hk (hlx.kind?_ne hm)
  | keep _ hm _ _ ih =>
    obtain ⟨tail, htext, hprefix⟩ := match?_text hm
    rw [List.flatMap_cons, List.append_assoc, ih, String.toList_ofList, htext]
    exact List.prefix_iff_eq_append.mp ((List.prefix_cons_inj _).mpr hprefix)

end Lexer

namespace Reader

/-- The steps of a reader, by the kind and the text of tokens alone. -/
def Advances (r : Reader κ σ α) (next : σ → κ × String → Option σ) : Prop :=
  ∀ s t s', r.step s t = .ok s' ↔ next s t.bare = some s'

variable {r : Reader κ σ α} {next : σ → κ × String → Option σ}

theorem runFrom_eq_ok (h : r.Advances next) {ts : List (Token κ)} {tail : Tail} {s : σ} {a : α} :
    (r.runFrom s ts tail).1 = .ok a ↔ tail.rest? = none ∧
      ∃ s', (ts.map Token.bare).foldlM next s = some s' ∧ r.finish s' = .ok a := by
  induction ts generalizing s with
  | nil =>
    cases tail with
    | complete line => simp [runFrom, Tail.rest?]
    | unknown rest line => simp [runFrom, Tail.rest?]
  | cons t ts ih =>
    rw [runFrom, List.map_cons, List.foldlM_cons]
    cases hstep : r.step s t with
    | error f =>
      have hnone : next s t.bare = none := by
        cases hnext : next s t.bare with
        | none => rfl
        | some s' => rw [(h s t s').mpr hnext] at hstep; cases hstep
      simp [hnone]
    | ok s₁ =>
      rw [(h s t s₁).mp hstep]
      exact ih

/-- A text is read with success just if it is cut to its end and the steps succeed in turn. -/
theorem run_eq_ok (h : r.Advances next) {lx : Lexer κ} {line : Nat} {cs : List Char} {a : α} :
    (r.run (lx.scan line cs)).1 = .ok a ↔
      ∃ ts s, lx.Cuts cs ts none ∧ ts.foldlM next r.start = some s ∧ r.finish s = .ok a := by
  rw [run, runFrom_eq_ok h]
  have hcuts := lx.cuts_scan line cs
  constructor
  · rintro ⟨htail, s, hs, ha⟩
    exact ⟨_, s, htail ▸ hcuts, hs, ha⟩
  · rintro ⟨ts, s, hts, hs, ha⟩
    obtain ⟨hbare, htail⟩ := hcuts.unique hts
    exact ⟨htail, s, hbare ▸ hs, ha⟩

end Reader

end Statechart
