import Statechart.Label.Listing
import Statechart.Proofs.Action.Sequencing
import Statechart.Proofs.Token.LineCounts

/-!
The lines that errors are reported with. The texts of each kind are read by a reader with one line
counter, which runs on from one text to the next and does not count line ends in comments. So the
line of a token that can not stand is the right one just if the texts before have moved the counter
on by as many line ends as comments hide in front of the token (`reported_line_iff`).
-/

namespace Statechart

variable {κ : Type}

/-! ## Rules that count -/

/-- What the rule takes is counted by its line ends, and no comment starts in it behind its front.
-/
def Rule.Counts (hides : Bool) (r : Rule κ) : Prop :=
  ∀ c cs m, r.match? (c :: cs) = some m →
    (hides = true → Pattern.comment.size (c :: cs) = 0) →
    m.lines = m.text.count '\n' ∧ (hides = true → '/' ∉ m.text.tail)

theorem not_mem_takeWhile {p : Char → Bool} {d : Char} (hd : p d = false) (cs : List Char) :
    d ∉ cs.takeWhile p := by
  intro h
  have hp := List.mem_takeWhile_imp h
  rw [hd] at hp
  cases hp

theorem counts_run {hides : Bool} {first more : Char → Bool} (kind? : String → Option κ)
    (hfirst : first '\n' = false) (hmore : more '\n' = false)
    (hslash : hides = true → more '/' = false) :
    Rule.Counts hides ⟨.run first more, kind?, false⟩ := by
  intro c cs m hm _
  rw [Rule.match?_run] at hm
  split at hm
  · next hc =>
    cases hm
    have hne : c ≠ '\n' := by
      rintro rfl
      rw [hfirst] at hc
      cases hc
    refine ⟨?_, fun hhides => not_mem_takeWhile (hslash hhides) cs⟩
    rw [List.count_cons_of_ne hne, List.count_eq_zero_of_not_mem (not_mem_takeWhile hmore cs)]
    rfl
  · cases hm

theorem counts_newlines (hides : Bool) (kind? : String → Option κ) :
    Rule.Counts hides ⟨.run (· == '\n') (· == '\n'), kind?, true⟩ := by
  intro c cs m hm _
  rw [Rule.match?_run] at hm
  split at hm
  · next hc =>
    cases hm
    obtain rfl := beq_iff_eq.mp hc
    have hall : ∀ d ∈ cs.takeWhile (· == '\n'), '\n' = d := by
      intro d hd
      have heq := List.mem_takeWhile_imp (p := (· == '\n')) hd
      exact (beq_iff_eq.mp heq).symm
    refine ⟨?_, fun _ => not_mem_takeWhile rfl cs⟩
    rw [List.count_cons_self, List.count_eq_length.mpr hall, Nat.add_comm]
    rfl
  · cases hm

theorem Rule.mem_of_spelled {options : List (List Char)} {kind? : String → Option κ}
    {countsLines : Bool} {x : List Char} {m : Lexer.Match κ}
    (h : Rule.match? ⟨.spelled options, kind?, countsLines⟩ x = some m) :
    m.text ∈ options ∧ m.lines = if countsLines then m.text.length else 0 := by
  simp only [Rule.match?, Pattern.size] at h
  cases hfind : options.find? (·.isPrefixOf x) with
  | none =>
    rw [hfind] at h
    cases h
  | some w =>
    have hprefix := List.find?_some hfind
    rw [List.isPrefixOf_iff_prefix] at hprefix
    have htake : x.take w.length = w := (List.prefix_iff_eq_take.mp hprefix).symm
    rw [hfind] at h
    simp only [Option.map_some, Option.getD_some] at h
    split at h
    · cases h
    · cases h
      rw [htake]
      exact ⟨List.mem_of_find?_eq_some hfind, rfl⟩

/-- Patterns that take no line end, and none of which takes a slash behind its front. -/
def Pattern.Plain : Pattern → Prop
  | run first more => first '\n' = false ∧ more '\n' = false ∧ more '/' = false
  | spelled options => ∀ o ∈ options, '\n' ∉ o ∧ '/' ∉ o.tail
  | comment => True

instance : DecidablePred Pattern.Plain
  | .run first more =>
    inferInstanceAs (Decidable (first '\n' = false ∧ more '\n' = false ∧ more '/' = false))
  | .spelled options => inferInstanceAs (Decidable (∀ o ∈ options, '\n' ∉ o ∧ '/' ∉ o.tail))
  | .comment => inferInstanceAs (Decidable True)

theorem counts_spelled (hides : Bool) {options : List (List Char)} (kind? : String → Option κ)
    (h : ∀ o ∈ options, '\n' ∉ o ∧ '/' ∉ o.tail) :
    Rule.Counts hides ⟨.spelled options, kind?, false⟩ := by
  intro c cs m hm _
  obtain ⟨hmem, hlines⟩ := Rule.mem_of_spelled hm
  obtain ⟨hline, hslash⟩ := h m.text hmem
  exact ⟨hlines.trans (List.count_eq_zero_of_not_mem hline).symm, fun _ => hslash⟩

theorem Rule.counts_of_plain {r : Rule κ} (h : r.countsLines = false ∧ r.pattern.Plain) :
    r.Counts true := by
  obtain ⟨p, kind?, countsLines⟩ := r
  obtain ⟨rfl, hp⟩ := h
  cases p with
  | run first more => exact counts_run kind? hp.1 hp.2.1 fun _ => hp.2.2
  | spelled options => exact counts_spelled true kind? hp
  | comment =>
    intro c cs m hm hsize
    rw [Rule.match?_eq_none (hsize rfl)] at hm
    cases hm

/-- A lexer counts if its rules do, and the comments are not taken for something else. -/
theorem Lexer.counts_of_rules {lx : Lexer κ} {hides : Bool}
    (hskipped : ∀ c, lx.skipped c = true → c ≠ '\n' ∧ c ≠ '/') (hliteral : lx.literal? '\n' = none)
    (hrules : ∀ r ∈ lx.rules, r.Counts hides)
    (hcomment : hides = true → ∀ c cs, Pattern.comment.size (c :: cs) ≠ 0 →
      lx.match? (c :: cs) = some ⟨none, (c :: cs).take (Pattern.comment.size (c :: cs)), 0⟩) :
    lx.Counts hides := by
  refine ⟨hskipped, fun c cs m hm => ?_⟩
  by_cases hfront : hides = true ∧ Pattern.comment.size (c :: cs) ≠ 0
  · obtain ⟨hhides, hsize⟩ := hfront
    cases hm.symm.trans (hcomment hhides c cs hsize)
    refine .inr ⟨hhides, rfl, ?_⟩
    rw [List.length_take, Nat.min_eq_left (Pattern.comment.size_le _)]
  · have hsize : hides = true → Pattern.comment.size (c :: cs) = 0 := by
      intro hhides
      by_contra hne
      exact hfront ⟨hhides, hne⟩
    left
    rw [match?_cons] at hm
    rcases Option.or_eq_some_iff.mp hm with hm | ⟨-, hm⟩
    · obtain ⟨r, hr, hm⟩ := List.exists_of_findSome?_eq_some hm
      obtain ⟨hlines, hslash⟩ := hrules r hr c cs m hm hsize
      exact ⟨hlines, fun hhides => ⟨hsize hhides, hslash hhides⟩⟩
    · obtain ⟨k, hk, rfl⟩ := Option.map_eq_some_iff.mp hm
      have hne : c ≠ '\n' := by
        rintro rfl
        rw [hliteral] at hk
        cases hk
      exact ⟨by simp [hne], fun hhides => ⟨hsize hhides, List.not_mem_nil⟩⟩

/-! ## The four lexers -/

theorem Symbol.counts_skipped (c : Char) (h : Symbol.isSpace c = true) : c ≠ '\n' ∧ c ≠ '/' := by
  constructor <;>
    · rintro rfl
      cases h

/-- Where a comment starts, the rule for comments takes it. -/
theorem Symbol.match?_commentRule {c : Char} {cs : List Char}
    (h : Pattern.comment.size (c :: cs) ≠ 0) : c = '/' ∧
      Symbol.commentRule.match? (c :: cs) =
        some ⟨none, (c :: cs).take (Pattern.comment.size (c :: cs)), 0⟩ := by
  constructor
  · by_contra hc
    exact h (size_comment_of_ne hc cs)
  · obtain ⟨n, hn⟩ := Nat.exists_eq_succ_of_ne_zero h
    simp only [Symbol.commentRule, Rule.match?, hn]
    rfl

theorem Action.lexer_counts : Action.lexer.Counts true := by
  refine Lexer.counts_of_rules Symbol.counts_skipped rfl ?_ fun _ c cs hsize => ?_
  · have hplain : ∀ r ∈ Action.lexer.rules.drop 2, r.countsLines = false ∧ r.pattern.Plain := by
      decide +kernel
    refine List.forall_mem_cons.mpr ⟨?_, List.forall_mem_cons.mpr ⟨?_, fun r hr =>
      Rule.counts_of_plain (hplain r hr)⟩⟩
    · exact counts_run _ rfl rfl fun _ => rfl
    · -- each line end is a token
      intro c cs m hm _
      obtain ⟨hmem, hlines⟩ := Rule.mem_of_spelled hm
      rw [List.mem_singleton] at hmem
      rw [hlines, hmem]
      exact ⟨rfl, fun _ => List.not_mem_nil⟩
  · obtain ⟨rfl, hcomment⟩ := Symbol.match?_commentRule hsize
    rw [Lexer.match?_cons]
    simp only [Action.lexer, List.findSome?_cons, hcomment]
    rfl

theorem Condition.lexer_counts : Condition.lexer.Counts true := by
  refine Lexer.counts_of_rules Symbol.counts_skipped rfl ?_ fun _ c cs hsize => ?_
  · have hplain : ∀ r ∈ Condition.lexer.rules.drop 1, r.countsLines = false ∧ r.pattern.Plain := by
      decide +kernel
    exact List.forall_mem_cons.mpr ⟨counts_newlines true _, fun r hr =>
      Rule.counts_of_plain (hplain r hr)⟩
  · obtain ⟨rfl, hcomment⟩ := Symbol.match?_commentRule hsize
    rw [Lexer.match?_cons]
    simp only [Condition.lexer, List.findSome?_cons, hcomment]
    rfl

namespace Label

theorem Section.lexer_counts : Section.lexer.Counts false := by
  refine Lexer.counts_of_rules (fun _ h => Bool.noConfusion h) rfl ?_ fun h => Bool.noConfusion h
  simp only [Section.lexer, List.forall_mem_cons, List.not_mem_nil, false_implies, implies_true,
    and_true]
  exact ⟨counts_run _ (by decide +kernel) (by decide +kernel) fun h => Bool.noConfusion h,
    counts_newlines false _,
    counts_run _ (by decide +kernel) (by decide +kernel) fun h => Bool.noConfusion h,
    counts_run _ rfl rfl fun h => Bool.noConfusion h⟩

theorem Parts.lexer_counts : Parts.lexer.Counts false := by
  refine Lexer.counts_of_rules (fun _ h => Bool.noConfusion h) rfl ?_ fun h => Bool.noConfusion h
  simp only [Parts.lexer, List.forall_mem_cons, List.not_mem_nil, false_implies, implies_true,
    and_true]
  exact ⟨counts_newlines false _,
    counts_run _ (by decide +kernel) (by decide +kernel) fun h => Bool.noConfusion h,
    counts_run _ rfl rfl fun h => Bool.noConfusion h,
    counts_run _ (by decide +kernel) (by decide +kernel) fun h => Bool.noConfusion h,
    counts_spelled false _ (by decide), counts_spelled false _ (by decide)⟩

end Label

/-! ## Actions with an equals sign in front -/

/-- A character in front that neither is a line end nor starts a comment. -/
theorem countedLines_cons {hides : Bool} {c : Char} (hline : c ≠ '\n') (hslash : c ≠ '/')
    (cs : List Char) (n : Nat) :
    countedLines hides (c :: cs) (n + 1) = countedLines hides cs n := by
  have hmarks : marks hides (c :: cs) = (c, false) :: marks hides cs := by
    cases hides with
    | false => rfl
    | true =>
      show inComments 0 (c :: cs) = _
      rw [inComments, if_pos (size_comment_of_ne hslash cs)]
      rfl
  rw [countedLines, hmarks, List.take_succ_cons, List.count_cons_of_ne (by simp [hline])]
  rfl

theorem Action.scan_counted (line : Nat) (cs : List Char) :
    (Action.scan line cs).Counted true line cs := by
  by_cases hfront : cs.head? = some '='
  · obtain ⟨cs, rfl⟩ := List.head?_eq_some_iff.mp hfront
    have hcons (n : Nat) : countedLines true ('=' :: cs) (n + 1) = countedLines true cs n :=
      countedLines_cons (by decide) (by decide) cs n
    show ((lexer.scanFrom 0 line 1 cs).cons ⟨.leadingEquals, "=", line, 0, line⟩).Counted true
      line _
    have hone : "=".length = 1 := by decide +kernel
    -- behind the sign the offsets are one further on
    have hat {t : Token Symbol} (ht : t ∈ (lexer.scanFrom 0 line 1 cs).tokens) :
        ∃ ts y, lexer.At line 1 cs ts t y ∧ t.offset = t.offset - 1 + 1 := by
      obtain ⟨ts, us, htokens⟩ := List.append_of_mem ht
      obtain ⟨y, hat⟩ := Lexer.at_scanFrom htokens
      obtain ⟨n, hreaches, -⟩ := hat.reaches
      have hoffset := hat.offset
      have hle := hreaches.suffix.length_le
      exact ⟨_, y, hat, by omega⟩
    constructor
    · intro t ht
      rcases List.mem_cons.mp ht with rfl | ht
      · have hsign : "=".toList = ['='] := by decide +kernel
        show "=".toList <+: '=' :: cs
        rw [hsign]
        exact ⟨cs, rfl⟩
      · obtain ⟨ts, y, hat, hoffset⟩ := hat ht
        rw [hoffset, List.drop_succ_cons]
        exact hat.place
    · intro t ht
      rcases List.mem_cons.mp ht with rfl | ht
      · refine ⟨rfl, ?_⟩
        show line = line + countedLines true ('=' :: cs) (0 + "=".length)
        rw [hone, hcons]
        rfl
      · obtain ⟨ts, y, hat, hoffset⟩ := hat ht
        rw [hoffset, hcons, Nat.add_right_comm, hcons]
        exact hat.lines lexer_counts
    · obtain ⟨n, hreaches, hline⟩ := lexer.reaches_scanFrom line 1 cs
      have hle := hreaches.suffix.length_le
      show (lexer.scanFrom 0 line 1 cs).tail.line = _
      rw [hline, hreaches.lines lexer_counts, ← hcons]
      refine congrArg (fun k => line + countedLines true ('=' :: cs) k) ?_
      exact (Nat.succ_sub hle).symm
  · rw [scan_of_head hfront]
    exact lexer_counts.scan line cs

theorem Action.scan_shift (line n : Nat) (cs : List Char) :
    Action.scan (line + n) cs = (Action.scan line cs).shift n := by
  by_cases hfront : cs.head? = some '='
  · obtain ⟨cs, rfl⟩ := List.head?_eq_some_iff.mp hfront
    show (lexer.scanFrom 0 (line + n) 1 cs).cons _ = ((lexer.scanFrom 0 line 1 cs).cons _).shift n
    rw [Lexer.scanFrom_shift]
    rfl
  · rw [scan_of_head hfront, scan_of_head hfront]
    exact lexer.scanFrom_shift 0 line 0 n cs

/-! ## What the readers report -/

theorem Label.Section.reports : Label.Section.reader.Reports Label.Section.Mark.label := by
  constructor
  · intro s t n k h
    have h : Label.Section.step s t = .error (.unexpected n k) := h
    rw [Label.Section.step] at h
    split at h
    · cases h
    · cases h
      exact ⟨rfl, rfl⟩
  · intro s n k h
    have h : Label.Section.finish s = .error (.unexpected n k) := h
    rw [Label.Section.finish] at h
    split at h <;> cases h

/-- The computation fails without a line, if it fails. -/
def Lineless {α : Type} (x : Except Fault α) : Prop := ∀ n k, x ≠ .error (.unexpected n k)

namespace Lineless

variable {α β : Type}

theorem ok (a : α) : Lineless (.ok a) := fun _ _ h => by cases h

theorem bind {x : Except Fault α} {f : α → Except Fault β} (hx : Lineless x)
    (hf : ∀ a, Lineless (f a)) : Lineless (x >>= f) := by
  intro n k h
  rcases x with e | a
  · cases h
    exact hx n k rfl
  · exact hf a n k h

/-- So a line comes from what is done with the value. -/
theorem of_bind {x : Except Fault α} {f : α → Except Fault β} (hx : Lineless x) {n : Nat}
    {k : String} (h : (x >>= f) = .error (.unexpected n k)) :
    ∃ a, f a = .error (.unexpected n k) := by
  rcases x with e | a
  · cases h
    exact absurd rfl (hx n k)
  · exact ⟨a, h⟩

end Lineless

theorem Label.Parts.lineless_next (s : Label.Parts.State) (k : Label.Parts.Mark)
    (text : String) : Lineless (s.next k text) := by
  obtain ⟨parts, p⟩ := s
  cases p with
  | bare n =>
    unfold Label.Parts.State.next
    dsimp only
    split
    · exact .ok _
    · intro n k h
      cases h
    · exact .ok _
  | _ => exact .ok _

theorem Label.Parts.reports : Label.Parts.reader.Reports Label.Parts.Mark.label := by
  constructor
  · intro s t n k h
    obtain ⟨next, hnext⟩ := (Label.Parts.lineless_next s t.kind t.text).of_bind h
    cases next <;> cases hnext
    exact ⟨rfl, rfl⟩
  · intro s n k h
    have h : Label.Parts.finish s = .error (.unexpected n k) := h
    rw [Label.Parts.finish] at h
    split at h <;> cases h

theorem Expr.lineless_closeUnary (fs : List Expr.Frame) (e : Expr) :
    Lineless (Expr.closeUnary fs e) := by
  fun_induction Expr.closeUnary fs e with
  | case1 =>
    intro n k h
    cases h
  | case2 op fs e ih => exact ih
  | case3 => exact .ok _

theorem Expr.lineless_step (d : Dialect) (commas : Bool) (p : Expr.Position) (k : Symbol)
    (text : String) : Lineless (p.step d commas k text) := by
  cases p with
  | after fs e x =>
    unfold Expr.Position.step
    dsimp only
    split
    · exact .ok _
    · split
      · exact .ok _
      · exact (Expr.lineless_closeUnary fs e).bind fun _ => .ok _
  | _ => exact .ok _

theorem Condition.reports : Condition.reader.Reports Symbol.label := by
  constructor
  · intro p t n k h
    obtain ⟨next, hnext⟩ := (Expr.lineless_step _ _ _ _ _).of_bind h
    cases next <;> cases hnext <;> exact ⟨rfl, rfl⟩
  · intro p n k h
    have h : Condition.finish p = .error (.unexpected n k) := h
    unfold Condition.finish at h
    split at h
    · cases h
    · obtain ⟨⟨fs, e⟩, hclosed⟩ := (Expr.lineless_closeUnary _ _).of_bind h
      dsimp only at hclosed
      split at hclosed <;> cases hclosed
    · cases h

namespace Action

theorem lineless_add (kind : Kind) (w : TypeWord) : Lineless (kind.add w) := by
  intro n k h
  unfold Kind.add at h
  split at h
  case h_3 => split at h <;> cases h
  all_goals cases h

theorem lineless_resolve (ws : List TypeWord) : Lineless (resolve ws) := by
  have hfold (kind : Kind) : Lineless (ws.foldlM Kind.add kind) := by
    induction ws generalizing kind with
    | nil => exact .ok kind
    | cons w ws ih =>
      rw [List.foldlM_cons]
      exact (lineless_add kind w).bind ih
  refine (hfold .unset).bind fun kind n k h => ?_
  cases kind <;> cases h

theorem lineless_close (s : State) (draft : Draft) : Lineless (s.close draft) :=
  (lineless_resolve draft.words).bind fun _ => .ok _

theorem lineless_drafting (p : Drafting) (k : Symbol) (text : String) :
    Lineless (p.step k text) := by
  cases p with
  | dimension draft groups d o =>
    rw [Drafting.step]
    split
    · exact .ok _
    · split <;> exact .ok _
  | size draft groups d o e =>
    refine (Expr.lineless_step _ _ _ _ _).bind fun _ => ?_
    split <;> exact .ok _
  | initializer draft d levels again =>
    rw [Drafting.step]
    split
    · exact .ok _
    · split
      · intro n k h
        cases h
      · split <;> exact .ok _
  | value draft d levels e =>
    refine (Expr.lineless_step _ _ _ _ _).bind fun _ => ?_
    split <;> exact .ok _
  | _ => exact .ok _

theorem lineless_advance (s : State) (k : Symbol) (text : String) :
    Lineless (s.advance k text) := by
  obtain ⟨depth, items, p⟩ := s
  cases p with
  | boundary => exact .ok _
  | statement e =>
    refine (Expr.lineless_step _ _ _ _ _).bind fun _ => ?_
    split <;> exact .ok _
  | words ws => exact .ok _
  | declaring p =>
    refine (lineless_drafting _ _ _).bind fun _ => ?_
    split <;> exact .ok _
  | complete draft =>
    unfold State.advance
    dsimp only
    split
    · exact (lineless_close _ _).bind fun _ => .ok _
    · exact .ok _

theorem reports : reader.Reports Symbol.label := by
  constructor
  · intro s t n k h
    obtain ⟨next, hnext⟩ := (lineless_advance s t.kind t.text).of_bind h
    cases next <;> cases hnext
    exact ⟨rfl, rfl⟩
  · intro s n k h
    have hlast : Lineless (finish s) := by
      obtain ⟨depth, items, p⟩ := s
      have hdepth (s : State) :
          Lineless (if s.depth = 0 then pure s.items else throw .unfinished) := by
        intro n k h
        split at h <;> cases h
      cases p with
      | boundary => exact hdepth _
      | complete draft => exact (lineless_close _ draft).bind hdepth
      | _ =>
        intro n k h
        cases h
    exact hlast n k h

end Action

/-! ## Texts one after another -/

/-- A reader of texts with the laws of its counter: tokens are found and counted the same from
wherever it starts, and the line of a token that can not stand is reported. -/
structure CountedReader where
  Kind : Type
  State : Type
  Result : Type
  read : Nat → String → Except Fault Result × Nat
  scan : Nat → List Char → Scan Kind
  reader : Reader Kind State Result
  label : Kind → String
  /-- Comments are left out. -/
  hides : Bool
  read_eq : ∀ line text, read line text = reader.run (scan line text.toList)
  counted : ∀ line cs, (scan line cs).Counted hides line cs
  shift : ∀ line n cs, scan (line + n) cs = (scan line cs).shift n
  blind : reader.LineBlind
  reports : reader.Reports label

def Label.Language.reading : Label.Language → CountedReader
  | state =>
    ⟨_, _, _, Label.Section.read, Label.Section.lexer.scan, Label.Section.reader,
      Label.Section.Mark.label, false, fun _ _ => rfl, Label.Section.lexer_counts.scan,
      fun line n cs => Lexer.scanFrom_shift _ 0 line 0 n cs, Label.Section.lineBlind,
      Label.Section.reports⟩
  | transition =>
    ⟨_, _, _, Label.Parts.read, Label.Parts.lexer.scan, Label.Parts.reader,
      Label.Parts.Mark.label, false, fun _ _ => rfl, Label.Parts.lexer_counts.scan,
      fun line n cs => Lexer.scanFrom_shift _ 0 line 0 n cs, Label.Parts.lineBlind,
      Label.Parts.reports⟩
  | condition =>
    ⟨_, _, _, Condition.read, Condition.lexer.scan, Condition.reader, Symbol.label, true,
      fun _ _ => rfl, Condition.lexer_counts.scan,
      fun line n cs => Lexer.scanFrom_shift _ 0 line 0 n cs, Condition.lineBlind,
      Condition.reports⟩
  | action =>
    ⟨_, _, _, Action.read, Action.scan, Action.reader, Symbol.label, true, fun _ _ => rfl,
      Action.scan_counted, Action.scan_shift, Action.lineBlind, Action.reports⟩

namespace CountedReader

variable (R : CountedReader)

/-- The counter after texts that are read one after another, whether they fail or not. -/
def counter (texts : List String) : Nat := texts.foldl (fun line text => (R.read line text).2) 1

/-- The first token of a text that can not stand. -/
def offender? (text : String) : Option (Token R.Kind) :=
  R.reader.offender? R.reader.start (R.scan 1 text.toList).tokens

/-- How far a text is read: with its offender, or else up to its end or to a character that starts
no token. -/
def extent (text : String) : Nat :=
  ((R.offender? text).map fun t => t.offset + t.text.length).getD
    (text.toList.length - ((R.scan 1 text.toList).tail.rest?.getD []).length)

/-- The line ends outside of comments in what is read of the texts. -/
def carried : List String → Nat
  | [] => 0
  | text :: texts => countedLines R.hides text.toList (R.extent text) + carried texts

variable {R}

theorem offender?_scan (n : Nat) (text : String) :
    R.reader.offender? R.reader.start (R.scan (1 + n) text.toList).tokens =
      (R.offender? text).map (Token.shift n) := by
  rw [R.shift]
  exact Reader.offender?_shift R.blind n _ _

theorem read_snd (n : Nat) (text : String) :
    (R.read (1 + n) text).2 = 1 + n + countedLines R.hides text.toList (R.extent text) := by
  have hcounted := R.counted 1 text.toList
  rw [R.read_eq, Reader.run, Reader.runFrom_snd, offender?_scan, extent]
  cases ht : R.offender? text with
  | none =>
    have htail : (R.scan (1 + n) text.toList).tail.line = (R.scan 1 text.toList).tail.line + n := by
      rw [R.shift, Scan.shift]
      cases (R.scan 1 text.toList).tail <;> rfl
    simp only [Option.map_none, Option.getD_none]
    rw [htail, hcounted.tail]
    omega
  | some t =>
    obtain ⟨-, hnext⟩ := hcounted.token t (Reader.offender?_mem ht)
    simp only [Option.map_some, Option.getD_some, Token.shift]
    omega

/-- The counter runs on over all that is read. -/
theorem counter_eq (texts : List String) : R.counter texts = 1 + R.carried texts := by
  have hfold (n : Nat) : texts.foldl (fun line text => (R.read line text).2) (1 + n) =
      1 + n + R.carried texts := by
    induction texts generalizing n with
    | nil => rfl
    | cons text texts ih =>
      rw [List.foldl_cons, read_snd, Nat.add_assoc 1 n, ih, carried]
      omega
  exact hfold 0

end CountedReader

/-- A token is reported with the line ends of all texts so far that are outside of comments. So the
line is the right one in its own text just if the earlier texts have brought as many line ends as
comments of this text hide. -/
theorem reported_line_iff (language : Label.Language) (texts : List String) (text : String)
    (n : Nat) (name : String)
    (h : (language.reading.read (language.reading.counter texts) text).1 =
      .error (.unexpected n name)) :
    ∃ t, language.reading.offender? text = some t ∧
      name = language.reading.label t.kind ∧
      t.text.toList <+: text.toList.drop t.offset ∧
      n = 1 + language.reading.carried texts +
        countedLines language.reading.hides text.toList t.offset ∧
      (n = 1 + (text.toList.take t.offset).count '\n' ↔
        language.reading.carried texts =
          hiddenLines language.reading.hides text.toList t.offset) := by
  have hcounted := language.reading.counted 1 text.toList
  rw [CountedReader.counter_eq, CountedReader.read_eq] at h
  obtain ⟨t', ht', hn, hname⟩ := Reader.runFrom_unexpected language.reading.reports h
  rw [CountedReader.offender?_scan] at ht'
  obtain ⟨t, ht, rfl⟩ := Option.map_eq_some_iff.mp ht'
  have hmem := Reader.offender?_mem ht
  obtain ⟨hline, -⟩ := hcounted.token t hmem
  have hn : n = t.line + language.reading.carried texts := hn
  have hall := counted_add_hidden language.reading.hides text.toList t.offset
  refine ⟨t, ht, hname, hcounted.place t hmem, by omega, ?_⟩
  constructor
  · intro hright
    omega
  · intro hcarried
    omega

/-- The second text fails in front of its line end, and the third has a line end in a comment. -/
theorem reported_line_iff_after_failure :
    (Condition.read (Label.Language.condition.reading.counter ["a\n\n", "b !\nc"])
        "/* \n */ x\n\n> > y").1 = .error (.unexpected 5 ">") ∧
      ∃ t, Label.Language.condition.reading.offender? "/* \n */ x\n\n> > y" = some t ∧
        ">" = Label.Language.condition.reading.label t.kind ∧
        t.text.toList <+: "/* \n */ x\n\n> > y".toList.drop t.offset ∧
        5 = 1 + Label.Language.condition.reading.carried ["a\n\n", "b !\nc"] +
          countedLines true "/* \n */ x\n\n> > y".toList t.offset ∧
        (5 = 1 + ("/* \n */ x\n\n> > y".toList.take t.offset).count '\n' ↔
          Label.Language.condition.reading.carried ["a\n\n", "b !\nc"] =
            hiddenLines true "/* \n */ x\n\n> > y".toList t.offset) := by
  have h : (Condition.read (Label.Language.condition.reading.counter ["a\n\n", "b !\nc"])
      "/* \n */ x\n\n> > y").1 = .error (.unexpected 5 ">") := by
    decide +kernel
  exact ⟨h, reported_line_iff .condition ["a\n\n", "b !\nc"] "/* \n */ x\n\n> > y" 5 ">" h⟩

/-- Earlier texts move the line on, and a line end in a comment does not. -/
theorem reported_line_wrong :
    ((Action.parse (Action.parse 1 "a = 1;\n" "" .empty).2 "b = ;" "" .empty).1 =
        .error (.unexpected 2 ";") ∧
      '\n' ∉ "b = ;".toList) ∧
    (Action.parse 1 "/* \n */ b = ;" "" .empty).1 = .error (.unexpected 1 ";") ∧
      "/* \n */ b = ;".toList = "/* \n */ b = ".toList ++ [';'] ∧
      "/* \n */ b = ".toList.count '\n' = 1 := by
  decide +kernel

end Statechart
