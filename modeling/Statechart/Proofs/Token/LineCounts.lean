import Mathlib.Data.List.Count
import Statechart.Proofs.Token.Reach

/-!
What the line counter counts. A lexer counts line ends where it takes them for tokens or passes over
them, but not in comments that it leaves out. `marks` says of each character of a text whether it
stands in such a comment, and the counter at a token is the one at the start and the line ends in
front of the token that do not (`Lexer.Counts.scan`). The counter is never looked at
(`Reader.offender?_shift`), so a reading that starts later counts on from there.
-/

namespace Statechart

/-! ## Line ends in comments -/

/-- Each character, and whether it stands in a comment. The first `skip` characters belong to a
comment that was already found. -/
def inComments : Nat → List Char → List (Char × Bool)
  | _, [] => []
  | skip + 1, c :: cs => (c, true) :: inComments skip cs
  | 0, c :: cs =>
    if Pattern.comment.size (c :: cs) = 0 then (c, false) :: inComments 0 cs
    else (c, true) :: inComments (Pattern.comment.size (c :: cs) - 1) cs

/-- Each character, and whether it stands in a comment that is left out. -/
def marks (hides : Bool) (cs : List Char) : List (Char × Bool) :=
  if hides then inComments 0 cs else cs.map (·, false)

/-- The line ends among the first characters that are outside of comments. -/
def countedLines (hides : Bool) (cs : List Char) (n : Nat) : Nat :=
  ((marks hides cs).take n).count ('\n', false)

/-- The line ends among the first characters that stand in comments. -/
def hiddenLines (hides : Bool) (cs : List Char) (n : Nat) : Nat :=
  ((marks hides cs).take n).count ('\n', true)

theorem map_fst_inComments (skip : Nat) (cs : List Char) :
    (inComments skip cs).map Prod.fst = cs := by
  induction cs generalizing skip with
  | nil => cases skip <;> rfl
  | cons c cs ih =>
    cases skip with
    | zero =>
      rw [inComments]
      split
      · rw [List.map_cons, ih]
      · rw [List.map_cons, ih]
    | succ skip => rw [inComments, List.map_cons, ih]

theorem map_fst_marks (hides : Bool) (cs : List Char) : (marks hides cs).map Prod.fst = cs := by
  cases hides with
  | true => exact map_fst_inComments 0 cs
  | false => exact (List.map_map ..).trans (List.map_id cs)

theorem count_fst (c : Char) (l : List (Char × Bool)) :
    (l.map Prod.fst).count c = l.count (c, false) + l.count (c, true) := by
  induction l with
  | nil => rfl
  | cons p l ih =>
    obtain ⟨d, b⟩ := p
    rw [List.map_cons, List.count_cons, ih, List.count_cons, List.count_cons]
    cases b <;> by_cases hd : d = c <;> simp [hd] <;> omega

/-- All line ends are counted or hidden. -/
theorem counted_add_hidden (hides : Bool) (cs : List Char) (n : Nat) :
    (cs.take n).count '\n' = countedLines hides cs n + hiddenLines hides cs n := by
  rw [countedLines, hiddenLines, ← count_fst, List.map_take, map_fst_marks]

theorem inComments_skip (n : Nat) (cs : List Char) :
    inComments n cs = (cs.take n).map (·, true) ++ inComments 0 (cs.drop n) := by
  induction cs generalizing n with
  | nil => cases n <;> rfl
  | cons c cs ih =>
    cases n with
    | zero => rfl
    | succ n => rw [inComments, ih, List.take_succ_cons, List.map_cons, List.drop_succ_cons]; rfl

theorem size_comment_of_ne {c : Char} (hc : c ≠ '/') (cs : List Char) :
    Pattern.comment.size (c :: cs) = 0 := by
  simp [Pattern.size, hc]

/-- Text in which no comment starts. -/
theorem inComments_append {w : List Char} (hw : '/' ∉ w) (rest : List Char) :
    inComments 0 (w ++ rest) = w.map (·, false) ++ inComments 0 rest := by
  induction w with
  | nil => rfl
  | cons c w ih =>
    rw [List.mem_cons, not_or] at hw
    rw [List.cons_append, inComments, if_pos (size_comment_of_ne (Ne.symm hw.1) _), ih hw.2]
    rfl

/-! ## Lexers that count -/

variable {κ σ α : Type}

namespace Lexer

open Statechart (marks)

variable {lx : Lexer κ} {hides : Bool}

/-- The lexer counts the line ends of what it takes, unless that is a comment, which it leaves out,
and takes no start of a comment for something else. -/
structure Counts (hides : Bool) (lx : Lexer κ) : Prop where
  skipped : ∀ c, lx.skipped c = true → c ≠ '\n' ∧ c ≠ '/'
  matched : ∀ c cs m, lx.match? (c :: cs) = some m →
    (m.lines = m.text.count '\n' ∧
      (hides = true → Pattern.comment.size (c :: cs) = 0 ∧ '/' ∉ m.text.tail)) ∨
    hides = true ∧ m.lines = 0 ∧ m.text.length = Pattern.comment.size (c :: cs)

/-- The marks of what is matched at the front of a text. -/
theorem Counts.marks_matched (hlx : lx.Counts hides) {c : Char} {cs : List Char} {m : Match κ}
    (hm : lx.match? (c :: cs) = some m) :
    ∃ front, marks hides (c :: cs) = front ++ marks hides ((c :: cs).drop m.text.length) ∧
      front.length = m.text.length ∧ front.count ('\n', false) = m.lines := by
  have hcount (w : List Char) : (w.map fun c => (c, false)).count ('\n', false) = w.count '\n' :=
    List.count_map_of_injective w (fun c => (c, false)) (fun _ _ h => congrArg Prod.fst h) '\n'
  have hwhole := append_drop hm
  obtain ⟨tail, htext, -⟩ := match?_text hm
  rcases hlx.matched c cs m hm with ⟨hlines, hplain⟩ | ⟨rfl, hlines, hlength⟩
  · refine ⟨m.text.map (·, false), ?_, List.length_map .., by rw [hcount, hlines]⟩
    cases hides with
    | false =>
      show (c :: cs).map (·, false) = _ ++ ((c :: cs).drop _).map (·, false)
      rw [← List.map_append, hwhole]
    | true =>
      obtain ⟨hsize, hslash⟩ := hplain rfl
      rw [htext] at hwhole hslash ⊢
      obtain ⟨-, hcs⟩ := List.cons.inj hwhole
      have hslash : '/' ∉ tail := hslash
      show inComments 0 (c :: cs) = (c, false) :: tail.map (·, false) ++ inComments 0 _
      rw [inComments, if_pos hsize, List.cons_append, ← inComments_append hslash]
      exact congrArg (fun cs => (c, false) :: inComments 0 cs) hcs.symm
  · have hpos : Pattern.comment.size (c :: cs) ≠ 0 := by
      rw [← hlength, htext]
      exact Nat.succ_ne_zero _
    obtain ⟨n, hn⟩ := Nat.exists_eq_succ_of_ne_zero hpos
    have htake : m.text = c :: cs.take n := by
      rw [hn] at hlength
      have hprefix := List.prefix_iff_eq_take.mp ⟨_, hwhole⟩
      rwa [hlength] at hprefix
    refine ⟨m.text.map (·, true), ?_, List.length_map .., ?_⟩
    · show inComments 0 (c :: cs) = _ ++ inComments 0 _
      rw [inComments, if_neg hpos, inComments_skip, hlength, hn, htake]
      rfl
    · rw [hlines, List.count_eq_zero]
      simp

/-- The marks of what is in front of a reached rest. -/
theorem Reaches.marks (hlx : lx.Counts hides) {x y : List Char} {ts : List (κ × String)} {n : Nat}
    (h : lx.Reaches x ts n y) :
    ∃ front, marks hides x = front ++ Statechart.marks hides y ∧ front.count ('\n', false) = n := by
  induction h with
  | done y => exact ⟨[], rfl, rfl⟩
  | @skip c cs ts n y hs _ ih =>
    obtain ⟨front, hfront, hcount⟩ := ih
    obtain ⟨hline, hslash⟩ := hlx.skipped c hs
    refine ⟨(c, false) :: front, ?_, by simp [hline, hcount]⟩
    cases hides with
    | false => exact congrArg ((c, false) :: ·) hfront
    | true =>
      show inComments 0 (c :: cs) = _
      rw [inComments, if_pos (size_comment_of_ne hslash cs)]
      exact congrArg ((c, false) :: ·) hfront
  | drop _ hm _ _ ih | keep _ hm _ _ ih =>
    obtain ⟨front, hfront, hcount⟩ := ih
    obtain ⟨first, hfirst, -, hlines⟩ := hlx.marks_matched hm
    refine ⟨first ++ front, ?_, by rw [List.count_append, hlines, hcount]⟩
    rw [hfirst, hfront, List.append_assoc]

theorem length_marks (hides : Bool) (cs : List Char) : (marks hides cs).length = cs.length := by
  rw [← List.length_map (f := Prod.fst), map_fst_marks]

/-- The line ends in front of a reached rest. -/
theorem Reaches.lines (hlx : lx.Counts hides) {x y : List Char} {ts : List (κ × String)} {n : Nat}
    (h : lx.Reaches x ts n y) : n = countedLines hides x (x.length - y.length) := by
  obtain ⟨front, hfront, rfl⟩ := h.marks hlx
  have hlength := congrArg List.length hfront
  rw [List.length_append, length_marks, length_marks] at hlength
  rw [countedLines, hfront, List.take_left' (by omega)]

/-- The line ends in front of a token, and with those of the token itself. -/
theorem At.lines (hlx : lx.Counts hides) {line offset : Nat} {x y : List Char}
    {ts : List (κ × String)} {t : Token κ} (h : lx.At line offset x ts t y) :
    t.line = line + countedLines hides x (t.offset - offset) ∧
      t.next = line + countedLines hides x (t.offset - offset + t.text.length) := by
  obtain ⟨n, hreaches, hline⟩ := h.reaches
  obtain ⟨m, hm, hk, htext, hnext⟩ := h.found
  have hoffset := h.offset
  have hsuffix := hreaches.suffix.length_le
  have hlines := hreaches.lines hlx
  rw [show x.length - y.length = t.offset - offset by omega] at hlines
  refine ⟨by rw [hline, hlines], ?_⟩
  cases y with
  | nil => exact Bool.noConfusion h.fresh
  | cons c cs =>
    have hbehind := (hreaches.trans (.keep h.fresh hm hk (.done _))).lines hlx
    have hwhole := congrArg List.length (append_drop hm)
    rw [List.length_append] at hwhole
    rw [htext, String.length_ofList, hnext, hline]
    rw [show x.length - ((c :: cs).drop m.text.length).length =
      t.offset - offset + m.text.length by omega] at hbehind
    omega

theorem At.place {line offset : Nat} {x y : List Char} {ts : List (κ × String)} {t : Token κ}
    (h : lx.At line offset x ts t y) : t.text.toList <+: x.drop (t.offset - offset) := by
  obtain ⟨n, hreaches, -⟩ := h.reaches
  obtain ⟨m, hm, -, htext, -⟩ := h.found
  have hoffset := h.offset
  have hdrop := List.suffix_iff_eq_drop.mp hreaches.suffix
  have hle := hreaches.suffix.length_le
  rw [show x.length - y.length = t.offset - offset by omega] at hdrop
  rw [← hdrop, htext, String.toList_ofList]
  cases y with
  | nil => exact Bool.noConfusion h.fresh
  | cons c cs => exact ⟨_, append_drop hm⟩

end Lexer

/-- The places and the counters of a scan that starts in a line of a text. -/
structure Scan.Counted (hides : Bool) (line : Nat) (cs : List Char) (s : Scan κ) : Prop where
  place : ∀ t ∈ s.tokens, t.text.toList <+: cs.drop t.offset
  token : ∀ t ∈ s.tokens, t.line = line + countedLines hides cs t.offset ∧
    t.next = line + countedLines hides cs (t.offset + t.text.length)
  tail : s.tail.line = line + countedLines hides cs (cs.length - (s.tail.rest?.getD []).length)

theorem Lexer.Counts.scan {lx : Lexer κ} {hides : Bool} (hlx : lx.Counts hides) (line : Nat)
    (cs : List Char) : (lx.scan line cs).Counted hides line cs := by
  have hat {t : Token κ} (ht : t ∈ (lx.scan line cs).tokens) : ∃ ts y, lx.At line 0 cs ts t y := by
    obtain ⟨ts, us, htokens⟩ := List.append_of_mem ht
    exact ⟨_, at_scanFrom htokens⟩
  constructor
  · intro t ht
    obtain ⟨ts, y, h⟩ := hat ht
    exact h.place
  · intro t ht
    obtain ⟨ts, y, h⟩ := hat ht
    exact h.lines hlx
  · obtain ⟨n, hreaches, hline⟩ := lx.reaches_scanFrom line 0 cs
    exact hline.trans (congrArg (line + ·) (hreaches.lines hlx))

/-! ## Counters that run on -/

/-- The token, with its line counters moved on. -/
def Token.shift (n : Nat) (t : Token κ) : Token κ :=
  { t with line := t.line + n, next := t.next + n }

def Tail.shift (n : Nat) : Tail → Tail
  | .complete line => .complete (line + n)
  | .unknown rest line => .unknown rest (line + n)

def Scan.shift (n : Nat) (s : Scan κ) : Scan κ := ⟨s.tokens.map (Token.shift n), s.tail.shift n⟩

/-- A scan that starts later finds the same tokens. -/
theorem Lexer.scanFrom_shift (lx : Lexer κ) (skip line offset n : Nat) (cs : List Char) :
    lx.scanFrom skip (line + n) offset cs = (lx.scanFrom skip line offset cs).shift n := by
  induction cs generalizing skip line offset with
  | nil => cases skip <;> rfl
  | cons c cs ih =>
    cases skip with
    | succ skip => exact ih skip line (offset + 1)
    | zero =>
      simp only [scanFrom]
      split
      · exact ih 0 line (offset + 1)
      · cases lx.match? (c :: cs) with
        | none => rfl
        | some m =>
          have hrest := ih (m.text.length - 1) (line + m.lines) (offset + 1)
          cases hk : m.kind? with
          | none => simp only [hk, Nat.add_right_comm line n, hrest]
          | some k =>
            simp only [hk, Nat.add_right_comm line n, hrest]
            rfl

namespace Reader

variable {r : Reader κ σ α}

/-- The first token at which the reader fails. -/
def offender? (r : Reader κ σ α) : σ → List (Token κ) → Option (Token κ)
  | _, [] => none
  | s, t :: ts => (r.step s t).toOption.elim (some t) fun s' => r.offender? s' ts

theorem offender?_cons_ok {s s' : σ} {t : Token κ} {ts : List (Token κ)}
    (h : r.step s t = .ok s') : r.offender? s (t :: ts) = r.offender? s' ts := by
  rw [offender?, h]
  rfl

theorem offender?_cons_error {s : σ} {t : Token κ} {ts : List (Token κ)} {f : Fault}
    (h : r.step s t = .error f) : r.offender? s (t :: ts) = some t := by
  rw [offender?, h]
  rfl

theorem offender?_mem {s : σ} {ts : List (Token κ)} {t : Token κ}
    (h : r.offender? s ts = some t) : t ∈ ts := by
  induction ts generalizing s with
  | nil => cases h
  | cons u ts ih =>
    cases hstep : r.step s u with
    | error f =>
      rw [offender?_cons_error hstep] at h
      cases h
      exact List.mem_cons_self ..
    | ok s' =>
      rw [offender?_cons_ok hstep] at h
      exact List.mem_cons_of_mem u (ih h)

/-- The counter where a reading ends. -/
theorem runFrom_snd (s : σ) (ts : List (Token κ)) (tail : Tail) :
    (r.runFrom s ts tail).2 = ((r.offender? s ts).map Token.next).getD tail.line := by
  induction ts generalizing s with
  | nil => cases tail <;> rfl
  | cons t ts ih =>
    cases hstep : r.step s t with
    | error f =>
      rw [runFrom, hstep, offender?_cons_error hstep]
      rfl
    | ok s' =>
      rw [runFrom, hstep, offender?_cons_ok hstep]
      exact ih s'

/-- Places are not looked at before the reader fails. -/
theorem offender?_shift (hr : r.LineBlind) (n : Nat) (s : σ) (ts : List (Token κ)) :
    r.offender? s (ts.map (Token.shift n)) = (r.offender? s ts).map (Token.shift n) := by
  induction ts generalizing s with
  | nil => rfl
  | cons t ts ih =>
    rw [List.map_cons]
    cases hstep : r.step s t with
    | ok s' =>
      rw [offender?_cons_ok (hr s s' t (t.shift n) rfl rfl hstep), offender?_cons_ok hstep]
      exact ih s'
    | error f =>
      rw [offender?_cons_error hstep]
      cases hstep' : r.step s (t.shift n) with
      | error f' => exact offender?_cons_error hstep'
      | ok s' => cases hstep.symm.trans (hr s s' (t.shift n) t rfl rfl hstep')

/-- The reader reports a token that can not stand by its line and its kind, and reports no other. -/
structure Reports (r : Reader κ σ α) (label : κ → String) : Prop where
  step : ∀ s t n k, r.step s t = .error (.unexpected n k) → n = t.line ∧ k = label t.kind
  finish : ∀ s n k, r.finish s ≠ .error (.unexpected n k)

theorem runFrom_unexpected {label : κ → String} (hr : r.Reports label) {s : σ}
    {ts : List (Token κ)} {tail : Tail} {n : Nat} {k : String}
    (h : (r.runFrom s ts tail).1 = .error (.unexpected n k)) :
    ∃ t, r.offender? s ts = some t ∧ n = t.line ∧ k = label t.kind := by
  induction ts generalizing s with
  | nil =>
    cases tail with
    | complete line => exact absurd h (hr.finish s n k)
    | unknown rest line => cases h
  | cons t ts ih =>
    cases hstep : r.step s t with
    | error f =>
      rw [runFrom, hstep] at h
      cases h
      obtain ⟨rfl, rfl⟩ := hr.step s t n k hstep
      exact ⟨t, offender?_cons_error hstep, rfl, rfl⟩
    | ok s' =>
      rw [runFrom, hstep] at h
      rw [offender?_cons_ok hstep]
      exact ih h

end Reader

end Statechart
