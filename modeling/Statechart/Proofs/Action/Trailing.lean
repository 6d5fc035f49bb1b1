import Mathlib.Data.List.TakeWhile
import Statechart.Proofs.Action.Sequencing
import Statechart.Proofs.Label.Marks

/-!
What stands behind an action text. Blanks, a semicolon or a comment go on with none of the tokens in
front of them, unless these end in a comment that is open to the end of the line (`exists_front`).
So a comment behind a text and blanks changes nothing (`read_comment`), and blanks behind a text
that can be read, with a semicolon at its end or without, change nothing if it can be read with them
and without a semicolon (`read_gap`): where they end a line, they end a statement, too.
-/

namespace Statechart

/-! ## Characters that end a token -/

/-- The semicolon, and the blanks between the tokens of an action. -/
def stops : List Char := [';', '\n', ' ', '\t', '\r', '\x0c', '\x0b']

/-- A text with which nothing in front of it goes on: it starts with a semicolon or a blank, and
closes no comment. -/
structure Parted (v : List Char) : Prop where
  head : ∀ d ∈ v.head?, d ∈ stops
  star : '*' ∉ v

theorem parted_nil : Parted [] := ⟨by simp, by simp⟩

theorem stops_ne : ∀ d ∈ stops, d ≠ '/' ∧ d ≠ '*' := by simp [stops]

namespace Pattern

/-- A match does not go on with the character. -/
def StopsAt (d : Char) : Pattern → Prop
  | run _ rest => rest d = false
  | spelled options => ∀ o ∈ options, d ∉ o.tail
  | comment => True

instance (d : Char) : DecidablePred (StopsAt d)
  | run _ rest => inferInstanceAs (Decidable (rest d = false))
  | spelled options => inferInstanceAs (Decidable (∀ o ∈ options, d ∉ o.tail))
  | comment => inferInstanceAs (Decidable True)

theorem closing?_eq_none {v : List Char} (h : '*' ∉ v) : closing? v = none := by
  induction v with
  | nil => rfl
  | cons c v ih =>
    rw [List.mem_cons, not_or] at h
    rw [closing?, ih h.2, Option.map_none]
    rintro rest rfl
    exact absurd rfl h.1

theorem closing?_parted {v : List Char} (hv : Parted v) (cs : List Char) :
    closing? (cs ++ v) = closing? cs := by
  fun_induction closing? cs with
  | case1 => rfl
  | case2 c cs hne ih =>
    rw [List.cons_append, closing?, ih]
    rintro rest rfl heq
    cases cs with
    | nil =>
      have hslash := hv.head '/' (by rw [show v = '/' :: rest from heq]; rfl)
      exact absurd rfl (stops_ne '/' hslash).1
    | cons d cs =>
      cases heq
      exact hne cs rfl rfl
  | case3 => exact closing?_eq_none hv.star

/-- The text is a comment to the end of the line, and the line goes on behind it. -/
def OpenLine (x : List Char) : Prop := ∃ r, x = '/' :: '/' :: r ∧ '\n' ∉ r

theorem size_parted {p : Pattern} (hp : ∀ d ∈ stops, p.StopsAt d) {v : List Char} (hv : Parted v)
    {c : Char} {cs : List Char} (hclosed : ¬ OpenLine (c :: cs)) :
    p.size (c :: (cs ++ v)) = p.size (c :: cs) := by
  cases v with
  | nil => rw [List.append_nil]
  | cons d v =>
    have hd := hv.head d rfl
    have hp := hp d hd
    cases p with
    | run first more => simp only [size, takeWhile_append hp]
    | spelled options =>
      have hfind : options.find? (·.isPrefixOf (c :: (cs ++ d :: v))) =
          options.find? (·.isPrefixOf (c :: cs)) := by
        refine List.find?_congr fun o ho => ?_
        cases o with
        | nil => rfl
        | cons a o =>
          have ho' : d ∉ o := hp (a :: o) ho
          simp only [List.isPrefixOf_cons_cons, isPrefixOf_append ho']
      simp only [size]
      rw [hfind]
    | comment =>
      have hmarks := stops_ne d hd
      cases cs with
      | nil => simp [size, hmarks.1, hmarks.2]
      | cons a cs =>
        by_cases hc : c = '/'
        · subst hc
          by_cases ha : a = '/'
          · subst ha
            have hline : '\n' ∈ cs := by
              by_contra hline
              exact hclosed ⟨cs, rfl, hline⟩
            obtain ⟨l, r, rfl, -⟩ := List.eq_append_cons_of_mem hline
            have htake := takeWhile_append (p := (· != '\n')) (bne_self_eq_false '\n') l
            simp only [List.cons_append, List.append_assoc, size, htake]
          · by_cases ha' : a = '*'
            · subst ha'
              simp only [List.cons_append, size, closing?_parted hv]
            · simp [size, ha, ha']
        · simp [size, hc]

end Pattern

theorem Lexer.match?_parted {κ : Type} {lx : Lexer κ}
    (hlx : ∀ r ∈ lx.rules, ∀ d ∈ stops, r.pattern.StopsAt d) {v : List Char} (hv : Parted v)
    {c : Char} {cs : List Char} (hclosed : ¬ Pattern.OpenLine (c :: cs)) :
    lx.match? (c :: (cs ++ v)) = lx.match? (c :: cs) := by
  have hrule : ∀ r ∈ lx.rules, r.match? (c :: (cs ++ v)) = r.match? (c :: cs) := by
    intro r hr
    have htake : (c :: (cs ++ v)).take (r.pattern.size (c :: cs)) =
        (c :: cs).take (r.pattern.size (c :: cs)) :=
      List.take_append_of_le_length (r.pattern.size_le (c :: cs))
    rw [Rule.match?, Rule.match?, Pattern.size_parted (hlx r hr) hv hclosed]
    cases hn : r.pattern.size (c :: cs) with
    | zero => rfl
    | succ n =>
      rw [hn] at htake
      simp only [htake]
  have hrules : lx.rules.findSome? (·.match? (c :: (cs ++ v))) =
      lx.rules.findSome? (·.match? (c :: cs)) := by
    rw [← List.head?_filterMap, ← List.head?_filterMap]
    exact congrArg _ (List.filterMap_congr hrule)
  rw [match?_cons, match?_cons, hrules]

namespace Action

/-! ## Tokens in front -/

/-- How the tokens of a text go on with those of a text behind it. -/
inductive Front (x : List Char) (ts : List (Symbol × String)) : Prop
  /-- The tokens of both texts, one after the other. -/
  | closed (h : ∀ v us left, Parted v → lexer.Cuts v us left → lexer.Cuts (x ++ v) (ts ++ us) left)
  /-- A comment takes up what is left of the line. -/
  | comment (h : ∀ v us left, Parted v → lexer.Cuts (v.dropWhile (· != '\n')) us left →
      lexer.Cuts (x ++ v) (ts ++ us) left)
  | stuck (h : ∀ v, Parted v → ∃ rest, lexer.Cuts (x ++ v) ts (some rest))

/-- Text in front of a text that is cut off from it adds its tokens. -/
theorem Front.extend {x y : List Char} {ts : List (Symbol × String)} (h : Front x ts)
    (us : List (Symbol × String)) (hfront : ∀ v vs left, Parted v → lexer.Cuts (x ++ v) vs left →
      lexer.Cuts (y ++ v) (us ++ vs) left) : Front y (us ++ ts) := by
  cases h with
  | closed h =>
    refine .closed fun v vs left hv hcuts => ?_
    rw [List.append_assoc]
    exact hfront v _ left hv (h v vs left hv hcuts)
  | comment h =>
    refine .comment fun v vs left hv hcuts => ?_
    rw [List.append_assoc]
    exact hfront v _ left hv (h v vs left hv hcuts)
  | stuck h =>
    refine .stuck fun v hv => ?_
    obtain ⟨rest, hcuts⟩ := h v hv
    exact ⟨rest, hfront v _ _ hv hcuts⟩

theorem stopsAt : ∀ r ∈ lexer.rules, ∀ d ∈ stops, r.pattern.StopsAt d := by
  have hall : ∀ r ∈ lexer.rules, stops.all (r.pattern.StopsAt ·) = true := by decide +kernel
  intro r hr d hd
  exact of_decide_eq_true (List.all_eq_true.mp (hall r hr) d hd)

theorem match?_line (cs : List Char) :
    lexer.match? ('/' :: '/' :: cs) =
      some ⟨none, '/' :: '/' :: cs.takeWhile (· != '\n'), 0⟩ := by
  have hsize : Symbol.commentRule.pattern.size ('/' :: '/' :: cs) =
      (cs.takeWhile (· != '\n')).length + 2 := Nat.add_comm ..
  have hcomment : Symbol.commentRule.match? ('/' :: '/' :: cs) =
      some ⟨none, '/' :: '/' :: cs.takeWhile (· != '\n'), 0⟩ := by
    rw [Rule.match?, hsize]
    simp only [List.take_succ_cons, ← List.prefix_iff_eq_take.mp (List.takeWhile_prefix _)]
    rfl
  rw [Lexer.match?_cons]
  simp only [lexer, List.findSome?_cons, hcomment]
  rfl

theorem cuts_line {r v : List Char} {ts : List (Symbol × String)} {left : Option (List Char)}
    (hr : '\n' ∉ r) (h : lexer.Cuts (v.dropWhile (· != '\n')) ts left) :
    lexer.Cuts ('/' :: '/' :: (r ++ v)) ts left := by
  have hall : ∀ c ∈ r, (c != '\n') = true := by
    intro c hc
    exact bne_iff_ne.mpr fun heq => hr (heq ▸ hc)
  have hdrop : ('/' :: '/' :: (r ++ v)).drop
      ('/' :: '/' :: (r ++ v).takeWhile (· != '\n')).length = v.dropWhile (· != '\n') := by
    rw [List.length_cons, List.drop_succ_cons, Label.Parts.drop_takeWhile,
      List.dropWhile_append_of_pos hall]
  exact .drop rfl (match?_line (r ++ v)) rfl (hdrop ▸ h)

theorem exists_front (x : List Char) : ∃ ts, Front x ts := by
  -- a match takes several characters at once, so the induction is on the length
  induction hn : x.length using Nat.strongRecOn generalizing x with
  | ind n ih =>
    cases x with
    | nil => exact ⟨[], .closed fun v us left _ h => h⟩
    | cons c cs =>
      rw [List.length_cons] at hn
      cases hs : lexer.skipped c with
      | true =>
        obtain ⟨ts, h⟩ := ih cs.length (by omega) cs rfl
        exact ⟨ts, h.extend [] fun v vs left _ hcuts => .skip hs hcuts⟩
      | false =>
        by_cases hopen : Pattern.OpenLine (c :: cs)
        · obtain ⟨r, hx, hr⟩ := hopen
          rw [hx]
          exact ⟨[], .comment fun v us left _ h => cuts_line hr h⟩
        · have hmatch {v : List Char} (hv : Parted v) :
              lexer.match? (c :: (cs ++ v)) = lexer.match? (c :: cs) :=
            Lexer.match?_parted stopsAt hv hopen
          cases hm : lexer.match? (c :: cs) with
          | none =>
            exact ⟨[], .stuck fun v hv => ⟨c :: (cs ++ v), .stuck hs ((hmatch hv).trans hm)⟩⟩
          | some m =>
            obtain ⟨tail, htext, -⟩ := Lexer.match?_text hm
            have hlength : 0 < m.text.length := by
              rw [htext]
              exact Nat.succ_pos _
            obtain ⟨ts, h⟩ := ih _ (by rw [List.length_drop, List.length_cons]; omega)
              ((c :: cs).drop m.text.length) rfl
            cases hk : m.kind? with
            | none =>
              refine ⟨ts, h.extend [] fun v vs left hv hcuts => ?_⟩
              rw [← Lexer.drop_append hm] at hcuts
              exact .drop hs ((hmatch hv).trans hm) hk hcuts
            | some k =>
              refine ⟨_, h.extend [(k, String.ofList m.text)] fun v vs left hv hcuts => ?_⟩
              rw [← Lexer.drop_append hm] at hcuts
              exact .keep hs ((hmatch hv).trans hm) hk hcuts

/-! ## Blanks and comments behind a text -/

/-- Blanks that may stand between the tokens of an action. -/
def IsGap (e : List Char) : Prop := ∀ c ∈ e, Symbol.isSpace c = true ∨ c = '\n'

/-- The line ends among blanks, as tokens. -/
def lineEnds (e : List Char) : List (Symbol × String) :=
  List.replicate (e.count '\n') (.newline, "\n")

theorem mem_stops_of_isSpace {c : Char} (h : Symbol.isSpace c = true) : c ∈ stops := by
  simp only [Symbol.isSpace, Bool.or_eq_true, beq_iff_eq] at h
  rcases h with (((rfl | rfl) | rfl) | rfl) | rfl <;> decide

theorem IsGap.mem_stops {e : List Char} (he : IsGap e) : ∀ c ∈ e, c ∈ stops := by
  intro c hc
  rcases he c hc with hspace | rfl
  · exact mem_stops_of_isSpace hspace
  · decide

theorem IsGap.parted {e v : List Char} (he : IsGap e) (hv : Parted v) : Parted (e ++ v) := by
  constructor
  · intro d hd
    cases e with
    | nil => exact hv.head d hd
    | cons c e =>
      obtain rfl : c = d := Option.some.inj hd
      exact he.mem_stops c (List.mem_cons_self ..)
  · rw [List.mem_append, not_or]
    exact ⟨fun hstar => (stops_ne '*' (he.mem_stops '*' hstar)).2 rfl, hv.star⟩

theorem cuts_gap {e v : List Char} (he : IsGap e) {us : List (Symbol × String)}
    {left : Option (List Char)} (h : lexer.Cuts v us left) :
    lexer.Cuts (e ++ v) (lineEnds e ++ us) left := by
  induction e with
  | nil => exact h
  | cons c e ih =>
    obtain ⟨hc, hrest⟩ := List.forall_mem_cons.mp he
    by_cases hline : c = '\n'
    · subst hline
      rw [lineEnds, List.count_cons_self, List.replicate_succ]
      exact .keep (m := ⟨some .newline, ['\n'], 1⟩) rfl rfl rfl (ih hrest)
    · have hspace : Symbol.isSpace c = true := hc.resolve_right hline
      rw [lineEnds, List.count_cons_of_ne hline]
      exact .skip hspace (ih hrest)

theorem lineEnds_dropWhile (e : List Char) :
    lineEnds (e.dropWhile (· != '\n')) = lineEnds e := by
  induction e with
  | nil => rfl
  | cons c e ih =>
    by_cases hline : c = '\n'
    · subst hline
      rfl
    · rw [List.dropWhile_cons_of_pos (by simpa using hline), ih, lineEnds, lineEnds,
        List.count_cons_of_ne hline]

/-- A comment to the end of the text, or nothing. -/
inductive IsComment : List Char → Prop
  | nil : IsComment []
  | line {r : List Char} (hline : '\n' ∉ r) (hstar : '*' ∉ r) : IsComment (' ' :: '/' :: '/' :: r)

theorem IsComment.parted {v : List Char} (h : IsComment v) : Parted v := by
  cases h with
  | nil => exact parted_nil
  | line _ hstar => exact ⟨by simp [stops], by simpa using hstar⟩

theorem IsComment.cuts {v : List Char} (h : IsComment v) : lexer.Cuts v [] none := by
  cases h with
  | nil => exact .nil
  | @line r hline _ =>
    have hcuts := cuts_line (v := []) hline (.nil : lexer.Cuts [] [] none)
    rw [List.append_nil] at hcuts
    exact .skip rfl hcuts

theorem IsComment.not_mem {v : List Char} (h : IsComment v) : '\n' ∉ v := by
  cases h with
  | nil => simp
  | line hline _ => simpa using hline

/-- In a comment that is open, blanks and another comment have the same line ends as elsewhere. -/
theorem cuts_dropWhile {e v : List Char} (he : IsGap e) (hv : IsComment v) :
    lexer.Cuts ((e ++ v).dropWhile (· != '\n')) (lineEnds e) none := by
  rw [List.dropWhile_append, ← lineEnds_dropWhile]
  split
  · next hempty =>
    have hnone : v.dropWhile (· != '\n') = [] := by
      rw [List.dropWhile_eq_nil_iff]
      intro c hc
      exact bne_iff_ne.mpr fun heq => hv.not_mem (heq ▸ hc)
    rw [hnone, List.isEmpty_iff.mp hempty]
    exact .nil
  · have hgap : IsGap (e.dropWhile (· != '\n')) := fun c hc =>
      he c ((List.dropWhile_sublist _).mem hc)
    have hcuts := cuts_gap hgap hv.cuts
    rwa [List.append_nil] at hcuts

/-- The tokens of a text that can be cut with a semicolon or nothing behind it: what comes with
blanks and a comment behind it are the line ends among the blanks. -/
theorem cuts_behind {x v : List Char} {us : List (Symbol × String)} (hv : v = [] ∨ v = [';'])
    (h : lexer.Cuts (x ++ v) us none) :
    ∃ ts, (us = ts ∨ us = ts ++ [(.semicolon, ";")]) ∧
      ∀ e v, IsGap e → IsComment v → lexer.Cuts (x ++ (e ++ v)) (ts ++ lineEnds e) none := by
  have hparted : Parted v := by
    rcases hv with rfl | rfl
    · exact parted_nil
    · exact ⟨by simp [stops], by simp⟩
  obtain ⟨ts, hfront⟩ := exists_front x
  cases hfront with
  | closed hfront =>
    refine ⟨ts, ?_, fun e v he hv => ?_⟩
    · rcases hv with rfl | rfl
      · have hcuts := hfront [] [] none hparted .nil
        rw [List.append_nil ts] at hcuts
        exact .inl (h.unique hcuts).1
      · exact .inr (h.unique (hfront _ _ none hparted cuts_semicolon)).1
    · have hcuts := cuts_gap he hv.cuts
      rw [List.append_nil] at hcuts
      exact hfront _ _ none (he.parted hv.parted) hcuts
  | comment hfront =>
    refine ⟨ts, ?_, fun e v he hv => ?_⟩
    · have hcuts := hfront v [] none hparted (by rcases hv with rfl | rfl <;> exact .nil)
      rw [List.append_nil] at hcuts
      exact .inl (h.unique hcuts).1
    · exact hfront _ _ none (he.parted hv.parted) (cuts_dropWhile he hv)
  | stuck hfront =>
    obtain ⟨rest, hcuts⟩ := hfront v hparted
    cases (h.unique hcuts).2

/-! ## Ends of statements -/

theorem step_semicolon (e : Expr.Position) (commas : Bool) (text text' : String) :
    e.step .action commas .semicolon text = e.step .action commas .newline text' := by
  cases e with
  | operand fs | indexNumber fs b o | indexClose fs b o n => rfl
  | after fs e extent =>
    show Expr.closeUnary fs e >>= _ = Expr.closeUnary fs e >>= _
    rcases Expr.closeUnary fs e with f | ⟨fs', e'⟩
    · rfl
    · refine congrArg Except.ok ?_
      simp only [Expr.continueWith]
      rcases Expr.closeAll fs' e' with ⟨_ | ⟨f, fs''⟩, e''⟩ <;> rfl

/-- A line end is read as a semicolon. -/
theorem next_semicolon (s : State) (text text' : String) :
    next s (.semicolon, text) = next s (.newline, text') := by
  obtain ⟨depth, items, p⟩ := s
  cases p with
  | boundary | complete draft | words ws => rfl
  | statement e =>
    simp only [next, State.advance, step_semicolon e true text text']
    rcases e.step .action true .newline text' with f | e' | e' | _ <;> rfl
  | declaring p =>
    cases p with
    | declarator draft groups | dimension draft groups d o | initializer draft d levels again => rfl
    | declared draft groups d => cases groups <;> rfl
    | size draft groups d o e =>
      simp only [next, State.advance, Drafting.step, step_semicolon e false text text']
      rcases e.step .action false .newline text' with f | e' | e' | _ <;> rfl
    | value draft d levels e =>
      simp only [next, State.advance, Drafting.step, step_semicolon e false text text']
      rcases e.step .action false .newline text' with f | e' | e' | _
      · rfl
      · rfl
      · cases levels <;> rfl
      · rfl
    | initialized draft d levels i => cases levels <;> rfl

/-- Where a text may end, it may go on with line ends. -/
theorem foldlM_replicate_newline {s : State} {items : List Item} (h : finish s = .ok items)
    (n : Nat) : ∃ s', (List.replicate n (.newline, "\n")).foldlM next s = some s' ∧
      finish s' = .ok items := by
  induction n generalizing s with
  | zero => exact ⟨s, rfl, h⟩
  | succ n ih =>
    rw [List.replicate_succ, List.foldlM_cons, next_of_finish h]
    exact ih rfl

/-- Line ends behind a text add nothing to what it gives with a semicolon or by itself. -/
theorem finish_lineEnds {s s₁ s₂ : State} {items items' : List Item}
    (hs₁ : s₁ = s ∨ next s (.semicolon, ";") = some s₁) (h₁ : finish s₁ = .ok items)
    {e : List Char} (hs₂ : (lineEnds e).foldlM next s = some s₂) (h₂ : finish s₂ = .ok items') :
    items' = items := by
  rcases hs₁ with rfl | hs₁
  · obtain ⟨s', hs', hfinish⟩ := foldlM_replicate_newline h₁ (e.count '\n')
    cases hs'.symm.trans hs₂
    exact Except.ok.inj (h₂.symm.trans hfinish)
  · rw [next_semicolon s ";" "\n"] at hs₁
    unfold lineEnds at hs₂
    cases hn : e.count '\n' with
    | zero =>
      rw [hn] at hs₂
      cases hs₂
      rw [next_of_finish h₂] at hs₁
      cases hs₁
      exact Except.ok.inj h₁
    | succ n =>
      rw [hn, List.replicate_succ, List.foldlM_cons, hs₁] at hs₂
      obtain ⟨s', hs', hfinish⟩ := foldlM_replicate_newline h₁ n
      cases hs'.symm.trans hs₂
      exact Except.ok.inj (h₂.symm.trans hfinish)

/-- A text that can be read, with a semicolon at its end or without: with blanks and perhaps a
comment behind it, it gives the same items, if the text with the blanks can be read. -/
theorem read_comment {x closed e v : String} (hx : x ≠ "")
    (hclosed : closed = x ∨ closed = x ++ ";") {line : Nat} {items : List Item}
    (h : (read line closed).1 = .ok items)
    (he : IsGap e.toList) (hv : IsComment v.toList) {l l' : Nat} {items' : List Item} :
    (read l (x ++ (e ++ v))).1 = .ok items' ↔
      items' = items ∧ ∃ r, (read l' (x ++ e)).1 = .ok r := by
  obtain ⟨hfront, us, s₁, hcuts, hrun, hfinish⟩ := read_eq_ok.mp h
  have hchars : ∃ u, (u = [] ∨ u = [';']) ∧ closed.toList = x.toList ++ u := by
    rcases hclosed with rfl | rfl
    · exact ⟨[], .inl rfl, by simp⟩
    · exact ⟨[';'], .inr rfl, by simp⟩
  obtain ⟨u, hu, hchars⟩ := hchars
  rw [hchars] at hcuts hfront
  obtain ⟨ts, hus, hbehind⟩ := cuts_behind hu hcuts
  have hhead (y : List Char) : (x.toList ++ y).head? ≠ some '=' := by
    have hne : x.toList ≠ [] := fun hnil => hx (by simpa using hnil)
    rw [List.head?_append_of_ne_nil _ hne] at hfront ⊢
    exact hfront
  have hread {v : String} (hv : IsComment v.toList) {l : Nat} {r : List Item} :
      (read l (x ++ (e ++ v))).1 = .ok r ↔
        ∃ s, (ts ++ lineEnds e.toList).foldlM next reader.start = some s ∧ finish s = .ok r := by
    rw [read_eq_ok, String.toList_append, String.toList_append, and_iff_right (hhead _)]
    constructor
    · rintro ⟨ts', s, hcuts', hs, hr⟩
      rw [(hcuts'.unique (hbehind _ _ he hv)).1] at hs
      exact ⟨s, hs, hr⟩
    · rintro ⟨s, hs, hr⟩
      exact ⟨_, s, hbehind _ _ he hv, hs, hr⟩
  have hsame {r : List Item}
      (hr : ∃ s, (ts ++ lineEnds e.toList).foldlM next reader.start = some s ∧
        finish s = .ok r) : r = items := by
    obtain ⟨s₂, hs₂, hr⟩ := hr
    rw [List.foldlM_append] at hs₂
    obtain ⟨s, hs, hs₂⟩ := Option.bind_eq_some_iff.mp hs₂
    refine finish_lineEnds (s := s) ?_ hfinish hs₂ hr
    rcases hus with rfl | rfl
    · exact .inl (Option.some.inj (hrun.symm.trans hs))
    · rw [List.foldlM_append, hs] at hrun
      refine .inr ?_
      simpa using hrun
  have hgap {r : List Item} : (read l' (x ++ e)).1 = .ok r ↔
      ∃ s, (ts ++ lineEnds e.toList).foldlM next reader.start = some s ∧ finish s = .ok r := by
    have hempty := @hread "" .nil l' r
    rwa [String.append_empty] at hempty
  rw [hread hv]
  constructor
  · intro hr
    exact ⟨hsame hr, items', hgap.mpr hr⟩
  · rintro ⟨rfl, r, hr⟩
    have hr := hgap.mp hr
    rwa [hsame hr] at hr

end Action

end Statechart
