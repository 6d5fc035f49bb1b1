import Statechart.Proofs.Expr.Dialects
import Statechart.Proofs.Token.Append

/-!
Actions one after the other. Two texts that can be read, with a line end between them, are read as
the items of the first and then those of the second (`read_append`), so the statements and the
variables are those of the one after the other (`parse_append`). Each text stands for itself for
three reasons. What was read before does not change how a text is read (`next_behind`). Where a text
may end, a line end may stand (`next_of_finish`). And no comment is left open: without its end the
mark of a comment is two operators, and an operator does not follow another one
(`closed_of_readable`).
-/

namespace Statechart.Action

/-! ## Items in front -/

/-- The state with more items in front of its own. -/
def State.behind (items : List Item) (s : State) : State :=
  ⟨s.depth, items ++ s.items, s.position⟩

namespace State

theorem startItem_behind (items : List Item) (s : State) (k : Symbol) (text : String) :
    (s.behind items).startItem k text = (s.startItem k text).map (behind items) := by
  unfold startItem
  cases k with
  | semicolon | newline | leftBrace | typeWord w => rfl
  | rightBrace => by_cases hdepth : s.depth = 0 <;> simp [behind, hdepth]
  | _ => cases Expr.startOperand [] _ text <;> rfl

theorem close_behind (items : List Item) (s : State) (draft : Draft) :
    (s.behind items).close draft = (s.close draft).map (behind items) := by
  unfold close
  rcases resolve draft.words with f | ⟨type, const⟩
  · rfl
  · show Except.ok _ = Except.ok _
    rw [behind, List.append_assoc]
    rfl

/-- What was read before does not change what a token does. -/
theorem advance_behind (items : List Item) (s : State) (k : Symbol) (text : String) :
    (s.behind items).advance k text = (s.advance k text).map (Option.map (behind items)) := by
  obtain ⟨depth, own, p⟩ := s
  cases p with
  | boundary => exact congrArg Except.ok (startItem_behind ..)
  | complete draft =>
    have hclose := close_behind items ⟨depth, own, .complete draft⟩ draft
    simp only [advance, behind] at hclose ⊢
    rw [hclose]
    split
    · rcases close ⟨depth, own, .complete draft⟩ draft with f | s'
      · rfl
      · exact congrArg Except.ok (startItem_behind ..)
    · rfl
  | statement e =>
    simp only [advance, behind]
    rcases e.step .action true k text with f | e' | e' | _
    · rfl
    · rfl
    · -- only a line end or a semicolon adds the statement
      cases k with
      | semicolon | newline => simp [behind, bind, Except.bind, pure, Except.pure, Except.map]
      | _ => rfl
    · rfl
  | words ws => cases k <;> rfl
  | declaring p =>
    simp only [advance, behind]
    rcases p.step k text with f | _ | _ | _ <;> rfl

end State

theorem next_behind (items : List Item) (s : State) (t : Symbol × String) :
    next (s.behind items) t = (next s t).map (State.behind items) := by
  rw [next, next, State.advance_behind]
  rcases s.advance t.1 t.2 with f | _ | s' <;> rfl

theorem foldlM_behind (items : List Item) (ts : List (Symbol × String)) (s : State) :
    ts.foldlM next (s.behind items) = (ts.foldlM next s).map (State.behind items) := by
  induction ts generalizing s with
  | nil => rfl
  | cons t ts ih =>
    rw [List.foldlM_cons, List.foldlM_cons, next_behind]
    cases next s t with
    | none => rfl
    | some s' => exact ih s'

/-! ## Ends of texts -/

theorem State.close_eq_ok {s s' : State} {draft : Draft} (h : s.close draft = .ok s') :
    ∃ items, s' = ⟨s.depth, items, .boundary⟩ := by
  obtain ⟨⟨type, const⟩, -, h⟩ := bind_eq_ok.mp h
  cases h
  exact ⟨_, rfl⟩

/-- A text ends outside all blocks, behind an item or a declaration that can be judged. -/
theorem finish_eq_ok {s : State} {items : List Item} (h : finish s = .ok items) :
    s = ⟨0, items, .boundary⟩ ∨
      ∃ draft, s.position = .complete draft ∧ s.close draft = .ok ⟨0, items, .boundary⟩ := by
  have hend (s' : State) (h' : (if s'.depth = 0 then return s'.items else throw .unfinished :
      Except Fault (List Item)) = .ok items) : s'.depth = 0 ∧ s'.items = items := by
    split at h'
    · next hdepth => exact ⟨hdepth, Except.ok.inj h'⟩
    · cases h'
  obtain ⟨depth, own, p⟩ := s
  cases p with
  | boundary =>
    obtain ⟨rfl, rfl⟩ := hend ⟨depth, own, .boundary⟩ h
    exact .inl rfl
  | complete draft =>
    obtain ⟨s', hclose, h⟩ := bind_eq_ok.mp h
    obtain ⟨all, rfl⟩ := State.close_eq_ok hclose
    obtain ⟨rfl, rfl⟩ := hend _ h
    exact .inr ⟨draft, rfl, hclose⟩
  | _ => cases h

theorem finish_behind {items own : List Item} {s : State} (h : finish s = .ok own) :
    finish (s.behind items) = .ok (items ++ own) := by
  rcases finish_eq_ok h with rfl | ⟨draft, hp, hclose⟩
  · rfl
  · have hbehind := State.close_behind items s draft
    rw [hclose] at hbehind
    have hp' : (s.behind items).position = .complete draft := hp
    rw [finish, hp']
    simp only [hbehind]
    rfl

/-- Where a text may end, a line end may stand. -/
theorem next_of_finish {s : State} {items : List Item} (h : finish s = .ok items) (text : String) :
    next s (.newline, text) = some ⟨0, items, .boundary⟩ := by
  rcases finish_eq_ok h with rfl | ⟨draft, hp, hclose⟩
  · rfl
  · rw [next, State.advance, hp]
    simp only [mayFollowItem, if_true, hclose]
    rfl

/-! ## Open comments -/

/-- The expression that is being read. -/
def Position.expr? : Position → Option Expr.Position
  | .statement e | .declaring (.size _ _ _ _ e) | .declaring (.value _ _ _ e) => some e
  | _ => none

/-- An operator leads to an operand, if it can stand. -/
theorem step_binary {e : Expr.Position} {d : Dialect} {commas : Bool} {op : BinaryOp}
    {text : String} {o : Expr.Outcome} (h : e.step d commas (.binary op) text = .ok o) :
    o = .stuck ∨ ∃ fs, o = .more (.operand fs) := by
  cases e with
  | operand fs =>
    cases h
    cases op with
    | add | sub => exact .inr ⟨_, rfl⟩
    | _ => exact .inl rfl
  | indexNumber fs b o | indexClose fs b o n =>
    cases h
    exact .inl rfl
  | after fs e extent =>
    by_cases ho : o = .stuck
    · exact .inl ho
    · obtain ⟨-, fs', e', -, rfl⟩ := (Expr.step_after (by simp) ho).mp h
      simp only [Expr.continueWith] at ho ⊢
      split at ho
      · exact absurd rfl ho
      · exact absurd rfl ho
      · exact .inr ⟨_, rfl⟩

/-- A token that can stand in an expression goes on with it, or ends it. -/
theorem next_expr {s s' : State} {e : Expr.Position} {k : Symbol} {text : String}
    (hs : s.position.expr? = some e) (h : next s (k, text) = some s') :
    ∃ commas o, e.step .action commas k text = .ok o ∧ o ≠ .stuck ∧
      ∀ e', o = .more e' → s'.position.expr? = some e' := by
  obtain ⟨depth, items, p⟩ := s
  cases p with
  | statement e =>
    cases hs
    simp only [next, State.advance] at h
    rcases hstep : e.step .action true k text with f | e' | e' | _ <;> rw [hstep] at h
    · cases h
    · cases h
      exact ⟨true, _, hstep, by simp, fun _ he => congrArg some (Expr.Outcome.more.inj he)⟩
    · exact ⟨true, _, hstep, by simp, by simp⟩
    · cases h
  | declaring p =>
    simp only [next, State.advance] at h
    cases p with
    | size draft groups d o e =>
      cases hs
      simp only [Drafting.step] at h
      rcases hstep : e.step .action false k text with f | e' | e' | _ <;> rw [hstep] at h
      · cases h
      · cases h
        exact ⟨false, _, hstep, by simp, fun _ he => congrArg some (Expr.Outcome.more.inj he)⟩
      · exact ⟨false, _, hstep, by simp, by simp⟩
      · cases h
    | value draft d levels e =>
      cases hs
      simp only [Drafting.step] at h
      rcases hstep : e.step .action false k text with f | e' | e' | _ <;> rw [hstep] at h
      · cases h
      · cases h
        exact ⟨false, _, hstep, by simp, fun _ he => congrArg some (Expr.Outcome.more.inj he)⟩
      · exact ⟨false, _, hstep, by simp, by simp⟩
      · cases h
    | _ => cases hs
  | _ => cases hs

/-- Behind an operator an operand has to come. -/
theorem next_div {s s' : State} {text : String} (h : next s (.binary .div, text) = some s') :
    ∃ fs, s'.position.expr? = some (.operand fs) := by
  cases hs : s.position.expr? with
  | some e =>
    obtain ⟨commas, o, hstep, ho, hmore⟩ := next_expr hs h
    rcases step_binary hstep with rfl | ⟨fs, rfl⟩
    · exact absurd rfl ho
    · exact ⟨fs, hmore _ rfl⟩
  | none =>
    -- outside expressions there is nothing to divide
    obtain ⟨depth, items, p⟩ := s
    cases p with
    | boundary | complete draft | words ws => cases h
    | statement e => cases hs
    | declaring p =>
      cases p with
      | declarator draft groups | dimension draft groups d o | initializer draft d levels again =>
        cases h
      | declared draft groups d => cases groups <;> cases h
      | initialized draft d levels i => cases levels <;> cases h
      | size draft groups d o e | value draft d levels e => cases hs

/-- Where an operand has to come, what starts none can not stand. -/
theorem next_operand {s : State} {fs : List Expr.Frame} {k : Symbol} {text : String}
    (hs : s.position.expr? = some (.operand fs)) (hk : Expr.startOperand fs k text = .stuck) :
    next s (k, text) = none := by
  cases h : next s (k, text) with
  | none => rfl
  | some s' =>
    obtain ⟨commas, o, hstep, ho, -⟩ := next_expr hs h
    exact absurd ((Except.ok.inj hstep).symm.trans hk) ho

/-- Tokens that can be read one after the other. -/
def Readable (ts : List (Symbol × String)) : Prop := ∃ s s', ts.foldlM next s = some s'

theorem Readable.tail {t : Symbol × String} {ts : List (Symbol × String)}
    (h : Readable (t :: ts)) : Readable ts := by
  obtain ⟨s, s', h⟩ := h
  obtain ⟨s₁, -, h⟩ := Option.bind_eq_some_iff.mp h
  exact ⟨s₁, s', h⟩

theorem not_readable_div {k : Symbol} (hk : ∀ fs text, Expr.startOperand fs k text = .stuck)
    (text text' : String) (ts : List (Symbol × String)) :
    ¬ Readable ((.binary .div, text) :: (k, text') :: ts) := by
  rintro ⟨s, s', h⟩
  obtain ⟨s₁, hdiv, h⟩ := Option.bind_eq_some_iff.mp h
  obtain ⟨s₂, hnext, -⟩ := Option.bind_eq_some_iff.mp h
  obtain ⟨fs, hs₁⟩ := next_div hdiv
  rw [next_operand hs₁ (hk fs text')] at hnext
  cases hnext

theorem oneLine : lexer.OneLine := by
  unfold Lexer.OneLine
  decide +kernel

theorem cuts_semicolon : lexer.Cuts [';'] [(.semicolon, ";")] none :=
  .keep (m := ⟨some .semicolon, [';'], 0⟩) rfl rfl rfl .nil

/-- The mark of a comment that is not closed is an operator, and then what starts with a star. -/
theorem match?_open {cs : List Char} (h : Pattern.closing? cs = none) :
    lexer.match? ('/' :: '*' :: cs) = some ⟨some (.binary .div), ['/'], 0⟩ := by
  have hcomment : Symbol.commentRule.match? ('/' :: '*' :: cs) = none := by
    refine Rule.match?_eq_none ?_
    simp [Symbol.commentRule, Pattern.size, h]
  rw [Lexer.match?_cons]
  simp only [lexer, List.findSome?_cons, hcomment]
  rfl

theorem match?_star (cs : List Char) :
    ∃ m k, lexer.match? ('*' :: cs) = some m ∧ m.kind? = some k ∧
      ∀ fs text, Expr.startOperand fs k text = .stuck := by
  cases cs with
  | nil => exact ⟨⟨some (.binary .mul), ['*'], 0⟩, _, rfl, rfl, fun _ _ => rfl⟩
  | cons d cs =>
    by_cases hd : d = '='
    · subst hd
      exact ⟨⟨some (.assign (.update .mul)), ['*', '='], 0⟩, _, rfl, rfl, fun _ _ => rfl⟩
    · have hupdate : (Symbol.spelledRule ["*="] (.assign (.update .mul))).match? ('*' :: d :: cs) =
          none := by
        refine Rule.match?_eq_none ?_
        simp [Symbol.spelledRule, Pattern.size, Ne.symm hd]
      refine ⟨⟨some (.binary .mul), ['*'], 0⟩, _, ?_, rfl, fun _ _ => rfl⟩
      rw [Lexer.match?_cons]
      simp only [lexer, List.findSome?_cons, hupdate]
      rfl

/-- A text that can be read leaves no comment open. -/
theorem closed_of_readable {x : List Char} {ts : List (Symbol × String)}
    (hcuts : lexer.Cuts x ts none) (h : Readable ts) : Pattern.Closed x := by
  rintro cs rfl hclosing
  obtain ⟨us, rfl, hafter⟩ := hcuts.of_kept rfl (match?_open hclosing) rfl
  obtain ⟨m, k, hm, hk, hstuck⟩ := match?_star cs
  obtain ⟨vs, rfl, -⟩ := hafter.of_kept rfl hm hk
  exact not_readable_div hstuck _ _ vs h

theorem apart_of_readable {x rest : List Char} {ts : List (Symbol × String)}
    (hcuts : lexer.Cuts x ts none) (h : Readable ts) : Pattern.Apart rest x :=
  (closed_of_readable hcuts h).apart rest

/-! ## Texts one after the other -/

theorem scan_of_head {line : Nat} {cs : List Char} (h : cs.head? ≠ some '=') :
    scan line cs = lexer.scan line cs := by
  rw [scan]
  rintro rest rfl
  exact h rfl

/-- A text is read with success just if it is cut to its end and its tokens are read in turn. An
equals sign in front of it can not be read. -/
theorem read_eq_ok {line : Nat} {text : String} {items : List Item} :
    (read line text).1 = .ok items ↔ text.toList.head? ≠ some '=' ∧
      ∃ ts s, lexer.Cuts text.toList ts none ∧ ts.foldlM next reader.start = some s ∧
        finish s = .ok items := by
  rw [read]
  generalize text.toList = cs
  by_cases hfront : cs.head? = some '='
  · obtain ⟨rest, rfl⟩ := List.head?_eq_some_iff.mp hfront
    constructor
    · intro h
      cases h
    · rintro ⟨hne, -⟩
      exact absurd hfront hne
  · rw [scan_of_head hfront, and_iff_right hfront]
    exact Reader.run_eq_ok advances

theorem cuts_append {x y : List Char} {ts us : List (Symbol × String)}
    (hx : lexer.Cuts x ts none) (hts : Readable ts) (hy : lexer.Cuts y us none) :
    lexer.Cuts (x ++ '\n' :: y) (ts ++ (.newline, "\n") :: us) none :=
  hx.append Readable.tail apart_of_readable oneLine hts
    (@Lexer.Cuts.keep _ lexer '\n' y ⟨some .newline, ['\n'], 1⟩ .newline us none rfl rfl rfl hy)

theorem read_append {l₁ l₂ : Nat} {first second : String} {is₁ is₂ : List Item}
    (h₁ : (read l₁ first).1 = .ok is₁) (h₂ : (read l₂ second).1 = .ok is₂) (line : Nat) :
    (read line (first ++ "\n" ++ second)).1 = .ok (is₁ ++ is₂) := by
  obtain ⟨hfront, ts₁, s₁, hcuts₁, hrun₁, hfinish₁⟩ := read_eq_ok.mp h₁
  obtain ⟨-, ts₂, s₂, hcuts₂, hrun₂, hfinish₂⟩ := read_eq_ok.mp h₂
  have htext : (first ++ "\n" ++ second).toList = first.toList ++ '\n' :: second.toList := by
    simp
  rw [read_eq_ok, htext]
  refine ⟨?_, _, s₂.behind is₁, cuts_append hcuts₁ ⟨_, _, hrun₁⟩ hcuts₂, ?_, finish_behind hfinish₂⟩
  · cases hchars : first.toList with
    | nil => simp
    | cons c cs =>
      rw [hchars] at hfront
      exact hfront
  · have hstart : reader.start.behind is₁ = ⟨0, is₁, .boundary⟩ := by
      rw [State.behind]
      exact congrArg (State.mk 0 · .boundary) (List.append_nil is₁)
    have hrun := foldlM_behind is₁ ts₂ reader.start
    rw [hrun₂, hstart] at hrun
    rw [List.foldlM_append, hrun₁]
    show List.foldlM next s₁ ((.newline, "\n") :: ts₂) = _
    rw [List.foldlM_cons, next_of_finish hfinish₁]
    exact hrun

/-- The items behind others see the variables that those leave. -/
theorem elaborate_append (owner : String) (vars : Variables) (is js : List Item) :
    elaborate owner vars (is ++ js) =
      ((elaborate owner vars is).1 ++ (elaborate owner (elaborate owner vars is).2 js).1,
        (elaborate owner (elaborate owner vars is).2 js).2) := by
  induction is generalizing vars with
  | nil => rfl
  | cons i is ih =>
    cases i with
    | statement e =>
      simp only [List.cons_append, elaborate, ih]
    | declaration type const ds =>
      simp only [List.cons_append, elaborate, ih]

theorem parse_eq_ok {line : Nat} {text owner : String} {vars : Variables}
    {r : List String × Variables} :
    (parse line text owner vars).1 = .ok r ↔
      ∃ items, (read line text).1 = .ok items ∧ elaborate owner vars items = r := by
  show (read line text).1.map (elaborate owner vars) = .ok r ↔ _
  cases (read line text).1 with
  | error f => simp [Except.map]
  | ok items => simp [Except.map]

/-- Two action texts with a line end between them have the statements of both, and the variables
are those that the second leaves when it starts with those of the first. -/
theorem parse_append {l₁ l₂ : Nat} {first second owner : String} {vars vars₁ vars₂ : Variables}
    {ss₁ ss₂ : List String} (h₁ : (parse l₁ first owner vars).1 = .ok (ss₁, vars₁))
    (h₂ : (parse l₂ second owner vars₁).1 = .ok (ss₂, vars₂)) (line : Nat) :
    (parse line (first ++ "\n" ++ second) owner vars).1 = .ok (ss₁ ++ ss₂, vars₂) := by
  obtain ⟨is₁, hread₁, helab₁⟩ := parse_eq_ok.mp h₁
  obtain ⟨is₂, hread₂, helab₂⟩ := parse_eq_ok.mp h₂
  refine parse_eq_ok.mpr ⟨is₁ ++ is₂, read_append hread₁ hread₂ line, ?_⟩
  rw [elaborate_append, helab₁, helab₂]

/-- The second text starts behind a comment to the end of its line, and uses a variable of the
first. -/
theorem parse_append_tally :
    (parse 1 "int n = 2; \x7b n++;\n\x7d // up" "p_" .empty).1 =
        .ok (["p_n = p_n + 1"], ⟨[(some "p_n", ⟨.int, false, some "2", .label⟩)]⟩) ∧
      (parse 1 "const bool b = n\nx = n << 1; /* \n */" "p_"
          ⟨[(some "p_n", ⟨.int, false, some "2", .label⟩)]⟩).1 =
        .ok (["x = p_n << 1"], ⟨[(some "p_n", ⟨.int, false, some "2", .label⟩),
          (some "p_b", ⟨.byte, true, some "p_n", .label⟩)]⟩) ∧
      (parse 4 ("int n = 2; \x7b n++;\n\x7d // up" ++ "\n" ++
          "const bool b = n\nx = n << 1; /* \n */") "p_" .empty).1 =
        .ok (["p_n = p_n + 1", "x = p_n << 1"],
          ⟨[(some "p_n", ⟨.int, false, some "2", .label⟩),
            (some "p_b", ⟨.byte, true, some "p_n", .label⟩)]⟩) := by
  have h₁ : (parse 1 "int n = 2; \x7b n++;\n\x7d // up" "p_" .empty).1 =
      .ok (["p_n = p_n + 1"], ⟨[(some "p_n", ⟨.int, false, some "2", .label⟩)]⟩) := by
    decide +kernel
  have h₂ : (parse 1 "const bool b = n\nx = n << 1; /* \n */" "p_"
      ⟨[(some "p_n", ⟨.int, false, some "2", .label⟩)]⟩).1 =
      .ok (["x = p_n << 1"], ⟨[(some "p_n", ⟨.int, false, some "2", .label⟩),
        (some "p_b", ⟨.byte, true, some "p_n", .label⟩)]⟩) := by
    decide +kernel
  exact ⟨h₁, h₂, parse_append h₁ h₂ 4⟩

end Statechart.Action
