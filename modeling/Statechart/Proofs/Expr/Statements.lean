import Statechart.Proofs.Expr.Dialects
import Statechart.Proofs.Token.Append

/-!
Conditions as statements. The text of a condition, with a line end behind it, is an action of one
statement with the same text in the output (`parse_statement`). The tokens are the same because what
only actions have as tokens can not stand in a condition: an operator and then an equals sign, a
percent sign or another operator where an operand has to come (`not_compound`).
-/

namespace Statechart

theorem Symbol.isNamePart_of_isNameStart {c : Char} (h : isNameStart c = true) :
    isNamePart c = true := by
  simp only [isNameStart, Bool.or_eq_true] at h
  simpa [isNamePart, Char.isAlphanum, or_right_comm] using h.imp_left Or.inl

theorem Symbol.isNamePart_of_isDigit {c : Char} (h : c.isDigit = true) : isNamePart c = true := by
  simp [isNamePart, Char.isAlphanum, h]

/-! ## Spellings that only actions have -/

/-- The spelled tokens that both languages have. -/
def sharedTokens : List (List String × Symbol) :=
  [(["[", "<:"], .leftBracket), (["]", ":>"], .rightBracket), (["||"], .binary .or),
   ([">>"], .binary .shiftRight), (["<<"], .binary .shiftLeft), (["&&"], .binary .and),
   (["<="], .binary .le), ([">="], .binary .ge), (["=="], .binary .eq), (["!="], .binary .ne)]

/-- The spelled tokens that only actions have. -/
def extraTokens : List (List String × Symbol) :=
  [(["\x7b", "<%"], .leftBrace), (["\x7d", "%>"], .rightBrace), (["++"], .step .up),
   ([">>="], .assign (.update .shiftRight)), (["<<="], .assign (.update .shiftLeft)),
   (["+="], .assign (.update .add)), (["*="], .assign (.update .mul)),
   (["|="], .assign (.update .bitOr)), ([":="], .assign .colonStore),
   (["-="], .assign (.update .sub)), (["/="], .assign (.update .div)),
   (["%="], .assign (.update .mod)), (["&="], .assign (.update .bitAnd)), (["--"], .step .down)]

/-- The spellings that only actions have. -/
def extras : List String := extraTokens.flatMap (·.1)

theorem match?_spelledRule {options : List String} {x : List Char} (k : Symbol)
    (h : ∀ o ∈ options, ¬ o.toList <+: x) : (Symbol.spelledRule options k).match? x = none := by
  refine Rule.match?_eq_none ?_
  have hfind : (options.map String.toList).find? (·.isPrefixOf x) = none := by
    simpa [List.find?_eq_none, List.isPrefixOf_iff_prefix] using h
  simp only [Symbol.spelledRule, Pattern.size]
  rw [hfind]
  rfl

theorem spelledRule_match? {options : List String} {k : Symbol} {x : List Char}
    {m : Lexer.Match Symbol} (h : (Symbol.spelledRule options k).match? x = some m) :
    m.kind? = some k ∧ ∃ o ∈ options, m.text = o.toList := by
  simp only [Symbol.spelledRule, Rule.match?, Pattern.size] at h
  cases hfind : (options.map String.toList).find? (·.isPrefixOf x) with
  | none =>
    rw [hfind] at h
    cases h
  | some w =>
    obtain ⟨o, ho, rfl⟩ := List.mem_map.mp (List.mem_of_find?_eq_some hfind)
    have hprefix := List.find?_some hfind
    rw [List.isPrefixOf_iff_prefix] at hprefix
    rw [hfind] at h
    simp only [Option.map_some, Option.getD_some] at h
    split at h
    · cases h
    · next n hn =>
      cases h
      exact ⟨rfl, o, ho, (List.prefix_iff_eq_take.mp hprefix).symm⟩

theorem sharedTokens_oneLine : ∀ q ∈ sharedTokens, ∀ o ∈ q.1, '\n' ∉ o.toList := by
  decide +kernel

theorem extraTokens_oneLine : ∀ q ∈ extraTokens, ∀ o ∈ q.1, '\n' ∉ o.toList := by
  decide +kernel

theorem match?_concat_spelled {options : List String} (k : Symbol)
    (h : ∀ o ∈ options, '\n' ∉ o.toList) {c : Char} {cs : List Char} :
    (Symbol.spelledRule options k).match? (c :: (cs ++ ['\n'])) =
      (Symbol.spelledRule options k).match? (c :: cs) := by
  refine Rule.match?_concat ?_ c cs
  intro o ho hline
  obtain ⟨s, hs, rfl⟩ := List.mem_map.mp ho
  exact h s hs (List.mem_of_mem_tail hline)

/-- Where no spelling stands that only actions have, both languages take the same token, type words
apart. -/
theorem match?_concat {c : Char} {cs : List Char} {m : Lexer.Match Symbol}
    (hm : Condition.lexer.match? (c :: cs) = some m) (hline : '\n' ∉ c :: cs)
    (hextra : ∀ o ∈ extras, ¬ o.toList <+: c :: cs)
    (hword : m.kind? = some .identifier → TypeWord.ofSpelling? (String.ofList m.text) = none) :
    Action.lexer.match? (c :: (cs ++ ['\n'])) = some m := by
  have hextras : ∀ q ∈ extraTokens,
      (Symbol.spelledRule q.1 q.2).match? (c :: (cs ++ ['\n'])) = none := by
    intro q hq
    rw [match?_concat_spelled _ (extraTokens_oneLine q hq)]
    exact match?_spelledRule q.2 fun o ho => hextra o (List.mem_flatMap.mpr ⟨q, hq, ho⟩)
  have hshared : ∀ q ∈ sharedTokens, (Symbol.spelledRule q.1 q.2).match? (c :: (cs ++ ['\n'])) =
      (Symbol.spelledRule q.1 q.2).match? (c :: cs) := fun q hq =>
    match?_concat_spelled _ (sharedTokens_oneLine q hq)
  simp only [extraTokens, List.forall_mem_cons] at hextras
  simp only [sharedTokens, List.forall_mem_cons] at hshared
  have hc : c ≠ '\n' := fun h => hline (by simp [h])
  have hat : c ≠ '@' := by
    rintro rfl
    cases hm
  have hcomment : Symbol.commentRule.match? (c :: (cs ++ ['\n'])) =
      Symbol.commentRule.match? (c :: cs) :=
    Rule.match?_concat (r := Symbol.commentRule) trivial c cs
  have hnumber : Symbol.numberRule.match? (c :: (cs ++ ['\n'])) =
      Symbol.numberRule.match? (c :: cs) := Rule.match?_concat (r := Symbol.numberRule) rfl c cs
  have hname : (Symbol.nameRule Action.wordKind).match? (c :: (cs ++ ['\n'])) =
      (Symbol.nameRule Action.wordKind).match? (c :: cs) :=
    Rule.match?_concat (r := Symbol.nameRule Action.wordKind) rfl c cs
  have hbreak : Rule.match? ⟨.spelled [['\n']], fun _ => some Symbol.newline, true⟩
      (c :: (cs ++ ['\n'])) = none := Rule.match?_eq_none (by simp [Pattern.size, Ne.symm hc])
  rw [Lexer.match?_cons] at hm ⊢
  simp only [Condition.lexer, Action.lexer, List.findSome?_cons, Rule.match?_run, beq_iff_eq, hc,
    hat, if_false, hbreak, hname, hcomment, hnumber, Symbol.leftBracketRule,
    Symbol.rightBracketRule, hshared, hextras] at hm ⊢
  -- what is left are the same rules in the same order, but for names, which come first in actions
  by_cases hstart : Symbol.isNameStart c = true
  · have hslash : c ≠ '/' := by
      rintro rfl
      cases hstart
    have hnot : Symbol.commentRule.match? (c :: cs) = none :=
      Rule.match?_eq_none (by simp [Symbol.commentRule, Pattern.size, hslash])
    simp only [Symbol.nameRule, Rule.match?_run, hstart, hnot, if_true, Option.some_or] at hm ⊢
    cases hm
    have hkind : Action.wordKind (String.ofList (c :: cs.takeWhile Symbol.isNamePart)) =
        .identifier := by
      rw [Action.wordKind, hword rfl]
    rw [hkind]
  · simp only [Symbol.nameRule, Rule.match?_run, hstart] at hm ⊢
    exact hm

/-! ## Spellings that no condition has -/

namespace Condition

/-- An operator leads to an operand. -/
theorem moves_binary {p p' : Expr.Position} {op : BinaryOp} {text : String}
    (h : Expr.Moves text p (.binary op) p') : ∃ fs, p' = .operand fs := by
  cases h with
  | start hstart =>
    rcases Expr.startOperand_cases hstart with rfl | ⟨f, rfl⟩
    · cases op <;> cases hstart
    · exact ⟨_, rfl⟩
  | binary _ hcont => exact ⟨_, Expr.continueWith_binary _ _ _ _ _ _ hcont⟩

/-- Tokens with which no operand of a condition starts, or no one that can be closed. -/
def isBarred : Symbol → Bool
  | .assign _ => true
  | .binary op => op != .sub
  | _ => false

theorem not_accepts_barred {p : Option Expr.Position} {fs : List Expr.Frame}
    (hp : p.getD (.operand []) = .operand fs) {k : Symbol} (hk : isBarred k = true) (text : String)
    (ts : List (Symbol × String)) (e : Expr) : ¬ Accepts p ((k, text) :: ts) e := by
  intro h
  obtain ⟨p', hmoves, h⟩ := h.cons
  rw [hp] at hmoves
  have hstart := hmoves.of_operand
  cases k with
  | assign op => cases hstart
  | binary op =>
    cases op with
    | add =>
      cases hstart
      exact not_accepts_of_plus (List.mem_cons_self ..) ts e h
    | sub => cases hk
    | _ => cases hstart
  | _ => cases hk

/-- Spellings of actions that are two tokens in a condition: an operator, and what starts with one
more character. -/
def compounds : List (List Char × BinaryOp × Char) :=
  [(['<'], .lt, '%'), (['%'], .mod, '>'), (['+'], .add, '+'), (['>', '>'], .shiftRight, '='),
   (['<', '<'], .shiftLeft, '='), (['+'], .add, '='), (['*'], .mul, '='), (['|'], .bitOr, '='),
   (['-'], .sub, '='), (['/'], .div, '='), (['%'], .mod, '='), (['&'], .bitAnd, '=')]

theorem extras_cases : ∀ o ∈ extras, o = "\x7b" ∨ o = "\x7d" ∨ o = ":=" ∨ o = "--" ∨
    ∃ q ∈ compounds, o.toList = q.1 ++ [q.2.2] := by
  decide

theorem match?_compound : ∀ q ∈ compounds, ∀ rest : List Char,
    lexer.match? (q.1 ++ q.2.2 :: rest) = some ⟨some (.binary q.2.1), q.1, 0⟩ := by
  intro q hq rest
  simp only [compounds, List.mem_cons, List.not_mem_nil, or_false] at hq
  rcases hq with rfl | rfl | rfl | rfl | rfl | rfl | rfl | rfl | rfl | rfl | rfl | rfl <;> rfl

theorem match?_barred {d : Char} (hd : d ∈ ['=', '%', '>', '+']) (rest : List Char) :
    ∃ m k, lexer.match? (d :: rest) = some m ∧ m.kind? = some k ∧ isBarred k = true := by
  simp only [List.mem_cons, List.not_mem_nil, or_false] at hd
  rcases hd with rfl | rfl | rfl | rfl
  · cases rest with
    | nil => exact ⟨_, _, rfl, rfl, rfl⟩
    | cons r rest =>
      by_cases hr : r = '='
      · subst hr
        exact ⟨_, _, rfl, rfl, rfl⟩
      · have hnone : (Symbol.spelledRule ["=="] (.binary .eq)).match? ('=' :: r :: rest) = none :=
          match?_spelledRule _ (by simp [Ne.symm hr])
        refine ⟨⟨some (.assign .store), ['='], 0⟩, _, ?_, rfl, rfl⟩
        rw [Lexer.match?_cons]
        simp only [lexer, List.findSome?_cons, hnone]
        rfl
  · exact ⟨_, _, rfl, rfl, rfl⟩
  · cases rest with
    | nil => exact ⟨_, _, rfl, rfl, rfl⟩
    | cons r rest =>
      by_cases hr : r = '>'
      · subst hr
        exact ⟨_, _, rfl, rfl, rfl⟩
      by_cases hr' : r = '='
      · subst hr'
        exact ⟨_, _, rfl, rfl, rfl⟩
      · have hnone : (Symbol.spelledRule [">>"] (.binary .shiftRight)).match? ('>' :: r :: rest) =
            none :=
          match?_spelledRule _ (by simp [Ne.symm hr])
        have hnone' : (Symbol.spelledRule [">="] (.binary .ge)).match? ('>' :: r :: rest) = none :=
          match?_spelledRule _ (by simp [Ne.symm hr'])
        refine ⟨⟨some (.binary .gt), ['>'], 0⟩, _, ?_, rfl, rfl⟩
        rw [Lexer.match?_cons]
        simp only [lexer, List.findSome?_cons, hnone, hnone']
        rfl
  · exact ⟨_, _, rfl, rfl, rfl⟩

/-- A spelling of actions that is two tokens in a condition can not stand there. -/
theorem not_compound {q : List Char × BinaryOp × Char} (hq : q ∈ compounds) {rest : List Char}
    {ts : List (Symbol × String)} (hcuts : lexer.Cuts (q.1 ++ q.2.2 :: rest) ts none)
    (p : Option Expr.Position) (e : Expr) : ¬ Accepts p ts e := by
  intro h
  have hfirst : ∀ q ∈ compounds, q.1 ≠ [] ∧ q.1.head?.any lexer.skipped = false ∧
      lexer.skipped q.2.2 = false ∧ q.2.2 ∈ ['=', '%', '>', '+'] := by
    decide
  obtain ⟨hne, hskipped, hskipped', hd⟩ := hfirst q hq
  obtain ⟨c, cs, hw⟩ := List.exists_cons_of_ne_nil hne
  have hm := match?_compound q hq rest
  rw [hw, List.cons_append] at hcuts hm
  obtain ⟨us, rfl, hafter⟩ := hcuts.of_kept (by simpa [hw] using hskipped) hm rfl
  have hrest : (c :: (cs ++ q.2.2 :: rest)).drop (c :: cs).length = q.2.2 :: rest := by
    simp
  rw [hrest] at hafter
  obtain ⟨p', hmoves, h⟩ := h.cons
  obtain ⟨fs, rfl⟩ := moves_binary hmoves
  obtain ⟨m, k, hm', hk, hbarred⟩ := match?_barred hd rest
  obtain ⟨vs, rfl, -⟩ := hafter.of_kept hskipped' hm' hk
  exact not_accepts_barred rfl hbarred _ vs e h

theorem not_accepts_colon (p : Option Expr.Position) (text : String)
    (ts : List (Symbol × String)) (e : Expr) : ¬ Accepts p ((.colon, text) :: ts) e := by
  intro h
  obtain ⟨p', hmoves, -⟩ := h.cons
  generalize p.getD (.operand []) = q at hmoves
  cases hmoves with
  | start hstart => cases hstart

/-- No spelling that only actions have stands at the front of what is left of a condition. -/
theorem not_extra {x : List Char} {ts : List (Symbol × String)} {p : Option Expr.Position}
    {e : Expr} (hcuts : lexer.Cuts x ts none) (h : Accepts p ts e) (hdash : ¬ ['-', '-'] <:+: x) :
    ∀ o ∈ extras, ¬ o.toList <+: x := by
  rintro o ho ⟨rest, rfl⟩
  rcases extras_cases o ho with rfl | rfl | rfl | rfl | ⟨q, hq, hspelling⟩
  · cases hcuts with
    | skip hs _ => cases hs
    | drop _ hm _ _ => cases hm
    | keep _ hm _ _ => cases hm
  · cases hcuts with
    | skip hs _ => cases hs
    | drop _ hm _ _ => cases hm
    | keep _ hm _ _ => cases hm
  · obtain ⟨us, rfl, -⟩ := hcuts.of_kept (k := .colon) rfl rfl rfl
    exact not_accepts_colon p _ us e h
  · exact hdash ⟨[], rest, rfl⟩
  · rw [hspelling, List.append_assoc] at hcuts
    exact not_compound hq hcuts p e h

/-- The tokens of a condition and a line end are the tokens of its text as an action, with a line
end behind it. -/
theorem cuts_concat {cs : List Char} {ts : List (Symbol × String)} {p : Option Expr.Position}
    {e : Expr} (hcuts : lexer.Cuts cs ts none) (h : Accepts p ts e) (hline : '\n' ∉ cs)
    (hdash : ¬ ['-', '-'] <:+: cs)
    (hwords : ∀ t ∈ ts, t.1 = .identifier → TypeWord.ofSpelling? t.2 = none) :
    Action.lexer.Cuts (cs ++ ['\n']) (ts ++ [(.newline, "\n")]) none := by
  generalize hrest : none = rest at hcuts
  induction hcuts generalizing p with
  | nil =>
    exact @Lexer.Cuts.keep _ Action.lexer '\n' [] ⟨some .newline, ['\n'], 1⟩ .newline [] none rfl
      rfl rfl .nil
  | stuck _ _ => cases hrest
  | @skip c cs ts rest hs hcuts ih =>
    refine .skip hs (ih h ?_ ?_ hwords hrest)
    · exact fun hmem => hline (List.mem_cons_of_mem c hmem)
    · exact fun hin => hdash (hin.trans (List.suffix_cons c cs).isInfix)
  | @drop c cs m ts rest hs hm hk hcuts ih =>
    subst hrest
    have hmatch := match?_concat hm hline (not_extra (.drop hs hm hk hcuts) h hdash) (by simp [hk])
    rw [List.cons_append]
    refine .drop hs hmatch hk ?_
    rw [Lexer.drop_append hm]
    exact ih h (fun hmem => hline (List.mem_of_mem_drop hmem))
      (fun hin => hdash (hin.trans (List.drop_suffix ..).isInfix)) hwords rfl
  | @keep c cs m k ts rest hs hm hk hcuts ih =>
    subst hrest
    have hword : m.kind? = some .identifier →
        TypeWord.ofSpelling? (String.ofList m.text) = none := fun hkind =>
      hwords _ (List.mem_cons_self ..) (Option.some.inj (hk.symm.trans hkind))
    have hmatch := match?_concat hm hline (not_extra (.keep hs hm hk hcuts) h hdash) hword
    obtain ⟨p', -, h⟩ := h.cons
    rw [List.cons_append, List.cons_append]
    refine .keep hs hmatch hk ?_
    rw [Lexer.drop_append hm]
    exact ih h (fun hmem => hline (List.mem_of_mem_drop hmem))
      (fun hin => hdash (hin.trans (List.drop_suffix ..).isInfix))
      (fun t ht => hwords t (List.mem_cons_of_mem _ ht)) rfl

theorem read_eq_ok {line : Nat} {text : String} {e : Expr} :
    (read line text).1 = .ok (some e) ↔
      ∃ ts, lexer.Cuts text.toList ts none ∧ Accepts none ts e := by
  rw [read, Reader.run_eq_ok advances]
  constructor
  · rintro ⟨ts, p, hcuts, hrun, hfinish⟩
    exact ⟨ts, hcuts, p, hrun, hfinish⟩
  · rintro ⟨ts, hcuts, p, hrun, hfinish⟩
    exact ⟨ts, p, hcuts, hrun, hfinish⟩

theorem parse_eq_ok {line : Nat} {text r : String} (h : (parse line text).1 = .ok r) (hr : r ≠ "") :
    ∃ e, (read line text).1 = .ok (some e) ∧ r = e.render id := by
  have h : (read line text).1.map render = .ok r := h
  rcases hread : (read line text).1 with f | _ | e
  · rw [hread] at h
    cases h
  · rw [hread] at h
    cases h
    exact absurd rfl hr
  · rw [hread] at h
    cases h
    exact ⟨e, rfl, rfl⟩

end Condition

namespace Action

/-- A condition does not start with an equals sign, so its text is cut as any other. -/
theorem scan_condition {cs : List Char} {ts : List (Symbol × String)} {e : Expr}
    (hcuts : Condition.lexer.Cuts cs ts none) (h : Condition.Accepts none ts e) (line : Nat) :
    scan line (cs ++ ['\n']) = lexer.scan line (cs ++ ['\n']) := by
  cases cs with
  | nil => rfl
  | cons c cs =>
    have hc : c ≠ '=' := by
      rintro rfl
      obtain ⟨m, k, hm, hk, hbarred⟩ := Condition.match?_barred (List.mem_cons_self ..) cs
      obtain ⟨us, rfl, -⟩ := hcuts.of_kept rfl hm hk
      exact Condition.not_accepts_barred rfl hbarred _ us e h
    rw [List.cons_append, scan]
    simpa using hc

/-- Without an owner names stay as they are. -/
theorem rename_nobody (vars : Variables) : rename "" vars = id := by
  funext s
  simp [rename]

/-- A condition with a line end behind it is an action of one statement with the same text in the
output, and it declares nothing. -/
theorem parse_statement {line line' : Nat} {text r : String}
    (hparse : (Condition.parse line text).1 = .ok r) (hr : r ≠ "") (hline : '\n' ∉ text.toList)
    (hdash : ¬ ['-', '-'] <:+: text.toList)
    (hwords : ∀ t ∈ (Condition.lexer.scan line text.toList).tokens,
      t.kind = .identifier → TypeWord.ofSpelling? t.text = none) :
    (parse line' (text ++ "\n") "" .empty).1 = .ok ([r], .empty) := by
  obtain ⟨e, hread, rfl⟩ := Condition.parse_eq_ok hparse hr
  obtain ⟨ts, hcuts, haccepts⟩ := Condition.read_eq_ok.mp hread
  obtain ⟨htokens, -⟩ := (Condition.lexer.cuts_scan line text.toList).unique hcuts
  have hbare : ∀ t ∈ ts, t.1 = .identifier → TypeWord.ofSpelling? t.2 = none := by
    rw [← htokens]
    simpa [Token.bare] using hwords
  have hitems : (read line' (text ++ "\n")).1 = .ok [.statement e] := by
    rw [read, String.toList_append]
    show (reader.run (scan line' (text.toList ++ ['\n']))).1 = _
    rw [scan_condition hcuts haccepts, Reader.run_eq_ok advances]
    exact ⟨_, _, Condition.cuts_concat hcuts haccepts hline hdash hbare, haccepts.item "\n", rfl⟩
  show (read line' (text ++ "\n")).1.map (elaborate "" .empty) = _
  rw [hitems]
  show Except.ok ([e.render (rename "" .empty)], Table.empty) = _
  rw [rename_nobody]

theorem parse_statement_guard :
    (Condition.parse 1 "a[3] >= -x /* on */ && !(b % 2)").1 =
        .ok "a[3] >= -x and  not (b % 2)" ∧
      (parse 7 ("a[3] >= -x /* on */ && !(b % 2)" ++ "\n") "" .empty).1 =
        .ok (["a[3] >= -x and  not (b % 2)"], .empty) := by
  have hparse : (Condition.parse 1 "a[3] >= -x /* on */ && !(b % 2)").1 =
      .ok "a[3] >= -x and  not (b % 2)" := by
    decide +kernel
  refine ⟨hparse, parse_statement hparse (by decide) ?_ ?_ ?_⟩
  · decide +kernel
  · decide +kernel
  · decide +kernel

end Action

end Statechart
