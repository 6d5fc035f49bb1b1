import Statechart.Proofs.Action.Spelling
import Statechart.Proofs.Expr.Respelling

/-!
Statements of the output as texts of actions. Operators stand between blanks there, and brackets,
commas and parentheses are tokens whatever comes behind them. Only a minus sign in front of another
one is not: the two are read as a step. So the output is cut into the tokens of the expression, with
minus signs taken in pairs from the left (`cuts_render`), and a step arises just where two minus
signs come to stand side by side (`dashes_render`).
-/

namespace Statechart.Action

open Statechart.Expr (Lexeme)
open Statechart.Symbol (isNameStart isNamePart isNamePart_of_isNameStart isNamePart_of_isDigit)
open Label.Parts (takeWhile_run)

/-! ## Written expressions -/

/-- An operand: a name that is no type word, or a number. -/
inductive IsAtom (s : String) : Prop
  | name {c : Char} {cs : List Char} : s.toList = c :: cs → isNameStart c = true →
      (∀ d ∈ cs, isNamePart d = true) → TypeWord.ofSpelling? s = none → IsAtom s
  | number {c : Char} {cs : List Char} : s.toList = c :: cs → c.isDigit = true →
      (∀ d ∈ cs, d.isDigit = true) → IsAtom s

def IsClosing (s : String) : Prop := s = "]" ∨ s = ":>"

/-- The expression is written with tokens of actions alone: operands and brackets are tokens, there
are no words for operators, and assignments are plain. -/
def IsWritten : Expr → Prop
  | .atom s => IsAtom s
  | .group e => IsWritten e
  | .index b o e c => IsWritten b ∧ IsOpening o ∧ IsWritten e ∧ IsClosing c
  | .unary op e => op ≠ .not ∧ IsWritten e
  | .binary op l r => (op ≠ .or ∧ op ≠ .and) ∧ IsWritten l ∧ IsWritten r
  | .assign op t v => op = .store ∧ IsWritten t ∧ IsWritten v
  | .step _ _ => False
  | .comma l r => IsWritten l ∧ IsWritten r

def operandKind (s : String) : Symbol :=
  if s.toList.head?.any Char.isDigit then .number else .identifier

/-- The tokens of minus signs without blanks between them: two are a step, as far as they go. -/
def signs : Nat → List Lexeme
  | 0 => []
  | 1 => [(.binary .sub, "-")]
  | n + 2 => (.step .down, "--") :: signs n

/-- The tokens of a written expression with `n` minus signs directly in front of it. -/
def tokens : Nat → Expr → List Lexeme
  | n, .atom s => signs n ++ [(operandKind s, s)]
  | n, .group e => signs n ++ (.leftParen, "(") :: (tokens 0 e ++ [(.rightParen, ")")])
  | n, .index b o e c => tokens n b ++ (.leftBracket, o) :: (tokens 0 e ++ [(.rightBracket, c)])
  | n, .unary .minus e => tokens (n + 1) e
  | n, .unary _ e => signs n ++ (.complement, "~") :: tokens 0 e
  | n, .binary op l r => tokens n l ++ (.binary op, op.spelling) :: tokens 0 r
  | n, .assign _ t v => tokens n t ++ (.assign .store, "=") :: tokens 0 v
  | n, .step _ t => tokens n t
  | n, .comma l r => tokens n l ++ (.comma, ",") :: tokens 0 r

/-! ## Cutting the output into tokens -/

/-- Tokens of the output that do not depend on what comes behind them. -/
def firmTokens : List Lexeme :=
  [(.leftParen, "("), (.rightParen, ")"), (.leftBracket, "["), (.leftBracket, "<:"),
   (.rightBracket, "]"), (.rightBracket, ":>"), (.complement, "~"), (.comma, ","),
   (.semicolon, ";"), (.step .down, "--")]

theorem cuts_firm {t : Lexeme} (ht : t ∈ firmTokens) {rest : List Char} {us : List Lexeme}
    (h : lexer.Cuts rest us none) : lexer.Cuts (t.2.toList ++ rest) (t :: us) none := by
  refine .token ?_ ?_ h
  · revert t
    decide
  · simp only [firmTokens, List.mem_cons, List.not_mem_nil, or_false] at ht
    rcases ht with rfl | rfl | rfl | rfl | rfl | rfl | rfl | rfl | rfl | rfl <;> rfl

theorem cuts_operator {op : BinaryOp} (hop : op ≠ .or ∧ op ≠ .and) {rest : List Char}
    {us : List Lexeme} (h : lexer.Cuts rest us none) :
    lexer.Cuts (' ' :: (op.spelling.toList ++ ' ' :: rest)) ((.binary op, op.spelling) :: us)
      none := by
  refine .skip rfl (.token (t := (.binary op, op.spelling)) ?_ ?_ (.skip rfl h))
  · cases op <;> decide
  · cases op with
    | or => exact absurd rfl hop.1
    | and => exact absurd rfl hop.2
    | _ => rfl

theorem cuts_equals {rest : List Char} {us : List Lexeme} (h : lexer.Cuts rest us none) :
    lexer.Cuts (' ' :: '=' :: ' ' :: rest) ((.assign .store, "=") :: us) none := by
  have hequals : lexer.Cuts ("=".toList ++ ' ' :: rest) ((.assign .store, "=") :: us) none :=
    .token (t := (Symbol.assign .store, "=")) rfl rfl (.skip rfl h)
  exact .skip rfl hequals

theorem match?_minus {d : Char} (hminus : d ≠ '-') (hequals : d ≠ '=') (rest : List Char) :
    lexer.match? ('-' :: d :: rest) = some ⟨some (.binary .sub), ['-'], 0⟩ := by
  have hupdate : (Symbol.spelledRule ["-="] (.assign (.update .sub))).match? ('-' :: d :: rest) =
      none := match?_spelledRule _ (by simp [Ne.symm hequals])
  have hstep : (Symbol.spelledRule ["--"] (.step .down)).match? ('-' :: d :: rest) = none :=
    match?_spelledRule _ (by simp [Ne.symm hminus])
  rw [Lexer.match?_cons]
  simp only [lexer, List.findSome?_cons, hupdate, hstep]
  rfl

theorem cuts_signs {d : Char} (hminus : d ≠ '-') (hequals : d ≠ '=') {rest : List Char}
    {us : List Lexeme} (h : lexer.Cuts (d :: rest) us none) (n : Nat) :
    lexer.Cuts (List.replicate n '-' ++ d :: rest) (signs n ++ us) none := by
  induction n using signs.induct with
  | case1 => exact h
  | case2 =>
    have hminus := match?_minus hminus hequals rest
    have hfirst : lexer.Cuts ("-".toList ++ d :: rest) ((.binary .sub, "-") :: us) none :=
      .token (t := (Symbol.binary .sub, "-")) rfl hminus h
    exact hfirst
  | case3 n ih => exact cuts_firm (t := (.step .down, "--")) (by decide) ih

theorem match?_name {s : String} {c : Char} {cs rest : List Char} (hs : s.toList = c :: cs)
    (hc : isNameStart c = true) (hcs : ∀ d ∈ cs, isNamePart d = true)
    (hword : TypeWord.ofSpelling? s = none) (hrest : ∀ d ∈ rest.head?, isNamePart d = false) :
    lexer.match? (s.toList ++ rest) = some ⟨some .identifier, s.toList, 0⟩ := by
  have hkind : wordKind (String.ofList (c :: cs)) = .identifier := by
    rw [← hs, String.ofList_toList, wordKind, hword]
  rw [hs, List.cons_append, Lexer.match?_cons]
  simp only [lexer, List.findSome?_cons, Symbol.nameRule, Rule.match?_run, if_pos hc,
    takeWhile_run hcs hrest, hkind]
  rfl

theorem match?_number {c : Char} {cs rest : List Char} (hc : c.isDigit = true)
    (hcs : ∀ d ∈ cs, d.isDigit = true) (hrest : ∀ d ∈ rest.head?, d.isDigit = false) :
    lexer.match? (c :: cs ++ rest) = some ⟨some .number, c :: cs, 0⟩ := by
  have hne (d : Char) (hd : d.isDigit = false) : d ≠ c := by
    rintro rfl
    cases hd.symm.trans hc
  have hnone (options : List String) (k : Symbol)
      (ho : ∀ o ∈ options, ∃ d ds, o.toList = d :: ds ∧ d.isDigit = false) :
      (Symbol.spelledRule options k).match? (c :: (cs ++ rest)) = none := by
    refine match?_spelledRule k fun o hmem hprefix => ?_
    obtain ⟨d, ds, hd, hdigit⟩ := ho o hmem
    rw [hd] at hprefix
    exact hne d hdigit (List.cons_prefix_cons.mp hprefix).1
  have hline : Rule.match? ⟨.spelled [['\n']], fun _ => some Symbol.newline, true⟩
      (c :: (cs ++ rest)) = none :=
    Rule.match?_eq_none (by simp [Pattern.size, hne '\n' rfl])
  have hcomment : Symbol.commentRule.match? (c :: (cs ++ rest)) = none :=
    Rule.match?_eq_none (by simp [Symbol.commentRule, Pattern.size, (hne '/' rfl).symm])
  have hname : ¬ isNameStart c = true := by
    rw [Condition.isNameStart_of_isDigit hc]
    simp
  rw [List.cons_append, Lexer.match?_cons]
  simp only [lexer, List.findSome?_cons, Symbol.nameRule, Rule.match?_run, if_neg hname, hline,
    hcomment, Symbol.leftBracketRule, Symbol.rightBracketRule, hnone ["[", "<:"] _ (by simp),
    hnone ["]", ":>"] _ (by simp), hnone ["\x7b", "<%"] _ (by simp),
    hnone ["\x7d", "%>"] _ (by simp), Symbol.numberRule, if_pos hc,
    takeWhile_run hcs hrest]
  rfl

theorem cuts_atom {s : String} (hs : IsAtom s) {rest : List Char} {us : List Lexeme}
    (hrest : ∀ d ∈ rest.head?, isNamePart d = false) (h : lexer.Cuts rest us none) :
    lexer.Cuts (s.toList ++ rest) ((operandKind s, s) :: us) none := by
  have hskipped {c : Char} {cs : List Char} (hchars : s.toList = c :: cs)
      (hc : isNamePart c = true) : s.toList.head?.all lexer.skipped = false := by
    rw [hchars]
    exact Condition.skipped_of_isNamePart hc
  cases hs with
  | @name c cs hchars hc hcs hword =>
    have hkind : operandKind s = .identifier := by
      have hdigit : c.isDigit = false := by
        by_contra hdigit
        rw [Condition.isNameStart_of_isDigit (by simpa using hdigit)] at hc
        cases hc
      simp [operandKind, hchars, hdigit]
    refine .token (t := (operandKind s, s)) (hskipped hchars (isNamePart_of_isNameStart hc)) ?_ h
    rw [hkind]
    exact match?_name hchars hc hcs hword hrest
  | @number c cs hchars hc hcs =>
    have hkind : operandKind s = .number := by simp [operandKind, hchars, hc]
    refine .token (t := (operandKind s, s)) (hskipped hchars (isNamePart_of_isDigit hc)) ?_ h
    rw [hkind, hchars]
    exact match?_number hc hcs fun d hd => Bool.eq_false_iff.mpr fun hdigit =>
      Bool.eq_false_iff.mp (hrest d hd) (isNamePart_of_isDigit hdigit)

theorem IsAtom.head {s : String} (hs : IsAtom s) :
    ∃ c cs, s.toList = c :: cs ∧ ∀ d ∈ c :: cs, isNamePart d = true := by
  cases hs with
  | @name c cs hchars hc hcs _ =>
    exact ⟨c, cs, hchars, List.forall_mem_cons.mpr ⟨isNamePart_of_isNameStart hc, hcs⟩⟩
  | @number c cs hchars hc hcs =>
    exact ⟨c, cs, hchars, List.forall_mem_cons.mpr
      ⟨isNamePart_of_isDigit hc, fun d hd => isNamePart_of_isDigit (hcs d hd)⟩⟩

theorem firm_of_isOpening {o : String} (ho : IsOpening o) : (.leftBracket, o) ∈ firmTokens := by
  rcases ho with rfl | rfl <;> decide

theorem firm_of_isClosing {c : String} (hc : IsClosing c) : (.rightBracket, c) ∈ firmTokens := by
  rcases hc with rfl | rfl <;> decide

/-- No name goes on into a firm token. -/
theorem firm_head {t : Lexeme} (ht : t ∈ firmTokens) (rest : List Char) :
    ∀ d ∈ (t.2.toList ++ rest).head?, isNamePart d = false := by
  simp only [firmTokens, List.mem_cons, List.not_mem_nil, or_false] at ht
  rcases ht with rfl | rfl | rfl | rfl | rfl | rfl | rfl | rfl | rfl | rfl <;>
    · intro d hd
      cases hd
      rfl

/-- The output of an expression is cut into its tokens. -/
theorem cuts_render {e : Expr} (he : IsWritten e) (n : Nat) {rest : List Char} {us : List Lexeme}
    (hrest : ∀ d ∈ rest.head?, isNamePart d = false) (h : lexer.Cuts rest us none) :
    lexer.Cuts (List.replicate n '-' ++ ((e.render id).toList ++ rest)) (tokens n e ++ us)
      none := by
  induction e generalizing n rest us with
  | atom s =>
    have hcuts := cuts_atom he hrest h
    obtain ⟨c, cs, hs, hname⟩ := IsAtom.head he
    have hc : ∀ d : Char, isNamePart d = false → c ≠ d := by
      rintro d hd rfl
      cases hd.symm.trans (hname _ (List.mem_cons_self ..))
    simp only [Expr.render, id, tokens, hs, List.cons_append, List.append_assoc] at hcuts ⊢
    exact cuts_signs (hc '-' rfl) (hc '=' rfl) hcuts n
  | group e ih =>
    have hright : (.rightParen, ")") ∈ firmTokens := by decide
    have hinner := ih he 0 (firm_head hright rest) (cuts_firm hright h)
    have hleft := cuts_firm (t := (.leftParen, "(")) (by decide) hinner
    have hsigns := cuts_signs (d := '(') (by decide) (by decide) hleft n
    simpa [Expr.render, tokens] using hsigns
  | index b o e c ihb ihe =>
    obtain ⟨hb, ho, he, hc⟩ := he
    have hinner := ihe he 0 (firm_head (firm_of_isClosing hc) rest)
      (cuts_firm (firm_of_isClosing hc) h)
    have hbase := ihb hb n (firm_head (firm_of_isOpening ho) _)
      (cuts_firm (firm_of_isOpening ho) hinner)
    simpa [Expr.render, tokens] using hbase
  | unary op e ih =>
    obtain ⟨hop, he⟩ := he
    cases op with
    | not => exact absurd rfl hop
    | minus =>
      have hmore := ih he (n + 1) hrest h
      rw [List.replicate_succ'] at hmore
      simpa [Expr.render, UnaryOp.spelling, tokens] using hmore
    | complement =>
      have hinner := cuts_firm (t := (.complement, "~")) (by decide) (ih he 0 hrest h)
      have hsigns := cuts_signs (d := '~') (by decide) (by decide) hinner n
      simpa [Expr.render, UnaryOp.spelling, tokens] using hsigns
  | binary op l r ihl ihr =>
    obtain ⟨hop, hl, hr⟩ := he
    have hright := cuts_operator hop (ihr hr 0 hrest h)
    have hall := ihl hl n (by rintro d ⟨⟩; rfl) hright
    simpa [Expr.render, tokens] using hall
  | assign op t v iht ihv =>
    obtain ⟨rfl, ht, hv⟩ := he
    have hall := iht ht n (by rintro d ⟨⟩; rfl) (cuts_equals (ihv hv 0 hrest h))
    simpa [Expr.render, Expr.assignment, tokens] using hall
  | step op t => cases he
  | comma l r ihl ihr =>
    obtain ⟨hl, hr⟩ := he
    have hcomma : (.comma, ",") ∈ firmTokens := by decide
    have hblank : lexer.skipped ' ' = true := rfl
    have hright := cuts_firm hcomma (.skip hblank (ihr hr 0 hrest h))
    have hall := ihl hl n (firm_head hcomma _) hright
    simpa [Expr.render, tokens] using hall

/-! ## Minus signs in the output -/

/-- Two minus signs without a blank between them. -/
def dashes : List Char := ['-', '-']

def HasStep (ts : List Lexeme) : Prop := ∃ t ∈ ts, t.1 = .step .down

theorem hasStep_nil : ¬ HasStep [] := by simp [HasStep]

theorem hasStep_cons {t : Lexeme} {ts : List Lexeme} :
    HasStep (t :: ts) ↔ t.1 = .step .down ∨ HasStep ts := by
  simp [HasStep]

theorem hasStep_append {ts us : List Lexeme} : HasStep (ts ++ us) ↔ HasStep ts ∨ HasStep us := by
  simp [HasStep, or_and_right, exists_or]

theorem dashes_append_cons {c : Char} (hc : c ≠ '-') {xs ys : List Char} :
    dashes <:+: xs ++ c :: ys ↔ dashes <:+: xs ∨ dashes <:+: ys :=
  Text.infix_append_cons (by simpa [dashes] using hc)

theorem dashes_replicate (n : Nat) : dashes <:+: List.replicate n '-' ↔ HasStep (signs n) := by
  induction n using signs.induct with
  | case1 => simp [dashes, signs, hasStep_nil]
  | case2 =>
    refine iff_of_false (fun h => ?_) (by simp [signs, HasStep])
    have hlength := h.length_le
    simp [dashes] at hlength
  | case3 n ih =>
    exact iff_of_true ⟨[], List.replicate n '-', rfl⟩ ⟨_, List.mem_cons_self .., rfl⟩

theorem operandKind_ne (s : String) (op : StepOp) : operandKind s ≠ .step op := by
  unfold operandKind
  split <;> simp

/-- Two minus signs stand in the output without a blank between them just if there is a token for a
step. -/
theorem dashes_render {e : Expr} (he : IsWritten e) (n : Nat) :
    dashes <:+: List.replicate n '-' ++ (e.render id).toList ↔ HasStep (tokens n e) := by
  have hnil : ¬ dashes <:+: [] := by simp [dashes]
  induction e generalizing n with
  | atom s =>
    obtain ⟨c, cs, hs, hname⟩ := IsAtom.head he
    have hminus : '-' ∉ c :: cs := fun hmem => by cases hname _ hmem
    have hc : c ≠ '-' := fun h => hminus (h ▸ List.mem_cons_self ..)
    have hcs : ¬ dashes <:+: cs := fun hin =>
      hminus (List.mem_cons_of_mem c (hin.mem (List.mem_cons_self ..)))
    simp only [Expr.render, id, hs, tokens]
    rw [dashes_append_cons hc, dashes_replicate, hasStep_append, hasStep_cons]
    simp [hcs, operandKind_ne, hasStep_nil]
  | group e ih =>
    have hinner : dashes <:+: (e.render id).toList ↔ _ := ih he 0
    have hchars : ((Expr.group e).render id).toList = '(' :: ((e.render id).toList ++ [')']) := by
      simp [Expr.render]
    rw [hchars, dashes_append_cons (by decide), dashes_append_cons (by decide), dashes_replicate,
      hinner]
    simp [tokens, hasStep_append, hasStep_cons, hasStep_nil, hnil]
  | index b o e c ihb ihe =>
    obtain ⟨hb, ho, he, hc⟩ := he
    have hbase : dashes <:+: List.replicate n '-' ++ (b.render id).toList ↔ _ := ihb hb n
    have hinner : dashes <:+: (e.render id).toList ↔ _ := ihe he 0
    have hclosing : dashes <:+: (e.render id).toList ++ c.toList ↔ HasStep (tokens 0 e) := by
      rw [← hinner]
      rcases hc with rfl | rfl
      · exact (dashes_append_cons (by decide)).trans (or_iff_left hnil)
      · have hend : ¬ dashes <:+: ['>'] := by decide
        exact (dashes_append_cons (c := ':') (by decide)).trans (or_iff_left hend)
    have hchars : ((Expr.index b o e c).render id).toList =
        (b.render id).toList ++ (o.toList ++ ((e.render id).toList ++ c.toList)) := by
      simp [Expr.render]
    have hopening : dashes <:+: (List.replicate n '-' ++ (b.render id).toList) ++
        (o.toList ++ ((e.render id).toList ++ c.toList)) ↔
          HasStep (tokens n b) ∨ HasStep (tokens 0 e) := by
      rw [← hbase, ← hclosing]
      rcases ho with rfl | rfl
      · exact dashes_append_cons (by decide)
      · refine (dashes_append_cons (by decide)).trans (or_congr_right ?_)
        exact (@dashes_append_cons ':' (by decide) [] _).trans (or_iff_right hnil)
    rw [hchars, ← List.append_assoc, hopening]
    simp [tokens, hasStep_append, hasStep_cons, hasStep_nil]
  | unary op e ih =>
    obtain ⟨hop, he⟩ := he
    cases op with
    | not => exact absurd rfl hop
    | minus =>
      have hchars : List.replicate n '-' ++ ((Expr.unary .minus e).render id).toList =
          List.replicate (n + 1) '-' ++ (e.render id).toList := by
        simp [Expr.render, UnaryOp.spelling, List.replicate_succ']
      rw [hchars, tokens]
      exact ih he (n + 1)
    | complement =>
      have hinner : dashes <:+: (e.render id).toList ↔ _ := ih he 0
      have hchars :
          ((Expr.unary .complement e).render id).toList = '~' :: (e.render id).toList := by
        simp [Expr.render, UnaryOp.spelling]
      rw [hchars, dashes_append_cons (by decide), dashes_replicate, hinner]
      simp [tokens, hasStep_append, hasStep_cons]
  | binary op l r ihl ihr =>
    obtain ⟨hop, hl, hr⟩ := he
    have hleft : dashes <:+: List.replicate n '-' ++ (l.render id).toList ↔ _ := ihl hl n
    have hright : dashes <:+: (r.render id).toList ↔ _ := ihr hr 0
    have hspelling : ¬ dashes <:+: op.spelling.toList := by cases op <;> decide
    have hchars : ((Expr.binary op l r).render id).toList =
        (l.render id).toList ++ ' ' :: (op.spelling.toList ++ ' ' :: (r.render id).toList) := by
      simp [Expr.render]
    rw [hchars, ← List.append_assoc, dashes_append_cons (by decide), dashes_append_cons (by decide),
      hleft, hright]
    simp [tokens, hasStep_append, hasStep_cons, hspelling]
  | assign op t v iht ihv =>
    obtain ⟨rfl, ht, hv⟩ := he
    have htarget : dashes <:+: List.replicate n '-' ++ (t.render id).toList ↔ _ := iht ht n
    have hvalue : dashes <:+: (v.render id).toList ↔ _ := ihv hv 0
    have hchars : ((Expr.assign .store t v).render id).toList =
        (t.render id).toList ++ ' ' :: (['='] ++ ' ' :: (v.render id).toList) := by
      simp [Expr.render, Expr.assignment]
    rw [hchars, ← List.append_assoc, dashes_append_cons (by decide), dashes_append_cons (by decide),
      htarget, hvalue]
    have hequals : ¬ dashes <:+: ['='] := by decide
    simp [tokens, hasStep_append, hasStep_cons, hequals]
  | step op t => cases he
  | comma l r ihl ihr =>
    obtain ⟨hl, hr⟩ := he
    have hleft : dashes <:+: List.replicate n '-' ++ (l.render id).toList ↔ _ := ihl hl n
    have hright : dashes <:+: (r.render id).toList ↔ _ := ihr hr 0
    have hchars : ((Expr.comma l r).render id).toList =
        (l.render id).toList ++ ',' :: ([] ++ ' ' :: (r.render id).toList) := by
      simp [Expr.render]
    rw [hchars, ← List.append_assoc, dashes_append_cons (by decide), dashes_append_cons (by decide),
      hleft, hright]
    simp [tokens, hasStep_append, hasStep_cons, hnil]

end Statechart.Action
