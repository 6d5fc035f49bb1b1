import Statechart.Proofs.Expr.Grammar
import Statechart.Proofs.Expr.Statements
import Statechart.Proofs.Label.Marks
import Statechart.Proofs.Text.Numerals

/-!
Conditions in the words of the output. Conjunction, disjunction and negation become words, and
every other token keeps its spelling. Between two pieces of the output no token comes to stand that
was not there (`cuts_render`), so that the tokens of the output are those of the text, words
apart, and give the same expression (`parse_keeps_tokens`).
-/

namespace Statechart.Condition

open Statechart.Expr (Lexeme Derives)
open Statechart.Symbol (isNameStart isNamePart isNamePart_of_isNameStart isNamePart_of_isDigit)
open Label.Parts (takeWhile_run)

/-! ## Tokens of a text -/

/-- The tokens of a text, if it can be cut to its end. -/
def lexemes? (text : String) : Option (List Lexeme) :=
  let scan := lexer.scan 1 text.toList
  if scan.tail.rest?.isNone then some (scan.tokens.map Token.bare) else none

theorem lexemes?_eq_some {text : String} {ts : List Lexeme} :
    lexemes? text = some ts ↔ lexer.Cuts text.toList ts none := by
  have hcuts := lexer.cuts_scan 1 text.toList
  unfold lexemes?
  dsimp only
  constructor
  · intro h
    split at h
    · next hnone =>
      cases h
      rwa [Option.isNone_iff_eq_none.mp hnone] at hcuts
    · cases h
  · intro h
    obtain ⟨rfl, hrest⟩ := hcuts.unique h
    rw [hrest]
    rfl

/-- Tokens that are spelled in one way or in a few. -/
def spellings : List Lexeme :=
  sharedTokens.flatMap (fun q => q.1.map fun s => (q.2, s)) ++
    [(.semicolon, ";"), (.comma, ","), (.colon, ":"), (.assign .store, "="), (.leftParen, "("),
     (.rightParen, ")"), (.binary .bitAnd, "&"), (.not, "!"), (.complement, "~"),
     (.binary .sub, "-"), (.binary .add, "+"), (.binary .mul, "*"), (.binary .div, "/"),
     (.binary .mod, "%"), (.binary .lt, "<"), (.binary .gt, ">"), (.binary .bitXor, "^"),
     (.binary .bitOr, "|"), (.question, "?")]

/-- What a token of a condition looks like. -/
inductive IsLexeme : Lexeme → Prop
  | identifier {s : String} {c : Char} {cs : List Char} : s.toList = c :: cs →
      isNameStart c = true → (∀ d ∈ cs, isNamePart d = true) → IsLexeme (.identifier, s)
  | number {s : String} {c : Char} {cs : List Char} : s.toList = c :: cs →
      c.isDigit = true → (∀ d ∈ cs, d.isDigit = true) → IsLexeme (.number, s)
  | spelled {t : Lexeme} : t ∈ spellings → IsLexeme t

theorem rules_eq : lexer.rules =
    [⟨.run (· == '\n') (· == '\n'), fun _ => none, true⟩, Symbol.commentRule,
      Symbol.nameRule fun _ => .identifier] ++
    (sharedTokens.take 2).map (fun q => Symbol.spelledRule q.1 q.2) ++
    Symbol.numberRule :: (sharedTokens.drop 2).map (fun q => Symbol.spelledRule q.1 q.2) := rfl

theorem literal_mem {c : Char} {k : Symbol} (h : Symbol.ofChar? c = some k) :
    (k, String.ofList [c]) ∈ spellings := by
  unfold Symbol.ofChar? at h
  split at h <;> cases h <;> decide

theorem isLexeme_of_match? {c : Char} {cs : List Char} {m : Lexer.Match Symbol}
    (hm : lexer.match? (c :: cs) = some m) {k : Symbol} (hk : m.kind? = some k) :
    IsLexeme (k, String.ofList m.text) := by
  rw [Lexer.match?_cons] at hm
  rcases Option.or_eq_some_iff.mp hm with hm | ⟨-, hm⟩
  · obtain ⟨r, hr, hm⟩ := List.exists_of_findSome?_eq_some hm
    have hspelled : ∀ q ∈ sharedTokens, (Symbol.spelledRule q.1 q.2).match? (c :: cs) = some m →
        IsLexeme (k, String.ofList m.text) := by
      intro q hq hm
      obtain ⟨hkind, o, ho, htext⟩ := spelledRule_match? hm
      cases hkind.symm.trans hk
      rw [htext, String.ofList_toList]
      exact .spelled (List.mem_append_left _
        (List.mem_flatMap.mpr ⟨q, hq, List.mem_map_of_mem ho⟩))
    simp only [rules_eq, List.mem_append, List.mem_cons, List.not_mem_nil, or_false,
      List.mem_map] at hr
    rcases hr with ((rfl | rfl | rfl) | ⟨q, hq, rfl⟩) | rfl | ⟨q, hq, rfl⟩
    · cases (Rule.match?_kind hm).symm.trans hk
    · cases (Rule.match?_kind hm).symm.trans hk
    · simp only [Symbol.nameRule, Rule.match?_run] at hm
      split at hm
      · next hstart =>
        cases hm
        cases hk
        exact .identifier String.toList_ofList hstart fun d hd => List.mem_takeWhile_imp hd
      · cases hm
    · exact hspelled q (List.mem_of_mem_take hq) hm
    · simp only [Symbol.numberRule, Rule.match?_run] at hm
      split at hm
      · next hstart =>
        cases hm
        cases hk
        exact .number String.toList_ofList hstart fun d hd => List.mem_takeWhile_imp hd
      · cases hm
    · exact hspelled q (List.mem_of_mem_drop hq) hm
  · obtain ⟨k', hliteral, rfl⟩ := Option.map_eq_some_iff.mp hm
    cases hk
    exact .spelled (literal_mem hliteral)

theorem isLexeme_of_cuts {cs : List Char} {ts : List Lexeme} {rest : Option (List Char)}
    (h : lexer.Cuts cs ts rest) : ∀ t ∈ ts, IsLexeme t := by
  induction h with
  | nil | stuck => simp
  | skip _ _ ih | drop _ _ _ _ ih => exact ih
  | keep _ hm hk _ ih =>
    intro t ht
    rcases List.mem_cons.mp ht with rfl | ht
    · exact isLexeme_of_match? hm hk
    · exact ih t ht

/-! ## Words for operators -/

/-- The token of the output that stands for a token. -/
def respell : Lexeme → Lexeme
  | (.binary .and, _) => (.identifier, "and")
  | (.binary .or, _) => (.identifier, "or")
  | (.not, _) => (.identifier, "not")
  | t => t

/-- A token of the output with words read as operators. -/
def reword : Lexeme → Lexeme
  | (.identifier, "and") => (.binary .and, "&&")
  | (.identifier, "or") => (.binary .or, "||")
  | (.identifier, "not") => (.not, "!")
  | t => t

theorem reword_respell {t : Lexeme} (h : IsLexeme t)
    (hwords : ∀ w ∈ ["and", "or", "not"], t ≠ (.identifier, w)) : reword (respell t) = t := by
  cases h with
  | @identifier s c cs _ _ _ =>
    simp only [List.forall_mem_cons, ne_eq, Prod.mk.injEq, true_and] at hwords
    simp only [respell, reword]
    split <;> simp_all
  | number => rfl
  | spelled h =>
    have hall : ∀ t ∈ spellings, reword (respell t) = t := by decide
    exact hall t h

/-! ## The tokens of the output -/

theorem match?_name {c : Char} {cs rest : List Char} (hc : isNameStart c = true)
    (hcs : ∀ d ∈ cs, isNamePart d = true) (hrest : ∀ d ∈ rest.head?, isNamePart d = false) :
    lexer.match? (c :: cs ++ rest) = some ⟨some .identifier, c :: cs, 0⟩ := by
  have hline : (c == '\n') = false := by
    refine beq_eq_false_iff_ne.mpr ?_
    rintro rfl
    cases hc
  have hslash : c ≠ '/' := by
    rintro rfl
    cases hc
  have hcomment : Symbol.commentRule.match? (c :: (cs ++ rest)) = none :=
    Rule.match?_eq_none (by simp [Symbol.commentRule, Pattern.size, hslash])
  rw [List.cons_append, Lexer.match?_cons, rules_eq]
  simp [Rule.match?_run, hline, hcomment, Symbol.nameRule, hc, takeWhile_run hcs hrest]

theorem isNameStart_of_isDigit {c : Char} (h : c.isDigit = true) : isNameStart c = false := by
  have hbound := Text.isDigit_iff.mp h
  refine Bool.eq_false_iff.mpr fun hstart => ?_
  rcases (Bool.or_eq_true _ _).mp hstart with halpha | hline
  · rcases (Bool.or_eq_true _ _).mp halpha with hupper | hlower
    · have hupper : 65 ≤ c.toNat := UInt32.le_iff_toNat_le.mp (of_decide_eq_true hupper).1
      omega
    · have hlower : 97 ≤ c.toNat :=
        UInt32.le_iff_toNat_le.mp (of_decide_eq_true ((Bool.and_eq_true _ _).mp hlower).1)
      omega
  · obtain rfl : c = '_' := by simpa using hline
    cases h

theorem match?_number {c : Char} {cs rest : List Char} (hc : c.isDigit = true)
    (hcs : ∀ d ∈ cs, d.isDigit = true) (hrest : ∀ d ∈ rest.head?, d.isDigit = false) :
    lexer.match? (c :: cs ++ rest) = some ⟨some .number, c :: cs, 0⟩ := by
  have hne : ∀ d : Char, d.isDigit = false → c ≠ d := by
    rintro d hd rfl
    rw [hc] at hd
    cases hd
  have hline : (c == '\n') = false := beq_eq_false_iff_ne.mpr (hne '\n' rfl)
  have hcomment : Symbol.commentRule.match? (c :: (cs ++ rest)) = none :=
    Rule.match?_eq_none (by simp [Symbol.commentRule, Pattern.size, hne '/' rfl])
  -- the rules before that for numbers do not match
  have hstart := isNameStart_of_isDigit hc
  have hbrackets : ∀ q ∈ sharedTokens.take 2,
      (Symbol.spelledRule q.1 q.2).match? (c :: (cs ++ rest)) = none := by
    intro q hq
    have hfirst : ∀ q ∈ sharedTokens.take 2, ∀ o ∈ q.1, o.toList.head?.any Char.isDigit = false ∧
        o.toList ≠ [] := by decide
    refine match?_spelledRule q.2 fun o ho hprefix => ?_
    obtain ⟨hdigit, hnil⟩ := hfirst q hq o ho
    obtain ⟨tail, htail⟩ := hprefix
    cases hw : o.toList with
    | nil => exact hnil hw
    | cons d ds =>
      rw [hw] at htail hdigit
      exact hne d hdigit (List.cons.inj htail).1.symm
  simp only [sharedTokens, List.take_succ_cons, List.take_zero, List.forall_mem_cons] at hbrackets
  rw [List.cons_append, Lexer.match?_cons]
  simp [rules_eq, sharedTokens, Rule.match?_run, hline, hcomment, Symbol.nameRule, hstart,
    hbrackets, Symbol.numberRule, hc, takeWhile_run hcs hrest]

/-- Tokens of the output that do not depend on what comes behind them. -/
def firmTokens : List Lexeme :=
  [(.leftParen, "("), (.rightParen, ")"), (.leftBracket, "["), (.leftBracket, "<:"),
   (.rightBracket, "]"), (.rightBracket, ":>"), (.binary .sub, "-"), (.complement, "~")]

theorem cuts_firm {t : Lexeme} (ht : t ∈ firmTokens) {rest : List Char} {us : List Lexeme}
    (h : lexer.Cuts rest us none) : lexer.Cuts (t.2.toList ++ rest) (t :: us) none := by
  refine .token ?_ ?_ h
  · revert t
    decide
  · simp only [firmTokens, List.mem_cons, List.not_mem_nil, or_false] at ht
    rcases ht with rfl | rfl | rfl | rfl | rfl | rfl | rfl | rfl <;> rfl

/-- The token that stands for an operator in the output. -/
def operatorToken (op : BinaryOp) : Lexeme :=
  (if op = .and ∨ op = .or then .identifier else .binary op, op.spelling)

/-- Between blanks an operator is one token. -/
theorem cuts_operator (op : BinaryOp) {rest : List Char} {us : List Lexeme}
    (h : lexer.Cuts rest us none) :
    lexer.Cuts (' ' :: (op.spelling.toList ++ ' ' :: rest)) (operatorToken op :: us) none := by
  refine .skip rfl (.token (t := operatorToken op) ?_ ?_ (.skip rfl h))
  · cases op <;> decide
  · cases op <;> rfl

theorem cuts_not {rest : List Char} {us : List Lexeme} (h : lexer.Cuts rest us none) :
    lexer.Cuts (UnaryOp.not.spelling.toList ++ rest) ((.identifier, "not") :: us) none := by
  have hword : lexer.Cuts ("not".toList ++ ' ' :: rest) ((.identifier, "not") :: us) none :=
    .token (t := (.identifier, "not")) (by decide) rfl (.skip rfl h)
  exact .skip rfl hword

theorem spelled_of_isLexeme {k : Symbol} {s : String} (h : IsLexeme (k, s))
    (hk : k ≠ .identifier ∧ k ≠ .number) : (k, s) ∈ spellings := by
  cases h with
  | identifier => exact absurd rfl hk.1
  | number => exact absurd rfl hk.2
  | spelled h => exact h

theorem respell_binary {op : BinaryOp} {s : String} (h : IsLexeme (.binary op, s)) :
    respell (.binary op, s) = operatorToken op := by
  have hmem := spelled_of_isLexeme h (by simp)
  cases op <;> simp [spellings, sharedTokens] at hmem <;> subst hmem <;> rfl

/-- Brackets and parentheses stand firm. -/
theorem firm_of_isLexeme {k : Symbol} {s : String} (h : IsLexeme (k, s))
    (hk : k ∈ [.leftParen, .rightParen, .leftBracket, .rightBracket]) :
    (k, s) ∈ firmTokens ∧ respell (k, s) = (k, s) := by
  have hall : ∀ t ∈ spellings, t.1 ∈ [.leftParen, .rightParen, .leftBracket, .rightBracket] →
      t ∈ firmTokens ∧ respell t = t := by
    decide
  refine hall (k, s) (spelled_of_isLexeme h ?_) hk
  constructor <;> rintro rfl <;> simp at hk

/-- No name goes on into a firm token. -/
theorem firm_head {t : Lexeme} (ht : t ∈ firmTokens) (rest : List Char) :
    ∀ d ∈ (t.2.toList ++ rest).head?, isNamePart d = false := by
  simp only [firmTokens, List.mem_cons, List.not_mem_nil, or_false] at ht
  rcases ht with rfl | rfl | rfl | rfl | rfl | rfl | rfl | rfl <;>
    · intro d hd
      cases hd
      rfl

theorem skipped_of_isNamePart {c : Char} (h : isNamePart c = true) : lexer.skipped c = false := by
  simp only [lexer, Symbol.isSpace, Bool.or_eq_false_iff, beq_eq_false_iff_ne]
  refine ⟨⟨⟨⟨?_, ?_⟩, ?_⟩, ?_⟩, ?_⟩ <;>
    · rintro rfl
      cases h

theorem IsLexeme.cuts_name {s : String} (h : IsLexeme (.identifier, s)) {rest : List Char}
    {us : List Lexeme} (hrest : ∀ d ∈ rest.head?, isNamePart d = false)
    (hcuts : lexer.Cuts rest us none) :
    lexer.Cuts (s.toList ++ rest) ((.identifier, s) :: us) none := by
  cases h with
  | @identifier _ c cs hs hc hcs =>
    refine .token (t := (.identifier, s)) ?_ ?_ hcuts
    · rw [hs]
      exact skipped_of_isNamePart (isNamePart_of_isNameStart hc)
    · rw [hs]
      exact match?_name hc hcs hrest
  | spelled h => simp [spellings, sharedTokens] at h

theorem IsLexeme.cuts_number {s : String} (h : IsLexeme (.number, s)) {rest : List Char}
    {us : List Lexeme} (hrest : ∀ d ∈ rest.head?, isNamePart d = false)
    (hcuts : lexer.Cuts rest us none) :
    lexer.Cuts (s.toList ++ rest) ((.number, s) :: us) none := by
  cases h with
  | @number _ c cs hs hc hcs =>
    have hstop : ∀ d ∈ rest.head?, d.isDigit = false := fun d hd =>
      Bool.eq_false_iff.mpr fun hdigit =>
        Bool.eq_false_iff.mp (hrest d hd) (isNamePart_of_isDigit hdigit)
    refine .token (t := (.number, s)) ?_ ?_ hcuts
    · rw [hs]
      exact skipped_of_isNamePart (isNamePart_of_isDigit hc)
    · rw [hs]
      exact match?_number hc hcs hstop
  | spelled h => simp [spellings, sharedTokens] at h

theorem cuts_sign {k : Symbol} {op : UnaryOp} {s : String} (hk : Expr.signOf? k = some op)
    (h : IsLexeme (k, s)) {rest : List Char} {us : List Lexeme} (hcuts : lexer.Cuts rest us none) :
    lexer.Cuts (op.spelling.toList ++ rest) (respell (k, s) :: us) none := by
  cases k with
  | binary op' =>
    cases op' with
    | sub =>
      cases hk
      rw [respell_binary h]
      exact cuts_firm (t := (.binary .sub, "-")) (by decide) hcuts
    | _ => cases hk
  | complement =>
    cases hk
    have hmem := spelled_of_isLexeme h (by simp)
    obtain rfl : s = "~" := by simpa [spellings, sharedTokens] using hmem
    exact cuts_firm (t := (.complement, "~")) (by decide) hcuts
  | not =>
    cases hk
    exact cuts_not hcuts
  | _ => cases hk

/-- The output of an expression is cut into the tokens that derive it, respelled. -/
theorem cuts_render {n : Nat} {ts : List Lexeme} {e : Expr} (h : Derives n ts e)
    (hts : ∀ t ∈ ts, IsLexeme t) {rest : List Char} {us : List Lexeme}
    (hrest : ∀ d ∈ rest.head?, isNamePart d = false) (hcuts : lexer.Cuts rest us none) :
    lexer.Cuts ((e.render id).toList ++ rest) (ts.map respell ++ us) none := by
  induction h generalizing rest us with
  | identifier s => exact (hts _ (List.mem_singleton_self _)).cuts_name hrest hcuts
  | number s => exact (hts _ (List.mem_singleton_self _)).cuts_number hrest hcuts
  | @group ts e o c _ ih =>
    obtain ⟨ho, -⟩ := firm_of_isLexeme (hts (.leftParen, o) (by simp)) (by simp)
    obtain ⟨hc, -⟩ := firm_of_isLexeme (hts (.rightParen, c) (by simp)) (by simp)
    have hinner := ih (fun t ht => hts t (by simp [ht])) (firm_head hc rest) (cuts_firm hc hcuts)
    have hall := cuts_firm ho hinner
    obtain rfl : o = "(" := by simpa [firmTokens] using ho
    obtain rfl : c = ")" := by simpa [firmTokens] using hc
    simpa [Expr.render, respell] using hall
  | @index ts e o n c _ ih =>
    obtain ⟨ho, hopening⟩ := firm_of_isLexeme (hts (.leftBracket, o) (by simp)) (by simp)
    obtain ⟨hc, hclosing⟩ := firm_of_isLexeme (hts (.rightBracket, c) (by simp)) (by simp)
    have hnumber := (hts (.number, n) (by simp)).cuts_number (firm_head hc rest)
      (cuts_firm hc hcuts)
    have hall := ih (fun t ht => hts t (by simp [ht])) (firm_head ho _) (cuts_firm ho hnumber)
    simpa [Expr.render, hopening, hclosing, respell] using hall
  | @sign k op ts e s hk _ ih =>
    have hinner := ih (fun t ht => hts t (by simp [ht])) hrest hcuts
    simpa [Expr.render] using cuts_sign hk (hts (k, s) (by simp)) hinner
  | @binary n op ts us' l r s hop _ _ ihl ihr =>
    have hr := ihr (fun t ht => hts t (by simp [ht])) hrest hcuts
    have hl := ihl (fun t ht => hts t (by simp [ht])) (by rintro d ⟨⟩; rfl) (cuts_operator op hr)
    rw [← respell_binary (hts (.binary op, s) (by simp))] at hl
    simpa [Expr.render] using hl
  | tighter _ ih => exact ih hts hrest hcuts

/-! ## Conditions -/

theorem finish_ne_none (p : Expr.Position) : finish (some p) ≠ .ok none := by
  intro h
  cases p with
  | after fs e x =>
    obtain ⟨⟨fs', e'⟩, -, h⟩ := bind_eq_ok.mp h
    rcases hall : Expr.closeAll fs' e' with ⟨_ | ⟨f, fs₁⟩, e₁⟩
    · simp only [hall] at h
      cases h
    · simp only [hall] at h
      cases h
  | _ => cases h

theorem foldlM_next_some {p : Expr.Position} {ts : List Lexeme} {q : Option Expr.Position}
    (h : ts.foldlM next (some p) = some q) : ∃ p', q = some p' := by
  induction ts generalizing p with
  | nil =>
    cases h
    exact ⟨p, rfl⟩
  | cons t ts ih =>
    obtain ⟨q₁, hnext, h⟩ := Option.bind_eq_some_iff.mp h
    simp only [next] at hnext
    split at hnext
    · cases hnext
      exact ih h
    · cases hnext

/-- Nothing is read just from nothing. -/
theorem read_eq_none {line : Nat} {text : String} :
    (read line text).1 = .ok none ↔ lexemes? text = some [] := by
  rw [read, Reader.run_eq_ok advances, lexemes?_eq_some]
  constructor
  · rintro ⟨ts, p, hcuts, hrun, hfinish⟩
    cases ts with
    | nil => exact hcuts
    | cons t ts =>
      -- from the first token on the reading stands somewhere
      have hrun : (t :: ts).foldlM next (some (.operand [])) = some p := hrun
      obtain ⟨p', rfl⟩ := foldlM_next_some hrun
      exact absurd hfinish (finish_ne_none p')
  · intro hcuts
    exact ⟨[], none, hcuts, rfl, rfl⟩

theorem read_eq_some {line : Nat} {text : String} {e : Expr} :
    (read line text).1 = .ok (some e) ↔ ∃ ts, lexemes? text = some ts ∧ Derives 0 ts e := by
  rw [read_eq_ok]
  refine exists_congr fun ts => ?_
  rw [lexemes?_eq_some]
  refine and_congr_right fun hcuts => accepts_iff_derives fun t ht op hstep => ?_
  obtain ⟨k, s⟩ := t
  subst hstep
  have hmem := spelled_of_isLexeme (isLexeme_of_cuts hcuts _ ht) (by simp)
  simp [spellings, sharedTokens] at hmem

/-- The output of a condition has the tokens of its text, respelled. -/
theorem lexemes?_render {ts : List Lexeme} {e : Expr} (h : Derives 0 ts e)
    (hts : ∀ t ∈ ts, IsLexeme t) : lexemes? (e.render id) = some (ts.map respell) := by
  have hcuts : lexer.Cuts ((e.render id).toList ++ []) (ts.map respell ++ []) none :=
    cuts_render h hts (by simp) .nil
  rw [lexemes?_eq_some]
  simpa using hcuts

theorem parse_ok_iff {line : Nat} {text r : String} :
    (parse line text).1 = .ok r ↔ ∃ o, (read line text).1 = .ok o ∧ render o = r := by
  show (read line text).1.map render = .ok r ↔ _
  cases (read line text).1 with
  | error f => simp [Except.map]
  | ok o => simp [Except.map]

/-- The tokens of an output, its words read as operators, are those of the text. -/
theorem lexemes?_parse {line : Nat} {text r : String} (hparse : (parse line text).1 = .ok r)
    {ts : List Lexeme} (hts : lexemes? text = some ts)
    (hwords : ∀ w ∈ ["and", "or", "not"], (.identifier, w) ∉ ts) :
    (lexemes? r).map (·.map reword) = some ts := by
  have hlexemes := isLexeme_of_cuts (lexemes?_eq_some.mp hts)
  obtain ⟨o, hread, rfl⟩ := parse_ok_iff.mp hparse
  cases o with
  | none =>
    cases hts.symm.trans (read_eq_none.mp hread)
    rfl
  | some e =>
    obtain ⟨ts', hts', hderives⟩ := read_eq_some.mp hread
    cases hts.symm.trans hts'
    have hback : (ts.map respell).map reword = ts := by
      rw [List.map_map]
      calc ts.map (reword ∘ respell) = ts.map id := List.map_congr_left fun t ht =>
            reword_respell (hlexemes t ht) fun w hw heq => hwords w hw (heq ▸ ht)
        _ = ts := List.map_id ts
    rw [render, lexemes?_render hderives hlexemes, Option.map_some, hback]

/-- A text is a condition just if it is cut into tokens that derive an expression, or into none.
The output then has the same tokens in the same order, if the words of the output are not among
them and are read as the operators that they stand for; and with the words read so, it derives
the expression that was read from the text, and no other. -/
theorem parse_keeps_tokens (line : Nat) (text : String) :
    ((∃ r, (parse line text).1 = .ok r) ↔
      ∃ ts, lexemes? text = some ts ∧ (ts = [] ∨ ∃ e, Derives 0 ts e)) ∧
    ∀ r ts, (parse line text).1 = .ok r → lexemes? text = some ts →
      (∀ w ∈ ["and", "or", "not"], (.identifier, w) ∉ ts) →
      (lexemes? r).map (·.map reword) = some ts ∧
        ∀ e, (read line text).1 = .ok (some e) ↔
          ∃ us, lexemes? r = some us ∧ Derives 0 (us.map reword) e := by
  refine ⟨⟨?_, ?_⟩, fun r ts hparse hts hwords => ?_⟩
  · rintro ⟨r, hparse⟩
    obtain ⟨o, hread, -⟩ := parse_ok_iff.mp hparse
    cases o with
    | none => exact ⟨[], read_eq_none.mp hread, .inl rfl⟩
    | some e =>
      obtain ⟨ts, hts, hderives⟩ := read_eq_some.mp hread
      exact ⟨ts, hts, .inr ⟨e, hderives⟩⟩
  · rintro ⟨ts, hts, rfl | ⟨e, hderives⟩⟩
    · exact ⟨_, parse_ok_iff.mpr ⟨none, read_eq_none.mpr hts, rfl⟩⟩
    · exact ⟨_, parse_ok_iff.mpr ⟨some e, read_eq_some.mpr ⟨ts, hts, hderives⟩, rfl⟩⟩
  · have hkept := lexemes?_parse hparse hts hwords
    obtain ⟨us, hus, rfl⟩ := Option.map_eq_some_iff.mp hkept
    refine ⟨hkept, fun e => ?_⟩
    rw [read_eq_some]
    constructor
    · rintro ⟨ts', hts', hderives⟩
      cases hts.symm.trans hts'
      exact ⟨us, hus, hderives⟩
    · rintro ⟨us', hus', hderives⟩
      cases hus.symm.trans hus'
      exact ⟨_, hts, hderives⟩

theorem parse_keeps_tokens_guard :
    let text := "a[3] >= -x /* on */ && !(b % 2)"
    let r := "a[3] >= -x and  not (b % 2)"
    let ts : List Lexeme := [(.identifier, "a"), (.leftBracket, "["), (.number, "3"),
      (.rightBracket, "]"), (.binary .ge, ">="), (.binary .sub, "-"), (.identifier, "x"),
      (.binary .and, "&&"), (.not, "!"), (.leftParen, "("), (.identifier, "b"),
      (.binary .mod, "%"), (.number, "2"), (.rightParen, ")")]
    (parse 1 text).1 = .ok r ∧ lexemes? text = some ts ∧
      (lexemes? r).map (·.map reword) = some ts := by
  intro text r ts
  have hparse : (parse 1 text).1 = .ok r := by decide +kernel
  have hts : lexemes? text = some ts := by decide +kernel
  exact ⟨hparse, hts, ((parse_keeps_tokens 1 text).2 r ts hparse hts (by decide)).1⟩

end Statechart.Condition
