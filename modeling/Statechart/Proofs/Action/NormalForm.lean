import Statechart.Proofs.Action.Grammar
import Statechart.Proofs.Action.Output
import Statechart.Proofs.Expr.Statements

/-!
The normal form of statements. In the output updates and steps are plain assignments, and it stays
as it is when it is read again: its tokens derive the expression with its assignments written out
(`Derives.respelled`), unless two minus signs stand side by side. Then a step is read that was not
there. It is written out as an assignment, which brings an equals sign to the output that the text
does not have (`Derives.equals_le`, `equals_tokens`). So a statement of the output is in normal form
just if it has no two minus signs side by side (`statement_normal_iff`).
-/

namespace Statechart.Action

open Statechart.Expr (Lexeme signOf?)
open Statechart.Symbol (isNamePart)

/-! ## Plain assignments -/

/-- The expression with updates and steps written out as plain assignments. -/
def desugar : Expr → Expr
  | .atom s => .atom s
  | .group e => .group (desugar e)
  | .index b o e c => .index (desugar b) o (desugar e) c
  | .unary op e => .unary op (desugar e)
  | .binary op l r => .binary op (desugar l) (desugar r)
  | .assign (.update op) t v =>
    .assign .store (desugar t) (.binary op.binary (.group (desugar t)) (.group (desugar v)))
  | .assign _ t v => .assign .store (desugar t) (desugar v)
  | .step op t => .assign .store (desugar t) (.binary op.binary (desugar t) (.atom "1"))
  | .comma l r => .comma (desugar l) (desugar r)

/-- This is how they are written in the output. -/
theorem render_desugar (e : Expr) : (desugar e).render id = e.render id := by
  induction e with
  | atom s => rfl
  | group e ih | unary op e ih => simp only [desugar, Expr.render, ih]
  | index b o e c ihb ihe => simp only [desugar, Expr.render, ihb, ihe]
  | binary op l r ihl ihr | comma l r ihl ihr => simp only [desugar, Expr.render, ihl, ihr]
  | assign op t v iht ihv =>
    cases op with
    | store | colonStore => simp only [desugar, Expr.render, Expr.assignment, iht, ihv]
    | update op =>
      simp [desugar, Expr.render, Expr.assignment, iht, ihv, ← String.toList_inj]
  | step op t ih => simp [desugar, Expr.render, Expr.assignment, ih, ← String.toList_inj]

/-! ## Tokens of a text -/

/-- What is known of a token that a text is cut into. -/
structure IsSpelled (t : Lexeme) : Prop where
  atom : t.1 = .identifier ∨ t.1 = .number → IsAtom t.2
  opening : t.1 = .leftBracket → IsOpening t.2
  closing : t.1 = .rightBracket → IsClosing t.2

theorem isSpelled_of_literal {c : Char} {k : Symbol} (h : lexer.literal? c = some k)
    (text : String) : IsSpelled (k, text) := by
  have hmark : k ≠ .identifier ∧ k ≠ .number ∧ k ≠ .leftBracket ∧ k ≠ .rightBracket := by
    simp only [lexer] at h
    split at h
    · cases h
      simp
    · unfold Symbol.ofChar? at h
      split at h <;> cases h <;> simp
  obtain ⟨hidentifier, hnumber, hleft, hright⟩ := hmark
  exact ⟨by simp [hidentifier, hnumber], by simp [hleft], by simp [hright]⟩

theorem isSpelled_of_match? {c : Char} {cs : List Char} {m : Lexer.Match Symbol} {k : Symbol}
    (hm : lexer.match? (c :: cs) = some m) (hk : m.kind? = some k) :
    IsSpelled (k, String.ofList m.text) := by
  rw [Lexer.match?_cons] at hm
  rcases Option.or_eq_some_iff.mp hm with hm | ⟨-, hm⟩
  · obtain ⟨r, hr, hm⟩ := List.exists_of_findSome?_eq_some hm
    rcases rule_cases r hr with rfl | rfl | rfl | rfl | ⟨q, hq, rfl⟩
    · simp only [Symbol.nameRule, Rule.match?_run] at hm
      split at hm
      · next hc =>
        cases hm
        cases hk
        unfold wordKind
        cases hword : TypeWord.ofSpelling? (String.ofList (c :: cs.takeWhile isNamePart)) with
        | some w => exact ⟨by simp, by simp, by simp⟩
        | none =>
          exact ⟨fun _ => .name String.toList_ofList hc (fun d hd => List.mem_takeWhile_imp hd)
            hword, by simp, by simp⟩
      · cases hm
    · simp only [Symbol.numberRule, Rule.match?_run] at hm
      split at hm
      · next hc =>
        cases hm
        cases hk
        exact ⟨fun _ => .number String.toList_ofList hc fun d hd => List.mem_takeWhile_imp hd,
          by simp, by simp⟩
      · cases hm
    · cases (Rule.match?_kind hm).symm.trans hk
      exact ⟨by simp, by simp, by simp⟩
    · cases (Rule.match?_kind hm).symm.trans hk
    · obtain ⟨hkind, o, ho, htext⟩ := spelledRule_match? hm
      cases hkind.symm.trans hk
      rw [htext, String.ofList_toList]
      have hspelled : ∀ q ∈ sharedTokens ++ extraTokens, q.2 ≠ .identifier ∧ q.2 ≠ .number ∧
          (q.2 = .leftBracket → ∀ o ∈ q.1, o = "[" ∨ o = "<:") ∧
          (q.2 = .rightBracket → ∀ o ∈ q.1, o = "]" ∨ o = ":>") := by
        decide
      obtain ⟨hidentifier, hnumber, hopening, hclosing⟩ := hspelled q hq
      exact ⟨by simp [hidentifier, hnumber], fun h => hopening h o ho, fun h => hclosing h o ho⟩
  · obtain ⟨k', hliteral, rfl⟩ := Option.map_eq_some_iff.mp hm
    cases hk
    exact isSpelled_of_literal hliteral _

theorem isSpelled_of_cuts {cs : List Char} {ts : List Lexeme} {rest : Option (List Char)}
    (h : lexer.Cuts cs ts rest) : ∀ t ∈ ts, IsSpelled t := by
  induction h with
  | nil | stuck => simp
  | skip _ _ ih | drop _ _ _ _ ih => exact ih
  | keep _ hm hk _ ih => exact List.forall_mem_cons.mpr ⟨isSpelled_of_match? hm hk, ih⟩

/-! ## Derivations of the output -/

/-- A token that has no word in the output. -/
def IsKept (t : Lexeme) : Prop := t.1 ≠ .binary .or ∧ t.1 ≠ .binary .and ∧ t.1 ≠ .not

theorem isAtom_one : IsAtom "1" :=
  @IsAtom.number "1" '1' [] rfl rfl (by simp)

theorem binary_ne_words (op : UpdateOp) : op.binary ≠ .or ∧ op.binary ≠ .and := by
  cases op <;> decide

/-- Without disjunctions, conjunctions and negations an expression is written with tokens alone. -/
theorem Derives.isWritten {n : Nat} {ts : List Lexeme} {e : Expr} (h : Derives n ts e)
    (hts : ∀ t ∈ ts, IsSpelled t ∧ IsKept t) : IsWritten (desugar e) := by
  induction h with
  | identifier s => exact (hts _ (List.mem_singleton_self _)).1.atom (.inl rfl)
  | number s => exact (hts _ (List.mem_singleton_self _)).1.atom (.inr rfl)
  | group o c _ ih => exact ih fun t ht => hts t (by simp [ht])
  | @index ts us b e o c _ _ ihb ihe =>
    refine ⟨ihb fun t ht => hts t (by simp [ht]), ?_, ihe fun t ht => hts t (by simp [ht]), ?_⟩
    · exact (hts (.leftBracket, o) (by simp)).1.opening rfl
    · exact (hts (.rightBracket, c) (by simp)).1.closing rfl
  | @sign k op ts e s hk _ ih =>
    refine ⟨?_, ih fun t ht => hts t (by simp [ht])⟩
    rintro rfl
    cases k with
    | not => exact (hts (.not, s) (by simp)).2.2.2 rfl
    | binary op' => cases op' <;> cases hk
    | _ => cases hk
  | @binary op ts us l r s _ _ ihl ihr =>
    obtain ⟨-, hor, hand, -⟩ := hts (.binary op, s) (by simp)
    exact ⟨⟨fun h => hor (h ▸ rfl), fun h => hand (h ▸ rfl)⟩, ihl fun t ht => hts t (by simp [ht]),
      ihr fun t ht => hts t (by simp [ht])⟩
  | @stepBefore op ts e s _ ih | @stepBehind op ts e s _ ih =>
    have htarget := ih fun t ht => hts t (by simp [ht])
    exact ⟨rfl, htarget, by cases op <;> decide, htarget, isAtom_one⟩
  | @assign op ts us t v s _ _ iht ihv =>
    have htarget := iht fun t ht => hts t (by simp [ht])
    have hvalue := ihv fun t ht => hts t (by simp [ht])
    cases op with
    | store | colonStore => exact ⟨rfl, htarget, hvalue⟩
    | update op => exact ⟨rfl, htarget, binary_ne_words op, htarget, hvalue⟩
  | comma s _ _ ihl ihr =>
    exact ⟨ihl fun t ht => hts t (by simp [ht]), ihr fun t ht => hts t (by simp [ht])⟩
  | tighter _ ih => exact ih hts

theorem tokens_add_two (n : Nat) (e : Expr) :
    tokens (n + 2) e = (.step .down, "--") :: tokens n e := by
  induction e generalizing n with
  | atom s | group e ih => rfl
  | unary op e ih =>
    cases op with
    | minus => exact ih (n + 1)
    | complement | not => rfl
  | index b o e c ihb ihe => simp only [tokens, ihb, List.cons_append]
  | binary op l r ihl ihr | comma l r ihl ihr => simp only [tokens, ihl, List.cons_append]
  | assign op t v iht ihv => simp only [tokens, iht, List.cons_append]
  | step op t ih => simp only [tokens, ih]

/-- A minus sign in front is a token of its own, if no step arises. -/
theorem tokens_one {e : Expr} (h : ¬ HasStep (tokens 1 e)) :
    tokens 1 e = (.binary .sub, "-") :: tokens 0 e := by
  induction e with
  | atom s | group e ih => rfl
  | unary op e ih =>
    cases op with
    | minus =>
      rw [tokens, tokens_add_two 0] at h
      exact absurd (hasStep_cons.mpr (.inl rfl)) h
    | complement | not => rfl
  | index b o e c ihb ihe =>
    simp only [tokens, hasStep_append, not_or] at h
    simp only [tokens, ihb h.1, List.cons_append]
  | binary op l r ihl ihr | comma l r ihl ihr =>
    simp only [tokens, hasStep_append, not_or] at h
    simp only [tokens, ihl h.1, List.cons_append]
  | assign op t v iht ihv =>
    simp only [tokens, hasStep_append, not_or] at h
    simp only [tokens, iht h.1, List.cons_append]
  | step op t ih => exact ih h

theorem derives_atom (s : String) : Derives 13 [(operandKind s, s)] (.atom s) := by
  unfold operandKind
  split
  · exact .number s
  · exact .identifier s

/-- A group, with the parentheses of the output. -/
theorem derives_group {ts : List Lexeme} {e : Expr} (h : Derives 0 ts e) :
    Derives 13 ((.leftParen, "(") :: (ts ++ [(.rightParen, ")")])) (.group e) :=
  .group "(" ")" h

/-- An operator with operands that bind tighter than any operator. -/
theorem derives_operation {ts us : List Lexeme} {l r : Expr} (op : BinaryOp) (hl : Derives 12 ts l)
    (hr : Derives 12 us r) :
    Derives 1 (ts ++ (.binary op, op.spelling) :: us) (.binary op l r) := by
  have hlt := Expr.strength_lt op
  exact (Derives.binary op.spelling (hl.mono (by omega)) (hr.mono (by omega))).mono (by omega)

/-- The tokens of the output derive the expression with its assignments written out, if no step
arises. -/
theorem Derives.respelled {n : Nat} {ts : List Lexeme} {e : Expr} (h : Derives n ts e)
    (he : IsWritten (desugar e)) (hstep : ¬ HasStep (tokens 0 (desugar e))) :
    Derives n (tokens 0 (desugar e)) (desugar e) := by
  induction h with
  | identifier s | number s => exact derives_atom s
  | group o c _ ih =>
    simp only [desugar, tokens, signs, List.nil_append, hasStep_cons, hasStep_append,
      not_or] at hstep ⊢
    exact derives_group (ih he hstep.2.1)
  | @index ts us b e o c _ _ ihb ihe =>
    obtain ⟨hb, -, he, -⟩ := he
    simp only [desugar, tokens, hasStep_cons, hasStep_append, not_or] at hstep ⊢
    have hindex := Derives.index o c (ihb hb hstep.1) (ihe he hstep.2.2.1)
    simpa using hindex
  | @sign k op ts e s hk _ ih =>
    obtain ⟨hop, he⟩ := he
    cases op with
    | not => exact absurd rfl hop
    | minus =>
      simp only [desugar, tokens] at hstep ⊢
      have hsign := tokens_one hstep
      rw [hsign] at hstep ⊢
      exact .sign "-" rfl (ih he fun h => hstep (hasStep_cons.mpr (.inr h)))
    | complement =>
      simp only [desugar, tokens, signs, List.nil_append, hasStep_cons, not_or] at hstep ⊢
      exact .sign "~" rfl (ih he hstep.2)
  | @binary op ts us l r s _ _ ihl ihr =>
    obtain ⟨-, hl, hr⟩ := he
    simp only [desugar, tokens, hasStep_cons, hasStep_append, not_or] at hstep ⊢
    exact .binary op.spelling (ihl hl hstep.1) (ihr hr hstep.2.2)
  | @stepBefore op ts e s _ ih | @stepBehind op ts e s _ ih =>
    obtain ⟨-, ht, -⟩ := he
    simp only [desugar, tokens, hasStep_append, not_or] at hstep ⊢
    have htarget := ih ht hstep.1
    have hone := (derives_atom "1").mono (show 12 ≤ 13 by decide)
    exact .assign "=" htarget (derives_operation op.binary htarget hone)
  | @assign op ts us t v s _ _ iht ihv =>
    cases op with
    | store | colonStore =>
      obtain ⟨-, ht, hv⟩ := he
      simp only [desugar, tokens, hasStep_cons, hasStep_append, not_or] at hstep ⊢
      exact .assign "=" (iht ht hstep.1) (ihv hv hstep.2.2)
    | update op =>
      obtain ⟨-, ht, -, -, hv⟩ := he
      simp only [desugar, tokens, signs, List.nil_append, hasStep_cons, hasStep_append,
        not_or] at hstep ⊢
      have htarget := iht ht hstep.1
      have hvalue := ihv hv hstep.2.2.2.2.2.1
      exact .assign "=" htarget (derives_operation op.binary
        ((derives_group (htarget.mono (by decide))).mono (by decide))
        ((derives_group (hvalue.mono (by decide))).mono (by decide)))
  | @comma ts us l r s _ _ ihl ihr =>
    obtain ⟨hl, hr⟩ := he
    simp only [desugar, tokens, hasStep_cons, hasStep_append, not_or] at hstep ⊢
    exact .comma "," (ihl hl hstep.1) (ihr hr hstep.2.2)
  | tighter _ ih => exact (ih he hstep).tighter

/-! ## Equals signs -/

/-- The equals signs of a token in the output. -/
def equals : Symbol → Nat
  | .assign _ | .step _ | .binary .ne | .binary .le | .binary .ge => 1
  | .binary .eq => 2
  | _ => 0

/-- One for the step that two minus signs are read as. -/
def downs : Symbol → Nat
  | .step .down => 1
  | _ => 0

def total (count : Symbol → Nat) : List Lexeme → Nat
  | [] => 0
  | t :: ts => count t.1 + total count ts

theorem total_append (count : Symbol → Nat) (ts us : List Lexeme) :
    total count (ts ++ us) = total count ts + total count us := by
  induction ts with
  | nil => exact (Nat.zero_add _).symm
  | cons t ts ih => rw [List.cons_append, total, total, ih, Nat.add_assoc]

/-- The equals signs of an expression in the output. -/
def equalsOf (e : Expr) : Nat := (e.render id).toList.count '='

theorem count_spelling (op : BinaryOp) : op.spelling.toList.count '=' = equals (.binary op) := by
  cases op <;> decide

theorem equalsOf_group (e : Expr) : equalsOf (.group e) = equalsOf e := by
  simp [equalsOf, Expr.render]

theorem equalsOf_index (b : Expr) (o : String) (e : Expr) (c : String) :
    equalsOf (.index b o e c) =
      equalsOf b + o.toList.count '=' + equalsOf e + c.toList.count '=' := by
  simp [equalsOf, Expr.render, Nat.add_assoc]

theorem equalsOf_unary (op : UnaryOp) (e : Expr) : equalsOf (.unary op e) = equalsOf e := by
  cases op <;> simp [equalsOf, Expr.render, UnaryOp.spelling]

theorem equalsOf_binary (op : BinaryOp) (l r : Expr) :
    equalsOf (.binary op l r) = equalsOf l + equals (.binary op) + equalsOf r := by
  simp [equalsOf, Expr.render, count_spelling, Nat.add_assoc]

theorem equalsOf_store (t v : Expr) :
    equalsOf (.assign .store t v) = equalsOf t + 1 + equalsOf v := by
  simp [equalsOf, Expr.render, Expr.assignment, Nat.add_assoc, Nat.add_comm 1]

theorem equalsOf_comma (l r : Expr) : equalsOf (.comma l r) = equalsOf l + equalsOf r := by
  simp [equalsOf, Expr.render]

theorem equalsOf_desugar (e : Expr) : equalsOf (desugar e) = equalsOf e :=
  congrArg (·.toList.count '=') (render_desugar e)

/-- Every token of a statement brings its equals signs to the output. -/
theorem Derives.equals_le {n : Nat} {ts : List Lexeme} {e : Expr} (h : Derives n ts e) :
    total equals ts ≤ equalsOf (desugar e) := by
  induction h with
  | identifier s | number s => exact Nat.zero_le _
  | group o c _ ih =>
    simp only [total_append, total, equals, desugar, equalsOf_group]
    omega
  | index o c _ _ ihb ihe =>
    simp only [total_append, total, equals, desugar, equalsOf_index]
    omega
  | @sign k op ts e s hk _ ih =>
    have hzero : equals k = 0 := by
      cases k with
      | binary op' =>
        cases op' with
        | sub => rfl
        | _ => cases hk
      | complement | not => rfl
      | _ => cases hk
    simp only [total, hzero, desugar, equalsOf_unary]
    omega
  | @binary op ts us l r s _ _ ihl ihr =>
    simp only [total_append, total, desugar, equalsOf_binary]
    omega
  | @stepBefore op ts e s _ ih | @stepBehind op ts e s _ ih =>
    simp only [total_append, total, equals, desugar, equalsOf_store]
    omega
  | @assign op ts us t v s _ _ iht ihv =>
    simp only [total_append, total, equals]
    cases op with
    | store | colonStore =>
      simp only [desugar, equalsOf_store]
      omega
    | update op =>
      simp only [desugar, equalsOf_store, equalsOf_binary, equalsOf_group]
      omega
  | comma s _ _ ihl ihr =>
    simp only [total_append, total, equals, desugar, equalsOf_comma]
    omega
  | tighter _ ih => exact ih

theorem downs_pos {ts : List Lexeme} (h : HasStep ts) : 0 < total downs ts := by
  obtain ⟨t, ht, hstep⟩ := h
  obtain ⟨us, vs, rfl⟩ := List.append_of_mem ht
  rw [total_append, total, hstep, downs]
  omega

theorem equals_signs (n : Nat) : total equals (signs n) = total downs (signs n) := by
  induction n using signs.induct with
  | case1 | case2 => rfl
  | case3 n ih => simp only [signs, total, equals, downs, ih]

theorem IsAtom.count_equals {s : String} (hs : IsAtom s) : s.toList.count '=' = 0 := by
  obtain ⟨c, cs, hchars, hname⟩ := hs.head
  rw [hchars]
  exact List.count_eq_zero.mpr fun hmem => by cases hname _ hmem

theorem equals_operandKind (s : String) :
    equals (operandKind s) = 0 ∧ downs (operandKind s) = 0 := by
  unfold operandKind
  split <;> exact ⟨rfl, rfl⟩

/-- The tokens of the output have one equals sign more for every step that arises. -/
theorem equals_tokens {e : Expr} (he : IsWritten e) (n : Nat) :
    total equals (tokens n e) = equalsOf e + total downs (tokens n e) := by
  induction e generalizing n with
  | atom s =>
    obtain ⟨hequals, hdowns⟩ := equals_operandKind s
    have hcount : equalsOf (.atom s) = 0 := IsAtom.count_equals he
    simp only [tokens, total_append, total, equals_signs, hequals, hdowns, hcount]
    omega
  | group e ih =>
    have hinner := ih he 0
    simp only [tokens, total_append, total, equals_signs, equals, downs,
      equalsOf_group]
    omega
  | index b o e c ihb ihe =>
    obtain ⟨hb, ho, he, hc⟩ := he
    have hbase := ihb hb n
    have hinner := ihe he 0
    have hopening : o.toList.count '=' = 0 := by rcases ho with rfl | rfl <;> rfl
    have hclosing : c.toList.count '=' = 0 := by rcases hc with rfl | rfl <;> rfl
    simp only [tokens, total_append, total, equals, downs, equalsOf_index]
    omega
  | unary op e ih =>
    obtain ⟨hop, he⟩ := he
    rw [equalsOf_unary]
    cases op with
    | not => exact absurd rfl hop
    | minus => exact ih he (n + 1)
    | complement =>
      have hinner := ih he 0
      simp only [tokens, total_append, total, equals_signs, equals, downs]
      omega
  | binary op l r ihl ihr =>
    obtain ⟨-, hl, hr⟩ := he
    have hleft := ihl hl n
    have hright := ihr hr 0
    simp only [tokens, total_append, total, downs, equalsOf_binary]
    omega
  | assign op t v iht ihv =>
    obtain ⟨rfl, ht, hv⟩ := he
    have htarget := iht ht n
    have hvalue := ihv hv 0
    simp only [tokens, total_append, total, equals, downs, equalsOf_store]
    omega
  | step op t => cases he
  | comma l r ihl ihr =>
    obtain ⟨hl, hr⟩ := he
    have hleft := ihl hl n
    have hright := ihr hr 0
    simp only [tokens, total_append, total, equals, downs, equalsOf_comma]
    omega

/-! ## Reading the output -/

theorem mem_elaborate {items : List Item} {vars vars' : Variables} {ss : List String} {s : String}
    (h : elaborate "" vars items = (ss, vars')) (hs : s ∈ ss) :
    ∃ e, .statement e ∈ items ∧ s = e.render id := by
  induction items generalizing vars ss with
  | nil =>
    cases h
    cases hs
  | cons i items ih =>
    cases i with
    | statement e =>
      cases h
      rcases List.mem_cons.mp hs with rfl | hs
      · exact ⟨e, List.mem_cons_self .., by rw [rename_nobody]⟩
      · obtain ⟨e', he', rfl⟩ := ih rfl hs
        exact ⟨e', List.mem_cons_of_mem _ he', rfl⟩
    | declaration type const ds =>
      obtain ⟨e', he', rfl⟩ := ih h hs
      exact ⟨e', List.mem_cons_of_mem _ he', rfl⟩

/-- The output does not start with an equals sign. -/
theorem head_render {e : Expr} (he : IsWritten e) :
    ∃ c cs, (e.render id).toList = c :: cs ∧ c ≠ '=' := by
  have hfront {u w : List Char} (h : ∃ c cs, u = c :: cs ∧ c ≠ '=') (hw : u <+: w) :
      ∃ c cs, w = c :: cs ∧ c ≠ '=' := by
    obtain ⟨c, cs, rfl, hc⟩ := h
    obtain ⟨v, rfl⟩ := hw
    exact ⟨c, cs ++ v, rfl, hc⟩
  induction e with
  | atom s =>
    obtain ⟨c, cs, hs, hname⟩ := IsAtom.head he
    refine ⟨c, cs, hs, ?_⟩
    rintro rfl
    cases hname _ (List.mem_cons_self ..)
  | group e ih => exact ⟨'(', (e.render id).toList ++ [')'], by simp [Expr.render], by decide⟩
  | unary op e ih =>
    have hsign : ∃ c cs, op.spelling.toList = c :: cs ∧ c ≠ '=' := by
      cases op <;> exact ⟨_, _, rfl, by decide⟩
    exact hfront hsign (by simp [Expr.render])
  | index b o e c ihb ihe =>
    exact hfront (ihb he.1) (by simp [Expr.render])
  | binary op l r ihl ihr =>
    exact hfront (ihl he.2.1) (by simp [Expr.render])
  | assign op t v iht ihv =>
    obtain ⟨rfl, ht, -⟩ := he
    exact hfront (iht ht) (by simp [Expr.render, Expr.assignment])
  | step op t => cases he
  | comma l r ihl ihr =>
    exact hfront (ihl he.1) (by simp [Expr.render])

theorem tokens_ne_nil (n : Nat) (e : Expr) : tokens n e ≠ [] := by
  induction e generalizing n with
  | unary op e ih =>
    cases op with
    | minus => exact ih (n + 1)
    | complement | not => simp [tokens]
  | step op t ih => exact ih n
  | _ => simp [tokens]

/-- A token that neither ends a statement nor starts a declaration. -/
def isInner : Symbol → Bool
  | .semicolon | .newline | .leftBrace | .rightBrace | .typeWord _ => false
  | _ => true

theorem isBreak_of_isInner {k : Symbol} (h : isInner k = true) :
    isBreak k = false ∧ ∀ w, k ≠ .typeWord w := by
  cases k with
  | semicolon | newline | leftBrace | rightBrace | typeWord => cases h
  | _ => exact ⟨rfl, fun w => Symbol.noConfusion⟩

theorem isInner_signs (n : Nat) : ∀ t ∈ signs n, isInner t.1 = true := by
  induction n using signs.induct with
  | case1 => simp [signs]
  | case2 => exact List.forall_mem_singleton.mpr rfl
  | case3 n ih => exact List.forall_mem_cons.mpr ⟨rfl, ih⟩

theorem isInner_tokens (n : Nat) (e : Expr) : ∀ t ∈ tokens n e, isInner t.1 = true := by
  have hin {t : Lexeme} {us ts : List Lexeme} (hus : ∀ t ∈ us, isInner t.1 = true)
      (ht : isInner t.1 = true) (hts : ∀ t ∈ ts, isInner t.1 = true) :
      ∀ u ∈ us ++ t :: ts, isInner u.1 = true :=
    List.forall_mem_append.mpr ⟨hus, List.forall_mem_cons.mpr ⟨ht, hts⟩⟩
  induction e generalizing n with
  | atom s =>
    refine hin (isInner_signs n) ?_ (by simp)
    unfold operandKind
    split <;> rfl
  | group e ih => exact hin (isInner_signs n) rfl (hin (ih 0) rfl (by simp))
  | index b o e c ihb ihe => exact hin (ihb n) rfl (hin (ihe 0) rfl (by simp))
  | unary op e ih =>
    cases op with
    | minus => exact ih (n + 1)
    | complement | not => exact hin (isInner_signs n) rfl (ih 0)
  | binary op l r ihl ihr | comma l r ihl ihr => exact hin (ihl n) rfl (ihr 0)
  | assign op t v iht ihv => exact hin (iht n) rfl (ihv 0)
  | step op t ih => exact ih n

/-- A written expression with a semicolon behind it is one statement, one that its tokens derive. -/
theorem read_render {line : Nat} {e : Expr} (he : IsWritten e) {items : List Item} :
    (read line (e.render id ++ ";")).1 = .ok items ↔
      ∃ e', items = [.statement e'] ∧ Derives 0 (tokens 0 e) e' := by
  have hcuts : lexer.Cuts (e.render id ++ ";").toList (tokens 0 e ++ [(.semicolon, ";")]) none := by
    rw [String.toList_append]
    exact cuts_render he 0 (by rintro d ⟨⟩; rfl) cuts_semicolon
  have hhead : (e.render id ++ ";").toList.head? ≠ some '=' := by
    obtain ⟨c, cs, hchars, hc⟩ := head_render he
    simpa [hchars] using hc
  rw [read_eq_ok, and_iff_right hhead]
  constructor
  · rintro ⟨ts, s, hts, hrun, hfinish⟩
    obtain ⟨rfl, -⟩ := hcuts.unique hts
    exact derives_of_foldlM (tokens_ne_nil 0 e)
      (fun t ht => isBreak_of_isInner (isInner_tokens 0 e t ht)) hrun hfinish
  · rintro ⟨e', rfl, he'⟩
    exact ⟨_, _, hcuts, foldlM_of_derives he' ";" 0 [], rfl⟩

/-- It stays as it is just if its tokens derive an expression of the same output. -/
theorem parse_render {line : Nat} {e : Expr} (he : IsWritten e) :
    (parse line (e.render id ++ ";") "" .empty).1 = .ok ([e.render id], .empty) ↔
      ∃ e', Derives 0 (tokens 0 e) e' ∧ e'.render id = e.render id := by
  rw [parse_eq_ok]
  constructor
  · rintro ⟨items, hread, helaborate⟩
    obtain ⟨e', rfl, he'⟩ := (read_render he).mp hread
    refine ⟨e', he', ?_⟩
    simpa [elaborate, rename_nobody] using helaborate
  · rintro ⟨e', he', hsame⟩
    refine ⟨_, (read_render he).mpr ⟨e', rfl, he'⟩, ?_⟩
    simp [elaborate, rename_nobody, hsame]

/-- In the output of a text without declarations, disjunctions, conjunctions and negations, a
statement with a semicolon behind it is an action that has itself as its output, just if it has no
two minus signs side by side. -/
theorem statement_normal_iff {line line' : Nat} {text s : String} {ss : List String}
    {vars : Variables} (h : (parse line text "" .empty).1 = .ok (ss, vars))
    (hts : ∀ t ∈ (scan line text.toList).tokens, t.kind ≠ .binary .or ∧ t.kind ≠ .binary .and ∧
      t.kind ≠ .not ∧ ∀ w, t.kind ≠ .typeWord w) (hs : s ∈ ss) :
    (parse line' (s ++ ";") "" .empty).1 = .ok ([s], .empty) ↔ ¬ "--".toList <:+: s.toList := by
  obtain ⟨items, hread, helaborate⟩ := parse_eq_ok.mp h
  obtain ⟨e, he, rfl⟩ := mem_elaborate helaborate hs
  obtain ⟨hfront, ts, -, hcuts, -⟩ := read_eq_ok.mp hread
  have hkept : ∀ t ∈ ts, IsKept t ∧ ∀ w, t.1 ≠ .typeWord w := by
    obtain ⟨htokens, -⟩ := (lexer.cuts_scan line text.toList).unique hcuts
    rw [← htokens, ← scan_of_head hfront]
    simpa [Token.bare, IsKept, and_assoc] using hts
  obtain ⟨_, us, ⟨⟩, hus, hderives⟩ := read_derived hcuts (fun t ht => (hkept t ht).2) hread _ he
  have hwritten : IsWritten (desugar e) := hderives.isWritten fun t ht =>
    ⟨isSpelled_of_cuts hcuts t (hus ht), (hkept t (hus ht)).1⟩
  have hdashes : "--".toList <:+: ((desugar e).render id).toList ↔ HasStep (tokens 0 (desugar e)) :=
    dashes_render hwritten 0
  rw [← render_desugar e, hdashes, parse_render hwritten]
  constructor
  · rintro ⟨e', hagain, hsame⟩ hstep
    -- a step has more equals signs in the output than the minus signs it arises from
    have hle := hagain.equals_le
    have hpos := downs_pos hstep
    have hcount : equalsOf (desugar e') = equalsOf (desugar e) := by
      rw [equalsOf_desugar, equalsOf, hsame, equalsOf]
    rw [equals_tokens hwritten, hcount] at hle
    omega
  · exact fun hstep => ⟨desugar e, hderives.respelled hwritten hstep, rfl⟩

theorem statement_normal_iff_scale :
    (parse 1 "x += -~a, y<:i:>++;" "" .empty).1 =
        .ok (["x = (x) + (-~a), y<:i:> = y<:i:> + 1"], .empty) ∧
      (parse 4 ("x = (x) + (-~a), y<:i:> = y<:i:> + 1" ++ ";") "" .empty).1 =
        .ok (["x = (x) + (-~a), y<:i:> = y<:i:> + 1"], .empty) := by
  have hparse : (parse 1 "x += -~a, y<:i:>++;" "" .empty).1 =
      .ok (["x = (x) + (-~a), y<:i:> = y<:i:> + 1"], .empty) := by
    decide +kernel
  have hkinds : (scan 1 "x += -~a, y<:i:>++;".toList).tokens.map (·.kind) =
      [.identifier, .assign (.update .add), .binary .sub, .complement, .identifier, .comma,
        .identifier, .leftBracket, .identifier, .rightBracket, .step .up, .semicolon] := by
    decide +kernel
  refine ⟨hparse, (statement_normal_iff hparse ?_ (List.mem_singleton_self _)).mpr
    (by decide +kernel)⟩
  intro t ht
  have hkind := List.mem_map_of_mem (f := (·.kind)) ht
  rw [hkinds] at hkind
  revert hkind
  generalize t.kind = k
  revert k
  simp

/-- The output of two minus signs is read as a step. -/
theorem minus_signs_not_normal :
    (parse 1 "x = - -a;" "" .empty).1 = .ok (["x = --a"], .empty) ∧
      (parse 1 ("x = --a" ++ ";") "" .empty).1 = .ok (["x = a = a - 1"], .empty) := by
  decide +kernel

end Statechart.Action
