import Statechart.Proofs.Action.Updates
import Statechart.Proofs.Expr.Statements

/-!
Plus signs. A plus sign in front of an operand can be read, but not closed. Reading goes on with it
as with a complement sign (`PlusFor`), until the signs in front of that operand are closed, and
fails there (`step_plusFor`). So a condition or an action with a plus sign at a place where a
complement sign may stand is refused (`plus_sign_refused`).
-/

namespace Statechart

namespace Expr

/-! ## A plus sign in place of a complement sign -/

/-- In the second stack a plus sign stands in place of a complement sign. -/
inductive PlusFor : List Frame → List Frame → Prop
  | here (fs : List Frame) : PlusFor (.unary .complement :: fs) (.plus :: fs)
  | deeper {fs fs' : List Frame} (f : Frame) : PlusFor fs fs' → PlusFor (f :: fs) (f :: fs')

section

variable {fs fs' : List Frame}

/-- The signs in front of an operand can not be closed with a plus sign among them. -/
theorem PlusFor.closeUnary (h : PlusFor fs fs') {e e₁ : Expr} {gs : List Frame}
    (hclose : closeUnary fs e = .ok (gs, e₁)) :
    Expr.closeUnary fs' e = .error .unaryPlus ∨
      ∃ gs', Expr.closeUnary fs' e = .ok (gs', e₁) ∧ PlusFor gs gs' := by
  induction h generalizing e with
  | here fs => exact .inl rfl
  | deeper f h ih =>
    cases f with
    | plus => cases hclose
    | unary op => exact ih hclose
    | _ =>
      cases hclose
      exact .inr ⟨_, rfl, h.deeper _⟩

/-- What closes operators stops at both signs. -/
theorem PlusFor.closeBinary (h : PlusFor fs fs') (n : Nat) (e : Expr) :
    ∃ gs gs' e₁, closeBinary n fs e = (gs, e₁) ∧ Expr.closeBinary n fs' e = (gs', e₁) ∧
      PlusFor gs gs' := by
  induction h generalizing e with
  | here fs => exact ⟨_, _, e, rfl, rfl, .here fs⟩
  | deeper f h ih =>
    cases f with
    | binary op l =>
      rw [Expr.closeBinary, Expr.closeBinary]
      split
      · exact ih _
      · exact ⟨_, _, e, rfl, rfl, h.deeper _⟩
    | _ => exact ⟨_, _, e, rfl, rfl, h.deeper _⟩

theorem PlusFor.closeAll (h : PlusFor fs fs') (e : Expr) :
    ∃ gs gs' e₁, closeAll fs e = (gs, e₁) ∧ Expr.closeAll fs' e = (gs', e₁) ∧ PlusFor gs gs' := by
  induction h generalizing e with
  | here fs => exact ⟨_, _, e, rfl, rfl, .here fs⟩
  | deeper f h ih =>
    cases f with
    | binary | step | assign | comma => exact ih _
    | _ => exact ⟨_, _, e, rfl, rfl, h.deeper _⟩

theorem PlusFor.startsAssignment (h : PlusFor fs fs') :
    startsAssignment fs' = startsAssignment fs := by
  cases h with
  | here fs => rfl
  | deeper f h => cases f <;> rfl

end

/-- The same place, with a plus sign in place of a complement sign around it. -/
inductive Position.PlusFor : Position → Position → Prop
  | operand {fs fs' : List Frame} : Expr.PlusFor fs fs' → PlusFor (.operand fs) (.operand fs')
  | indexNumber {fs fs' : List Frame} (b : Expr) (o : String) : Expr.PlusFor fs fs' →
      PlusFor (.indexNumber fs b o) (.indexNumber fs' b o)
  | indexClose {fs fs' : List Frame} (b : Expr) (o n : String) : Expr.PlusFor fs fs' →
      PlusFor (.indexClose fs b o n) (.indexClose fs' b o n)
  | after {fs fs' : List Frame} (e : Expr) (x : Extent) : Expr.PlusFor fs fs' →
      PlusFor (.after fs e x) (.after fs' e x)

section

variable {fs fs' : List Frame} {k : Symbol} {text : String} {p q : Position}

theorem PlusFor.startOperand (h : PlusFor fs fs') {o : Outcome}
    (hstart : startOperand fs k text = o) (ho : o ≠ .stuck) :
    ∃ p p', o = .more p ∧ Expr.startOperand fs' k text = .more p' ∧ p.PlusFor p' := by
  subst hstart
  cases k with
  | identifier | number => exact ⟨_, _, rfl, rfl, .after _ _ h⟩
  | leftParen | complement | not => exact ⟨_, _, rfl, rfl, .operand (h.deeper _)⟩
  | binary op =>
    cases op with
    | add | sub => exact ⟨_, _, rfl, rfl, .operand (h.deeper _)⟩
    | _ => exact absurd rfl ho
  | step op =>
    simp only [Expr.startOperand, h.startsAssignment] at ho ⊢
    split at ho
    · next hassign => exact ⟨_, _, if_pos hassign, if_pos hassign, .operand (h.deeper _)⟩
    · exact absurd rfl ho
  | _ => exact absurd rfl ho

/-- With a sign that is still open the expression goes on. -/
theorem PlusFor.continueWith (h : PlusFor fs fs') {commas : Bool} {e : Expr} {x : Extent}
    {o : Outcome} (hcont : continueWith commas fs e x k text = o) (ho : o ≠ .stuck) :
    ∃ p p', o = .more p ∧ Expr.continueWith commas fs' e x k text = .more p' ∧ p.PlusFor p' := by
  have hassign := h.startsAssignment
  obtain ⟨gs, gs', e₁, hall, hall', hplus⟩ := h.closeAll e
  cases k with
  | binary op =>
    obtain ⟨gs, gs', e₁, hclose, hclose', hplus⟩ := h.closeBinary op.strength e
    simp only [Expr.continueWith, hclose, hclose'] at hcont ⊢
    cases x with
    | whole => exact absurd hcont.symm ho
    | primary | unary =>
      cases hplus with
      | here gs =>
        subst hcont
        exact ⟨_, _, rfl, rfl, .operand (.deeper _ (.here gs))⟩
      | deeper f hplus =>
        cases f with
        | step => exact absurd hcont.symm ho
        | _ =>
          subst hcont
          exact ⟨_, _, rfl, rfl, .operand (.deeper _ (.deeper _ hplus))⟩
  | assign op =>
    simp only [Expr.continueWith, hassign] at hcont ⊢
    split at hcont
    · next hfree =>
      subst hcont
      exact ⟨_, _, rfl, if_pos hfree, .operand (h.deeper _)⟩
    · exact absurd hcont.symm ho
  | step op =>
    simp only [Expr.continueWith, hassign] at hcont ⊢
    split at hcont
    · next hfree =>
      subst hcont
      exact ⟨_, _, rfl, if_pos hfree, .after _ _ h⟩
    · exact absurd hcont.symm ho
  | comma =>
    simp only [Expr.continueWith, hall, hall'] at hcont ⊢
    cases hplus with
    | here gs =>
      subst hcont
      exact ⟨_, _, rfl, rfl, .operand (.deeper _ (.here gs))⟩
    | deeper f hplus =>
      subst hcont
      exact ⟨_, _, rfl, rfl, .operand (.deeper _ (.deeper f hplus))⟩
  | rightParen =>
    simp only [Expr.continueWith, hall, hall'] at hcont ⊢
    cases hplus with
    | here gs => exact absurd hcont.symm ho
    | deeper f hplus =>
      cases f with
      | group =>
        subst hcont
        exact ⟨_, _, rfl, rfl, .after _ _ hplus⟩
      | _ => exact absurd hcont.symm ho
  | rightBracket =>
    simp only [Expr.continueWith, hall, hall'] at hcont ⊢
    cases hplus with
    | here gs => exact absurd hcont.symm ho
    | deeper f hplus =>
      cases f with
      | index b o' =>
        subst hcont
        exact ⟨_, _, rfl, rfl, .after _ _ hplus⟩
      | _ => exact absurd hcont.symm ho
  | _ =>
    -- the sign is open, so nothing ends here
    simp only [Expr.continueWith, hall] at hcont
    cases hplus <;> exact absurd hcont.symm ho

/-- One more token. Where an operand ends, and the expression at the latest, the sign is to be
closed. -/
theorem step_plusFor (h : p.PlusFor q) {d : Dialect} {commas : Bool} {o : Outcome}
    (hstep : p.step d commas k text = .ok o) (ho : o ≠ .stuck) :
    q.step d commas k text = .error .unaryPlus ∨
      ∃ p₁ q₁, o = .more p₁ ∧ q.step d commas k text = .ok (.more q₁) ∧ p₁.PlusFor q₁ := by
  cases h with
  | operand h =>
    obtain ⟨p₁, q₁, rfl, hstart, hplus⟩ := h.startOperand (Except.ok.inj hstep) ho
    exact .inr ⟨p₁, q₁, rfl, congrArg Except.ok hstart, hplus⟩
  | indexNumber b o' h =>
    simp only [Position.step] at hstep ⊢
    split at hstep
    · next hk =>
      cases hstep
      exact .inr ⟨_, _, rfl, by rw [if_pos hk], .indexClose b o' text h⟩
    · exact absurd (Except.ok.inj hstep).symm ho
  | indexClose b o' n h =>
    simp only [Position.step] at hstep ⊢
    split at hstep
    · next hk =>
      cases hstep
      exact .inr ⟨_, _, rfl, by rw [if_pos hk], .after _ _ h⟩
    · exact absurd (Except.ok.inj hstep).symm ho
  | @after fs fs' e x h =>
    by_cases hk : k = .leftBracket
    · subst hk
      cases x with
      | primary =>
        cases d with
        | action =>
          cases hstep
          exact .inr ⟨_, _, rfl, rfl, .operand (h.deeper _)⟩
        | condition =>
          cases hstep
          exact .inr ⟨_, _, rfl, rfl, .indexNumber _ _ h⟩
      | _ => exact absurd (Except.ok.inj hstep).symm ho
    · obtain ⟨hfollow, gs, e₁, hclose, hcont⟩ := (step_after hk ho).mp hstep
      rcases h.closeUnary hclose with herror | ⟨gs', hclose', hplus⟩
      · left
        simp [Position.step, hk, hfollow, herror, bind, Except.bind]
      · obtain ⟨p₁, q₁, rfl, hcont', hplus⟩ := hplus.continueWith hcont ho
        exact .inr ⟨p₁, q₁, rfl,
          (step_after hk (by simp)).mpr ⟨hfollow, gs', e₁, hclose', hcont'⟩, hplus⟩

/-- A complement sign stands where an operand has to come, and there a plus sign may stand, too. -/
theorem step_complement {d : Dialect} {commas : Bool} {o : Outcome}
    (hstep : p.step d commas .complement text = .ok o) (ho : o ≠ .stuck) (text' : String) :
    ∃ p₁ q₁, o = .more p₁ ∧ p.step d commas (.binary .add) text' = .ok (.more q₁) ∧
      p₁.PlusFor q₁ := by
  cases p with
  | operand fs =>
    cases hstep
    exact ⟨_, _, rfl, rfl, .operand (.here fs)⟩
  | indexNumber | indexClose => exact absurd (Except.ok.inj hstep).symm ho
  | after fs e x =>
    obtain ⟨hfollow, -⟩ := (step_after (by simp) ho).mp hstep
    cases d <;> cases hfollow

end

end Expr

/-! ## A sign in front of a token -/

namespace Pattern

/-- Only a plus sign goes on with a plus sign. -/
def StopsAtPlus : Pattern → Prop
  | run _ more => more '+' = false
  | spelled options => ∀ o ∈ options, '+' ∈ o.tail → o = ['+', '+']
  | comment => True

instance : DecidablePred StopsAtPlus
  | run _ more => inferInstanceAs (Decidable (more '+' = false))
  | spelled options => inferInstanceAs (Decidable (∀ o ∈ options, '+' ∈ o.tail → o = ['+', '+']))
  | comment => inferInstanceAs (Decidable True)

theorem StopsAtPlus.ends {p : Pattern} (hp : p.StopsAtPlus) {x : List Char} (hx : x ≠ [])
    (hplus : x ≠ ['+']) (rest : List Char) : p.Ends x ('+' :: rest) := by
  cases p with
  | run first more => exact hp
  | spelled options =>
    intro o ho hprefix
    by_cases hmem : '+' ∈ o.tail
    · obtain rfl := hp o ho hmem
      obtain ⟨c, x, rfl⟩ := List.exists_cons_of_ne_nil hx
      obtain ⟨rfl, hrest⟩ := List.cons_prefix_cons.mp hprefix
      cases x with
      | nil => exact absurd rfl hplus
      | cons d x =>
        obtain ⟨rfl, -⟩ := List.cons_prefix_cons.mp hrest
        exact ⟨x, rfl⟩
    · have hstops : (spelled [o]).StopsAt '+' := by
        intro o' ho'
        rw [List.mem_singleton.mp ho']
        exact hmem
      exact hstops.ends (by decide) hx rest o (List.mem_singleton_self o) hprefix
  | comment => exact ⟨by simp, by simp⟩

end Pattern

/-- The text with the sign and a blank in front of the token. -/
def signed (sign : Char) (text : String) (t : Token Symbol) : String :=
  String.ofList (text.toList.take t.offset ++ sign :: ' ' :: text.toList.drop t.offset)

namespace Lexer

variable {lx : Lexer Symbol} {line : Nat} {cs : List Char} {before behind : List (Token Symbol)}
  {t : Token Symbol}

/-- What stands at the place of a token. -/
theorem at_drop (h : (lx.scan line cs).tokens = before ++ t :: behind) :
    lx.At line 0 cs (before.map Token.bare) t (cs.drop t.offset) := by
  obtain ⟨y, hat⟩ := at_scanFrom h
  obtain ⟨n, hreaches, -⟩ := hat.reaches
  have hoffset := hat.offset
  rw [Nat.zero_add] at hoffset
  have hdrop := List.suffix_iff_eq_drop.mp hreaches.suffix
  rw [show cs.length - y.length = t.offset by omega] at hdrop
  exact hdrop ▸ hat

theorem At.fresh_place {offset : Nat} {ts : List (Symbol × String)} {y : List Char}
    (h : lx.At line offset cs ts t y) : lx.Fresh y := by
  obtain ⟨m, hm, hk, -⟩ := h.found
  exact ⟨h.fresh, m, t.kind, hm, hk⟩

/-- What is reached is cut into the tokens that are left. -/
theorem Reaches.cuts_rest {x y : List Char} {ts us : List (Symbol × String)} {n : Nat}
    (h : lx.Reaches x ts n y) (hx : lx.Cuts x (ts ++ us) none) : lx.Cuts y us none := by
  have hy := lx.cuts_scan 1 y
  obtain ⟨htokens, hrest⟩ := (h.cuts hy).unique hx
  rw [List.append_cancel_left htokens, hrest] at hy
  exact hy

/-- A sign of one character and a blank in front of a token add one token. -/
theorem cuts_signed {P : List (Symbol × String) → Prop} (htail : ∀ {t ts}, P (t :: ts) → P ts)
    (hclosed : ∀ {x ts}, lx.Cuts x ts none → P ts → Pattern.Closed x)
    (h : (lx.scan line cs).tokens = before ++ t :: behind)
    (hrest : (lx.scan line cs).tail.rest? = none) (hP : P ((before ++ t :: behind).map Token.bare))
    (hline : ∀ y m, lx.match? ('\n' :: y) = some m → m.kind? ≠ some t.kind)
    {sign : Char} {k : Symbol} (hsign : lx.skipped sign = false) (hblank : lx.skipped ' ' = true)
    (hmatch : ∀ y, lx.match? (sign :: ' ' :: y) = some ⟨some k, [sign], 0⟩)
    (hends : ∀ x ts₁ n₁ ts₂ n₂, lx.Reaches cs ts₁ n₁ (x ++ cs.drop t.offset) →
      lx.Reaches (x ++ cs.drop t.offset) ts₂ n₂ (cs.drop t.offset) →
      ts₁ ++ ts₂ = before.map Token.bare → x ≠ [] →
      ∀ r ∈ lx.rules, r.pattern.Ends x (sign :: ' ' :: cs.drop t.offset)) :
    lx.Cuts (cs.take t.offset ++ sign :: ' ' :: cs.drop t.offset)
      (before.map Token.bare ++ (k, String.ofList [sign]) :: (t :: behind).map Token.bare)
      none := by
  have hat := at_drop h
  obtain ⟨n, hreaches, -⟩ := hat.reaches
  have hcuts := lx.cuts_scan line cs
  rw [hrest, h, List.map_append] at hcuts
  have hy := hreaches.cuts_rest hcuts
  have hstart : (cs.drop t.offset).head?.any (· != '\n') = true := by
    obtain ⟨m, hm, hk, -⟩ := hat.found
    have hfresh := hat.fresh
    cases hchars : cs.drop t.offset with
    | nil =>
      rw [hchars] at hfresh
      cases hfresh
    | cons c y =>
      rw [hchars] at hm
      exact bne_iff_ne.mpr fun hc => hline y m (hc ▸ hm) hk
  rw [List.map_append] at hP
  have hswitch := hreaches.switch htail hclosed (List.take_append_drop ..).symm hP hy hstart hends
  have hkeep : lx.Cuts (sign :: ' ' :: cs.drop t.offset)
      ((k, String.ofList [sign]) :: (t :: behind).map Token.bare) none :=
    .keep hsign (hmatch _) rfl (.skip hblank hy)
  exact hswitch.cuts hkeep

end Lexer

/-! ## Conditions -/

namespace Condition

theorem next_eq_some {p p' : Option Expr.Position} {t : Symbol × String} :
    next p t = some p' ↔ ∃ q, p' = some q ∧
      (p.getD (.operand [])).step .condition false t.1 t.2 = .ok (.more q) := by
  unfold next
  rcases (p.getD (.operand [])).step .condition false t.1 t.2 with f | q | e | _ <;>
    simp [eq_comm]

theorem finish_plusFor {p q : Expr.Position} (h : p.PlusFor q) {r : Option Expr}
    (hfinish : finish (some p) = .ok r) : finish (some q) = .error .unaryPlus := by
  cases h with
  | after e x h =>
    obtain ⟨⟨gs, e₁⟩, hclose, hrest⟩ := bind_eq_ok.mp hfinish
    rcases h.closeUnary hclose with herror | ⟨gs', -, hplus⟩
    · rw [finish, herror]
      rfl
    · -- with the sign open the text does not end
      obtain ⟨fs, fs', e₂, hall, -, hplus⟩ := hplus.closeAll e₁
      simp only [hall] at hrest
      cases hplus <;> cases hrest
  | _ => cases hfinish

/-- Reading on with a plus sign fails. -/
theorem refuses_plusFor {p q : Expr.Position} (h : p.PlusFor q) {ts : List (Symbol × String)}
    {p' : Option Expr.Position} {r : Option Expr} (hrun : ts.foldlM next (some p) = some p')
    (hfinish : finish p' = .ok r) : reader.Refuses next (· = .unaryPlus) (some q) ts := by
  induction ts generalizing p q with
  | nil =>
    cases hrun
    exact ⟨_, finish_plusFor h hfinish, rfl⟩
  | cons t ts ih =>
    obtain ⟨s, hnext, hrun⟩ := Option.bind_eq_some_iff.mp hrun
    obtain ⟨p₁, rfl, hstep⟩ := next_eq_some.mp hnext
    rcases Expr.step_plusFor h hstep (by simp) with herror | ⟨p₂, q₁, heq, hstep', hplus⟩
    · refine .inl fun u hu => ⟨_, ?_, rfl⟩
      subst hu
      show step (some q) u = _
      rw [step]
      exact congrArg (· >>= _) herror
    · cases heq
      exact .inr ⟨some q₁, next_eq_some.mpr ⟨q₁, rfl, hstep'⟩, ih hplus hrun⟩

/-- Tokens that can be read one after the other. -/
def Readable (ts : List (Symbol × String)) : Prop := ∃ p p', ts.foldlM next p = some p'

theorem Readable.tail {t : Symbol × String} {ts : List (Symbol × String)}
    (h : Readable (t :: ts)) : Readable ts := by
  obtain ⟨p, p', h⟩ := h
  obtain ⟨p₁, -, h⟩ := Option.bind_eq_some_iff.mp h
  exact ⟨p₁, p', h⟩

/-- A condition that can be read leaves no comment open: its mark would be two operators. -/
theorem closed_of_readable {x : List Char} {ts : List (Symbol × String)}
    (hcuts : lexer.Cuts x ts none) (h : Readable ts) : Pattern.Closed x := by
  rintro cs rfl hclosing
  have hcomment : Symbol.commentRule.match? ('/' :: '*' :: cs) = none := by
    refine Rule.match?_eq_none ?_
    simp [Symbol.commentRule, Pattern.size, hclosing]
  have hdiv : lexer.match? ('/' :: '*' :: cs) = some ⟨some (.binary .div), ['/'], 0⟩ := by
    rw [Lexer.match?_cons]
    simp only [lexer, List.findSome?_cons, hcomment]
    rfl
  have hmul : lexer.match? ('*' :: cs) = some ⟨some (.binary .mul), ['*'], 0⟩ := rfl
  obtain ⟨us, rfl, hafter⟩ := hcuts.of_kept rfl hdiv rfl
  obtain ⟨vs, rfl, -⟩ := hafter.of_kept rfl hmul rfl
  obtain ⟨p, p', h⟩ := h
  obtain ⟨s₁, hnext, h⟩ := Option.bind_eq_some_iff.mp h
  obtain ⟨s₂, hnext', -⟩ := Option.bind_eq_some_iff.mp h
  obtain ⟨p₁, rfl, hstep⟩ := next_eq_some.mp hnext
  obtain ⟨p₂, rfl, hstep'⟩ := next_eq_some.mp hnext'
  obtain ⟨fs, rfl⟩ := moves_binary (Expr.moves_of_step hstep)
  cases hstep'

/-- A unary expression of the condition starts with the token: another sign may stand in front of
it. -/
def UnaryAt (line : Nat) (text : String) (t : Token Symbol) : Prop :=
  t ∈ (lexer.scan line text.toList).tokens ∧ ∃ r, (parse line (signed '~' text t)).1 = .ok r

theorem stopsAt_signs : ∀ r ∈ lexer.rules, r.pattern.StopsAt '~' ∧ r.pattern.StopsAt '+' := by
  decide +kernel

theorem cuts_sign_before {line : Nat} {cs : List Char} {before behind : List (Token Symbol)}
    {t : Token Symbol} (h : (lexer.scan line cs).tokens = before ++ t :: behind)
    (hrest : (lexer.scan line cs).tail.rest? = none)
    (hread : Readable ((before ++ t :: behind).map Token.bare)) :
    lexer.Cuts (cs.take t.offset ++ '~' :: ' ' :: cs.drop t.offset)
        (before.map Token.bare ++ (.complement, "~") :: (t :: behind).map Token.bare) none ∧
      lexer.Cuts (cs.take t.offset ++ '+' :: ' ' :: cs.drop t.offset)
        (before.map Token.bare ++ (.binary .add, "+") :: (t :: behind).map Token.bare) none := by
  have hline (y : List Char) (m : Lexer.Match Symbol) (hm : lexer.match? ('\n' :: y) = some m) :
      m.kind? ≠ some t.kind := by
    -- a condition has no tokens for line ends
    rw [Lexer.match?_cons] at hm
    simp only [lexer, List.findSome?_cons, Rule.match?_run, beq_self_eq_true, if_true,
      Option.some_or] at hm
    cases hm
    exact (Option.some_ne_none _).symm
  constructor
  · refine Lexer.cuts_signed Readable.tail closed_of_readable h hrest hread hline rfl rfl
      (fun _ => rfl) ?_
    exact fun x _ _ _ _ _ _ _ hx r hr => (stopsAt_signs r hr).1.ends (by decide) hx _
  · refine Lexer.cuts_signed Readable.tail closed_of_readable h hrest hread hline rfl rfl
      (fun _ => rfl) ?_
    exact fun x _ _ _ _ _ _ _ hx r hr => (stopsAt_signs r hr).2.ends (by decide) hx _

/-- Where a complement sign may stand, a plus sign is read, but the condition is refused. -/
theorem refused_of_unaryAt {line : Nat} {text r : String} {t : Token Symbol}
    (h : (parse line text).1 = .ok r) (ht : UnaryAt line text t) (line' : Nat) :
    (parse line' (signed '+' text t)).1 = .error .unaryPlus := by
  have hread {line : Nat} {text r : String} (h : (parse line text).1 = .ok r) :
      ∃ ts p e, lexer.Cuts text.toList ts none ∧ ts.foldlM next none = some p ∧
        finish p = .ok e := by
    rcases hr : (read line text).1 with f | e
    · have h : (read line text).1.map render = .ok r := h
      rw [hr] at h
      cases h
    · obtain ⟨ts, p, hcuts, hrun, hfinish⟩ := (Reader.run_eq_ok advances).mp hr
      exact ⟨ts, p, e, hcuts, hrun, hfinish⟩
  obtain ⟨hmem, r', hr'⟩ := ht
  obtain ⟨before, behind, htokens⟩ := List.append_of_mem hmem
  obtain ⟨ts, p, e, hcuts, hrun, -⟩ := hread h
  obtain ⟨hbare, hrest⟩ := (lexer.cuts_scan line text.toList).unique hcuts
  rw [htokens] at hbare
  obtain ⟨hcomplement, hplus⟩ := cuts_sign_before htokens hrest ⟨none, p, hbare ▸ hrun⟩
  obtain ⟨us, p', e', hcuts', hrun', hfinish'⟩ := hread hr'
  rw [signed, String.toList_ofList] at hcuts'
  obtain ⟨rfl, -⟩ := hcuts'.unique hcomplement
  rw [List.foldlM_append] at hrun'
  obtain ⟨s, hbefore, hrun'⟩ := Option.bind_eq_some_iff.mp hrun'
  obtain ⟨s₁, hnext, hrun'⟩ := Option.bind_eq_some_iff.mp hrun'
  obtain ⟨p₁, rfl, hstep⟩ := next_eq_some.mp hnext
  obtain ⟨p₂, q₁, heq, hstep', hsim⟩ := Expr.step_complement hstep (by simp) "+"
  cases heq
  have hrefuses : reader.Refuses next (· = .unaryPlus) reader.start
      (before.map Token.bare ++ (.binary .add, "+") :: (t :: behind).map Token.bare) :=
    .append hbefore (.inr ⟨some q₁, next_eq_some.mpr ⟨q₁, rfl, hstep'⟩,
      refuses_plusFor hsim hrun' hfinish'⟩)
  obtain ⟨f, hf, rfl⟩ := hrefuses.run advances hplus line'
  show (read line' (signed '+' text t)).1.map render = _
  rw [read, signed, String.toList_ofList, hf]
  rfl

end Condition

/-! ## Actions -/

namespace Action

/-- What an expression of an action belongs to. -/
inductive Host where
  | statement
  | size (draft : Draft) (groups : Nat) (d : Declarator) (opening : String)
  | value (draft : Draft) (d : Declarator) (levels : List Level)

/-- The place of an action where its expression stands at the given place. -/
def Host.position (p : Expr.Position) : Host → Position
  | statement => .statement p
  | size draft groups d o => .declaring (.size draft groups d o p)
  | value draft d levels => .declaring (.value draft d levels p)

/-- Commas join expressions in statements alone. -/
def Host.commas : Host → Bool
  | statement => true
  | _ => false

section

variable {host : Host} {p p' : Expr.Position} {k : Symbol} {text : String} (n : Nat)
  (items : List Item)

theorem advance_error {f : Fault} (h : p.step .action host.commas k text = .error f) :
    State.advance ⟨n, items, host.position p⟩ k text = .error f := by
  cases host <;> simp only [Host.commas] at h <;>
    simp [Host.position, State.advance, Drafting.step, h, bind, Except.bind]

theorem advance_more (h : p.step .action host.commas k text = .ok (.more p')) :
    State.advance ⟨n, items, host.position p⟩ k text =
      .ok (some ⟨n, items, host.position p'⟩) := by
  cases host <;> simp only [Host.commas] at h <;>
    simp [Host.position, State.advance, Drafting.step, h, bind, Except.bind, pure, Except.pure]

/-- A token that can stand in an action can stand in its expression, or behind it. -/
theorem step_of_advance {s : State}
    (h : State.advance ⟨n, items, host.position p⟩ k text = .ok (some s)) :
    ∃ o, p.step .action host.commas k text = .ok o ∧ o ≠ .stuck := by
  rcases hstep : p.step .action host.commas k text with f | o
  · rw [advance_error n items hstep] at h
    cases h
  · refine ⟨o, rfl, ?_⟩
    rintro rfl
    cases host <;> simp only [Host.commas] at hstep <;>
      simp [Host.position, State.advance, Drafting.step, hstep, bind, Except.bind, pure,
        Except.pure] at h

end

/-- The same place of an action, with a plus sign in place of a complement sign in the expression
that is being read. -/
inductive State.PlusFor : State → State → Prop
  | within (n : Nat) (items : List Item) (host : Host) {p q : Expr.Position} : p.PlusFor q →
      PlusFor ⟨n, items, host.position p⟩ ⟨n, items, host.position q⟩

theorem next_eq_some {s s' : State} {t : Symbol × String} :
    next s t = some s' ↔ s.advance t.1 t.2 = .ok (some s') := by
  unfold next
  rcases s.advance t.1 t.2 with f | _ | s₁ <;> simp

theorem State.PlusFor.advance {s s' s₁ : State} {k : Symbol} {text : String} (h : s.PlusFor s')
    (hadvance : s.advance k text = .ok (some s₁)) :
    s'.advance k text = .error .unaryPlus ∨
      ∃ s₁', s'.advance k text = .ok (some s₁') ∧ s₁.PlusFor s₁' := by
  obtain ⟨n, items, host, h⟩ := h
  obtain ⟨o, hstep, ho⟩ := step_of_advance n items hadvance
  rcases Expr.step_plusFor h hstep ho with herror | ⟨p₁, q₁, rfl, hstep', hplus⟩
  · exact .inl (advance_error n items herror)
  · rw [advance_more n items hstep] at hadvance
    cases hadvance
    exact .inr ⟨_, advance_more n items hstep', .within n items host hplus⟩

/-- Reading on with a plus sign fails. -/
theorem refuses_plusFor {s s' : State} (h : s.PlusFor s') {ts : List (Symbol × String)} {s₁ : State}
    {items : List Item} (hrun : ts.foldlM next s = some s₁) (hfinish : finish s₁ = .ok items) :
    reader.Refuses next (· = .unaryPlus) s' ts := by
  induction ts generalizing s s' with
  | nil =>
    -- an expression that is being read does not end with the text
    cases hrun
    obtain ⟨n, items, host, h⟩ := h
    cases host <;> cases hfinish
  | cons t ts ih =>
    obtain ⟨s₂, hnext, hrun⟩ := Option.bind_eq_some_iff.mp hrun
    rcases h.advance (next_eq_some.mp hnext) with herror | ⟨s₂', hadvance, hplus⟩
    · refine .inl fun u hu => ⟨_, ?_, rfl⟩
      subst hu
      show step s' u = _
      rw [step]
      exact congrArg (· >>= _) herror
    · exact .inr ⟨s₂', next_eq_some.mpr hadvance, ih hplus hrun⟩

/-- Where a complement sign may stand, a plus sign may stand, too. -/
theorem next_complement {s s₁ : State} {text : String} (h : next s (.complement, text) = some s₁)
    (text' : String) : ∃ s₁', next s (.binary .add, text') = some s₁' ∧ s₁.PlusFor s₁' := by
  have hwithin {n : Nat} {items : List Item} (host : Host) {p : Expr.Position}
      (h : next ⟨n, items, host.position p⟩ (.complement, text) = some s₁) :
      ∃ s₁', next ⟨n, items, host.position p⟩ (.binary .add, text') = some s₁' ∧
        s₁.PlusFor s₁' := by
    have hadvance := next_eq_some.mp h
    obtain ⟨o, hstep, ho⟩ := step_of_advance n items hadvance
    obtain ⟨p₁, q₁, rfl, hstep', hplus⟩ := Expr.step_complement hstep ho text'
    rw [advance_more n items hstep] at hadvance
    cases hadvance
    exact ⟨_, next_eq_some.mpr (advance_more n items hstep'), .within n items host hplus⟩
  have hstart (n : Nat) (items : List Item) (host : Host) :
      State.PlusFor ⟨n, items, host.position (.operand [.unary .complement])⟩
        ⟨n, items, host.position (.operand [.plus])⟩ :=
    .within n items host (.operand (.here []))
  obtain ⟨n, items, p⟩ := s
  cases p with
  | boundary =>
    cases h
    exact ⟨_, rfl, hstart n items .statement⟩
  | complete draft =>
    rw [next_eq_some, State.advance] at h
    obtain ⟨s', hclose, h⟩ := bind_eq_ok.mp h
    cases h
    refine ⟨⟨s'.depth, s'.items, .statement (.operand [.plus])⟩, ?_, hstart _ _ .statement⟩
    simp [next_eq_some, State.advance, mayFollowItem, hclose, bind, Except.bind, pure, Except.pure,
      State.startItem, Expr.startOperand]
  | words ws => cases h
  | statement p => exact hwithin .statement h
  | declaring p =>
    cases p with
    | declarator draft groups => cases h
    | declared draft groups d => cases groups <;> cases h
    | dimension draft groups d o =>
      cases h
      exact ⟨_, rfl, hstart n items (.size draft groups d o)⟩
    | size draft groups d o p => exact hwithin (.size draft groups d o) h
    | initializer draft d levels again =>
      cases h
      exact ⟨_, rfl, hstart n items (.value draft d levels)⟩
    | value draft d levels p => exact hwithin (.value draft d levels) h
    | initialized draft d levels i => cases levels <;> cases h

/-- A unary expression of the action starts with the token: another sign may stand in front of it.
-/
def UnaryAt (line : Nat) (text owner : String) (vars : Variables) (t : Token Symbol) : Prop :=
  t ∈ (scan line text.toList).tokens ∧ t.kind ≠ .newline ∧
    ∃ r, (parse line (signed '~' text t) owner vars).1 = .ok r

theorem stopsAt_signs : ∀ r ∈ lexer.rules, r.pattern.StopsAt '~' ∧ r.pattern.StopsAtPlus := by
  decide +kernel

theorem match?_plus {y : List Char} {m : Lexer.Match Symbol}
    (hm : lexer.match? ('+' :: y) = some m) (hone : m.text.length ≤ 1) :
    m = ⟨some (.binary .add), ['+'], 0⟩ := by
  cases y with
  | nil =>
    cases hm
    rfl
  | cons d y =>
    by_cases hd : d = '+'
    · subst hd
      cases hm
      exact absurd hone (Nat.not_succ_le_self 1)
    by_cases hd' : d = '='
    · subst hd'
      cases hm
      exact absurd hone (Nat.not_succ_le_self 1)
    · have hstep : (Symbol.spelledRule ["++"] (.step .up)).match? ('+' :: d :: y) = none :=
        match?_spelledRule _ (by simp [Ne.symm hd])
      have hupdate : (Symbol.spelledRule ["+="] (.assign (.update .add))).match? ('+' :: d :: y) =
          none := match?_spelledRule _ (by simp [Ne.symm hd'])
      rw [Lexer.match?_cons] at hm
      simp only [lexer, List.findSome?_cons, hstep, hupdate] at hm
      cases hm
      rfl

/-- A plus sign directly in front of the place is a token of its own. -/
theorem eq_of_reaches_plus {y : List Char} {ts : List (Symbol × String)} {n : Nat}
    (h : lexer.Reaches ('+' :: y) ts n y) :
    ts = [(.binary .add, "+")] ∧ lexer.Fresh ('+' :: y) := by
  have hmatched {m : Lexer.Match Symbol} {ts : List (Symbol × String)} {n : Nat}
      (hm : lexer.match? ('+' :: y) = some m)
      (h : lexer.Reaches (('+' :: y).drop m.text.length) ts n y) :
      m = ⟨some (.binary .add), ['+'], 0⟩ := by
    obtain ⟨x, hx, -, hle⟩ := h.in_front hm (x := ['+']) rfl
    cases hx
    exact match?_plus hm hle
  generalize hw : '+' :: y = w at h
  cases h with
  | done => exact absurd (congrArg List.length hw) (Nat.succ_ne_self _)
  | skip hs _ =>
    cases hw
    cases hs
  | drop _ hm hk h =>
    cases hw
    obtain rfl := hmatched hm h
    cases hk
  | keep _ hm hk h =>
    cases hw
    obtain rfl := hmatched hm h
    cases hk
    obtain rfl := h.eq_nil
    exact ⟨rfl, rfl, _, _, hm, rfl⟩

/-- The text with one of the signs in front of the token is cut into one more token. -/
theorem cuts_sign_before {line : Nat} {cs : List Char} {before behind : List (Token Symbol)}
    {t : Token Symbol} (h : (lexer.scan line cs).tokens = before ++ t :: behind)
    (hrest : (lexer.scan line cs).tail.rest? = none) (hline : t.kind ≠ .newline)
    (hread : Readable ((before ++ t :: behind).map Token.bare)) :
    lexer.Cuts (cs.take t.offset ++ '~' :: ' ' :: cs.drop t.offset)
        (before.map Token.bare ++ (.complement, "~") :: (t :: behind).map Token.bare) none ∧
      ((∀ s ∈ before, s.kind = .binary .add → s.offset + 1 ≠ t.offset) →
        lexer.Cuts (cs.take t.offset ++ '+' :: ' ' :: cs.drop t.offset)
          (before.map Token.bare ++ (.binary .add, "+") :: (t :: behind).map Token.bare) none) := by
  have hbreak (y : List Char) (m : Lexer.Match Symbol) (hm : lexer.match? ('\n' :: y) = some m) :
      m.kind? ≠ some t.kind := by
    cases hm
    exact fun hkind => hline (Option.some.inj hkind).symm
  constructor
  · refine Lexer.cuts_signed Readable.tail closed_of_readable h hrest hread hbreak rfl rfl
      (fun _ => rfl) ?_
    exact fun x _ _ _ _ _ _ _ hx r hr => (stopsAt_signs r hr).1.ends (by decide) hx _
  · intro hplus
    have hoffset := (Lexer.at_drop h).offset
    refine Lexer.cuts_signed Readable.tail closed_of_readable h hrest hread hbreak rfl rfl
      (fun _ => rfl) ?_
    intro x ts₁ n₁ ts₂ n₂ h₁ h₂ htokens hx r hr
    refine (stopsAt_signs r hr).2.ends hx ?_ _
    rintro rfl
    -- the plus sign in front would be the last token before the place
    obtain ⟨rfl, hfresh⟩ := eq_of_reaches_plus h₂
    obtain ⟨front, last, rfl, rfl, hlast⟩ := List.map_eq_append_iff.mp htokens.symm
    obtain ⟨s, rest, rfl, hs, hnil⟩ := List.map_eq_cons_iff.mp hlast
    obtain rfl := List.map_eq_nil_iff.mp hnil
    rw [List.append_assoc] at h
    have hat := Lexer.at_drop h
    obtain ⟨n, hreaches, -⟩ := hat.reaches
    have hplace := congrArg List.length (h₁.unique hreaches hfresh hat.fresh_place)
    have hoffset' := hat.offset
    rw [List.singleton_append, List.length_cons] at hplace
    refine hplus s (by simp) (congrArg Prod.fst hs) ?_
    omega

/-- Where a complement sign may stand, a plus sign is read, but the action is refused. -/
theorem refused_of_unaryAt {line : Nat} {text owner : String} {vars : Variables}
    {r : List String × Variables} {t : Token Symbol}
    (h : (parse line text owner vars).1 = .ok r) (ht : UnaryAt line text owner vars t)
    (hplus : ∀ s ∈ (scan line text.toList).tokens, s.kind = .binary .add → s.offset + 1 ≠ t.offset)
    (line' : Nat) : (parse line' (signed '+' text t) owner vars).1 = .error .unaryPlus := by
  obtain ⟨hmem, hline, r', hr'⟩ := ht
  obtain ⟨items, hread, -⟩ := parse_eq_ok.mp h
  obtain ⟨items', hread', -⟩ := parse_eq_ok.mp hr'
  obtain ⟨hfront, ts, s, hcuts, hrun, -⟩ := read_eq_ok.mp hread
  rw [scan_of_head hfront] at hmem hplus
  obtain ⟨before, behind, htokens⟩ := List.append_of_mem hmem
  obtain ⟨hbare, hrest⟩ := (lexer.cuts_scan line text.toList).unique hcuts
  rw [htokens] at hbare hplus
  obtain ⟨hcomplement, hadded⟩ :=
    cuts_sign_before htokens hrest hline ⟨_, s, hbare ▸ hrun⟩
  have hadded := hadded fun u hu => hplus u (List.mem_append_left _ hu)
  obtain ⟨hfront', us, s', hcuts', hrun', hfinish'⟩ := read_eq_ok.mp hread'
  rw [signed, String.toList_ofList] at hcuts' hfront'
  obtain ⟨rfl, -⟩ := hcuts'.unique hcomplement
  rw [List.foldlM_append] at hrun'
  obtain ⟨s₁, hbefore, hrun'⟩ := Option.bind_eq_some_iff.mp hrun'
  obtain ⟨s₂, hnext, hrun'⟩ := Option.bind_eq_some_iff.mp hrun'
  obtain ⟨s₃, hnext', hsim⟩ := next_complement hnext "+"
  have hrefuses : reader.Refuses next (· = .unaryPlus) reader.start
      (before.map Token.bare ++ (.binary .add, "+") :: (t :: behind).map Token.bare) :=
    .append hbefore (.inr ⟨s₃, hnext', refuses_plusFor hsim hrun' hfinish'⟩)
  obtain ⟨f, hf, rfl⟩ := hrefuses.run advances hadded line'
  have hhead : (text.toList.take t.offset ++ '+' :: ' ' :: text.toList.drop t.offset).head? ≠
      some '=' := by
    cases hchars : text.toList with
    | nil => simp
    | cons c cs =>
      rw [hchars] at hfront
      cases t.offset with
      | zero => simp
      | succ n => exact hfront
  show (read line' (signed '+' text t)).1.map (elaborate owner vars) = _
  rw [read, signed, String.toList_ofList, scan_of_head hhead, hf]
  rfl

end Action

/-- A plus sign in front of a unary expression is never the identity. The text of a condition or of
an action can be read, and with a plus sign and a blank in front of one of its unary expressions, so
that no two plus signs become one token, it is refused. -/
theorem plus_sign_refused (line line' : Nat) (text owner : String) (vars : Variables)
    (t : Token Symbol) :
    (∀ r, (Condition.parse line text).1 = .ok r → Condition.UnaryAt line text t →
      (Condition.parse line' (signed '+' text t)).1 = .error .unaryPlus) ∧
    ∀ r, (Action.parse line text owner vars).1 = .ok r → Action.UnaryAt line text owner vars t →
      (∀ s ∈ (Action.scan line text.toList).tokens, s.kind = .binary .add →
        s.offset + 1 ≠ t.offset) →
      (Action.parse line' (signed '+' text t) owner vars).1 = .error .unaryPlus :=
  ⟨fun _ h ht => Condition.refused_of_unaryAt h ht line',
    fun _ h ht hplus => Action.refused_of_unaryAt h ht hplus line'⟩

/-- In a condition the operand is in a group behind a sign. In the action it is behind a step, in
the value of an assignment behind a declaration. -/
theorem plus_sign_refused_nested :
    ((Condition.parse 1 "a[3] >= -x /* on */ && !(b % 2)").1 =
        .ok "a[3] >= -x and  not (b % 2)" ∧
      (Condition.parse 1 (signed '+' "a[3] >= -x /* on */ && !(b % 2)"
        ⟨.identifier, "b", 1, 25, 1⟩)).1 = .error .unaryPlus) ∧
    (Action.parse 1 "int v[n + 1] = \x7b a, -b \x7d;\nx[i] <<= ++y;" "p_" .empty).1 =
        .ok (["x[i] = (x[i]) << (y = y + 1)"],
          ⟨[(some "p_v[n + 1]", ⟨.int, false, some "\x7ba, -b\x7d", .label⟩)]⟩) ∧
      (Action.parse 1 (signed '+' "int v[n + 1] = \x7b a, -b \x7d;\nx[i] <<= ++y;"
        ⟨.identifier, "y", 2, 37, 2⟩) "p_" .empty).1 = .error .unaryPlus := by
  have hcondition : (Condition.parse 1 "a[3] >= -x /* on */ && !(b % 2)").1 =
      .ok "a[3] >= -x and  not (b % 2)" := by
    decide +kernel
  have hat : Condition.UnaryAt 1 "a[3] >= -x /* on */ && !(b % 2)" ⟨.identifier, "b", 1, 25, 1⟩ :=
    ⟨by decide +kernel, "a[3] >= -x and  not (~b % 2)", by decide +kernel⟩
  have haction : (Action.parse 1 "int v[n + 1] = \x7b a, -b \x7d;\nx[i] <<= ++y;" "p_" .empty).1 =
      .ok (["x[i] = (x[i]) << (y = y + 1)"],
        ⟨[(some "p_v[n + 1]", ⟨.int, false, some "\x7ba, -b\x7d", .label⟩)]⟩) := by
    decide +kernel
  have hat' : Action.UnaryAt 1 "int v[n + 1] = \x7b a, -b \x7d;\nx[i] <<= ++y;" "p_" .empty
      ⟨.identifier, "y", 2, 37, 2⟩ :=
    ⟨by decide +kernel, by decide, (["x[i] = (x[i]) << (~y = ~y + 1)"],
      ⟨[(some "p_v[n + 1]", ⟨.int, false, some "\x7ba, -b\x7d", .label⟩)]⟩), by decide +kernel⟩
  have hapart : ∀ s ∈ (Action.scan 1
      "int v[n + 1] = \x7b a, -b \x7d;\nx[i] <<= ++y;".toList).tokens,
      s.kind = .binary .add → s.offset + 1 ≠ 37 := by
    decide +kernel
  exact ⟨⟨hcondition, (plus_sign_refused 1 1 _ "" .empty _).1 _ hcondition hat⟩, haction,
    (plus_sign_refused 1 1 _ "p_" .empty _).2 _ haction hat' hapart⟩

/-- The condition and the action can be read without the plus sign alone. -/
theorem plus_sign_not_identity :
    ((Condition.parse 1 "a").1 = .ok "a" ∧ (Condition.parse 1 "+ a").1 = .error .unaryPlus) ∧
      (Action.parse 1 "x = a;" "" .empty).1 = .ok (["x = a"], .empty) ∧
      (Action.parse 1 "x = + a;" "" .empty).1 = .error .unaryPlus := by
  decide +kernel

end Statechart
