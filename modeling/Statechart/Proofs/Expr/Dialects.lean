import Statechart.Proofs.Token.Cuts

/-!
Conditions and actions read expressions alike. Every step of a condition is a step of an action at
the same place (`Moves.lift`), where the number that indexes is an expression like any other. So
the tokens of a condition and a line end behind them are read as an action of one statement, which
is the expression of the condition (`Accepts.item`). A plus sign in front of an operand is never
accepted (`not_accepts_of_plus`).
-/

namespace Statechart

namespace Expr

/-! ## Steps in both dialects -/

/-- The place in an action that corresponds to a place in a condition. -/
def Position.lift : Position → Position
  | .indexNumber fs b o => .operand (.index b o :: fs)
  | .indexClose fs b o n => .after (.index b o :: fs) (.atom n) .primary
  | p => p

/-- What starts an operand is all of it, or opens one more frame. -/
theorem startOperand_cases {fs : List Frame} {k : Symbol} {text : String} {p : Position}
    (h : startOperand fs k text = .more p) :
    p = .after fs (.atom text) .primary ∨ ∃ f, p = .operand (f :: fs) := by
  cases k with
  | identifier | number => cases h; exact .inl rfl
  | binary op => cases op <;> cases h <;> exact .inr ⟨_, rfl⟩
  | step op =>
    simp only [startOperand] at h
    split at h
    · cases h
      exact .inr ⟨_, rfl⟩
    · cases h
  | leftParen | complement | not => cases h; exact .inr ⟨_, rfl⟩
  | _ => cases h

theorem startOperand_lift {fs : List Frame} {k : Symbol} {text : String} {p : Position}
    (h : startOperand fs k text = .more p) : p.lift = p := by
  rcases startOperand_cases h with rfl | ⟨f, rfl⟩ <;> rfl

theorem continueWith_binary (commas : Bool) (fs : List Frame) (e : Expr) (extent : Extent)
    (op : BinaryOp) (text : String) {p : Position}
    (h : continueWith commas fs e extent (.binary op) text = .more p) :
    p = .operand
      (.binary op (closeBinary op.strength fs e).2 :: (closeBinary op.strength fs e).1) := by
  simp only [continueWith] at h
  split at h
  · cases h
  · cases h
  · next hclose =>
    cases h
    rw [hclose]

/-- A closing parenthesis needs its group. -/
theorem continueWith_rightParen (commas : Bool) (fs : List Frame) (e : Expr) (extent : Extent)
    (text : String) {p : Position} :
    continueWith commas fs e extent .rightParen text = .more p ↔
      ∃ fs' e', closeAll fs e = (.group :: fs', e') ∧ p = .after fs' (.group e') .primary := by
  simp only [continueWith]
  rcases closeAll fs e with ⟨_ | ⟨f, fs'⟩, e'⟩
  · simp
  · cases f <;> simp [eq_comm, and_assoc]

/-- Behind an operand a token either indexes it, or it closes the signs in front of it first. -/
theorem step_after {d : Dialect} {commas : Bool} {fs : List Frame} {e : Expr} {extent : Extent}
    {k : Symbol} {text : String} {o : Outcome} (hk : k ≠ .leftBracket) (ho : o ≠ .stuck) :
    (Position.after fs e extent).step d commas k text = .ok o ↔
      mayFollow d k = true ∧ ∃ fs' e', closeUnary fs e = .ok (fs', e') ∧
        continueWith commas fs' e' extent k text = o := by
  unfold Position.step
  simp only [if_neg hk]
  cases hfollow : mayFollow d k with
  | false => simp [Ne.symm ho]
  | true =>
    rcases closeUnary fs e with f | ⟨fs', e'⟩
    · simp [bind, Except.bind]
    · simp [bind, Except.bind, pure, Except.pure, and_assoc]

/-- The steps of a condition. -/
inductive Moves (text : String) : Position → Symbol → Position → Prop
  | start {fs : List Frame} {k : Symbol} {p : Position} :
      startOperand fs k text = .more p → Moves text (.operand fs) k p
  | number (fs : List Frame) (b : Expr) (o : String) :
      Moves text (.indexNumber fs b o) .number (.indexClose fs b o text)
  | close (fs : List Frame) (b : Expr) (o n : String) :
      Moves text (.indexClose fs b o n) .rightBracket (.after fs (.index b o (.atom n) text) .unary)
  | index (fs : List Frame) (e : Expr) :
      Moves text (.after fs e .primary) .leftBracket (.indexNumber fs e text)
  | binary {fs fs' : List Frame} {e e' : Expr} {extent : Extent} {op : BinaryOp} {p : Position} :
      closeUnary fs e = .ok (fs', e') →
      continueWith false fs' e' extent (.binary op) text = .more p →
      Moves text (.after fs e extent) (.binary op) p
  | group {fs fs' fs₁ : List Frame} {e e' e₁ : Expr} {extent : Extent} :
      closeUnary fs e = .ok (fs', e') → closeAll fs' e' = (.group :: fs₁, e₁) →
      Moves text (.after fs e extent) .rightParen (.after fs₁ (.group e₁) .primary)

theorem moves_of_step {p p' : Position} {k : Symbol} {text : String}
    (h : p.step .condition false k text = .ok (.more p')) : Moves text p k p' := by
  cases p with
  | operand fs => exact .start (Except.ok.inj h)
  | indexNumber fs b o =>
    simp only [Position.step] at h
    split at h
    · next hk =>
      subst hk
      cases h
      exact .number fs b o
    · cases h
  | indexClose fs b o n =>
    simp only [Position.step] at h
    split at h
    · next hk =>
      subst hk
      cases h
      exact .close fs b o n
    · cases h
  | after fs e extent =>
    by_cases hk : k = .leftBracket
    · subst hk
      cases extent with
      | primary =>
        cases h
        exact .index fs e
      | _ => cases h
    · obtain ⟨hfollow, fs', e', hclose, hcont⟩ := (step_after (o := .more p') hk (by simp)).mp h
      cases k with
      | binary op => exact .binary hclose hcont
      | rightParen =>
        obtain ⟨fs₁, e₁, hgroup, rfl⟩ := (continueWith_rightParen ..).mp hcont
        exact .group hclose hgroup
      | _ => cases hfollow

theorem Moves.of_operand {fs : List Frame} {p : Position} {k : Symbol} {text : String}
    (h : Moves text (.operand fs) k p) : startOperand fs k text = .more p := by
  cases h with
  | start hstart => exact hstart

/-- An action takes every step of a condition. -/
theorem Moves.lift {p p' : Position} {k : Symbol} {text : String} (h : Moves text p k p') :
    p.lift.step .action true k text = .ok (.more p'.lift) := by
  cases h with
  | start hstart =>
    rw [startOperand_lift hstart]
    exact congrArg Except.ok hstart
  | number fs b o => rfl
  | close fs b o n => rfl
  | index fs e => rfl
  | binary hclose hcont =>
    obtain rfl := continueWith_binary _ _ _ _ _ _ hcont
    exact (step_after (by simp) (by simp)).mpr ⟨rfl, _, _, hclose, hcont⟩
  | group hclose hgroup =>
    refine (step_after (by simp) (by simp)).mpr ⟨rfl, _, _, hclose, ?_⟩
    exact (continueWith_rightParen ..).mpr ⟨_, _, hgroup, rfl⟩

/-! ## Signs that cannot be closed -/

/-- The frames around a place. -/
def Position.frames : Position → List Frame
  | .operand fs | .indexNumber fs _ _ | .indexClose fs _ _ _ | .after fs _ _ => fs

theorem plus_mem_closeUnary {fs fs' : List Frame} {e e' : Expr}
    (h : closeUnary fs e = .ok (fs', e')) (hplus : .plus ∈ fs) : .plus ∈ fs' := by
  fun_induction closeUnary fs e with
  | case1 => cases h
  | case2 op fs e ih => exact ih h (by simpa using hplus)
  | case3 fs e =>
    cases h
    exact hplus

theorem plus_mem_closeBinary {n : Nat} {fs : List Frame} {e : Expr} (hplus : .plus ∈ fs) :
    .plus ∈ (closeBinary n fs e).1 := by
  fun_induction closeBinary n fs e with
  | case1 op l fs e _ ih => exact ih (by simpa using hplus)
  | case2 => exact hplus
  | case3 => exact hplus

theorem plus_mem_closeAll {fs : List Frame} {e : Expr} (hplus : .plus ∈ fs) :
    .plus ∈ (closeAll fs e).1 := by
  fun_induction closeAll fs e with
  | case1 op l fs e ih => exact ih (by simpa using hplus)
  | case2 op fs e ih => exact ih (by simpa using hplus)
  | case3 op t fs e ih => exact ih (by simpa using hplus)
  | case4 l fs e ih => exact ih (by simpa using hplus)
  | case5 => exact hplus

/-- A plus sign in front of an operand stays. -/
theorem Moves.plus_mem {p p' : Position} {k : Symbol} {text : String} (h : Moves text p k p')
    (hplus : .plus ∈ p.frames) : .plus ∈ p'.frames := by
  cases h with
  | start hstart =>
    rcases startOperand_cases hstart with rfl | ⟨f, rfl⟩
    · exact hplus
    · exact List.mem_cons_of_mem f hplus
  | number fs b o => exact hplus
  | close fs b o n => exact hplus
  | index fs e => exact hplus
  | binary hclose hcont =>
    obtain rfl := continueWith_binary _ _ _ _ _ _ hcont
    exact List.mem_cons_of_mem _ (plus_mem_closeBinary (plus_mem_closeUnary hclose hplus))
  | @group fs fs' fs₁ e e' e₁ extent hclose hgroup =>
    have hmem := plus_mem_closeAll (e := e') (plus_mem_closeUnary hclose hplus)
    rw [hgroup] at hmem
    simpa [Position.frames] using hmem

end Expr

/-! ## Conditions -/

namespace Condition

def next (p : Option Expr.Position) (t : Symbol × String) : Option (Option Expr.Position) :=
  match (p.getD (.operand [])).step .condition false t.1 t.2 with
  | .ok (.more p) => some (some p)
  | _ => none

theorem advances : reader.Advances next := by
  intro p t p'
  simp only [reader, step, next, Token.bare]
  rcases (p.getD (.operand [])).step .condition false t.kind t.text with _ | _ | _ | _
  · simp [bind, Except.bind]
  · simp [bind, Except.bind, pure, Except.pure]
  · simp [bind, Except.bind, throw, throwThe, MonadExceptOf.throw]
  · simp [bind, Except.bind, throw, throwThe, MonadExceptOf.throw]

/-- Reading the tokens from a place on gives the expression. -/
def Accepts (p : Option Expr.Position) (ts : List (Symbol × String)) (e : Expr) : Prop :=
  ∃ p', ts.foldlM next p = some p' ∧ finish p' = .ok (some e)

theorem Accepts.cons {p : Option Expr.Position} {t : Symbol × String}
    {ts : List (Symbol × String)} {e : Expr} (h : Accepts p (t :: ts) e) :
    ∃ p', Expr.Moves t.2 (p.getD (.operand [])) t.1 p' ∧ Accepts (some p') ts e := by
  obtain ⟨s, hrun, hfinish⟩ := h
  obtain ⟨s₁, hs₁, hrun⟩ := Option.bind_eq_some_iff.mp hrun
  simp only [next] at hs₁
  split at hs₁
  · next p' hstep =>
    cases hs₁
    exact ⟨p', Expr.moves_of_step hstep, s, hrun, hfinish⟩
  · cases hs₁

/-- The end of a condition closes all that is open. -/
theorem finish_eq_ok {p : Expr.Position} {e : Expr} (h : finish (some p) = .ok (some e)) :
    ∃ fs e₀ extent fs' e', p = .after fs e₀ extent ∧ Expr.closeUnary fs e₀ = .ok (fs', e') ∧
      Expr.closeAll fs' e' = ([], e) := by
  cases p with
  | after fs e₀ extent =>
    obtain ⟨⟨fs', e'⟩, hclose, h⟩ := bind_eq_ok.mp h
    refine ⟨fs, e₀, extent, fs', e', rfl, hclose, ?_⟩
    rcases hall : Expr.closeAll fs' e' with ⟨_ | ⟨f, fs₁⟩, e₁⟩
    · simp only [hall] at h
      cases h
      rfl
    · simp only [hall] at h
      cases h
  | _ => cases h

theorem not_accepts_of_plus {p : Expr.Position} (hplus : .plus ∈ p.frames)
    (ts : List (Symbol × String)) (e : Expr) : ¬ Accepts (some p) ts e := by
  induction ts generalizing p with
  | nil =>
    rintro ⟨_, ⟨⟩, hfinish⟩
    obtain ⟨fs, e₀, extent, fs', e', rfl, hclose, hall⟩ := finish_eq_ok hfinish
    have hmem := Expr.plus_mem_closeAll (e := e') (Expr.plus_mem_closeUnary hclose hplus)
    rw [hall] at hmem
    cases hmem
  | cons t ts ih =>
    intro h
    obtain ⟨p', hmoves, h⟩ := h.cons
    exact ih (hmoves.plus_mem hplus) h

end Condition

/-! ## Actions -/

namespace Action

def next (s : State) (t : Symbol × String) : Option State :=
  match s.advance t.1 t.2 with
  | .ok s' => s'
  | .error _ => none

theorem advances : reader.Advances next := by
  intro s t s'
  simp only [reader, step, next, Token.bare]
  rcases s.advance t.kind t.text with _ | _ | _
  · simp [bind, Except.bind]
  · simp [bind, Except.bind, throw, throwThe, MonadExceptOf.throw]
  · simp [bind, Except.bind, pure, Except.pure]

theorem next_statement {p p' : Expr.Position} {k : Symbol} {text : String} (n : Nat)
    (items : List Item) (h : p.step .action true k text = .ok (.more p')) :
    next ⟨n, items, .statement p⟩ (k, text) = some ⟨n, items, .statement p'⟩ := by
  simp [next, State.advance, h, bind, Except.bind, pure, Except.pure]

theorem next_newline {p : Expr.Position} {e : Expr} {text : String} (n : Nat) (items : List Item)
    (h : p.step .action true .newline text = .ok (.done e)) :
    next ⟨n, items, .statement p⟩ (.newline, text) =
      some ⟨n, items ++ [.statement e], .boundary⟩ := by
  simp [next, State.advance, h, bind, Except.bind, pure, Except.pure]

theorem next_boundary {p : Expr.Position} {k : Symbol} {text : String} (n : Nat)
    (items : List Item) (h : Expr.startOperand [] k text = .more p) :
    next ⟨n, items, .boundary⟩ (k, text) = some ⟨n, items, .statement p⟩ := by
  cases k with
  | semicolon => cases h
  | newline => cases h
  | leftBrace => cases h
  | rightBrace => cases h
  | typeWord w => cases h
  | _ => simp [next, State.advance, State.startItem, h]

end Action

namespace Condition

/-- A line end closes in an action what the end of the text closes in a condition. -/
theorem step_newline {p : Expr.Position} {e : Expr} (h : finish (some p) = .ok (some e))
    (text : String) : p.lift.step .action true .newline text = .ok (.done e) := by
  obtain ⟨fs, e₀, extent, fs', e', rfl, hclose, hall⟩ := finish_eq_ok h
  refine (Expr.step_after (by simp) (by simp)).mpr ⟨rfl, fs', e', hclose, ?_⟩
  simp only [Expr.continueWith, hall]

theorem Accepts.statement {p : Expr.Position} {ts : List (Symbol × String)} {e : Expr}
    (h : Accepts (some p) ts e) (n : Nat) (items : List Action.Item) (text : String) :
    List.foldlM Action.next ⟨n, items, .statement p.lift⟩ (ts ++ [(.newline, text)]) =
      some ⟨n, items ++ [.statement e], .boundary⟩ := by
  induction ts generalizing p with
  | nil =>
    obtain ⟨_, ⟨⟩, hfinish⟩ := h
    simp [Action.next_newline n items (step_newline hfinish text)]
  | cons t ts ih =>
    obtain ⟨p', hmoves, h⟩ := h.cons
    have hnext : Action.next ⟨n, items, .statement p.lift⟩ t =
        some ⟨n, items, .statement p'.lift⟩ :=
      Action.next_statement n items hmoves.lift
    rw [List.cons_append, List.foldlM_cons, hnext]
    exact ih h

/-- The tokens of a condition and a line end are an action of one statement. -/
theorem Accepts.item {ts : List (Symbol × String)} {e : Expr} (h : Accepts none ts e)
    (text : String) :
    List.foldlM Action.next Action.reader.start (ts ++ [(.newline, text)]) =
      some ⟨0, [.statement e], .boundary⟩ := by
  cases ts with
  | nil =>
    obtain ⟨_, ⟨⟩, hfinish⟩ := h
    cases hfinish
  | cons t ts =>
    obtain ⟨p, hmoves, h⟩ := h.cons
    have hstart := hmoves.of_operand
    have hnext : Action.next Action.reader.start t = some ⟨0, [], .statement p.lift⟩ := by
      rw [Expr.startOperand_lift hstart]
      exact Action.next_boundary 0 [] hstart
    rw [List.cons_append, List.foldlM_cons, hnext]
    exact h.statement 0 [] text

end Condition

end Statechart
