import Statechart.Proofs.Action.Sequencing
import Statechart.Proofs.Expr.Grammar

/-!
The grammar of actions, and that reading follows it. `Derives` has a level for commas, one for
assignments and steps, one for each strength of binary operators, one for signs and indices and one
for atoms and groups. What is derived on a level is read on top of frames that are looser
(`Derives.reads`), and what has been read is derived, up to the open frames (`Stands.next`). So
what is derived, with a semicolon behind it, is read as one statement (`foldlM_of_derives`), and
the statements of a text without declarations are derived from its tokens (`read_derived`).
-/

namespace Statechart.Action

open Statechart.Expr (Frame Extent Lexeme signOf? strength_lt closeUnary closeBinary closeAll
  settled settled_eq_ok startOperand startsAssignment continueWith step_after)

/-! ## Derivations -/

/-- `Derives n ts e`: on level `n` the tokens derive the expression. Commas are on level 0,
assignments and steps on level 1, and the binary operators, which group to the left, on the ten
levels from 2 on. -/
inductive Derives : Nat → List Lexeme → Expr → Prop
  | identifier (s : String) : Derives 13 [(.identifier, s)] (.atom s)
  | number (s : String) : Derives 13 [(.number, s)] (.atom s)
  | group {ts : List Lexeme} {e : Expr} (o c : String) :
      Derives 0 ts e → Derives 13 ((.leftParen, o) :: ts ++ [(.rightParen, c)]) (.group e)
  | index {ts us : List Lexeme} {b e : Expr} (o c : String) : Derives 13 ts b → Derives 0 us e →
      Derives 12 (ts ++ (.leftBracket, o) :: us ++ [(.rightBracket, c)]) (.index b o e c)
  | sign {k : Symbol} {op : UnaryOp} {ts : List Lexeme} {e : Expr} (s : String) :
      signOf? k = some op → Derives 12 ts e → Derives 12 ((k, s) :: ts) (.unary op e)
  | binary {op : BinaryOp} {ts us : List Lexeme} {l r : Expr} (s : String) :
      Derives (op.strength + 2) ts l → Derives (op.strength + 3) us r →
      Derives (op.strength + 2) (ts ++ (.binary op, s) :: us) (.binary op l r)
  | stepBefore {op : StepOp} {ts : List Lexeme} {e : Expr} (s : String) :
      Derives 12 ts e → Derives 1 ((.step op, s) :: ts) (.step op e)
  | stepBehind {op : StepOp} {ts : List Lexeme} {e : Expr} (s : String) :
      Derives 12 ts e → Derives 1 (ts ++ [(.step op, s)]) (.step op e)
  | assign {op : AssignOp} {ts us : List Lexeme} {t v : Expr} (s : String) :
      Derives 12 ts t → Derives 1 us v → Derives 1 (ts ++ (.assign op, s) :: us) (.assign op t v)
  | comma {ts us : List Lexeme} {l r : Expr} (s : String) :
      Derives 0 ts l → Derives 1 us r → Derives 0 (ts ++ (.comma, s) :: us) (.comma l r)
  | tighter {n : Nat} {ts : List Lexeme} {e : Expr} : Derives (n + 1) ts e → Derives n ts e

theorem Derives.mono {m n : Nat} {ts : List Lexeme} {e : Expr} (h : Derives n ts e) (hm : m ≤ n) :
    Derives m ts e := by
  induction hm with
  | refl => exact h
  | step _ ih => exact ih h.tighter

/-! ## Frames by level -/

/-- The frames are looser than level `n`: what is derived on that level may stand on top of them,
and no frame on top is a sign. -/
def Below (n : Nat) : List Frame → Prop
  | [] | .group :: _ | .index _ _ :: _ => True
  | .comma _ :: _ | .assign _ _ :: _ => 1 ≤ n
  | .binary op _ :: _ => op.strength + 2 < n
  | .step _ :: _ => 12 ≤ n
  | .unary _ :: _ | .plus :: _ => False

section

variable {m n : Nat} {fs : List Frame} {e : Expr}

theorem Below.mono (h : Below m fs) (hm : m ≤ n) : Below n fs := by
  cases fs with
  | nil => trivial
  | cons f fs =>
    cases f with
    | group | index => trivial
    | comma | assign | step => exact Nat.le_trans h hm
    | binary => exact Nat.lt_of_lt_of_le h hm
    | unary | plus => cases h

theorem startsAssignment_iff : startsAssignment fs = true ↔ Below 1 fs := by
  cases fs with
  | nil => simp [startsAssignment, Below]
  | cons f fs => cases f <;> simp [startsAssignment, Below]

theorem Below.closeUnary_eq (h : Below n fs) (e : Expr) : closeUnary fs e = .ok (fs, e) := by
  cases fs with
  | nil => rfl
  | cons f fs =>
    cases f with
    | unary | plus => cases h
    | _ => rfl

theorem Below.closeBinary_eq (h : Below (n + 2) fs) (e : Expr) : closeBinary n fs e = (fs, e) := by
  cases fs with
  | nil => rfl
  | cons f fs =>
    cases f with
    | binary op l =>
      have hlt : ¬ n ≤ op.strength := fun hle =>
        Nat.not_lt.mpr (Nat.add_le_add_right hle 2) h
      rw [closeBinary, if_neg hlt]
    | _ => rfl

theorem Below.closeAll_eq (h : Below 0 fs) (e : Expr) : closeAll fs e = (fs, e) := by
  cases fs with
  | nil => rfl
  | cons f fs =>
    cases f with
    | group | index => rfl
    | comma | assign | step | binary => cases h
    | unary | plus => cases h

theorem Below.settled_eq (h : Below n fs) (close : List Frame → Expr → List Frame × Expr)
    (e : Expr) : settled close fs e = .ok (close fs e) := by
  rw [settled, h.closeUnary_eq e]
  rfl

end

/-- A way to close frames that closes all frames of levels from `n` on. -/
structure Absorbs (n : Nat) (close : List Frame → Expr → List Frame × Expr) : Prop where
  binary : ∀ op l fs r, n ≤ op.strength + 2 →
    close (.binary op l :: fs) r = close fs (.binary op l r)
  step : n ≤ 1 → ∀ op fs e, close (.step op :: fs) e = close fs (.step op e)
  assign : n ≤ 1 → ∀ op t fs v, close (.assign op t :: fs) v = close fs (.assign op t v)
  comma : n = 0 → ∀ l fs r, close (.comma l :: fs) r = close fs (.comma l r)

theorem Absorbs.mono {m n : Nat} {close : List Frame → Expr → List Frame × Expr}
    (h : Absorbs m close) (hm : m ≤ n) : Absorbs n close where
  binary op l fs r hn := h.binary op l fs r (Nat.le_trans hm hn)
  step hn := h.step (Nat.le_trans hm hn)
  assign hn := h.assign (Nat.le_trans hm hn)
  comma hn := h.comma (Nat.le_zero.mp (hn ▸ hm))

theorem absorbs_closeBinary (n : Nat) : Absorbs (n + 2) (closeBinary n) where
  binary op l fs r hn := by rw [closeBinary, if_pos (Nat.le_of_add_le_add_right hn)]
  step hn := by omega
  assign hn := by omega
  comma hn := by omega

theorem absorbs_closeAll : Absorbs 0 closeAll :=
  ⟨fun _ _ _ _ _ => rfl, fun _ _ _ _ => rfl, fun _ _ _ _ _ => rfl, fun _ _ _ _ => rfl⟩

/-- Signs alone are closed in front of assignments and steps. -/
theorem absorbs_mk : Absorbs 12 Prod.mk where
  binary op l fs r hn := by
    have hlt := strength_lt op
    omega
  step hn := by omega
  assign hn := by omega
  comma hn := by omega

/-! ## What is derived is read -/

/-- One more token of an expression; `none` if it does not go on. -/
def advance? (p : Expr.Position) (t : Lexeme) : Option Expr.Position :=
  match p.step .action true t.1 t.2 with
  | .ok (.more p') => some p'
  | _ => none

theorem advance?_eq_some {p p' : Expr.Position} {k : Symbol} {s : String} :
    advance? p (k, s) = some p' ↔ p.step .action true k s = .ok (.more p') := by
  unfold advance?
  rcases p.step .action true k s with f | _ | _ | _ <;> simp

/-- Reading tokens in turn leads from one place to the other. -/
def Reads (p : Expr.Position) (ts : List Lexeme) (p' : Expr.Position) : Prop :=
  ts.foldlM advance? p = some p'

theorem Reads.append {p p' p'' : Expr.Position} {ts us : List Lexeme} (h : Reads p ts p')
    (h' : Reads p' us p'') : Reads p (ts ++ us) p'' := by
  rw [Reads, List.foldlM_append, h]
  exact h'

theorem reads_of_step {p p' : Expr.Position} {k : Symbol} {s : String}
    (h : p.step .action true k s = .ok (.more p')) : Reads p [(k, s)] p' := by
  rw [Reads, List.foldlM_cons, advance?_eq_some.mpr h]
  rfl

theorem reads_sign {k : Symbol} {op : UnaryOp} (h : signOf? k = some op) (fs : List Frame)
    (s : String) : Reads (.operand fs) [(k, s)] (.operand (.unary op :: fs)) := by
  refine reads_of_step ?_
  cases k with
  | binary op =>
    cases op with
    | sub =>
      cases h
      rfl
    | _ => cases h
  | complement | not =>
    cases h
    rfl
  | _ => cases h

section

variable {fs gs : List Frame} {e e' : Expr} {x : Extent}

/-- An operator closes what binds as tight as it does. -/
theorem reads_binary (hx : x ≠ .whole) {op : BinaryOp} (hfs : Below (op.strength + 2) fs)
    (h : settled (closeBinary op.strength) gs e = .ok (fs, e')) (s : String) :
    Reads (.after gs e x) [(.binary op, s)] (.operand (.binary op e' :: fs)) := by
  obtain ⟨gs', e₁, hclose, hbinary⟩ := settled_eq_ok h
  refine reads_of_step ((step_after (by simp) (by simp)).mpr ⟨rfl, gs', e₁, hclose, ?_⟩)
  simp only [continueWith, hbinary]
  cases x with
  | whole => exact absurd rfl hx
  | _ =>
    cases fs with
    | nil => rfl
    | cons f fs =>
      cases f with
      | step op' =>
        have hle : 12 ≤ op.strength + 2 := hfs
        have hlt := strength_lt op
        omega
      | _ => rfl

theorem reads_assign (hx : x ≠ .whole) (hfs : Below 1 fs)
    (h : settled Prod.mk gs e = .ok (fs, e')) (op : AssignOp) (s : String) :
    Reads (.after gs e x) [(.assign op, s)] (.operand (.assign op e' :: fs)) := by
  obtain ⟨gs', e₁, hclose, heq⟩ := settled_eq_ok h
  cases heq
  refine reads_of_step ((step_after (by simp) (by simp)).mpr ⟨rfl, fs, e', hclose, ?_⟩)
  simp [continueWith, startsAssignment_iff.mpr hfs, hx]

theorem reads_step (hx : x ≠ .whole) (hfs : Below 1 fs)
    (h : settled Prod.mk gs e = .ok (fs, e')) (op : StepOp) (s : String) :
    Reads (.after gs e x) [(.step op, s)] (.after fs (.step op e') .whole) := by
  obtain ⟨gs', e₁, hclose, heq⟩ := settled_eq_ok h
  cases heq
  refine reads_of_step ((step_after (by simp) (by simp)).mpr ⟨rfl, fs, e', hclose, ?_⟩)
  simp [continueWith, startsAssignment_iff.mpr hfs, hx]

theorem reads_rightParen (h : settled closeAll gs e = .ok (.group :: fs, e')) (s : String) :
    Reads (.after gs e x) [(.rightParen, s)] (.after fs (.group e') .primary) := by
  obtain ⟨gs', e₁, hclose, hall⟩ := settled_eq_ok h
  refine reads_of_step ((step_after (by simp) (by simp)).mpr ⟨rfl, gs', e₁, hclose, ?_⟩)
  simp only [continueWith, hall]

theorem reads_rightBracket {b : Expr} {o : String}
    (h : settled closeAll gs e = .ok (.index b o :: fs, e')) (s : String) :
    Reads (.after gs e x) [(.rightBracket, s)] (.after fs (.index b o e' s) .unary) := by
  obtain ⟨gs', e₁, hclose, hall⟩ := settled_eq_ok h
  refine reads_of_step ((step_after (by simp) (by simp)).mpr ⟨rfl, gs', e₁, hclose, ?_⟩)
  simp only [continueWith, hall]

theorem continueWith_comma (fs : List Frame) (e : Expr) (x : Extent) (s : String) :
    continueWith true fs e x .comma s =
      .more (.operand (.comma (closeAll fs e).2 :: (closeAll fs e).1)) := by
  simp only [continueWith]
  rcases closeAll fs e with ⟨_ | ⟨f, gs⟩, e'⟩ <;> rfl

theorem reads_comma (h : settled closeAll gs e = .ok (fs, e')) (s : String) :
    Reads (.after gs e x) [(.comma, s)] (.operand (.comma e' :: fs)) := by
  obtain ⟨gs', e₁, hclose, hall⟩ := settled_eq_ok h
  refine reads_of_step ((step_after (by simp) (by simp)).mpr ⟨rfl, gs', e₁, hclose, ?_⟩)
  rw [continueWith_comma, hall]

end

/-- What is derived on a level is read on top of looser frames. It may leave frames of its own
open, but whatever closes the frames of that level closes these. -/
theorem Derives.reads {n : Nat} {ts : List Lexeme} {e : Expr} (h : Derives n ts e)
    (fs : List Frame) (hfs : n < 12 → Below n fs) :
    ∃ gs e₀ x, Reads (.operand fs) ts (.after gs e₀ x) ∧ (2 ≤ n → x ≠ .whole) ∧
      (13 ≤ n → gs = fs ∧ e₀ = e ∧ x = .primary) ∧
      ∀ close, Absorbs n close → settled close gs e₀ = settled close fs e := by
  induction h generalizing fs with
  | identifier s | number s =>
    exact ⟨fs, .atom s, .primary, reads_of_step rfl, by simp, by simp, fun _ _ => rfl⟩
  | @group ts e o c _ ih =>
    obtain ⟨gs, e₀, x, hreads, -, -, hsettled⟩ := ih (.group :: fs) fun _ => trivial
    have hclosed : settled closeAll gs e₀ = .ok (.group :: fs, e) := hsettled _ absorbs_closeAll
    have hopen : Reads (.operand fs) [(.leftParen, o)] (.operand (.group :: fs)) :=
      reads_of_step rfl
    refine ⟨fs, .group e, .primary, ?_, by simp, by simp, fun _ _ => rfl⟩
    exact (hopen.append hreads).append (reads_rightParen hclosed c)
  | @index ts us b e o c _ _ ihb ihe =>
    obtain ⟨gs, b₀, x, hbase, -, hprimary, -⟩ := ihb fs (by simp)
    obtain ⟨rfl, rfl, rfl⟩ := hprimary (Nat.le_refl _)
    obtain ⟨hs, e₀, y, hinner, -, -, hsettled⟩ := ihe (.index b₀ o :: gs) fun _ => trivial
    have hclosed : settled closeAll hs e₀ = .ok (.index b₀ o :: gs, e) :=
      hsettled _ absorbs_closeAll
    have hopen : Reads (.after gs b₀ .primary) [(.leftBracket, o)]
        (.operand (.index b₀ o :: gs)) := reads_of_step rfl
    refine ⟨gs, .index b₀ o e c, .unary, ?_, by simp, by simp, fun _ _ => rfl⟩
    rw [List.append_assoc]
    exact hbase.append ((hopen.append hinner).append (reads_rightBracket hclosed c))
  | @sign k op ts e s hk _ ih =>
    obtain ⟨gs, e₀, x, hreads, hx, -, hsettled⟩ := ih (.unary op :: fs) (by simp)
    exact ⟨gs, e₀, x, (reads_sign hk fs s).append hreads, hx, by simp, hsettled⟩
  | @binary op ts us l r s _ _ ihl ihr =>
    have hlt := strength_lt op
    have hbelow := hfs (by omega)
    -- the operator closes what the left side has left open, and no more
    obtain ⟨gs, e₀, x, hl, hx, -, hsettled⟩ := ihl fs hfs
    have hleft : settled (closeBinary op.strength) gs e₀ = .ok (fs, l) := by
      rw [hsettled _ (absorbs_closeBinary _), hbelow.settled_eq, hbelow.closeBinary_eq]
    have hright : Below (op.strength + 3) (.binary op l :: fs) := Nat.lt_succ_self _
    obtain ⟨hs, r₀, y, hr, hy, -, hsettled'⟩ := ihr (.binary op l :: fs) fun _ => hright
    refine ⟨hs, r₀, y, ?_, fun _ => hy (by omega), fun hn => by omega, fun close hclose => ?_⟩
    · exact hl.append ((reads_binary (hx (by omega)) hbelow hleft s).append hr)
    · rw [hsettled' close (hclose.mono (Nat.le_succ _)), hright.settled_eq, hbelow.settled_eq,
        hclose.binary op l fs r (Nat.le_refl _)]
  | @stepBefore op ts e s _ ih =>
    have hbelow := hfs (by decide)
    have hframe : Below 12 (.step op :: fs) := Nat.le_refl 12
    obtain ⟨gs, e₀, x, hreads, hx, -, hsettled⟩ := ih (.step op :: fs) (by simp)
    have hopen : Reads (.operand fs) [(.step op, s)] (.operand (.step op :: fs)) :=
      reads_of_step (by simp [Expr.Position.step, startOperand, startsAssignment_iff.mpr hbelow])
    refine ⟨gs, e₀, x, hopen.append hreads, by simp, by simp, fun close hclose => ?_⟩
    rw [hsettled close (hclose.mono (by decide)), hframe.settled_eq, hbelow.settled_eq,
      hclose.step (Nat.le_refl 1)]
  | @stepBehind op ts e s _ ih =>
    have hbelow := hfs (by decide)
    obtain ⟨gs, e₀, x, hreads, hx, -, hsettled⟩ := ih fs (by simp)
    have htarget : settled Prod.mk gs e₀ = .ok (fs, e) := by
      rw [hsettled _ absorbs_mk, hbelow.settled_eq]
    refine ⟨fs, .step op e, .whole, ?_, by simp, by simp, fun _ _ => rfl⟩
    exact hreads.append (reads_step (hx (by decide)) hbelow htarget op s)
  | @assign op ts us t v s _ _ iht ihv =>
    have hbelow := hfs (by decide)
    have hframe : Below 1 (.assign op t :: fs) := Nat.le_refl 1
    obtain ⟨gs, t₀, x, ht, hx, -, hsettled⟩ := iht fs (by simp)
    have htarget : settled Prod.mk gs t₀ = .ok (fs, t) := by
      rw [hsettled _ absorbs_mk, hbelow.settled_eq]
    obtain ⟨hs, v₀, y, hv, -, -, hsettled'⟩ := ihv (.assign op t :: fs) fun _ => hframe
    refine ⟨hs, v₀, y, ?_, by simp, by simp, fun close hclose => ?_⟩
    · exact ht.append ((reads_assign (hx (by decide)) hbelow htarget op s).append hv)
    · rw [hsettled' close hclose, hframe.settled_eq, hbelow.settled_eq,
        hclose.assign (Nat.le_refl 1)]
  | @comma ts us l r s _ _ ihl ihr =>
    have hbelow := hfs (by decide)
    have hframe : Below 1 (.comma l :: fs) := Nat.le_refl 1
    obtain ⟨gs, l₀, x, hl, -, -, hsettled⟩ := ihl fs hfs
    have hleft : settled closeAll gs l₀ = .ok (fs, l) := by
      rw [hsettled _ absorbs_closeAll, hbelow.settled_eq, hbelow.closeAll_eq]
    obtain ⟨hs, r₀, y, hr, -, -, hsettled'⟩ := ihr (.comma l :: fs) fun _ => hframe
    refine ⟨hs, r₀, y, ?_, by simp, by simp, fun close hclose => ?_⟩
    · exact hl.append ((reads_comma hleft s).append hr)
    · rw [hsettled' close (hclose.mono (Nat.zero_le 1)), hframe.settled_eq, hbelow.settled_eq,
        hclose.comma rfl]
  | @tighter n ts e _ ih =>
    obtain ⟨gs, e₀, x, hreads, hx, hprimary, hsettled⟩ :=
      ih fs fun hn => (hfs (Nat.lt_of_succ_lt hn)).mono (Nat.le_succ n)
    exact ⟨gs, e₀, x, hreads, fun hn => hx (Nat.le_succ_of_le hn),
      fun hn => hprimary (Nat.le_succ_of_le hn),
      fun close hclose => hsettled close (hclose.mono (Nat.le_succ n))⟩

/-! ## What is read is derived -/

/-- The tokens have opened the frames, innermost last. -/
inductive Opens : List Lexeme → List Frame → Prop
  | nil : Opens [] []
  | group {ts : List Lexeme} {fs : List Frame} (s : String) :
      Opens ts fs → Opens (ts ++ [(.leftParen, s)]) (.group :: fs)
  | index {ts us : List Lexeme} {fs : List Frame} {b : Expr} (s : String) :
      Opens ts fs → Derives 13 us b → Opens (ts ++ us ++ [(.leftBracket, s)]) (.index b s :: fs)
  | plus {ts : List Lexeme} {fs : List Frame} (s : String) :
      Opens ts fs → Opens (ts ++ [(.binary .add, s)]) (.plus :: fs)
  | sign {k : Symbol} {op : UnaryOp} {ts : List Lexeme} {fs : List Frame} (s : String) :
      signOf? k = some op → Opens ts fs → Opens (ts ++ [(k, s)]) (.unary op :: fs)
  | binary {op : BinaryOp} {ts us : List Lexeme} {fs : List Frame} {l : Expr} (s : String) :
      Opens ts fs → Below (op.strength + 2) fs → Derives (op.strength + 2) us l →
      Opens (ts ++ us ++ [(.binary op, s)]) (.binary op l :: fs)
  | step {op : StepOp} {ts : List Lexeme} {fs : List Frame} (s : String) :
      Opens ts fs → Below 1 fs → Opens (ts ++ [(.step op, s)]) (.step op :: fs)
  | assign {op : AssignOp} {ts us : List Lexeme} {fs : List Frame} {t : Expr} (s : String) :
      Opens ts fs → Below 1 fs → Derives 12 us t →
      Opens (ts ++ us ++ [(.assign op, s)]) (.assign op t :: fs)
  | comma {ts us : List Lexeme} {fs : List Frame} {l : Expr} (s : String) :
      Opens ts fs → Below 0 fs → Derives 0 us l →
      Opens (ts ++ us ++ [(.comma, s)]) (.comma l :: fs)

/-- The tokens opened the frames and then derived an expression on level `n`. -/
def Builds (n : Nat) (ts : List Lexeme) (fs : List Frame) (e : Expr) : Prop :=
  ∃ us vs, ts = us ++ vs ∧ Opens us fs ∧ Derives n vs e

theorem Builds.mono {m n : Nat} {ts : List Lexeme} {fs : List Frame} {e : Expr}
    (h : Builds n ts fs e) (hm : m ≤ n) : Builds m ts fs e := by
  obtain ⟨us, vs, rfl, hopens, hderives⟩ := h
  exact ⟨us, vs, rfl, hopens, hderives.mono hm⟩

/-- Closing signs goes on with the derivation of an operand. -/
theorem Builds.of_closeUnary {ts : List Lexeme} {fs fs' : List Frame} {e e' : Expr}
    (h : Builds 12 ts fs e) (hclose : closeUnary fs e = .ok (fs', e')) :
    Builds 12 ts fs' e' ∧ Below 12 fs' := by
  obtain ⟨us, vs, rfl, hopens, hderives⟩ := h
  induction hopens generalizing vs e with
  | plus s hopens => cases hclose
  | @sign k op ts fs s hk hopens ih =>
    have hclose : closeUnary fs (.unary op e) = .ok (fs', e') := hclose
    have hrest := ih hclose ((k, s) :: vs) (hderives.sign s hk)
    simpa using hrest
  | nil =>
    cases hclose
    exact ⟨⟨[], vs, rfl, .nil, hderives⟩, trivial⟩
  | group s hopens =>
    cases hclose
    exact ⟨⟨_, vs, rfl, hopens.group s, hderives⟩, trivial⟩
  | index s hopens hbase =>
    cases hclose
    exact ⟨⟨_, vs, rfl, hopens.index s hbase, hderives⟩, trivial⟩
  | @binary op ts us fs l s hopens hbelow hleft =>
    cases hclose
    have hlt := strength_lt op
    exact ⟨⟨_, vs, rfl, hopens.binary s hbelow hleft, hderives⟩, Nat.add_lt_add_right hlt 2⟩
  | step s hopens hbelow =>
    cases hclose
    exact ⟨⟨_, vs, rfl, hopens.step s hbelow, hderives⟩, Nat.le_refl 12⟩
  | assign s hopens hbelow htarget =>
    cases hclose
    exact ⟨⟨_, vs, rfl, hopens.assign s hbelow htarget, hderives⟩, Nat.succ_pos 11⟩
  | comma s hopens hbelow hleft =>
    cases hclose
    exact ⟨⟨_, vs, rfl, hopens.comma s hbelow hleft, hderives⟩, Nat.succ_pos 11⟩

/-- Closing operators goes down to the level at which it stops, or to a step. -/
theorem Builds.of_closeBinary {m n : Nat} {ts : List Lexeme} {fs fs' : List Frame} {e e' : Expr}
    (h : Builds n ts fs e) (hfs : Below n fs) (hm : m + 2 ≤ n)
    (hclose : closeBinary m fs e = (fs', e')) :
    Builds (m + 2) ts fs' e' ∧ (Below (m + 2) fs' ∨ ∃ op gs, fs' = .step op :: gs) := by
  obtain ⟨us, vs, rfl, hopens, hderives⟩ := h
  induction hopens generalizing n vs e with
  | plus s hopens | sign s hk hopens => cases hfs
  | nil =>
    cases hclose
    exact ⟨⟨[], vs, rfl, .nil, hderives.mono hm⟩, .inl trivial⟩
  | group s hopens =>
    cases hclose
    exact ⟨⟨_, vs, rfl, hopens.group s, hderives.mono hm⟩, .inl trivial⟩
  | index s hopens hbase =>
    cases hclose
    exact ⟨⟨_, vs, rfl, hopens.index s hbase, hderives.mono hm⟩, .inl trivial⟩
  | @binary op ts us fs l s hopens hbelow hleft ih =>
    have hlt : op.strength + 2 < n := hfs
    rw [closeBinary] at hclose
    split at hclose
    · next hle =>
      -- what stands behind the operator binds tighter, so it is a right side
      have hderives' : Derives (op.strength + 2) (us ++ (.binary op, s) :: vs) (.binary op l e) :=
        .binary s hleft (hderives.mono hlt)
      have hrest := ih hbelow (Nat.add_le_add_right hle 2) hclose (us ++ (.binary op, s) :: vs)
        hderives'
      simpa using hrest
    · next hle =>
      cases hclose
      exact ⟨⟨_, vs, rfl, hopens.binary s hbelow hleft, hderives.mono hm⟩,
        .inl (Nat.add_lt_add_right (Nat.not_le.mp hle) 2)⟩
  | step s hopens hbelow =>
    cases hclose
    exact ⟨⟨_, vs, rfl, hopens.step s hbelow, hderives.mono hm⟩, .inr ⟨_, _, rfl⟩⟩
  | assign s hopens hbelow htarget =>
    cases hclose
    exact ⟨⟨_, vs, rfl, hopens.assign s hbelow htarget, hderives.mono hm⟩,
      .inl (Nat.succ_pos _)⟩
  | comma s hopens hbelow hleft =>
    cases hclose
    exact ⟨⟨_, vs, rfl, hopens.comma s hbelow hleft, hderives.mono hm⟩, .inl (Nat.succ_pos _)⟩

/-- Closing all goes down to the next bracket. -/
theorem Builds.of_closeAll {n : Nat} {ts : List Lexeme} {fs fs' : List Frame} {e e' : Expr}
    (h : Builds n ts fs e) (hfs : Below n fs) (hclose : closeAll fs e = (fs', e')) :
    Builds 0 ts fs' e' ∧ Below 0 fs' := by
  obtain ⟨us, vs, rfl, hopens, hderives⟩ := h
  induction hopens generalizing n vs e with
  | plus s hopens | sign s hk hopens => cases hfs
  | nil =>
    cases hclose
    exact ⟨⟨[], vs, rfl, .nil, hderives.mono (Nat.zero_le n)⟩, trivial⟩
  | group s hopens =>
    cases hclose
    exact ⟨⟨_, vs, rfl, hopens.group s, hderives.mono (Nat.zero_le n)⟩, trivial⟩
  | index s hopens hbase =>
    cases hclose
    exact ⟨⟨_, vs, rfl, hopens.index s hbase, hderives.mono (Nat.zero_le n)⟩, trivial⟩
  | @binary op ts us fs l s hopens hbelow hleft ih =>
    have hrest := ih hbelow hclose _ (.binary s hleft (hderives.mono hfs))
    simpa using hrest
  | @step op ts fs s hopens hbelow ih =>
    have hrest := ih hbelow hclose _ (.stepBefore s (hderives.mono hfs))
    simpa using hrest
  | @assign op ts us fs t s hopens hbelow htarget ih =>
    have hrest := ih hbelow hclose _ (.assign s htarget (hderives.mono hfs))
    simpa using hrest
  | @comma ts us fs l s hopens hbelow hleft ih =>
    have hrest := ih hbelow hclose _ (.comma s hleft (hderives.mono hfs))
    simpa using hrest

/-- The level of an operand. -/
def level : Extent → Nat
  | .primary => 13
  | .unary => 12
  | .whole => 1

/-- What has been read where the reading stands. -/
def Stands (ts : List Lexeme) : Expr.Position → Prop
  | .operand fs => Opens ts fs
  | .after fs e x => Builds (level x) ts fs e ∧ (x = .whole → Below 1 fs)
  | .indexNumber .. | .indexClose .. => False

/-- Once the signs in front of an operand are closed, the frames are looser than what has been
read, which may be a target if it is not whole. -/
theorem Builds.settle {x : Extent} {ts : List Lexeme} {fs fs' : List Frame} {e e' : Expr}
    (h : Builds (level x) ts fs e) (hx : x = .whole → Below 1 fs)
    (hclose : closeUnary fs e = .ok (fs', e')) :
    ∃ n, Builds n ts fs' e' ∧ Below n fs' ∧ (x ≠ .whole → n = 12) := by
  cases x with
  | whole =>
    rw [(hx rfl).closeUnary_eq] at hclose
    cases hclose
    exact ⟨1, h, hx rfl, fun hne => absurd rfl hne⟩
  | primary | unary =>
    obtain ⟨hbuilds, hbelow⟩ := (h.mono (by decide) : Builds 12 ts fs e).of_closeUnary hclose
    exact ⟨12, hbuilds, hbelow, fun _ => rfl⟩

/-- An operand starts with an atom, or opens a frame. -/
theorem Opens.start {ts : List Lexeme} {fs : List Frame} (h : Opens ts fs) {k : Symbol}
    {s : String} {p : Expr.Position} (hstart : startOperand fs k s = .more p) :
    Stands (ts ++ [(k, s)]) p := by
  cases k with
  | identifier =>
    cases hstart
    exact ⟨⟨ts, _, rfl, h, .identifier s⟩, by simp⟩
  | number =>
    cases hstart
    exact ⟨⟨ts, _, rfl, h, .number s⟩, by simp⟩
  | leftParen =>
    cases hstart
    exact h.group s
  | binary op =>
    cases op with
    | add =>
      cases hstart
      exact h.plus s
    | sub =>
      cases hstart
      exact h.sign s rfl
    | _ => cases hstart
  | complement | not =>
    cases hstart
    exact h.sign s rfl
  | step op =>
    simp only [startOperand] at hstart
    split at hstart
    · next hassign =>
      cases hstart
      exact h.step s (startsAssignment_iff.mp hassign)
    · cases hstart
  | _ => cases hstart

/-- What an operator asks of the operand in front of it. -/
theorem continueWith_operator {fs : List Frame} {e : Expr} {x : Extent} {op : BinaryOp} {s : String}
    {p : Expr.Position} (h : continueWith true fs e x (.binary op) s = .more p) :
    x ≠ .whole ∧ ∃ fs' e', closeBinary op.strength fs e = (fs', e') ∧
      (∀ o gs, fs' ≠ .step o :: gs) ∧ p = .operand (.binary op e' :: fs') := by
  simp only [continueWith] at h
  generalize closeBinary op.strength fs e = q at h ⊢
  obtain ⟨fs', e'⟩ := q
  cases x with
  | whole => cases h
  | primary | unary =>
    refine ⟨by simp, fs', e', rfl, ?_⟩
    cases fs' with
    | nil =>
      cases h
      exact ⟨by simp, rfl⟩
    | cons f gs =>
      cases f with
      | step o => cases h
      | _ =>
        cases h
        exact ⟨by simp, rfl⟩

/-- An assignment and a step ask for a target. -/
theorem continueWith_target {fs : List Frame} {e : Expr} {x : Extent} {k : Symbol} {s : String}
    {p : Expr.Position} (h : continueWith true fs e x k s = .more p) :
    (∀ op, k = .assign op → x ≠ .whole ∧ Below 1 fs ∧ p = .operand (.assign op e :: fs)) ∧
      ∀ op, k = .step op → x ≠ .whole ∧ Below 1 fs ∧ p = .after fs (.step op e) .whole := by
  constructor
  · rintro op rfl
    simp only [continueWith] at h
    split at h
    · next hfree =>
      cases h
      simp only [Bool.and_eq_true, bne_iff_ne] at hfree
      exact ⟨hfree.1, startsAssignment_iff.mp hfree.2, rfl⟩
    · cases h
  · rintro op rfl
    simp only [continueWith] at h
    split at h
    · next hfree =>
      cases h
      simp only [Bool.and_eq_true, bne_iff_ne] at hfree
      exact ⟨hfree.1, startsAssignment_iff.mp hfree.2, rfl⟩
    · cases h

theorem continueWith_rightBracket {fs : List Frame} {e : Expr} {x : Extent} {s : String}
    {p : Expr.Position} (h : continueWith true fs e x .rightBracket s = .more p) :
    ∃ b o fs' e', closeAll fs e = (.index b o :: fs', e') ∧
      p = .after fs' (.index b o e' s) .unary := by
  simp only [continueWith] at h
  generalize closeAll fs e = q at h ⊢
  obtain ⟨_ | ⟨f, fs'⟩, e'⟩ := q
  · cases h
  · cases f with
    | index b o =>
      cases h
      exact ⟨b, o, fs', e', rfl, rfl⟩
    | _ => cases h

/-- One more token. -/
theorem Stands.next {ts : List Lexeme} {p p' : Expr.Position} {k : Symbol} {s : String}
    (h : Stands ts p) (hstep : p.step .action true k s = .ok (.more p')) :
    Stands (ts ++ [(k, s)]) p' := by
  cases p with
  | operand fs => exact Opens.start h (Except.ok.inj hstep)
  | indexNumber | indexClose => cases h
  | after fs e x =>
    obtain ⟨hbuilds, hx⟩ := h
    by_cases hk : k = .leftBracket
    · subst hk
      cases x with
      | primary =>
        cases hstep
        obtain ⟨us, vs, rfl, hopens, hderives⟩ := hbuilds
        exact hopens.index s hderives
      | _ => cases hstep
    · obtain ⟨hfollow, fs', e', hclose, hcont⟩ := (step_after hk (by simp)).mp hstep
      obtain ⟨n, hbuilds, hbelow, hn⟩ := hbuilds.settle hx hclose
      cases k with
      | binary op =>
        obtain ⟨hwhole, fs₁, e₁, hbinary, hstop, rfl⟩ := continueWith_operator hcont
        obtain rfl := hn hwhole
        have hlt := strength_lt op
        obtain ⟨⟨us, vs, rfl, hopens, hderives⟩, hlevel⟩ :=
          hbuilds.of_closeBinary hbelow (by omega) hbinary
        rcases hlevel with hbelow | ⟨o, gs, rfl⟩
        · exact hopens.binary s hbelow hderives
        · exact absurd rfl (hstop o gs)
      | assign op =>
        obtain ⟨hwhole, hassign, rfl⟩ := (continueWith_target hcont).1 op rfl
        obtain rfl := hn hwhole
        obtain ⟨us, vs, rfl, hopens, hderives⟩ := hbuilds
        exact hopens.assign s hassign hderives
      | step op =>
        obtain ⟨hwhole, hassign, rfl⟩ := (continueWith_target hcont).2 op rfl
        obtain rfl := hn hwhole
        obtain ⟨us, vs, rfl, hopens, hderives⟩ := hbuilds
        exact ⟨⟨us, _, List.append_assoc .., hopens, .stepBehind s hderives⟩, fun _ => hassign⟩
      | rightParen =>
        obtain ⟨fs₁, e₁, hall, rfl⟩ := (Expr.continueWith_rightParen ..).mp hcont
        obtain ⟨⟨us, vs, rfl, hopens, hderives⟩, -⟩ := hbuilds.of_closeAll hbelow hall
        cases hopens with
        | @group us _ o hopens => exact ⟨⟨us, _, by simp, hopens, hderives.group o s⟩, by simp⟩
      | rightBracket =>
        obtain ⟨b, o, fs₁, e₁, hall, rfl⟩ := continueWith_rightBracket hcont
        obtain ⟨⟨us, vs, rfl, hopens, hderives⟩, -⟩ := hbuilds.of_closeAll hbelow hall
        cases hopens with
        | @index us ws _ _ _ hopens hbase =>
          exact ⟨⟨us, _, by simp, hopens, .index o s hbase hderives⟩, by simp⟩
      | comma =>
        rw [continueWith_comma] at hcont
        cases hcont
        obtain ⟨⟨us, vs, rfl, hopens, hderives⟩, hbelow⟩ := hbuilds.of_closeAll hbelow rfl
        exact hopens.comma s hbelow hderives
      | semicolon | newline | rightBrace =>
        simp only [continueWith] at hcont
        generalize closeAll fs' e' = q at hcont
        obtain ⟨_ | ⟨f, gs⟩, e₁⟩ := q <;> cases hcont
      | _ => cases hfollow

theorem continueWith_done {fs : List Frame} {e e' : Expr} {x : Extent} {k : Symbol} {s : String}
    (h : continueWith true fs e x k s = .done e') : closeAll fs e = ([], e') := by
  cases k with
  | binary op | assign op | step op =>
    simp only [continueWith] at h
    split at h <;> cases h
  | comma =>
    rw [continueWith_comma] at h
    cases h
  | _ =>
    simp only [continueWith] at h
    generalize closeAll fs e = q at h ⊢
    obtain ⟨_ | ⟨f, gs⟩, e₁⟩ := q
    · cases h
      rfl
    · cases f <;> cases h

theorem startOperand_ne_done (fs : List Frame) (k : Symbol) (s : String) (e : Expr) :
    startOperand fs k s ≠ .done e := by
  intro h
  cases k with
  | binary op => cases op <;> cases h
  | step op =>
    simp only [startOperand] at h
    split at h <;> cases h
  | _ => cases h

/-- The end of an expression. -/
theorem Stands.done {ts : List Lexeme} {p : Expr.Position} {k : Symbol} {s : String} {e : Expr}
    (h : Stands ts p) (hstep : p.step .action true k s = .ok (.done e)) : Derives 0 ts e := by
  cases p with
  | operand fs => exact absurd (Except.ok.inj hstep) (startOperand_ne_done fs k s e)
  | indexNumber | indexClose => cases h
  | after fs e₀ x =>
    obtain ⟨hbuilds, hx⟩ := h
    by_cases hk : k = .leftBracket
    · subst hk
      cases x <;> cases hstep
    · obtain ⟨-, fs', e', hclose, hcont⟩ := (step_after hk (by simp)).mp hstep
      obtain ⟨n, hbuilds, hbelow, -⟩ := hbuilds.settle hx hclose
      obtain ⟨⟨us, vs, rfl, hopens, hderives⟩, -⟩ :=
        hbuilds.of_closeAll hbelow (continueWith_done hcont)
      cases hopens
      exact hderives

/-! ## Statements -/

theorem next_statement_cases {n : Nat} {items : List Item} {p : Expr.Position} {k : Symbol}
    {s : String} {s' : State} (h : next ⟨n, items, .statement p⟩ (k, s) = some s') :
    (∃ p', p.step .action true k s = .ok (.more p') ∧ s' = ⟨n, items, .statement p'⟩) ∨
      ∃ e, p.step .action true k s = .ok (.done e) ∧ (k = .semicolon ∨ k = .newline) ∧
        s' = ⟨n, items ++ [.statement e], .boundary⟩ := by
  simp only [next, State.advance] at h
  generalize p.step .action true k s = r at h ⊢
  rcases r with f | p' | e | _
  · cases h
  · cases h
    exact .inl ⟨p', rfl, rfl⟩
  · cases k with
    | semicolon | newline =>
      cases h
      exact .inr ⟨e, rfl, by simp, rfl⟩
    | _ => cases h
  · cases h

/-- Tokens between statements. -/
def isBreak : Symbol → Bool
  | .semicolon | .newline | .leftBrace | .rightBrace => true
  | _ => false

/-- Where no declaration starts, a token between items leads to the next one or starts a
statement. -/
theorem next_boundary_cases {n : Nat} {items : List Item} {k : Symbol} {s : String} {s' : State}
    (hk : ∀ w, k ≠ .typeWord w) (h : next ⟨n, items, .boundary⟩ (k, s) = some s') :
    (isBreak k = true ∧ ∃ m, s' = ⟨m, items, .boundary⟩) ∨
      ∃ p, startOperand [] k s = .more p ∧ s' = ⟨n, items, .statement p⟩ := by
  have hstart : State.startItem ⟨n, items, .boundary⟩ k s = some s' := h
  cases k with
  | typeWord w => exact absurd rfl (hk w)
  | semicolon | newline | leftBrace =>
    cases hstart
    exact .inl ⟨rfl, _, rfl⟩
  | rightBrace =>
    simp only [State.startItem] at hstart
    split at hstart
    · cases hstart
    · cases hstart
      exact .inl ⟨rfl, _, rfl⟩
  | _ =>
    simp only [State.startItem] at hstart
    split at hstart
    · next p hp =>
      cases hstart
      exact .inr ⟨p, hp, rfl⟩
    · cases hstart

/-- Tokens that do not end a statement go on with it. -/
theorem foldlM_statement {us : List Lexeme} (hus : ∀ t ∈ us, isBreak t.1 = false)
    {ts : List Lexeme} {p : Expr.Position} (hp : Stands ts p) {n : Nat} {items : List Item}
    {s' : State} (h : us.foldlM next ⟨n, items, .statement p⟩ = some s') :
    ∃ p', s' = ⟨n, items, .statement p'⟩ ∧ Stands (ts ++ us) p' := by
  induction us generalizing ts p with
  | nil =>
    cases h
    exact ⟨p, rfl, by simpa using hp⟩
  | cons u us ih =>
    obtain ⟨hu, hus⟩ := List.forall_mem_cons.mp hus
    obtain ⟨s₁, hnext, h⟩ := Option.bind_eq_some_iff.mp h
    rcases next_statement_cases hnext with ⟨p₁, hstep, rfl⟩ | ⟨e, -, hend, -⟩
    · simpa using ih hus (hp.next hstep) h
    · rcases hend with hend | hend <;>
        · rw [hend] at hu
          cases hu

/-- Tokens without a break, which are read with a semicolon behind them, derive one statement. -/
theorem derives_of_foldlM {ts : List Lexeme} (hne : ts ≠ [])
    (hts : ∀ t ∈ ts, isBreak t.1 = false ∧ ∀ w, t.1 ≠ .typeWord w) {s : String} {s' : State}
    {items : List Item}
    (h : List.foldlM next reader.start (ts ++ [(.semicolon, s)]) = some s')
    (hfinish : finish s' = .ok items) : ∃ e, items = [.statement e] ∧ Derives 0 ts e := by
  obtain ⟨t, ts, rfl⟩ := List.exists_cons_of_ne_nil hne
  obtain ⟨ht, hrest⟩ := List.forall_mem_cons.mp hts
  rw [List.cons_append, List.foldlM_cons] at h
  obtain ⟨s₁, hnext, h⟩ := Option.bind_eq_some_iff.mp h
  rw [List.foldlM_append] at h
  obtain ⟨s₂, hrun, h⟩ := Option.bind_eq_some_iff.mp h
  rcases next_boundary_cases ht.2 hnext with ⟨hbreak, -⟩ | ⟨p, hstart, rfl⟩
  · cases hbreak.symm.trans ht.1
  · have hfirst : Stands [t] p := Opens.nil.start hstart
    obtain ⟨p', rfl, hstands⟩ := foldlM_statement (fun u hu => (hrest u hu).1) hfirst hrun
    obtain ⟨s₃, hlast, h⟩ := Option.bind_eq_some_iff.mp h
    cases h
    rcases next_statement_cases hlast with ⟨p₁, -, rfl⟩ | ⟨e, hstep, -, rfl⟩
    · cases hfinish
    · cases hfinish
      exact ⟨e, rfl, hstands.done hstep⟩

theorem Reads.foldlM {p p' : Expr.Position} {ts : List Lexeme} (h : Reads p ts p') (n : Nat)
    (items : List Item) :
    ts.foldlM next ⟨n, items, .statement p⟩ = some ⟨n, items, .statement p'⟩ := by
  induction ts generalizing p with
  | nil =>
    cases h
    rfl
  | cons t ts ih =>
    obtain ⟨p₁, hp₁, h⟩ := Option.bind_eq_some_iff.mp h
    rw [List.foldlM_cons, next_statement n items (advance?_eq_some.mp hp₁)]
    exact ih h

/-- What is derived, with a semicolon behind it, is read as a statement. -/
theorem foldlM_of_derives {ts : List Lexeme} {e : Expr} (h : Derives 0 ts e) (s : String) (n : Nat)
    (items : List Item) :
    List.foldlM next ⟨n, items, .boundary⟩ (ts ++ [(.semicolon, s)]) =
      some ⟨n, items ++ [.statement e], .boundary⟩ := by
  obtain ⟨gs, e₀, x, hreads, -, -, hsettled⟩ := h.reads [] fun _ => trivial
  have hend : settled closeAll gs e₀ = .ok ([], e) := hsettled _ absorbs_closeAll
  obtain ⟨gs', e', hclose, hall⟩ := settled_eq_ok hend
  have hdone : (Expr.Position.after gs e₀ x).step .action true .semicolon s = .ok (.done e) := by
    refine (step_after (by simp) (by simp)).mpr ⟨rfl, gs', e', hclose, ?_⟩
    simp only [continueWith, hall]
  cases ts with
  | nil => cases hreads
  | cons t ts =>
    obtain ⟨p, hp, hreads⟩ := Option.bind_eq_some_iff.mp hreads
    have hstart := Except.ok.inj (advance?_eq_some.mp hp)
    rw [List.cons_append, List.foldlM_cons, next_boundary n items hstart]
    show List.foldlM next ⟨n, items, .statement p⟩ (ts ++ [(.semicolon, s)]) = _
    rw [List.foldlM_append, Reads.foldlM hreads]
    simp [next, State.advance, hdone, bind, Except.bind, pure, Except.pure]

/-! ## Texts without declarations -/

/-- The item is a statement that some of the tokens derive. -/
def Item.Derived (ts : List Lexeme) (i : Item) : Prop :=
  ∃ e us, i = .statement e ∧ us ⊆ ts ∧ Derives 0 us e

/-- What has been read of a text without declarations. -/
def State.Derived (ts : List Lexeme) (s : State) : Prop :=
  (∀ i ∈ s.items, i.Derived ts) ∧
    (s.position = .boundary ∨ ∃ p us, s.position = .statement p ∧ us ⊆ ts ∧ Stands us p)

theorem Item.Derived.mono {ts us : List Lexeme} {i : Item} (h : i.Derived ts) (hts : ts ⊆ us) :
    i.Derived us := by
  obtain ⟨e, vs, rfl, hvs, hderives⟩ := h
  exact ⟨e, vs, rfl, List.Subset.trans hvs hts, hderives⟩

theorem State.Derived.next {ts : List Lexeme} {s s' : State} {t : Lexeme} (h : s.Derived ts)
    (ht : ∀ w, t.1 ≠ .typeWord w) (hnext : Action.next s t = some s') :
    s'.Derived (ts ++ [t]) := by
  obtain ⟨n, items, q⟩ := s
  obtain ⟨hitems, hq⟩ := h
  have hkept : ∀ i ∈ items, i.Derived (ts ++ [t]) := fun i hi =>
    (hitems i hi).mono (List.subset_append_left ..)
  have hmore {us : List Lexeme} (hus : us ⊆ ts) : us ++ [t] ⊆ ts ++ [t] :=
    List.append_subset.mpr ⟨List.subset_append_of_subset_left _ hus, List.subset_append_right ..⟩
  rcases hq with rfl | ⟨p, us, rfl, hus, hstands⟩
  · rcases next_boundary_cases ht hnext with ⟨-, m, rfl⟩ | ⟨p, hstart, rfl⟩
    · exact ⟨hkept, .inl rfl⟩
    · exact ⟨hkept, .inr ⟨p, _, rfl, hmore (List.nil_subset ts), Opens.nil.start hstart⟩⟩
  · rcases next_statement_cases hnext with ⟨p', hstep, rfl⟩ | ⟨e, hstep, -, rfl⟩
    · exact ⟨hkept, .inr ⟨p', _, rfl, hmore hus, hstands.next hstep⟩⟩
    · refine ⟨List.forall_mem_append.mpr ⟨hkept, ?_⟩, .inl rfl⟩
      rw [List.forall_mem_singleton]
      exact ⟨e, us, rfl, List.subset_append_of_subset_left _ hus, hstands.done hstep⟩

theorem State.Derived.run {us : List Lexeme} (hus : ∀ t ∈ us, ∀ w, t.1 ≠ .typeWord w)
    {ts : List Lexeme} {s s' : State} (h : s.Derived ts)
    (hrun : us.foldlM Action.next s = some s') : s'.Derived (ts ++ us) := by
  induction us generalizing ts s with
  | nil =>
    cases hrun
    simpa using h
  | cons u us ih =>
    obtain ⟨hu, hus⟩ := List.forall_mem_cons.mp hus
    obtain ⟨s₁, hnext, hrun⟩ := Option.bind_eq_some_iff.mp hrun
    simpa using ih hus (h.next hu hnext) hrun

/-- The items of a text without declarations are derived from its tokens. -/
theorem read_derived {line : Nat} {text : String} {items : List Item} {ts : List Lexeme}
    (hcuts : lexer.Cuts text.toList ts none) (hts : ∀ t ∈ ts, ∀ w, t.1 ≠ .typeWord w)
    (h : (read line text).1 = .ok items) : ∀ i ∈ items, i.Derived ts := by
  obtain ⟨-, us, s, hus, hrun, hfinish⟩ := read_eq_ok.mp h
  obtain ⟨rfl, -⟩ := hcuts.unique hus
  have hstart : State.Derived [] reader.start := ⟨by simp [reader], .inl rfl⟩
  have hderived := hstart.run hts hrun
  rcases finish_eq_ok hfinish with rfl | ⟨draft, hp, -⟩
  · exact hderived.1
  · rcases hderived.2 with hb | ⟨p, us, hp', -⟩
    · cases hb.symm.trans hp
    · cases hp'.symm.trans hp

end Statechart.Action
