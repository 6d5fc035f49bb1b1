import Statechart.Proofs.Expr.Dialects

/-!
The grammar of conditions, and that reading follows it. `Derives` has one level for each rank of
binary operators, from the loosest inwards, then one for signs and indices and one for atoms and
groups. Reading keeps a stack of open frames instead of levels: what is derived on a level is read
on top of any stack that is looser (`Derives.reads`), and what has been read is derived, up to the
open frames (`Stands.next`). So the tokens that are read as an expression are those that derive
it (`accepts_iff_derives`).
-/

namespace Statechart.Expr

open Condition (next)

abbrev Lexeme := Symbol × String

/-! ## Derivations -/

/-- Binary operators by rank, the loosest first. -/
def ranks : List (List BinaryOp) :=
  [[.or], [.and], [.bitOr], [.bitXor], [.bitAnd], [.eq, .ne], [.lt, .gt, .le, .ge],
   [.shiftLeft, .shiftRight], [.add, .sub], [.mul, .div, .mod]]

def signOf? : Symbol → Option UnaryOp
  | .binary .sub => some .minus
  | .complement => some .complement
  | .not => some .not
  | _ => none

/-- `Derives n ts e`: on level `n` the tokens derive the expression. Below level 10 there are the
binary operators, which group to the left. -/
inductive Derives : Nat → List Lexeme → Expr → Prop
  | identifier (s : String) : Derives 11 [(.identifier, s)] (.atom s)
  | number (s : String) : Derives 11 [(.number, s)] (.atom s)
  | group {ts : List Lexeme} {e : Expr} (o c : String) :
      Derives 0 ts e → Derives 11 ((.leftParen, o) :: ts ++ [(.rightParen, c)]) (.group e)
  | index {ts : List Lexeme} {e : Expr} (o n c : String) : Derives 11 ts e →
      Derives 10 (ts ++ [(.leftBracket, o), (.number, n), (.rightBracket, c)])
        (.index e o (.atom n) c)
  | sign {k : Symbol} {op : UnaryOp} {ts : List Lexeme} {e : Expr} (s : String) :
      signOf? k = some op → Derives 10 ts e → Derives 10 ((k, s) :: ts) (.unary op e)
  | binary {n : Nat} {op : BinaryOp} {ts us : List Lexeme} {l r : Expr} (s : String) :
      op ∈ ranks.getD n [] → Derives n ts l → Derives (n + 1) us r →
      Derives n (ts ++ (.binary op, s) :: us) (.binary op l r)
  | tighter {n : Nat} {ts : List Lexeme} {e : Expr} : Derives (n + 1) ts e → Derives n ts e

theorem Derives.mono {m n : Nat} {ts : List Lexeme} {e : Expr} (h : Derives n ts e) (hm : m ≤ n) :
    Derives m ts e := by
  induction hm with
  | refl => exact h
  | step _ ih => exact ih h.tighter

theorem mem_ranks {op : BinaryOp} {n : Nat} : op ∈ ranks.getD n [] ↔ op.strength = n := by
  match n with
  | 0 | 1 | 2 | 3 | 4 | 5 | 6 | 7 | 8 | 9 => cases op <;> decide
  | n + 10 =>
    have hempty : ranks.getD (n + 10) [] = [] := by simp [ranks]
    rw [hempty]
    cases op <;> simp [BinaryOp.strength]

theorem strength_lt (op : BinaryOp) : op.strength < 10 := by cases op <;> decide

/-! ## What is derived is read -/

/-- Reading tokens in turn leads from one place to the other. -/
def Reads (p : Position) (ts : List Lexeme) (p' : Position) : Prop :=
  ts.foldlM next (some p) = some (some p')

theorem Reads.append {p p' p'' : Position} {ts us : List Lexeme} (h : Reads p ts p')
    (h' : Reads p' us p'') : Reads p (ts ++ us) p'' := by
  rw [Reads, List.foldlM_append, h]
  exact h'

theorem reads_of_step {p p' : Position} {k : Symbol} {s : String}
    (h : p.step .condition false k s = .ok (.more p')) : Reads p [(k, s)] p' := by
  rw [Reads, List.foldlM_cons, next, Option.getD_some, h]
  rfl

/-- The frames are looser than level `n`: between them and the next bracket there is no sign, and
no operator that binds as tight. -/
def Below (n : Nat) : List Frame → Prop
  | [] | .group :: _ => True
  | .binary op _ :: _ => op.strength < n
  | _ => False

theorem Below.mono {m n : Nat} {fs : List Frame} (h : Below m fs) (hm : m ≤ n) : Below n fs := by
  cases fs with
  | nil => trivial
  | cons f fs =>
    cases f with
    | group => trivial
    | binary op l => exact Nat.lt_of_lt_of_le h hm
    | _ => exact h

theorem Below.closeUnary_eq {n : Nat} {fs : List Frame} (h : Below n fs) (e : Expr) :
    closeUnary fs e = .ok (fs, e) := by
  cases fs with
  | nil => rfl
  | cons f fs =>
    cases f with
    | group | binary => rfl
    | _ => cases h

theorem Below.closeBinary_eq {n : Nat} {fs : List Frame} (h : Below n fs) (e : Expr) :
    closeBinary n fs e = (fs, e) := by
  cases fs with
  | nil => rfl
  | cons f fs =>
    cases f with
    | group => rfl
    | binary op l =>
      have hlt : ¬ n ≤ op.strength := Nat.not_le.mpr h
      simp [closeBinary, hlt]
    | _ => cases h

/-- A way to close frames that closes every binary operator of a rank from `n` on. -/
def Absorbs (n : Nat) (close : List Frame → Expr → List Frame × Expr) : Prop :=
  ∀ op l fs r, n ≤ op.strength → close (.binary op l :: fs) r = close fs (.binary op l r)

theorem Absorbs.mono {m n : Nat} {close : List Frame → Expr → List Frame × Expr}
    (h : Absorbs m close) (hm : m ≤ n) : Absorbs n close :=
  fun op l fs r hn => h op l fs r (Nat.le_trans hm hn)

theorem absorbs_closeBinary (n : Nat) : Absorbs n (closeBinary n) := by
  intro op l fs r hn
  simp [closeBinary, hn]

theorem absorbs_closeAll : Absorbs 0 closeAll := fun _ _ _ _ _ => rfl

/-- What is left of an operand and the frames around it, once the signs are closed and then all
that `close` does. -/
def settled (close : List Frame → Expr → List Frame × Expr) (fs : List Frame) (e : Expr) :
    Except Fault (List Frame × Expr) :=
  (closeUnary fs e).map fun q => close q.1 q.2

theorem Below.settled_eq {n : Nat} {fs : List Frame} (h : Below n fs)
    (close : List Frame → Expr → List Frame × Expr) (e : Expr) :
    settled close fs e = .ok (close fs e) := by
  rw [settled, h.closeUnary_eq e]
  rfl

theorem settled_eq_ok {close : List Frame → Expr → List Frame × Expr} {fs : List Frame} {e : Expr}
    {q : List Frame × Expr} (h : settled close fs e = .ok q) :
    ∃ fs' e', closeUnary fs e = .ok (fs', e') ∧ close fs' e' = q := by
  unfold settled at h
  cases hclose : closeUnary fs e with
  | error f =>
    rw [hclose] at h
    cases h
  | ok p =>
    rw [hclose] at h
    cases h
    exact ⟨p.1, p.2, rfl, rfl⟩

theorem reads_sign {k : Symbol} {op : UnaryOp} (h : signOf? k = some op) (fs : List Frame)
    (s : String) : Reads (.operand fs) [(k, s)] (.operand (.unary op :: fs)) := by
  refine reads_of_step ?_
  cases k with
  | binary op =>
    cases op with
    | sub => cases h; rfl
    | _ => cases h
  | complement | not => cases h; rfl
  | _ => cases h

/-- An operator closes what binds as tight as it does. -/
theorem reads_binary {fs gs : List Frame} {e l : Expr} {x : Extent} (hx : x ≠ .whole)
    {op : BinaryOp} (hfs : Below op.strength fs)
    (h : settled (closeBinary op.strength) gs e = .ok (fs, l)) (s : String) :
    Reads (.after gs e x) [(.binary op, s)] (.operand (.binary op l :: fs)) := by
  obtain ⟨gs', e', hclose, hbinary⟩ := settled_eq_ok h
  refine reads_of_step ((step_after (by simp) (by simp)).mpr ⟨rfl, gs', e', hclose, ?_⟩)
  simp only [continueWith, hbinary]
  cases x with
  | whole => exact absurd rfl hx
  | _ =>
    cases fs with
    | nil => rfl
    | cons f fs =>
      cases f with
      | step => cases hfs
      | _ => rfl

theorem reads_rightParen {fs gs : List Frame} {e e' : Expr} {x : Extent}
    (h : settled closeAll gs e = .ok (.group :: fs, e')) (s : String) :
    Reads (.after gs e x) [(.rightParen, s)] (.after fs (.group e') .primary) := by
  obtain ⟨gs', e₁, hclose, hall⟩ := settled_eq_ok h
  refine reads_of_step ((step_after (by simp) (by simp)).mpr ⟨rfl, gs', e₁, hclose, ?_⟩)
  exact (continueWith_rightParen ..).mpr ⟨fs, e', hall, rfl⟩

/-- What is derived on a level is read on top of looser frames. It may leave frames of its own
open, but whatever closes the operators of that level closes these. -/
theorem Derives.reads {n : Nat} {ts : List Lexeme} {e : Expr} (h : Derives n ts e)
    (fs : List Frame) (hfs : n < 10 → Below n fs) :
    ∃ gs e₀ x, Reads (.operand fs) ts (.after gs e₀ x) ∧ x ≠ .whole ∧
      (11 ≤ n → gs = fs ∧ e₀ = e ∧ x = .primary) ∧
      ∀ close, Absorbs n close → settled close gs e₀ = settled close fs e := by
  induction h generalizing fs with
  | identifier s | number s =>
    exact ⟨fs, .atom s, .primary, reads_of_step rfl, by simp, by simp, fun _ _ => rfl⟩
  | @group ts e o c _ ih =>
    obtain ⟨gs, e₀, x, hreads, -, -, hsettled⟩ := ih (.group :: fs) fun _ => trivial
    have hclosed : settled closeAll gs e₀ = .ok (.group :: fs, e) := hsettled _ absorbs_closeAll
    refine ⟨fs, .group e, .primary, ?_, by simp, by simp, fun _ _ => rfl⟩
    have hopen : Reads (.operand fs) [(.leftParen, o)] (.operand (.group :: fs)) :=
      reads_of_step rfl
    exact (hopen.append hreads).append (reads_rightParen hclosed c)
  | @index ts e o n c _ ih =>
    obtain ⟨gs, e₀, x, hreads, -, hprimary, -⟩ := ih fs (by simp)
    obtain ⟨rfl, rfl, rfl⟩ := hprimary (Nat.le_refl _)
    refine ⟨gs, .index e₀ o (.atom n) c, .unary, hreads.append ?_, by simp, by simp, fun _ _ => rfl⟩
    exact rfl
  | @sign k op ts e s hk _ ih =>
    obtain ⟨gs, e₀, x, hreads, hx, -, hsettled⟩ := ih (.unary op :: fs) (by simp)
    exact ⟨gs, e₀, x, (reads_sign hk fs s).append hreads, hx, by simp, hsettled⟩
  | @binary n op ts us l r s hop _ _ ihl ihr =>
    obtain rfl := mem_ranks.mp hop
    have hbelow := hfs (strength_lt op)
    -- the operator closes what the left side has left open, and no more
    obtain ⟨gs, e₀, x, hl, hx, -, hsettled⟩ := ihl fs hfs
    have hleft : settled (closeBinary op.strength) gs e₀ = .ok (fs, l) := by
      rw [hsettled _ (absorbs_closeBinary _), hbelow.settled_eq, hbelow.closeBinary_eq]
    obtain ⟨hs, r₀, y, hr, hy, -, hsettled'⟩ :=
      ihr (.binary op l :: fs) fun _ => Nat.lt_succ_self op.strength
    refine ⟨hs, r₀, y, ?_, hy, fun hn => ?_, fun close hclose => ?_⟩
    · exact hl.append ((reads_binary hx hbelow hleft s).append hr)
    · exact absurd hn (Nat.not_le.mpr (Nat.lt_succ_of_lt (strength_lt op)))
    · have hright : Below (op.strength + 1) (.binary op l :: fs) := Nat.lt_succ_self op.strength
      rw [hsettled' close (hclose.mono (Nat.le_succ _)), hright.settled_eq, hbelow.settled_eq,
        hclose op l fs r (Nat.le_refl _)]
  | @tighter n ts e _ ih =>
    obtain ⟨gs, e₀, x, hreads, hx, hprimary, hsettled⟩ :=
      ih fs fun hn => (hfs (Nat.lt_of_succ_lt hn)).mono (Nat.le_succ n)
    exact ⟨gs, e₀, x, hreads, hx, fun hn => hprimary (Nat.le_succ_of_le hn),
      fun close hclose => hsettled close (hclose.mono (Nat.le_succ n))⟩

/-! ## What is read is derived -/

/-- The tokens have opened the frames, innermost last. -/
inductive Opens : List Lexeme → List Frame → Prop
  | nil : Opens [] []
  | group {ts : List Lexeme} {fs : List Frame} (s : String) :
      Opens ts fs → Opens (ts ++ [(.leftParen, s)]) (.group :: fs)
  | plus {ts : List Lexeme} {fs : List Frame} (s : String) :
      Opens ts fs → Opens (ts ++ [(.binary .add, s)]) (.plus :: fs)
  | sign {k : Symbol} {op : UnaryOp} {ts : List Lexeme} {fs : List Frame} (s : String) :
      signOf? k = some op → Opens ts fs → Opens (ts ++ [(k, s)]) (.unary op :: fs)
  | binary {op : BinaryOp} {ts us : List Lexeme} {fs : List Frame} {l : Expr} (s : String) :
      Opens ts fs → Below op.strength fs → Derives op.strength us l →
      Opens (ts ++ us ++ [(.binary op, s)]) (.binary op l :: fs)

/-- The tokens opened the frames and then derived an expression on level `n`. -/
def Builds (n : Nat) (ts : List Lexeme) (fs : List Frame) (e : Expr) : Prop :=
  ∃ us vs, ts = us ++ vs ∧ Opens us fs ∧ Derives n vs e

/-- Closing signs goes on with the derivation of an operand. -/
theorem Builds.of_closeUnary {ts : List Lexeme} {fs fs' : List Frame} {e e' : Expr}
    (h : Builds 10 ts fs e) (hclose : closeUnary fs e = .ok (fs', e')) :
    Builds 10 ts fs' e' ∧ Below 10 fs' := by
  obtain ⟨us, vs, rfl, hopens, hderives⟩ := h
  induction hopens generalizing vs e with
  | nil =>
    cases hclose
    exact ⟨⟨[], vs, rfl, .nil, hderives⟩, trivial⟩
  | group s hopens =>
    cases hclose
    exact ⟨⟨_, vs, rfl, hopens.group s, hderives⟩, trivial⟩
  | plus s hopens => cases hclose
  | @sign k op ts fs s hk hopens ih =>
    have hclose : closeUnary fs (.unary op e) = .ok (fs', e') := hclose
    have hrest := ih hclose ((k, s) :: vs) (hderives.sign s hk)
    simpa using hrest
  | @binary op ts us fs l s hopens hbelow hleft =>
    cases hclose
    exact ⟨⟨_, vs, rfl, hopens.binary s hbelow hleft, hderives⟩, strength_lt op⟩

/-- Closing operators goes down to the level at which it stops. -/
theorem Builds.of_closeBinary {m n : Nat} {ts : List Lexeme} {fs : List Frame} {e : Expr}
    (h : Builds n ts fs e) (hfs : Below n fs) (hm : m ≤ n) :
    Builds m ts (closeBinary m fs e).1 (closeBinary m fs e).2 ∧
      Below m (closeBinary m fs e).1 := by
  obtain ⟨us, vs, rfl, hopens, hderives⟩ := h
  induction hopens generalizing n vs e with
  | nil => exact ⟨⟨[], vs, rfl, .nil, hderives.mono hm⟩, trivial⟩
  | group s hopens => exact ⟨⟨_, vs, rfl, hopens.group s, hderives.mono hm⟩, trivial⟩
  | plus s hopens => cases hfs
  | sign s hk hopens => cases hfs
  | @binary op ts us fs l s hopens hbelow hleft ih =>
    have hlt : op.strength < n := hfs
    by_cases hle : m ≤ op.strength
    · -- what stands behind the operator binds tighter, so it is a right side
      have hderives' : Derives op.strength (us ++ (.binary op, s) :: vs) (.binary op l e) :=
        .binary s (mem_ranks.mpr rfl) hleft (hderives.mono hlt)
      have hrest := ih hbelow hle (us ++ (.binary op, s) :: vs) hderives'
      simpa [closeBinary, hle] using hrest
    · rw [closeBinary, if_neg hle]
      exact ⟨⟨_, vs, rfl, hopens.binary s hbelow hleft, hderives.mono hm⟩, Nat.not_le.mp hle⟩

/-- Conditions open no frames but signs, operators and groups, so that all is closed if all
operators are. -/
theorem Opens.closeAll_eq {ts : List Lexeme} {fs : List Frame} (h : Opens ts fs) (e : Expr) :
    closeAll fs e = closeBinary 0 fs e := by
  induction h generalizing e with
  | nil | group | plus | sign => rfl
  | binary s hopens hbelow hleft ih =>
    rw [closeAll, closeBinary, if_pos (Nat.zero_le _)]
    exact ih _

theorem Builds.of_closeAll {ts : List Lexeme} {fs fs₁ fs₂ : List Frame} {e e₁ e₂ : Expr}
    (h : Builds 10 ts fs e) (hunary : closeUnary fs e = .ok (fs₁, e₁))
    (hall : closeAll fs₁ e₁ = (fs₂, e₂)) : Builds 0 ts fs₂ e₂ := by
  obtain ⟨hbuilds, hbelow⟩ := h.of_closeUnary hunary
  have hopens : closeAll fs₁ e₁ = closeBinary 0 fs₁ e₁ := by
    obtain ⟨us, vs, -, hopens, -⟩ := hbuilds
    exact hopens.closeAll_eq e₁
  have hclosed := (hbuilds.of_closeBinary hbelow (Nat.zero_le 10)).1
  rwa [← hopens, hall] at hclosed

/-- What has been read where the reading stands. -/
def Stands (ts : List Lexeme) : Position → Prop
  | .operand fs => Opens ts fs
  | .indexNumber fs b o => ∃ us, ts = us ++ [(.leftBracket, o)] ∧ Builds 11 us fs b
  | .indexClose fs b o n =>
    ∃ us, ts = us ++ [(.leftBracket, o), (.number, n)] ∧ Builds 11 us fs b
  | .after fs e x => Builds 10 ts fs e ∧ (x = .primary → Builds 11 ts fs e)

theorem Builds.mono {m n : Nat} {ts : List Lexeme} {fs : List Frame} {e : Expr}
    (h : Builds n ts fs e) (hm : m ≤ n) : Builds m ts fs e := by
  obtain ⟨us, vs, rfl, hopens, hderives⟩ := h
  exact ⟨us, vs, rfl, hopens, hderives.mono hm⟩

theorem Builds.stands {ts : List Lexeme} {fs : List Frame} {e : Expr} (h : Builds 11 ts fs e) :
    Stands ts (.after fs e .primary) :=
  ⟨h.mono (by decide), fun _ => h⟩

/-- An operand starts with an atom, or opens a frame. -/
theorem Opens.start {ts : List Lexeme} {fs : List Frame} (h : Opens ts fs) {k : Symbol}
    (hk : ∀ op, k ≠ .step op) {s : String} {p : Position}
    (hstart : startOperand fs k s = .more p) : Stands (ts ++ [(k, s)]) p := by
  cases k with
  | identifier =>
    cases hstart
    exact Builds.stands ⟨ts, _, rfl, h, .identifier s⟩
  | number =>
    cases hstart
    exact Builds.stands ⟨ts, _, rfl, h, .number s⟩
  | leftParen =>
    cases hstart
    exact h.group s
  | binary op =>
    cases op with
    | add =>
      cases hstart
      exact h.plus s
    | sub =>
      cases hstart
      exact h.sign s rfl
    | _ => cases hstart
  | complement | not =>
    cases hstart
    exact h.sign s rfl
  | step op => exact absurd rfl (hk op)
  | _ => cases hstart

/-- One more token. -/
theorem Stands.next {ts : List Lexeme} {p p' : Position} {k : Symbol} {s : String}
    (h : Stands ts p) (hk : ∀ op, k ≠ .step op) (hmoves : Moves s p k p') :
    Stands (ts ++ [(k, s)]) p' := by
  cases hmoves with
  | start hstart => exact Opens.start h hk hstart
  | number fs b o =>
    obtain ⟨us, rfl, hbuilds⟩ := h
    exact ⟨us, by simp, hbuilds⟩
  | close fs b o n =>
    obtain ⟨_, rfl, us, vs, rfl, hopens, hderives⟩ := h
    exact ⟨⟨us, _, by simp, hopens, hderives.index o n s⟩, by simp⟩
  | index fs e => exact ⟨ts, rfl, h.2 rfl⟩
  | @binary fs fs' e e' x op p hclose hcont =>
    obtain rfl := continueWith_binary _ _ _ _ _ _ hcont
    obtain ⟨hbuilds, hbelow⟩ := h.1.of_closeUnary hclose
    obtain ⟨⟨us, vs, rfl, hopens, hderives⟩, hbelow⟩ :=
      hbuilds.of_closeBinary hbelow (Nat.le_of_lt (strength_lt op))
    exact hopens.binary s hbelow hderives
  | @group fs fs' fs₁ e e' e₁ x hclose hall =>
    obtain ⟨us, vs, rfl, hopens, hderives⟩ := h.1.of_closeAll hclose hall
    cases hopens with
    | @group us _ o hopens =>
      exact Builds.stands ⟨us, _, by simp, hopens, hderives.group o s⟩

end Statechart.Expr

namespace Statechart.Condition

open Statechart.Expr (Lexeme Derives Stands Builds)

/-- What is accepted behind tokens that have been read is derived together with them. -/
theorem Accepts.derives {p : Expr.Position} {ts us : List Lexeme} {e : Expr}
    (h : Accepts (some p) us e) (hstands : Stands ts p) (hus : ∀ u ∈ us, ∀ op, u.1 ≠ .step op) :
    Derives 0 (ts ++ us) e := by
  induction us generalizing ts p with
  | nil =>
    obtain ⟨_, ⟨⟩, hfinish⟩ := h
    obtain ⟨fs, e₀, x, fs', e', rfl, hclose, hall⟩ := finish_eq_ok hfinish
    obtain ⟨us, vs, rfl, hopens, hderives⟩ := hstands.1.of_closeAll hclose hall
    cases hopens
    simpa using hderives
  | cons u us ih =>
    obtain ⟨p', hmoves, h⟩ := h.cons
    obtain ⟨hu, hus⟩ := List.forall_mem_cons.mp hus
    simpa using ih h (hstands.next hu hmoves) hus

theorem accepts_of_derives {ts : List Lexeme} {e : Expr} (h : Derives 0 ts e) :
    Accepts none ts e := by
  obtain ⟨gs, e₀, x, hreads, -, -, hsettled⟩ := h.reads [] fun _ => trivial
  have hend : Expr.settled Expr.closeAll gs e₀ = .ok ([], e) := hsettled _ Expr.absorbs_closeAll
  obtain ⟨gs', e', hclose, hall⟩ := Expr.settled_eq_ok hend
  refine ⟨some (.after gs e₀ x), ?_, ?_⟩
  · cases ts with
    | nil => cases hreads
    | cons t ts => exact hreads
  · simp only [finish, hclose, bind, Except.bind, hall]
    rfl

/-- Tokens are read as an expression just if they derive it. -/
theorem accepts_iff_derives {ts : List Lexeme} (hts : ∀ t ∈ ts, ∀ op, t.1 ≠ .step op) {e : Expr} :
    Accepts none ts e ↔ Derives 0 ts e := by
  refine ⟨fun h => ?_, accepts_of_derives⟩
  cases ts with
  | nil =>
    obtain ⟨_, ⟨⟩, ⟨⟩⟩ := h
  | cons t ts =>
    have hstart : Stands [] (.operand []) := Expr.Opens.nil
    have h : Accepts (some (.operand [])) (t :: ts) e := h
    exact h.derives hstart hts

end Statechart.Condition
