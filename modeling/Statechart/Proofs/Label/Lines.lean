import Statechart.Label.Basic
import Statechart.Proofs.Runs

/-!
Line counters are for reports only: what a label says does not depend on the counters that its
reading starts from. Scans of one text from different lines differ in line numbers and offsets
alone, and no step of the four readers looks at these unless it fails.
-/

namespace Statechart

/-! ## Scans -/

/-- The text that no rule matched, if there is one. -/
def Tail.rest? : Tail → Option (List Char)
  | .complete _ => none
  | .unknown rest _ => some rest

/-- Two scans have the same tokens, places apart, and stop at the same text. -/
structure Scan.Alike {κ : Type} (s s' : Scan κ) : Prop where
  tokens : s.tokens.map (fun t => (t.kind, t.text)) = s'.tokens.map (fun t => (t.kind, t.text))
  tail : s.tail.rest? = s'.tail.rest?

theorem Scan.Alike.cons {κ : Type} {s s' : Scan κ} (h : s.Alike s') {t t' : Token κ}
    (hk : t.kind = t'.kind) (ht : t.text = t'.text) : (s.cons t).Alike (s'.cons t') := by
  refine ⟨?_, h.tail⟩
  simp only [Scan.cons, List.map_cons, hk, ht, h.tokens]

theorem Lexer.scanFrom_alike {κ : Type} (lx : Lexer κ) (cs : List Char)
    (skip line line' offset offset' : Nat) :
    (lx.scanFrom skip line offset cs).Alike (lx.scanFrom skip line' offset' cs) := by
  induction cs generalizing skip line line' offset offset' with
  | nil => simp only [Lexer.scanFrom]; exact ⟨rfl, rfl⟩
  | cons c cs ih =>
    cases skip with
    | succ skip => simp only [Lexer.scanFrom]; exact ih ..
    | zero =>
      simp only [Lexer.scanFrom]
      split
      · exact ih ..
      · cases lx.match? (c :: cs) with
        | none => exact ⟨rfl, rfl⟩
        | some m =>
          cases hk : m.kind? with
          | none => simp only [hk]; exact ih ..
          | some k => simp only [hk]; exact (ih ..).cons rfl rfl

/-! ## Readers -/

/-- A step that succeeds does not look at the place of its token. -/
def Reader.LineBlind {κ σ α : Type} (r : Reader κ σ α) : Prop :=
  ∀ s s' t t', t.kind = t'.kind → t.text = t'.text → r.step s t = .ok s' → r.step s t' = .ok s'

theorem Reader.runFrom_alike {κ σ α : Type} {r : Reader κ σ α} (hr : r.LineBlind) {a : α}
    (ts ts' : List (Token κ)) (tail tail' : Tail) (s : σ)
    (h : Scan.Alike ⟨ts, tail⟩ ⟨ts', tail'⟩) (ha : (r.runFrom s ts tail).1 = .ok a) :
    (r.runFrom s ts' tail').1 = .ok a := by
  induction ts generalizing ts' s with
  | nil =>
    obtain ⟨hts, htail⟩ := h
    cases ts' with
    | cons t' ts' => simp at hts
    | nil =>
      cases tail with
      | unknown rest n => simp [Reader.runFrom] at ha
      | complete n =>
        cases tail' with
        | unknown rest n' => simp [Tail.rest?] at htail
        | complete n' => exact ha
  | cons t ts ih =>
    obtain ⟨hts, htail⟩ := h
    cases ts' with
    | nil => simp at hts
    | cons t' ts' =>
      simp only [List.map_cons, List.cons.injEq, Prod.mk.injEq] at hts
      obtain ⟨⟨hk, ht⟩, hts⟩ := hts
      cases hs : r.step s t with
      | error f => simp [Reader.runFrom, hs] at ha
      | ok s₁ =>
        have hs' := hr s s₁ t t' hk ht hs
        simp only [Reader.runFrom, hs] at ha
        simp only [Reader.runFrom, hs']
        exact ih ts' s₁ ⟨hts, htail⟩ ha

theorem Reader.run_alike {κ σ α : Type} {r : Reader κ σ α} (hr : r.LineBlind) {a : α}
    {s s' : Scan κ} (h : s.Alike s') (ha : (r.run s).1 = .ok a) : (r.run s').1 = .ok a :=
  Reader.runFrom_alike hr _ _ _ _ _ h ha

theorem Label.Section.lineBlind : Label.Section.reader.LineBlind := by
  intro s s' t t' hk ht h
  simp only [Label.Section.reader, Label.Section.step] at h ⊢
  rw [← hk, ← ht]
  cases hn : s.next t.kind t.text with
  | none => simp [hn] at h
  | some u => simpa [hn] using h

theorem Label.Parts.lineBlind : Label.Parts.reader.LineBlind := by
  intro s s' t t' hk ht h
  simp only [Label.Parts.reader, Label.Parts.step] at h ⊢
  rw [← hk, ← ht]
  rcases hn : s.next t.kind t.text with _ | _ | u
  · simp [hn, bind, Except.bind] at h
  · simp [hn, bind, Except.bind, throw, throwThe, MonadExceptOf.throw] at h
  · simpa [hn, bind, Except.bind] using h

theorem Condition.lineBlind : Condition.reader.LineBlind := by
  intro p p' t t' hk ht h
  simp only [Condition.reader, Condition.step] at h ⊢
  rw [← hk, ← ht]
  rcases ho : (p.getD (.operand [])).step .condition false t.kind t.text with _ | _ | _ | _
  · simp [ho, bind, Except.bind] at h
  · simpa [ho, bind, Except.bind] using h
  · simp [ho, bind, Except.bind, throw, throwThe, MonadExceptOf.throw] at h
  · simp [ho, bind, Except.bind, throw, throwThe, MonadExceptOf.throw] at h

theorem Action.lineBlind : Action.reader.LineBlind := by
  intro s s' t t' hk ht h
  simp only [Action.reader, Action.step] at h ⊢
  rw [← hk, ← ht]
  rcases ha : s.advance t.kind t.text with _ | _ | u
  · simp [ha, bind, Except.bind] at h
  · simp [ha, bind, Except.bind, throw, throwThe, MonadExceptOf.throw] at h
  · simpa [ha, bind, Except.bind] using h

theorem Action.scan_alike (line line' : Nat) (cs : List Char) :
    (Action.scan line cs).Alike (Action.scan line' cs) := by
  unfold Action.scan
  split
  · exact (Lexer.scanFrom_alike ..).cons rfl rfl
  · exact Lexer.scanFrom_alike ..

namespace Label

/-! ## Labels -/

/-- What a reading gives, if it succeeds, does not depend on the counters. -/
def Steady {α : Type} (x : Reading α) : Prop :=
  ∀ lines a lines', Runs x lines a lines' → ∀ other, ∃ other', Runs x other a other'

theorem Steady.pure {α : Type} (a : α) : Steady (Pure.pure a : Reading α) := by
  intro lines b lines' h other
  obtain ⟨rfl, rfl⟩ := runs_pure.mp h
  exact ⟨other, rfl⟩

theorem Steady.throw {α : Type} (f : Fault) : Steady (MonadExcept.throw f : Reading α) :=
  fun _ _ _ h => absurd h not_runs_throw

theorem Steady.lift {α : Type} (x : Except Fault α) : Steady (liftM x : Reading α) := by
  intro lines a lines' h other
  obtain ⟨rfl, rfl⟩ := runs_lift.mp h
  exact ⟨other, rfl⟩

theorem Steady.bind {α β : Type} {x : Reading α} {f : α → Reading β} (hx : Steady x)
    (hf : ∀ a, Steady (f a)) : Steady (x >>= f) := by
  intro lines b lines' h other
  obtain ⟨a, t, ha, hb⟩ := runs_bind.mp h
  obtain ⟨u, ha'⟩ := hx _ _ _ ha other
  obtain ⟨w, hb'⟩ := hf a _ _ _ hb u
  exact ⟨w, runs_bind.mpr ⟨a, u, ha', hb'⟩⟩

theorem Steady.map {α β : Type} {x : Reading α} (f : α → β) (hx : Steady x) :
    Steady (f <$> x) := by
  rw [map_eq_pure_bind]
  exact hx.bind fun a => .pure (f a)

theorem readSections_steady (text : String) : Steady (readSections text) := by
  intro lines a lines' h other
  refine ⟨_, Prod.ext ?_ rfl⟩
  exact Reader.run_alike Section.lineBlind (Lexer.scanFrom_alike ..) (congrArg Prod.fst h)

theorem readParts_steady (text : String) : Steady (readParts text) := by
  intro lines a lines' h other
  refine ⟨_, Prod.ext ?_ rfl⟩
  exact Reader.run_alike Parts.lineBlind (Lexer.scanFrom_alike ..) (congrArg Prod.fst h)

theorem readCondition_steady (text : String) : Steady (readCondition text) := by
  intro lines a lines' h other
  refine ⟨_, Prod.ext ?_ rfl⟩
  have h₁ : (Condition.read lines.condition text).1.map Condition.render = .ok a :=
    congrArg Prod.fst h
  cases he : (Condition.read lines.condition text).1 with
  | error f => simp [he, Except.map] at h₁
  | ok e =>
    have he' : (Condition.read other.condition text).1 = .ok e :=
      Reader.run_alike Condition.lineBlind (Lexer.scanFrom_alike ..) he
    rw [he] at h₁
    show (Condition.read other.condition text).1.map Condition.render = .ok a
    rw [he']
    exact h₁

theorem readAction_steady (text owner : String) (vars : Variables) :
    Steady (readAction text owner vars) := by
  intro lines a lines' h other
  refine ⟨_, Prod.ext ?_ rfl⟩
  have h₁ : (Action.read lines.action text).1.map (Action.elaborate owner vars) = .ok a :=
    congrArg Prod.fst h
  cases he : (Action.read lines.action text).1 with
  | error f => simp [he, Except.map] at h₁
  | ok e =>
    have he' : (Action.read other.action text).1 = .ok e :=
      Reader.run_alike Action.lineBlind (Action.scan_alike ..) he
    rw [he] at h₁
    show (Action.read other.action text).1.map (Action.elaborate owner vars) = .ok a
    rw [he']
    exact h₁

theorem readPart_steady (text owner : String) (vars : Variables) :
    Steady (readPart text owner vars) :=
  (Steady.lift _).bind fun text => readAction_steady text owner vars

theorem readPart?_steady (text? : Option String) (owner : String) (vars : Variables) :
    Steady (readPart? text? owner vars) := by
  cases text? with
  | none => exact .pure _
  | some text => exact readPart_steady text owner vars

theorem addSections_steady (owner : String) (ss : List Section) (l : StateLabel)
    (vars : Variables) : Steady (addSections owner l vars ss) := by
  induction ss generalizing l vars with
  | nil => exact .pure _
  | cons s ss ih =>
    obtain ⟨heading, body⟩ := s
    cases heading with
    | bind => exact .throw _
    | on e => exact .throw _
    | actions words => exact (readPart_steady body owner vars).bind fun r => ih _ _

/-- The label of a state does not depend on the counters. -/
theorem readState_steady (label : String) (ssid : Option String) :
    Steady (readState label ssid) :=
  (readSections_steady _).bind fun ss => addSections_steady _ ss _ _

/-- The label of a transition does not depend on the counters. -/
theorem readTransition_steady (label : String) (ssid : Option String) :
    Steady (readTransition label ssid) := by
  refine (readParts_steady _).bind fun parts => ?_
  dsimp only
  split
  · intro lines a lines' h
    obtain ⟨_, _, h, _⟩ := runs_bind.mp h
    exact absurd h not_runs_throw
  · have actions : ∀ condition : String, Steady (do
        let ca ← readPart? parts.conditionAction (transitionOwner ssid) .empty
        let ta ← readPart? parts.transitionAction (transitionOwner ssid) ca.2
        return ((⟨condition, ca.1, ta.1⟩ : TransitionLabel), ta.2)) := fun condition =>
      (readPart?_steady _ _ _).bind fun _ => (readPart?_steady _ _ _).bind fun _ => .pure _
    cases parts.condition with
    | none => exact (Steady.pure "").bind actions
    | some c => exact ((readCondition_steady c).map _).bind actions

end Label

end Statechart
