import Statechart.Proofs.Label.Headings
import Statechart.Proofs.Label.Lines

/-!
What labels give, line counters apart. `Gives x a` says that the reading `x` succeeds with `a`
wherever the counters stand. For readings that do not depend on the counters, a sequence gives
what its steps give in turn (`gives_bind`), so a label gives something exactly if it splits into
sections or parts that are read one by one (`gives_readState`, `gives_readTransition`).
-/

namespace Statechart.Label

variable {α β : Type}

def Gives (x : Reading α) (a : α) : Prop := ∀ lines, ∃ lines', Runs x lines a lines'

theorem Gives.unique {x : Reading α} {a b : α} (ha : Gives x a) (hb : Gives x b) : a = b := by
  obtain ⟨lines₁, ha⟩ := ha .initial
  obtain ⟨lines₂, hb⟩ := hb .initial
  exact Except.ok.inj (congrArg Prod.fst (ha.symm.trans hb))

theorem gives_iff {x : Reading α} (hx : Steady x) {a : α} (lines : Lines) :
    Gives x a ↔ (x.run.run lines).1 = .ok a := by
  constructor
  · intro h
    obtain ⟨lines', h⟩ := h lines
    exact congrArg Prod.fst h
  · intro h
    exact hx lines a _ (Prod.ext h rfl)

theorem gives_pure {a b : α} : Gives (pure a : Reading α) b ↔ a = b := by
  constructor
  · intro h
    obtain ⟨lines', h⟩ := h .initial
    exact (runs_pure.mp h).1
  · rintro rfl lines
    exact ⟨lines, rfl⟩

theorem not_gives_throw {f : Fault} {a : α} : ¬ Gives (throw f : Reading α) a := by
  intro h
  obtain ⟨lines', h⟩ := h .initial
  exact not_runs_throw h

theorem gives_lift {x : Except Fault α} {a : α} : Gives (liftM x : Reading α) a ↔ x = .ok a := by
  constructor
  · intro h
    obtain ⟨lines', h⟩ := h .initial
    exact (runs_lift.mp h).1
  · rintro rfl lines
    exact ⟨lines, rfl⟩

theorem gives_bind {x : Reading α} {f : α → Reading β} (hx : Steady x) (hf : ∀ a, Steady (f a))
    {b : β} : Gives (x >>= f) b ↔ ∃ a, Gives x a ∧ Gives (f a) b := by
  constructor
  · intro h
    obtain ⟨lines', h⟩ := h .initial
    obtain ⟨a, lines, ha, hb⟩ := runs_bind.mp h
    exact ⟨a, hx _ _ _ ha, hf a _ _ _ hb⟩
  · rintro ⟨a, ha, hb⟩ lines
    obtain ⟨lines₁, ha⟩ := ha lines
    obtain ⟨lines₂, hb⟩ := hb lines₁
    exact ⟨lines₂, runs_bind.mpr ⟨a, lines₁, ha, hb⟩⟩

theorem gives_map {x : Reading α} {f : α → β} (hx : Steady x) {b : β} :
    Gives (f <$> x) b ↔ ∃ a, Gives x a ∧ f a = b := by
  rw [map_eq_pure_bind, gives_bind hx fun a => .pure (f a)]
  exact exists_congr fun a => and_congr_right fun _ => gives_pure

/-! ## Texts -/

theorem gives_readAction {text owner : String} {vars : Variables} {r : List String × Variables}
    (line : Nat) :
    Gives (readAction text owner vars) r ↔ (Action.parse line text owner vars).1 = .ok r :=
  gives_iff (readAction_steady text owner vars) ⟨line, 1, 1, 1⟩

theorem gives_readCondition {text r : String} (line : Nat) :
    Gives (readCondition text) r ↔ (Condition.parse line text).1 = .ok r :=
  gives_iff (readCondition_steady text) ⟨1, line, 1, 1⟩

theorem gives_readSections {text : String} {ss : List Section} (line : Nat) :
    Gives (readSections text) ss ↔ (Section.read line text).1 = .ok ss :=
  gives_iff (readSections_steady text) ⟨1, 1, line, 1⟩

theorem gives_readParts {text : String} {parts : Parts} (line : Nat) :
    Gives (readParts text) parts ↔ (Parts.read line text).1 = .ok parts :=
  gives_iff (readParts_steady text) ⟨1, 1, 1, line⟩

theorem gives_readPart {text owner : String} {vars : Variables} {r : List String × Variables}
    (line : Nat) :
    Gives (readPart text owner vars) r ↔
      ∃ closed, withSemicolon text = .ok closed ∧
        (Action.parse line closed owner vars).1 = .ok r := by
  unfold readPart
  rw [gives_bind (.lift _) fun closed => readAction_steady closed owner vars]
  exact exists_congr fun closed => and_congr gives_lift (gives_readAction line)

/-! ## State labels -/

theorem gives_addSections_cons {owner body : String} {words : List ActionWord}
    {rest : List Section} {l : StateLabel} {vars : Variables} {r : StateLabel × Variables} :
    Gives (addSections owner l vars (⟨.actions words, body⟩ :: rest)) r ↔
      ∃ p, Gives (readPart body owner vars) p ∧
        Gives (addSections owner (addStatements l words p.1) p.2 rest) r :=
  gives_bind (readPart_steady body owner vars) fun _ => addSections_steady owner rest _ _

theorem gives_readState {label : String} {ssid : Option String} {r : StateLabel × Variables} :
    Gives (readState label ssid) r ↔
      ∃ ss, Gives (readSections (bodyOf label)) ss ∧
        Gives (addSections (stateOwner ssid) ⟨Text.trimmed (stateName label), [], [], []⟩ .empty ss)
          r :=
  gives_bind (readSections_steady _) fun ss => addSections_steady _ ss _ _

theorem stateOutcome_eq_some {label : String} {ssid : Option String} {lines : Lines}
    {r : StateLabel × Variables} :
    stateOutcome label ssid lines = some r ↔ Gives (readState label ssid) r := by
  rw [gives_iff (readState_steady label ssid) lines, stateOutcome, toOption_eq_some]

/-! ## Transition labels -/

/-- What a transition label says and declares, if it can be read. -/
def transitionOutcome (label : String) (ssid : Option String) (lines : Lines) :
    Option (TransitionLabel × Variables) :=
  ((readTransition label ssid).run.run lines).1.toOption

/-- The condition of a label, empty if there is none. -/
def readCondition? (text? : Option String) : Reading String :=
  match text? with
  | none => pure ""
  | some text => Text.trimmed <$> readCondition text

theorem readCondition?_steady (text? : Option String) : Steady (readCondition? text?) := by
  cases text? with
  | none => exact .pure _
  | some text => exact (readCondition_steady text).map _

/-- What the parts of a transition label say, its event apart. -/
def readActions (parts : Parts) (owner : String) : Reading (TransitionLabel × Variables) := do
  let condition ← readCondition? parts.condition
  let ca ← readPart? parts.conditionAction owner .empty
  let ta ← readPart? parts.transitionAction owner ca.2
  return (⟨condition, ca.1, ta.1⟩, ta.2)

theorem readActions_steady (parts : Parts) (owner : String) : Steady (readActions parts owner) :=
  (readCondition?_steady _).bind fun _ => (readPart?_steady _ _ _).bind fun _ =>
    (readPart?_steady _ _ _).bind fun _ => .pure _

theorem readTransition_eq (label : String) (ssid : Option String) :
    readTransition label ssid = (do
      let parts ← readParts (Text.trimmed label)
      if parts.event.isSome then throw (.unsupported .transitionEvents)
      else readActions parts (transitionOwner ssid)) := by
  unfold readTransition
  congr 1
  funext parts
  unfold readActions
  cases parts.condition <;> cases parts.event <;> rfl

theorem gives_readActions {parts : Parts} {owner : String} {l : TransitionLabel}
    {vars : Variables} :
    Gives (readActions parts owner) (l, vars) ↔
      Gives (readCondition? parts.condition) l.condition ∧
        ∃ declared, Gives (readPart? parts.conditionAction owner .empty)
            (l.conditionActions, declared) ∧
          Gives (readPart? parts.transitionAction owner declared) (l.transitionActions, vars) := by
  have hlast : ∀ (condition : String) (ca : List String × Variables), Steady (do
      let ta ← readPart? parts.transitionAction owner ca.2
      return ((⟨condition, ca.1, ta.1⟩ : TransitionLabel), ta.2)) := fun condition ca =>
    (readPart?_steady _ _ _).bind fun _ => .pure _
  unfold readActions
  rw [gives_bind (readCondition?_steady _) fun condition =>
    (readPart?_steady _ _ _).bind (hlast condition)]
  simp only [gives_bind (readPart?_steady _ _ _) (hlast _),
    gives_bind (readPart?_steady _ _ _) fun _ => Steady.pure _, gives_pure]
  constructor
  · rintro ⟨condition, hcondition, ⟨ca, declared⟩, hca, ⟨ta, declared'⟩, hta, he⟩
    cases he
    exact ⟨hcondition, declared, hca, hta⟩
  · rintro ⟨hcondition, declared, hca, hta⟩
    exact ⟨_, hcondition, _, hca, _, hta, rfl⟩

theorem gives_readTransition {label : String} {ssid : Option String}
    {r : TransitionLabel × Variables} :
    Gives (readTransition label ssid) r ↔
      ∃ parts, Gives (readParts (Text.trimmed label)) parts ∧ parts.event = none ∧
        Gives (readActions parts (transitionOwner ssid)) r := by
  rw [readTransition_eq, gives_bind (readParts_steady _)]
  · refine exists_congr fun parts => and_congr_right fun _ => ?_
    cases parts.event with
    | none => simp
    | some event => exact iff_of_false not_gives_throw (by simp)
  · intro parts
    split
    · exact .throw _
    · exact readActions_steady parts _

theorem transitionOutcome_eq_some {label : String} {ssid : Option String} {lines : Lines}
    {r : TransitionLabel × Variables} :
    transitionOutcome label ssid lines = some r ↔ Gives (readTransition label ssid) r := by
  rw [gives_iff (readTransition_steady label ssid) lines, transitionOutcome, toOption_eq_some]

end Statechart.Label
