import Mathlib.Data.List.MinMax
import Statechart.Dve.Process
import Statechart.Proofs.Planar.Priorities

/-!
Guards of edges. A guard negates, as a text, the transitions that come before the one of the
edge; under an evaluator that reads these texts as they are meant, an edge is enabled if its
transition can be taken and none that comes before it can (`enabled_edgeOf`), and a loop is
enabled if no transition can be taken (`enabled_loopOf`).
-/

namespace Statechart

/-! ## Meanings -/

/-- Conditions as tests of a store and actions as changes of it. -/
structure Meaning (σ : Type) where
  holds : String → σ → Bool
  act : String → σ → σ

namespace Meaning

variable {σ : Type} (m : Meaning σ)

def run (actions : List String) (s : σ) : σ := actions.foldl (fun s a => m.act a s) s

/-- What no action changes is the same after all of them. -/
theorem run_keeps {β : Type} (f : σ → β) (actions : List String)
    (hkeeps : ∀ a ∈ actions, ∀ s, f (m.act a s) = f s) (s : σ) : f (m.run actions s) = f s := by
  induction actions generalizing s with
  | nil => rfl
  | cons a actions ih =>
    have hrest := ih (fun b hb => hkeeps b (List.mem_cons_of_mem _ hb)) (m.act a s)
    exact hrest.trans (hkeeps a (List.mem_cons_self ..) s)

theorem run_append (before after : List String) (s : σ) :
    m.run (before ++ after) s = m.run after (m.run before s) := List.foldl_append

/-- The texts use variables: an action changes only those that it writes, and whether a condition
holds depends only on those that it reads. -/
structure Framed {V : Type} (value : σ → String → V) (writes reads : String → List String) :
    Prop where
  act : ∀ a s x, x ∉ writes a → value (m.act a s) x = value s x
  holds : ∀ c s s', (∀ x ∈ reads c, value s x = value s' x) → m.holds c s = m.holds c s'

/-- Actions that write nothing that a condition reads do not change whether it holds. -/
theorem Framed.holds_run {m : Meaning σ} {V : Type} {value : σ → String → V}
    {writes reads : String → List String} (h : m.Framed value writes reads) {c : String}
    {actions : List String} (hapart : ∀ a ∈ actions, ∀ x ∈ reads c, x ∉ writes a) (s : σ) :
    m.holds c (m.run actions s) = m.holds c s := by
  refine h.holds c _ _ fun x hx => ?_
  exact m.run_keeps (value · x) actions (fun a ha s => h.act a s x (hapart a ha x hx)) s

end Meaning

/-! ## Guards -/

namespace Dve

open Planar (Excludes)

/-- An evaluator reads the texts that flattening makes from the conditions of transitions as
negations and disjunctions. Nothing is asked of other texts: one text can be made in two ways,
and no evaluator reads all texts in all ways. -/
structure Evaluates (ev : String → Bool) (ts : List PlanarTransition) : Prop where
  never : ev never = false
  negation : ∀ t ∈ ts, ∀ c ∈ t.conditions, ev ("not (" ++ c ++ ")") = !ev c
  disjunction : ∀ t ∈ ts, t.conditions ≠ [] →
    ev (" or ".intercalate (t.conditions.map negateOne)) = (t.conditions.map negateOne).any ev

instance (ev : String → Bool) (ts : List PlanarTransition) : Decidable (Evaluates ev ts) :=
  decidable_of_iff (ev Statechart.never = false ∧
      (∀ t ∈ ts, ∀ c ∈ t.conditions, ev ("not (" ++ c ++ ")") = !ev c) ∧
      ∀ t ∈ ts, t.conditions ≠ [] →
        ev (" or ".intercalate (t.conditions.map negateOne)) = (t.conditions.map negateOne).any ev)
    ⟨fun h => ⟨h.1, h.2.1, h.2.2⟩, fun h => ⟨h.never, h.negation, h.disjunction⟩⟩

/-- All conditions are there to be read. -/
def Stated (ts : List PlanarTransition) : Prop := ∀ t ∈ ts, ∀ c ∈ t.conditions, c ≠ ""

def Edge.enabled (ev : String → Bool) (e : Edge) : Bool := e.guard.all ev

/-- The edges of a chart that are written. -/
def written (alternate : Bool) (chart : PlanarChart) : List Edge :=
  (edges alternate chart ++ loops alternate chart).filter (!·.isDead)

variable {ev : String → Bool} {ts : List PlanarTransition}

theorem negateOne_of_ne {c : String} (h : c ≠ "") : negateOne c = "not (" ++ c ++ ")" := by
  simp [negateOne, h]

/-- The negated conditions of a transition hold if one of the conditions does not. -/
theorem Evaluates.negate (h : Evaluates ev ts) (hs : Stated ts) {t : PlanarTransition}
    (ht : t ∈ ts) : ev (Statechart.negate t.conditions) = !t.conditions.all ev := by
  unfold Statechart.negate
  cases hc : t.conditions with
  | nil => exact h.never
  | cons c cs =>
    rw [← hc, if_neg (by simp [hc]), h.disjunction t ht (by simp [hc]), List.any_map,
      List.not_all_eq_any_not, Bool.eq_iff_iff, List.any_eq_true, List.any_eq_true]
    refine exists_congr fun c => and_congr_right fun hc => ?_
    rw [Function.comp_apply, negateOne_of_ne (hs t ht c hc), h.negation t ht c hc]

/-- Transitions that exclude each other cannot both be taken. -/
theorem Evaluates.not_both (h : Evaluates ev ts) {t u : PlanarTransition} (ht : t ∈ ts)
    (hex : Excludes t.conditions u.conditions) :
    ¬ (t.conditions.all ev = true ∧ u.conditions.all ev = true) := by
  rintro ⟨htake, hrefuse⟩
  obtain ⟨c, hc, hneg⟩ := hex
  have hrefused := List.all_eq_true.mp hrefuse _ hneg
  by_cases he : c = ""
  · subst he
    rw [show negateOne "" = Statechart.never from rfl, h.never] at hrefused
    cases hrefused
  · have hmem := hc.resolve_left he
    rw [negateOne_of_ne he, h.negation t ht c hmem, List.all_eq_true.mp htake c hmem] at hrefused
    cases hrefused

theorem Evaluates.negated (h : Evaluates ev ts) (hs : Stated ts) {us : List PlanarTransition}
    (hus : us ⊆ ts) :
    (us.map fun u => Statechart.negate u.conditions).all ev =
      us.all fun u => !u.conditions.all ev := by
  rw [List.all_map, Bool.eq_iff_iff, List.all_eq_true, List.all_eq_true]
  refine forall₂_congr fun u hu => ?_
  rw [Function.comp_apply, h.negate hs (hus hu)]

theorem enabled_edgeOf (h : Evaluates ev ts) (hs : Stated ts) (alternate : Bool)
    (t : PlanarTransition) :
    (edgeOf alternate ts t).enabled ev =
      (t.conditions.all ev && (turnGuard alternate).all ev &&
        (rivals ts t).all fun u => !u.conditions.all ev) := by
  have hsub : rivals ts t ⊆ ts := List.filter_sublist.subset
  rw [Edge.enabled, edgeOf, List.all_append, List.all_append, h.negated hs hsub]

theorem enabled_loopOf (h : Evaluates ev ts) (hs : Stated ts) (alternate : Bool)
    (ssid : Option String) (s : PlanarState) :
    (loopOf alternate ts ssid s).enabled ev =
      ((turnGuard alternate).all ev &&
        (ts.filter (·.source == ssid)).all fun u => !u.conditions.all ev) := by
  rw [Edge.enabled, loopOf, List.all_append, h.negated hs List.filter_sublist.subset]

/-- An enabled edge is written. -/
theorem not_dead_of_enabled (h : Evaluates ev ts) {e : Edge} (he : e.enabled ev = true) :
    e.isDead = false := by
  by_contra hdead
  have hmem : never ∈ e.guard := by simpa [Edge.isDead] using hdead
  have := List.all_eq_true.mp he _ hmem
  rw [h.never] at this
  cases this

/-- If a transition can be taken, an edge from its source is enabled: that of a transition that
can be taken and that none comes before which can. -/
theorem exists_enabled (h : Evaluates ev ts) (hs : Stated ts) (alternate : Bool)
    (hturn : (turnGuard alternate).all ev = true) {t : PlanarTransition} (ht : t ∈ ts)
    (htake : t.conditions.all ev = true) :
    ∃ u ∈ ts, u.source = t.source ∧ (edgeOf alternate ts u).enabled ev = true := by
  let takeable := ts.filter fun u => u.source == t.source && u.conditions.all ev
  have hmem : t ∈ takeable := List.mem_filter.mpr ⟨ht, by simpa using htake⟩
  cases hmin : takeable.argmin PlanarTransition.priority with
  | none =>
    rw [List.argmin_eq_none] at hmin
    rw [hmin] at hmem
    cases hmem
  | some u =>
    obtain ⟨hu, hprop⟩ := List.mem_filter.mp (List.argmin_mem hmin)
    simp only [Bool.and_eq_true, beq_iff_eq] at hprop
    refine ⟨u, hu, hprop.1, ?_⟩
    rw [enabled_edgeOf h hs, hprop.2, hturn]
    simp only [Bool.and_self, Bool.true_and, List.all_eq_true]
    intro w hw
    obtain ⟨hw, hbefore⟩ := List.mem_filter.mp hw
    simp only [Bool.and_eq_true, beq_iff_eq] at hbefore
    by_contra htaken
    have hwmem : w ∈ takeable :=
      List.mem_filter.mpr ⟨hw, by simp_all⟩
    exact absurd (PlanarTransition.before_iff.mp hbefore.2)
      (not_lt.mpr (List.le_of_mem_argmin hwmem hmin))

end Dve

end Statechart
