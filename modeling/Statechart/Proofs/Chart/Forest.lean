import Mathlib.Data.List.Nodup
import Statechart.Chart.Outline

/-!
The hierarchy of a chart. States are listed in preorder, each with its lineage: itself and the
states around it, innermost first, up to the chart. `Hierarchical` says that a chart is listed
this way and that transitions stand in the chart or in composite states; `Identified` says that
identifiers tell states, and transitions, apart.
-/

namespace Statechart.Chart

/-- Induction over a state and the states in it. -/
theorem State.induction {P : State → Prop}
    (mk : ∀ ssid composite defaults substates, (∀ s ∈ substates, P s) →
      P (.mk ssid composite defaults substates)) (s : State) : P s := by
  refine State.rec (motive_1 := P) (motive_2 := fun ss => ∀ s ∈ ss, P s) ?_ ?_ ?_ s
  · exact mk
  · intro s hs
    cases hs
  · intro t ts ht hts s hs
    rcases List.mem_cons.mp hs with rfl | hs
    · exact ht
    · exact hts s hs

/-- The state and what is around it, innermost first. -/
def Placed.lineage (s : Placed State) : List Container := ⟨.state, s.item.ssid⟩ :: s.around

mutual

/-- A state and the states in it in preorder, each with what is around it. -/
def State.places (around : List Container) : State → List (Placed State)
  | .mk ssid composite defaults substates =>
    ⟨.mk ssid composite defaults substates, around⟩ ::
      State.placesOf (⟨.state, ssid⟩ :: around) substates

def State.placesOf (around : List Container) : List State → List (Placed State)
  | [] => []
  | s :: ss => s.places around ++ State.placesOf around ss

end

theorem State.places_eq (around : List Container) (s : State) :
    s.places around = ⟨s, around⟩ :: State.placesOf (⟨.state, s.ssid⟩ :: around) s.substates := by
  cases s
  rfl

theorem State.placesOf_eq_flatMap (around : List Container) (ss : List State) :
    State.placesOf around ss = ss.flatMap (State.places around) := by
  induction ss with
  | nil => rfl
  | cons s ss ih => rw [State.placesOf, List.flatMap_cons, ih]

theorem State.mem_placesOf {around : List Container} {ss : List State} {p : Placed State} :
    p ∈ State.placesOf around ss ↔ ∃ s ∈ ss, p ∈ s.places around := by
  rw [State.placesOf_eq_flatMap, List.mem_flatMap]

theorem State.self_mem_places (around : List Container) (s : State) :
    (⟨s, around⟩ : Placed State) ∈ s.places around := by
  rw [State.places_eq]
  exact List.mem_cons_self ..

/-- Below a state every lineage ends in the lineage of the state; in between are states. -/
theorem State.lineage_of_mem_places (s : State) (around : List Container) {p : Placed State}
    (hp : p ∈ s.places around) :
    ∃ front : List Container, p.lineage = front ++ ⟨.state, s.ssid⟩ :: around ∧
      ∀ k ∈ front, k.kind = .state := by
  induction s using State.induction generalizing around with
  | mk ssid composite defaults substates ih =>
    rw [State.places_eq] at hp
    rcases List.mem_cons.mp hp with rfl | hp
    · exact ⟨[], rfl, by simp⟩
    · obtain ⟨t, ht, hp⟩ := State.mem_placesOf.mp hp
      obtain ⟨front, hf, hk⟩ := ih t ht _ hp
      refine ⟨front ++ [⟨.state, t.ssid⟩], by simpa using hf, ?_⟩
      intro k hkm
      rcases List.mem_append.mp hkm with h | h
      · exact hk k h
      · simp at h
        subst h
        rfl

/-- The places below a place are among the places, in the same order. -/
theorem State.places_sublist (s : State) (around : List Container) {p : Placed State}
    (hp : p ∈ s.places around) : (p.item.places p.around).Sublist (s.places around) := by
  induction s using State.induction generalizing around with
  | mk ssid composite defaults substates ih =>
    rw [State.places_eq] at hp
    rcases List.mem_cons.mp hp with rfl | hp
    · exact List.Sublist.refl _
    · obtain ⟨t, ht, hp⟩ := State.mem_placesOf.mp hp
      rw [State.places_eq around, State.placesOf_eq_flatMap, List.flatMap_def]
      exact ((ih t ht _ hp).trans (List.sublist_flatten_of_mem (List.mem_map_of_mem ht))).cons _

/-- A state around a place is a place, too, unless it is around everything. -/
theorem State.place_of_mem_lineage (s : State) (around : List Container) {p : Placed State}
    (hp : p ∈ s.places around) {front rest : List Container} {k : Container}
    (hk : p.lineage = front ++ k :: rest) (hrest : around.length ≤ rest.length) :
    ∃ q ∈ s.places around, q.lineage = k :: rest ∧ p ∈ q.item.places q.around ∧
      (front ≠ [] → q.item.substates ≠ []) := by
  induction s using State.induction generalizing around with
  | mk ssid composite defaults substates ih =>
    have hp' := hp
    rw [State.places_eq] at hp
    rcases List.mem_cons.mp hp with rfl | hp
    · -- the place itself: nothing can stand in front
      cases front with
      | nil => exact ⟨_, State.self_mem_places .., hk, State.self_mem_places .., by simp⟩
      | cons k' front =>
        exfalso
        have hl := congrArg List.length hk
        simp [Placed.lineage] at hl
        omega
    · obtain ⟨t, ht, hp⟩ := State.mem_placesOf.mp hp
      by_cases h : around.length < rest.length
      · obtain ⟨q, hq, hql, hpq, hs⟩ := ih t ht _ hp (by simp; omega)
        refine ⟨q, ?_, hql, hpq, hs⟩
        rw [State.places_eq]
        exact List.mem_cons_of_mem _ (State.mem_placesOf.mpr ⟨t, ht, hq⟩)
      · -- the outermost of the states: the one the places start from
        obtain ⟨front', hf, -⟩ := State.lineage_of_mem_places _ _ hp'
        rw [hk] at hf
        have hlen : (k :: rest).length = (⟨.state, ssid⟩ :: around : List Container).length := by
          simp
          omega
        have hkr := (List.append_inj' hf hlen).2
        refine ⟨⟨.mk ssid composite defaults substates, around⟩, State.self_mem_places .., hkr.symm,
          hp', ?_⟩
        rintro - hnil
        simp only [State.substates] at hnil
        rw [hnil] at ht
        cases ht

/-- The states from a state outwards that lie within `outer`, itself included. -/
def Placed.within (s : Placed State) (outer : List Container) : List (Option String) :=
  (s.lineage.take (s.lineage.length - outer.length)).map (·.ssid)

theorem Placed.within_eq {s : Placed State} {front outer : List Container}
    (h : s.lineage = front ++ outer) : s.within outer = front.map (·.ssid) := by
  simp [Placed.within, h]

/-- The states below a state, or the state itself, that nothing can be in. -/
def State.leaves (around : List Container) (s : State) : List (Placed State) :=
  (s.places around).filter (!·.item.isComposite)

/-! ## Charts -/

/-- The states of a chart are a forest inside `base`, which starts with the chart itself. -/
structure Hierarchical (c : Chart) (base : List Container) : Prop where
  root : ∃ ssid beyond, base = ⟨.chart, ssid⟩ :: beyond
  states : ∃ tops, c.states = State.placesOf base tops
  composite : ∀ s ∈ c.states, s.item.substates ≠ [] → s.item.isComposite = true
  /-- A transition stands in the chart or in a composite state. -/
  parents : ∀ t ∈ c.transitions,
    t.around = base ∨ ∃ s ∈ c.states, s.item.isComposite = true ∧ t.around = s.lineage
  defaults : ∀ s ∈ c.states, ∀ d ∈ s.item.defaults,
    d.source = none ∧ (⟨d, s.lineage⟩ : Placed Transition) ∈ c.transitions

/-- No two states and no two transitions share an identifier, every state has one, and none of
them is that of the chart. -/
structure Identified (c : Chart) (base : List Container) : Prop where
  states : (c.states.map (·.item.ssid)).Nodup
  transitions : (c.transitions.map (·.item.ssid)).Nodup
  named : ∀ s ∈ c.states, s.item.ssid.isSome
  apart : ∀ s ∈ c.states, ∀ k ∈ base.head?, s.item.ssid ≠ k.ssid

instance (c : Chart) (base : List Container) : Decidable (Identified c base) :=
  decidable_of_iff ((c.states.map (·.item.ssid)).Nodup ∧ (c.transitions.map (·.item.ssid)).Nodup ∧
      (∀ s ∈ c.states, s.item.ssid.isSome) ∧
      ∀ s ∈ c.states, ∀ k ∈ base.head?, s.item.ssid ≠ k.ssid)
    ⟨fun h => ⟨h.1, h.2.1, h.2.2.1, h.2.2.2⟩,
      fun h => ⟨h.states, h.transitions, h.named, h.apart⟩⟩

section

variable {c : Chart} {base : List Container}

theorem Hierarchical.places_sublist (h : Hierarchical c base) {s : Placed State}
    (hs : s ∈ c.states) : (s.item.places s.around).Sublist c.states := by
  obtain ⟨tops, ht⟩ := h.states
  rw [ht] at hs ⊢
  obtain ⟨t, htops, hs⟩ := State.mem_placesOf.mp hs
  rw [State.placesOf_eq_flatMap, List.flatMap_def]
  exact (State.places_sublist t base hs).trans
    (List.sublist_flatten_of_mem (List.mem_map_of_mem htops))

theorem Hierarchical.mem_of_mem_places (h : Hierarchical c base) {s q : Placed State}
    (hs : s ∈ c.states) (hq : q ∈ s.item.places s.around) : q ∈ c.states :=
  (h.places_sublist hs).subset hq

/-- Around a state there are states and then the chart. -/
theorem Hierarchical.around_eq (h : Hierarchical c base) {s : Placed State} (hs : s ∈ c.states) :
    ∃ above : List Container, s.around = above ++ base ∧ ∀ k ∈ above, k.kind = .state := by
  obtain ⟨tops, ht⟩ := h.states
  rw [ht] at hs
  obtain ⟨t, -, hs⟩ := State.mem_placesOf.mp hs
  obtain ⟨front, hf, hk⟩ := State.lineage_of_mem_places t base hs
  cases front with
  | nil =>
    refine ⟨[], ?_, by simp⟩
    exact (List.cons.inj hf).2
  | cons k front =>
    refine ⟨front ++ [⟨.state, t.ssid⟩], ?_, ?_⟩
    · rw [List.append_assoc]
      exact (List.cons.inj hf).2
    · intro j hj
      rcases List.mem_append.mp hj with hj | hj
      · exact hk j (List.mem_cons_of_mem _ hj)
      · simp at hj
        subst hj
        rfl

theorem Hierarchical.lineage_eq (h : Hierarchical c base) {s : Placed State}
    (hs : s ∈ c.states) :
    ∃ above : List Container, s.lineage = above ++ base ∧ ∀ k ∈ above, k.kind = .state := by
  obtain ⟨above, ha, hk⟩ := h.around_eq hs
  refine ⟨⟨.state, s.item.ssid⟩ :: above, by simp [Placed.lineage, ha], ?_⟩
  intro k hkm
  rcases List.mem_cons.mp hkm with rfl | hkm
  · rfl
  · exact hk k hkm

/-- What is around a state, the chart apart, are states of the chart, and composite ones. -/
theorem Hierarchical.place_of_lineage (h : Hierarchical c base) {s : Placed State}
    (hs : s ∈ c.states) {front rest : List Container} {k : Container}
    (hk : s.lineage = front ++ k :: rest) (hrest : base.length ≤ rest.length) :
    ∃ q ∈ c.states, q.lineage = k :: rest ∧ s ∈ q.item.places q.around ∧
      (front ≠ [] → q.item.isComposite = true) := by
  obtain ⟨tops, ht⟩ := h.states
  have hs' := hs
  rw [ht] at hs'
  obtain ⟨t, htops, hs'⟩ := State.mem_placesOf.mp hs'
  obtain ⟨q, hq, hql, hsq, hf⟩ := State.place_of_mem_lineage t base hs' hk hrest
  have hqc : q ∈ c.states := by
    rw [ht]
    exact State.mem_placesOf.mpr ⟨t, htops, hq⟩
  exact ⟨q, hqc, hql, hsq, fun hne => h.composite q hqc (hf hne)⟩

theorem Hierarchical.base_suffix (h : Hierarchical c base) {t : Placed Transition}
    (ht : t ∈ c.transitions) : base <:+ t.around := by
  rcases h.parents t ht with hbase | ⟨q, hq, -, haround⟩
  · exact ⟨[], hbase.symm⟩
  · obtain ⟨above, ha, -⟩ := h.lineage_eq hq
    exact ⟨above, by rw [haround, ha]⟩

/-- States with one identifier are one state. -/
theorem Identified.eq_of_ssid (h : Identified c base) {s s' : Placed State} (hs : s ∈ c.states)
    (hs' : s' ∈ c.states) (e : s.item.ssid = s'.item.ssid) : s = s' :=
  List.inj_on_of_nodup_map h.states hs hs' e

theorem Identified.eq_of_transition_ssid (h : Identified c base) {t t' : Placed Transition}
    (ht : t ∈ c.transitions) (ht' : t' ∈ c.transitions) (e : t.item.ssid = t'.item.ssid) :
    t = t' :=
  List.inj_on_of_nodup_map h.transitions ht ht' e

/-- Two states around one state, or that state itself, are the same if they lie equally deep. -/
theorem Identified.eq_of_suffix (h : Identified c base) {s s' : Placed State}
    (hs : s ∈ c.states) (hs' : s' ∈ c.states) {l : List Container} (hl : s.lineage <:+ l)
    (hl' : s'.lineage <:+ l) (hlen : s.around.length = s'.around.length) : s = s' := by
  have e : s.lineage = s'.lineage := by
    obtain ⟨f, rfl⟩ := hl
    obtain ⟨f', hf'⟩ := hl'
    exact ((List.append_inj' hf' (by simp [Placed.lineage, hlen])).2).symm
  apply h.eq_of_ssid hs hs'
  simpa [Placed.lineage] using (List.cons.inj e).1

end

end Statechart.Chart
