import Statechart.Proofs.Planar.Actions
import Statechart.Proofs.Planar.Leaves
import Statechart.Proofs.Planar.Priorities

/-!
Basic states, which have no state in them. Flattening keeps the states without a list of children
and lets transitions start and end there. A state can have a list of children with no state in
it, because data or transitions stand there: such a state is lost. So all basic states survive
just if every list of children has a state in it (`basic_states_survive_iff`).
-/

namespace Statechart

open Xml (Node Place)

namespace Chart

/-- No state is in the state. -/
def isBasic (q : Place) : Bool := (q.descendants "state").isEmpty

/-- The state has a list of children. -/
def hasRoom (q : Place) : Bool := !(q.node.tagged "Children").isEmpty

/-- A state and the states in it. -/
def statesFrom (q : Place) : List Place := q :: q.descendants "state"

def idOf (q : Place) : Option String := q.node.attribute? "SSID"

/-! ## Elements below a state -/

theorem mem_descendants_of_statesFrom {p q r : Place} (hq : q ∈ p.descendants "state")
    (hr : r ∈ statesFrom q) : r ∈ p.descendants "state" := by
  rcases List.mem_cons.mp hr with rfl | hr
  · exact hq
  · obtain ⟨hin, -⟩ := List.mem_filter.mp hq
    obtain ⟨hr, htag⟩ := List.mem_filter.mp hr
    exact List.mem_filter.mpr ⟨mem_inside_trans hin hr, htag⟩

theorem State.placesOf_eq_nil {around : List Container} {ss : List State} :
    State.placesOf around ss = [] ↔ ss = [] := by
  constructor
  · intro h
    cases ss with
    | nil => rfl
    | cons s ss =>
      rw [State.placesOf, State.places_eq] at h
      cases h
  · rintro rfl
    rfl

/-- The states in a state are the forest of its substates. -/
theorem TreeShaped.descendants_eq {p q : Place} (h : TreeShaped p)
    (hq : q ∈ p.descendants "state") :
    (q.descendants "state").map (Placed.ofPlace State.ofNode) =
      State.placesOf (⟨.state, idOf q⟩ :: containersOf q.above)
        (State.ofNode q.node).substates := by
  obtain ⟨hin, htag⟩ := List.mem_filter.mp hq
  have hlen : p.above.length ≤ q.above.length := (length_lt_of_mem_inside p.node hin).le
  have hseat : AllSeated p.above.length (q.node.inside q.above) := by
    intro r hr ht
    have hr := mem_inside_trans hin hr
    rcases ht with ht | ht
    · exact h.states r (List.mem_filter.mpr ⟨hr, ht⟩)
    · exact h.transitions r (List.mem_filter.mpr ⟨hr, ht⟩)
  have hforest := (statesAt_inside p.above.length q.node).1 q.above hlen
    (hasTag_of_ne htag (by decide)) hseat
  rw [Container.ofNode_state htag] at hforest
  rw [State.ofNode_eq htag]
  exact hforest

theorem ssid_eq_idOf {p q : Place} (hq : q ∈ p.descendants "state") :
    (State.ofNode q.node).ssid = idOf q := by
  rw [State.ofNode_eq (List.mem_filter.mp hq).2]
  rfl

theorem TreeShaped.statesFrom_eq {p q : Place} (h : TreeShaped p)
    (hq : q ∈ p.descendants "state") :
    (statesFrom q).map (Placed.ofPlace State.ofNode) =
      (State.ofNode q.node).places (containersOf q.above) := by
  rw [statesFrom, List.map_cons, h.descendants_eq hq, State.places_eq, ssid_eq_idOf hq]
  rfl

theorem isComposite_eq_hasRoom {p q : Place} (hq : q ∈ p.descendants "state") :
    (State.ofNode q.node).isComposite = hasRoom q := by
  rw [State.ofNode_eq (List.mem_filter.mp hq).2]
  rfl

theorem mem_states_of_place {p q : Place} (hq : q ∈ p.descendants "state") :
    Placed.ofPlace State.ofNode q ∈ (ofPlace p).states := List.mem_map_of_mem hq

/-- A state without a list of children has no state in it. -/
theorem TreeShaped.isBasic_of_not_hasRoom {p q : Place} (h : TreeShaped p)
    (hq : q ∈ p.descendants "state") (hroom : hasRoom q = false) : isBasic q = true := by
  have hforest := h.descendants_eq hq
  have hnone : (State.ofNode q.node).substates = [] := by
    by_contra hne
    have hcomposite := isComposite_ofNode hne
    rw [isComposite_eq_hasRoom hq, hroom] at hcomposite
    cases hcomposite
  rw [hnone, State.placesOf_eq_nil.mpr rfl, List.map_eq_nil_iff] at hforest
  simp [isBasic, hforest]

/-- Where every list of children has a state in it, basic states are those without a list. -/
theorem TreeShaped.hasRoom_iff {p : Place} (h : TreeShaped p)
    (hlists : ∀ q ∈ p.descendants "state", hasRoom q = true → isBasic q = false) {q : Place}
    (hq : q ∈ p.descendants "state") : hasRoom q = false ↔ isBasic q = true := by
  refine ⟨h.isBasic_of_not_hasRoom hq, fun hbasic => ?_⟩
  cases hroom : hasRoom q with
  | false => rfl
  | true =>
    rw [hlists q hq hroom] at hbasic
    cases hbasic

end Chart

namespace Planar

open Chart (State Transition Container Placed Hierarchical Identified)
open Chart (isBasic hasRoom statesFrom idOf)
open Label (View)

/-! ## The planar transitions of a transition -/

def madeFrom (planar : PlanarChart) (t : Placed Transition) : List PlanarTransition :=
  planar.transitions.filter (·.ssid == t.item.ssid)

/-- Every state can be entered in some way, be it to fail. -/
theorem waysVia_ne_nil {ss : List State} {ssid : Option String} (ts refused : List Transition)
    {ws : List Way} (h : waysVia (waysOf ss) ssid refused ts = some ws) : ws ≠ [] := by
  induction ts generalizing refused ws with
  | nil =>
    rw [waysVia, Option.some.injEq] at h
    subst h
    simp
  | cons t ts ih =>
    obtain ⟨s, below, others, -, -, ho, rfl⟩ := waysVia_cons.mp h
    have := ih _ ho
    simp [this]

theorem ways_ne_nil (s : State) {ws : List Way} (h : ways s = some ws) : ws ≠ [] := by
  obtain ⟨ssid, composite, defaults, substates⟩ := s
  rw [ways] at h
  cases composite with
  | false =>
    simp only [Bool.false_eq_true, if_false, Option.some.injEq] at h
    subst h
    simp
  | true =>
    simp only [if_true, Option.bind_eq_some_iff] at h
    obtain ⟨ts, -, h⟩ := h
    exact waysVia_ne_nil ts [] h

theorem ways_of_leaf {s : State} (hleaf : s.isComposite = false) :
    ways s = some [⟨s.ssid, []⟩] := by
  obtain ⟨ssid, composite, defaults, substates⟩ := s
  obtain rfl : composite = false := hleaf
  rfl

section

variable {chart : Chart} {base : List Container}

/-- The planar transitions with the identifier of a transition are the block it becomes. -/
theorem block_of_transition {v : View} {ts : List (Placed Transition)}
    {blocks : List (List PlanarTransition)} (hb : List.Forall₂ (Becomes chart v) ts blocks)
    (hnodup : (ts.map (·.item.ssid)).Nodup) {t : Placed Transition} (ht : t ∈ ts) :
    ∃ block, Becomes chart v t block ∧
      ∀ e, (e ∈ blocks.flatten ∧ e.ssid = t.item.ssid) ↔ e ∈ block := by
  induction hb with
  | nil => cases ht
  | @cons u block ts blocks hblock hrest ih =>
    obtain ⟨hnot, hnodup⟩ := List.nodup_cons.mp hnodup
    have hother : ∀ e ∈ blocks.flatten, ∃ w ∈ ts, e.ssid = w.item.ssid := by
      intro e he
      obtain ⟨w, hw, block', hb', he⟩ := mem_of_forall₂ hrest he
      exact ⟨w, hw, hb'.ssid e he⟩
    simp only [List.flatten_cons, List.mem_append]
    rcases List.mem_cons.mp ht with rfl | ht
    · refine ⟨block, hblock, fun e => ⟨?_, fun he => ⟨.inl he, hblock.ssid e he⟩⟩⟩
      rintro ⟨he | he, hid⟩
      · exact he
      · obtain ⟨w, hw, hid'⟩ := hother e he
        exact absurd (List.mem_map.mpr ⟨w, hw, hid'.symm.trans hid⟩) hnot
    · obtain ⟨block', hb', hmem⟩ := ih hnodup ht
      refine ⟨block', hb', fun e => ⟨?_, fun he => ?_⟩⟩
      · rintro ⟨he | he, hid⟩
        · exact absurd (List.mem_map.mpr ⟨t, ht, hid.symm.trans (hblock.ssid e he)⟩) hnot
        · exact (hmem e).mp ⟨he, hid⟩
      · obtain ⟨he, hid⟩ := (hmem e).mpr he
        exact ⟨.inr he, hid⟩

theorem mem_madeFrom (h : Hierarchical chart base) (hi : Identified chart base)
    (hends : chart.PlainEnds) (hids : ∀ t ∈ chart.transitions, t.item.ssid ≠ some startId)
    {lines lines' : Lines} {planar : PlanarChart} (hrun : Runs (flatten chart) lines planar lines')
    {t : Placed Transition} (ht : t ∈ chart.transitions) :
    ∃ block, Becomes chart (View.original chart) t block ∧
      ∀ e, e ∈ madeFrom planar t ↔ e ∈ block := by
  obtain ⟨⟨blocks, hblocks, hts⟩, -⟩ := runs_flatten h hi hends hrun
  obtain ⟨block, hblock, hmem⟩ := block_of_transition hblocks hi.transitions ht
  refine ⟨block, hblock, fun e => ?_⟩
  rw [madeFrom, List.mem_filter, hts, List.mem_append, List.mem_singleton, beq_iff_eq, ← hmem e]
  constructor
  · rintro ⟨he | rfl, hid⟩
    · exact ⟨he, hid⟩
    · exact absurd hid.symm (hids t ht)
  · rintro ⟨he, hid⟩
    exact ⟨.inl he, hid⟩

/-- The sources of a block are the leaves that its transition departs from. -/
theorem Becomes.sources {v : View} {t : Placed Transition} {block : List PlanarTransition}
    (hb : Becomes chart v t block) (hproper : isNestedDefault t = false) :
    ∃ parent d, Departs chart v t.item parent d ∧
      ∀ k, k ∈ block.map (·.source) ↔ k ∈ d.leaves.map (·.1) := by
  cases hb with
  | nested nested => exact absurd (hproper.symm.trans nested) (by simp)
  | @made parent d goal ws order _ stands departs arrives enters =>
    refine ⟨parent, d, departs, fun k => ?_⟩
    obtain ⟨w, hw⟩ := List.exists_mem_of_ne_nil _ (ways_ne_nil goal.item enters)
    constructor
    · intro hk
      obtain ⟨e, he, rfl⟩ := List.mem_map.mp hk
      obtain ⟨leaf, hleaf, he⟩ := List.mem_flatMap.mp he
      obtain ⟨w', -, rfl⟩ := List.mem_map.mp he
      exact List.mem_map.mpr ⟨leaf, hleaf, rfl⟩
    · intro hk
      obtain ⟨leaf, hleaf, rfl⟩ := List.mem_map.mp hk
      exact List.mem_map.mpr
        ⟨_, List.mem_flatMap.mpr ⟨leaf, hleaf, List.mem_map.mpr ⟨w, hw, rfl⟩⟩, rfl⟩

theorem madeFrom_sources (h : Hierarchical chart base) (hi : Identified chart base)
    (hends : chart.PlainEnds) (hids : ∀ t ∈ chart.transitions, t.item.ssid ≠ some startId)
    {lines lines' : Lines} {planar : PlanarChart} (hrun : Runs (flatten chart) lines planar lines')
    {t : Placed Transition} (ht : t ∈ chart.transitions) (hproper : isNestedDefault t = false) :
    ∃ parent d, Departs chart (View.original chart) t.item parent d ∧
      ∀ k, k ∈ (madeFrom planar t).map (·.source) ↔ k ∈ d.leaves.map (·.1) := by
  obtain ⟨block, hb, hmem⟩ := mem_madeFrom h hi hends hids hrun ht
  obtain ⟨parent, d, hd, hsources⟩ := hb.sources hproper
  refine ⟨parent, d, hd, fun k => ?_⟩
  rw [← hsources]
  simp only [List.mem_map, hmem]

/-- A transition to a leaf goes nowhere else. -/
theorem Becomes.target_leaf (hi : Identified chart base) {v : View} {t : Placed Transition}
    {block : List PlanarTransition} (hb : Becomes chart v t block) {goal : Placed State}
    (hgoal : goal ∈ chart.states) (hname : t.item.destination = goal.item.ssid)
    (hleaf : goal.item.isComposite = false) : ∀ e ∈ block, e.target = t.item.destination := by
  intro e he
  cases hb with
  | nested => cases he
  | @made parent d goal' ws order _ stands departs arrives enters =>
    obtain rfl : goal' = goal := stateOf_eq hi hgoal hname arrives
    obtain ⟨leaf, -, he⟩ := List.mem_flatMap.mp he
    obtain ⟨w, hw, rfl⟩ := List.mem_map.mp he
    rw [ways_of_leaf hleaf, Option.some.injEq] at enters
    subst enters
    rw [List.mem_singleton.mp hw, hname]
    rfl

end

/-! ## Survival -/

/-- A flattened chart keeps the states for which `keeps` holds: it has them and no others but its
own two, each transition that is no nested default starts in all of them at or below its source,
and one that goes to such a state goes nowhere else. -/
structure KeepsStates (p : Place) (planar : PlanarChart) (keeps : Place → Bool) : Prop where
  states : ∀ k, (k ∈ planar.states.keys ∧ k ≠ some "start" ∧ k ≠ some "error") ↔
    ∃ q ∈ p.descendants "state", keeps q = true ∧ idOf q = k
  initial : ∀ t ∈ (Chart.ofPlace p).transitions, isNestedDefault t = false →
    isInitial t.item = true → ∀ k, k ∈ (madeFrom planar t).map (·.source) ↔ k = some "start"
  sources : ∀ t ∈ (Chart.ofPlace p).transitions, isNestedDefault t = false →
    isInitial t.item = false → ∀ q ∈ p.descendants "state", idOf q = t.item.source →
    ∀ k, k ∈ (madeFrom planar t).map (·.source) ↔
      ∃ r ∈ statesFrom q, keeps r = true ∧ idOf r = k
  targets : ∀ t ∈ (Chart.ofPlace p).transitions, isNestedDefault t = false →
    ∀ q ∈ p.descendants "state", idOf q = t.item.destination → keeps q = true →
    ∀ e ∈ madeFrom planar t, e.target = t.item.destination

/-- No identifier is that of one of the two states of a planar chart. -/
structure OwnNames (chart : Chart) : Prop where
  states : ∀ s ∈ chart.states, s.item.ssid ≠ some "start" ∧ s.item.ssid ≠ some "error"
  transitions : ∀ t ∈ chart.transitions, t.item.ssid ≠ some "start"

section

variable {p : Place} {lines lines' : Lines} {planar : PlanarChart}

theorem hasLeaf_iff {k : Option String} :
    HasLeaf (Chart.ofPlace p) k ↔
      ∃ q ∈ p.descendants "state", (!hasRoom q) = true ∧ idOf q = k := by
  constructor
  · rintro ⟨s, hs, hleaf, rfl⟩
    obtain ⟨q, hq, rfl⟩ := Chart.mem_states_ofPlace.mp hs
    refine ⟨q, hq, ?_, (Chart.ssid_eq_idOf hq).symm⟩
    rw [← Chart.isComposite_eq_hasRoom hq, hleaf]
    rfl
  · rintro ⟨q, hq, hroom, rfl⟩
    refine ⟨_, Chart.mem_states_of_place hq, ?_, Chart.ssid_eq_idOf hq⟩
    have hcomposite := Chart.isComposite_eq_hasRoom hq
    simp only [Bool.not_eq_true'] at hroom
    rwa [hroom] at hcomposite

/-- The leaves below a state, as elements of the document. -/
theorem mem_leaves_iff (htree : Chart.TreeShaped p) {q : Place} (hq : q ∈ p.descendants "state")
    {k : Option String} :
    k ∈ ((State.ofNode q.node).leaves (Chart.containersOf q.above)).map (·.item.ssid) ↔
      ∃ r ∈ statesFrom q, (!hasRoom r) = true ∧ idOf r = k := by
  have hleaves : (State.ofNode q.node).leaves (Chart.containersOf q.above) =
      ((statesFrom q).map (Placed.ofPlace State.ofNode)).filter (!·.item.isComposite) := by
    rw [htree.statesFrom_eq hq]
    rfl
  rw [hleaves]
  simp only [List.mem_map, List.mem_filter]
  constructor
  · rintro ⟨-, ⟨⟨r, hr, rfl⟩, hbare⟩, rfl⟩
    have hrp := Chart.mem_descendants_of_statesFrom hq hr
    refine ⟨r, hr, ?_, (Chart.ssid_eq_idOf hrp).symm⟩
    rw [← Chart.isComposite_eq_hasRoom hrp]
    exact hbare
  · rintro ⟨r, hr, hroom, rfl⟩
    have hrp := Chart.mem_descendants_of_statesFrom hq hr
    rw [← Chart.isComposite_eq_hasRoom hrp] at hroom
    exact ⟨_, ⟨⟨r, hr, rfl⟩, hroom⟩, Chart.ssid_eq_idOf hrp⟩

/-- Flattening keeps the states without a list of children. -/
theorem flatten_keepsStates (htree : Chart.TreeShaped p)
    (hids : Identified (Chart.ofPlace p) (Chart.baseOf p)) (hends : (Chart.ofPlace p).PlainEnds)
    (hnames : OwnNames (Chart.ofPlace p))
    (hrun : Runs (flatten (Chart.ofPlace p)) lines planar lines') :
    KeepsStates p planar (!hasRoom ·) := by
  have hforest := htree.hierarchical
  refine ⟨fun k => ?_, fun t ht hproper hinitial k => ?_,
    fun t ht hproper hinitial q hq hid k => ?_,
    fun t ht hproper q hq hid hroom e he => ?_⟩
  · rw [flatten_keys hrun, ← hasLeaf_iff]
    constructor
    · rintro ⟨hkey, hstart, herror⟩
      exact (hkey.resolve_left herror).resolve_left hstart
    · rintro ⟨s, hs, hleaf, rfl⟩
      exact ⟨.inr (.inr ⟨s, hs, hleaf, rfl⟩), hnames.states s hs⟩
  · obtain ⟨parent, d, hd, hsources⟩ :=
      madeFrom_sources hforest hids hends hnames.transitions hrun ht hproper
    rw [hsources]
    cases hd with
    | start => simp [Departure.start, startId]
    | state proper => exact absurd (hinitial.symm.trans proper) (by simp)
  · obtain ⟨parent, d, hd, hsources⟩ :=
      madeFrom_sources hforest hids hends hnames.transitions hrun ht hproper
    rw [hsources]
    cases hd with
    | start initial => exact absurd (hinitial.symm.trans initial) (by simp)
    | @state s level _ found =>
      have hkey : some (sourceKey t.item) = (State.ofNode q.node).ssid := by
        obtain ⟨x, hx⟩ :=
          Option.isSome_iff_exists.mp (hids.named _ (Chart.mem_states_of_place hq))
        have hsource : t.item.source = some x := by
          rw [← hid, ← Chart.ssid_eq_idOf hq]
          exact hx
        rw [sourceKey, hsource]
        exact hx.symm
      obtain rfl := stateOf_eq hids (Chart.mem_states_of_place hq) hkey found
      rw [← mem_leaves_iff htree hq, Departure.ofState, List.map_map]
      rfl
  · obtain ⟨block, hb, hmem⟩ := mem_madeFrom hforest hids hends hnames.transitions hrun ht
    have hleaf : (State.ofNode q.node).isComposite = false := by
      rw [Chart.isComposite_eq_hasRoom hq]
      simpa using hroom
    have hname : t.item.destination = (State.ofNode q.node).ssid := by
      rw [Chart.ssid_eq_idOf hq, hid]
    exact hb.target_leaf hids (Chart.mem_states_of_place hq) hname hleaf e ((hmem e).mp he)

/-- What is kept depends only on what is to be kept among the states of the chart. -/
theorem KeepsStates.congr {keeps keeps' : Place → Bool} (h : KeepsStates p planar keeps)
    (hsame : ∀ q ∈ p.descendants "state", keeps q = keeps' q) : KeepsStates p planar keeps' := by
  refine ⟨fun k => ?_, h.initial, fun t ht hproper hinitial q hq hid k => ?_,
    fun t ht hproper q hq hid hkeeps => ?_⟩
  · rw [h.states]
    refine exists_congr fun q => and_congr_right fun hq => ?_
    rw [hsame q hq]
  · rw [h.sources t ht hproper hinitial q hq hid]
    refine exists_congr fun r => and_congr_right fun hr => ?_
    rw [hsame r (Chart.mem_descendants_of_statesFrom hq hr)]
  · rw [← hsame q hq] at hkeeps
    exact h.targets t ht hproper q hq hid hkeeps

end

/-- Flattening keeps the states without a list of children. These are the basic states just if
every list of children of a state has a state in it. -/
theorem basic_states_survive_iff {p : Place} (htree : Chart.TreeShaped p)
    (hids : Identified (Chart.ofPlace p) (Chart.baseOf p)) (hends : (Chart.ofPlace p).PlainEnds)
    (hnames : OwnNames (Chart.ofPlace p)) {lines lines' : Lines} {planar : PlanarChart}
    (hrun : Runs (flatten (Chart.ofPlace p)) lines planar lines') :
    KeepsStates p planar (!hasRoom ·) ∧
      (KeepsStates p planar isBasic ↔
        ∀ q ∈ p.descendants "state", hasRoom q = true → isBasic q = false) := by
  have hkeeps := flatten_keepsStates htree hids hends hnames hrun
  refine ⟨hkeeps, fun hbasic q hq hroom => ?_, fun hlists => hkeeps.congr fun q hq => ?_⟩
  · -- a basic state with a list of children would have to be one without a list
    cases hqb : isBasic q with
    | false => rfl
    | true =>
      have hkey := (hbasic.states (idOf q)).mpr ⟨q, hq, hqb, rfl⟩
      obtain ⟨r, hr, hbare, hid⟩ := (hkeeps.states (idOf q)).mp hkey
      have hsame := hids.eq_of_ssid (Chart.mem_states_of_place hr) (Chart.mem_states_of_place hq)
        ((Chart.ssid_eq_idOf hr).trans (hid.trans (Chart.ssid_eq_idOf hq).symm))
      have hrooms : hasRoom r = hasRoom q := by
        rw [← Chart.isComposite_eq_hasRoom hr, ← Chart.isComposite_eq_hasRoom hq]
        exact congrArg (·.item.isComposite) hsame
      rw [hrooms, hroom] at hbare
      cases hbare
  · have hiff := htree.hasRoom_iff hlists hq
    cases hqb : isBasic q with
    | true => simp [hiff.mpr hqb]
    | false =>
      cases hroom : hasRoom q with
      | true => rfl
      | false => exact absurd (hqb.symm.trans (hiff.mp hroom)) (by simp)

/-- A switch with two positions in it, or with `items` in place of them. -/
def switch (items : List Chart.Item) : Place :=
  Chart.drawn "switch" [
    .state "1" "Switch" items,
    .state "4" "Off" [],
    .transition "11" none "1" "" "1",
    .transition "12" (some "1") "4" "[a > 0]" "1"]

theorem basic_states_survive_iff_switch :
    let p := switch [.state "2" "Low" [], .state "3" "High" [], .transition "13" none "2" "" "1"]
    ∃ lines, Runs (flatten (Chart.ofPlace p)) .initial (planarOf (Chart.ofPlace p)) lines ∧
      (∀ q ∈ p.descendants "state", hasRoom q = true → isBasic q = false) ∧
      KeepsStates p (planarOf (Chart.ofPlace p)) isBasic := by
  intro p
  have hids : Identified (Chart.ofPlace p) (Chart.baseOf p) ∧ (Chart.ofPlace p).PlainEnds := by
    decide +kernel
  have hnames : OwnNames (Chart.ofPlace p) := ⟨by decide +kernel, by decide +kernel⟩
  have hlists : ∀ q ∈ p.descendants "state", hasRoom q = true → isBasic q = false := by
    decide +kernel
  obtain ⟨lines, hrun⟩ := runs_planarOf (Chart.ofPlace p) (by decide +kernel)
  have hsurvive := basic_states_survive_iff (Chart.treeShaped_drawn _ _) hids.1 hids.2 hnames hrun
  exact ⟨lines, hrun, hlists, hsurvive.2.mpr hlists⟩

/-- A switch that has data of its own and no positions is lost: the chart goes from the start to
`error` only, and the transition out of the switch is gone. -/
theorem switch_lost :
    let p := switch [.data "x" "int" "LOCAL_DATA"]
    (∃ lines, Runs (flatten (Chart.ofPlace p)) .initial (planarOf (Chart.ofPlace p)) lines) ∧
      (∃ q ∈ p.descendants "state", isBasic q = true ∧ idOf q = some "1") ∧
      (planarOf (Chart.ofPlace p)).states.keys = [some "4", some "start", some "error"] ∧
      (planarOf (Chart.ofPlace p)).transitions.map (fun t => (t.ssid, t.source, t.target)) =
        [(some "11", some "start", some "error"), (some "start", some "start", some "error")] ∧
      ¬ KeepsStates p (planarOf (Chart.ofPlace p)) isBasic := by
  intro p
  have hbasic : ∃ q ∈ p.descendants "state", isBasic q = true ∧ idOf q = some "1" := by
    decide +kernel
  have hplanar : ((flatten (Chart.ofPlace p)).run.run .initial).1.isOk = true ∧
      (planarOf (Chart.ofPlace p)).states.keys = [some "4", some "start", some "error"] ∧
      (planarOf (Chart.ofPlace p)).transitions.map (fun t => (t.ssid, t.source, t.target)) =
        [(some "11", some "start", some "error"), (some "start", some "start", some "error")] := by
    decide +kernel
  obtain ⟨hok, hkeys, hends⟩ := hplanar
  refine ⟨runs_planarOf (Chart.ofPlace p) hok, hbasic, hkeys, hends, fun hkeeps => ?_⟩
  have hkey := ((hkeeps.states (some "1")).mpr hbasic).1
  rw [hkeys] at hkey
  exact absurd hkey (by decide)

end Planar

end Statechart
