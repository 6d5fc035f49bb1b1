import Statechart.Proofs.Planar.Generated

/-!
Flattening as a run. It widens labels in place, the during actions of leaves first and then the
actions of each transition in turn; what it still has to read stays as the texts give it
(`Faithful`). So every transition becomes what the labels of the texts say (`runs_flatten`).
-/

namespace Statechart.Planar

open Chart (State Transition Container Placed Hierarchical Identified)
open Label (View Cache)
open Label.Cache (Kept Looked)
open Xml (Place)

/-! ## What is still read -/

/-- A view shows the labels of the texts wherever flattening still looks: all of them but the
during actions of leaves and the transitions that are done. -/
structure Faithful (chart : Chart) (pending : List (Placed Transition)) (v : View) : Prop where
  entry : ∀ k, (v.state k).entry = ((View.original chart).state k).entry
  exit : ∀ k, (v.state k).exit = ((View.original chart).state k).exit
  during : ∀ s ∈ chart.states, s.item.isComposite = true →
    (v.state s.item.ssid).during = ((View.original chart).state s.item.ssid).during
  pending : ∀ t ∈ pending,
    v.transition t.item.ssid = (View.original chart).transition t.item.ssid
  nested : ∀ t ∈ chart.transitions, isNestedDefault t = true →
    v.transition t.item.ssid = (View.original chart).transition t.item.ssid

section

variable {chart : Chart} {base : List Container} {pending : List (Placed Transition)} {v : View}

theorem Faithful.original (chart : Chart) (pending : List (Placed Transition)) :
    Faithful chart pending (View.original chart) :=
  ⟨fun _ => rfl, fun _ => rfl, fun _ _ _ => rfl, fun _ _ => rfl, fun _ _ _ => rfl⟩

theorem Faithful.exits_eq (h : Faithful chart pending v) (ks : List (Option String)) :
    exits v ks = exits (View.original chart) ks := by
  simp only [exits, h.exit]

theorem Faithful.entries_eq (h : Faithful chart pending v) (ks : List (Option String)) :
    entries v ks = entries (View.original chart) ks := by
  simp only [entries, h.entry]

theorem Faithful.durings_eq (h : Faithful chart pending v) {ks : List (Option String)}
    (hks : ∀ k ∈ ks, ∃ s ∈ chart.states, s.item.isComposite = true ∧ s.item.ssid = k) :
    durings v ks = durings (View.original chart) ks := by
  refine List.flatMap_congr fun k hk => ?_
  obtain ⟨s, hs, hcomposite, rfl⟩ := hks k (List.mem_reverse.mp hk)
  exact h.during s hs hcomposite

/-- Widening the during actions of a leaf. -/
theorem Faithful.setState (h : Faithful chart pending v) (hi : Identified chart base)
    {s : Placed State} (hs : s ∈ chart.states) (hleaf : s.item.isComposite = false)
    (during : List String) :
    Faithful chart pending (v.setState s.item.ssid
      { v.state s.item.ssid with during := during }) := by
  refine ⟨fun k => ?_, fun k => ?_, fun s' hs' hcomposite => ?_, h.pending, h.nested⟩
  · by_cases hk : s.item.ssid = k
    · subst hk
      simpa using h.entry s.item.ssid
    · rw [View.setState_of_ne _ _ hk]
      exact h.entry k
  · by_cases hk : s.item.ssid = k
    · subst hk
      simpa using h.exit s.item.ssid
    · rw [View.setState_of_ne _ _ hk]
      exact h.exit k
  · have hne : s.item.ssid ≠ s'.item.ssid := by
      intro he
      rw [hi.eq_of_ssid hs hs' he, hcomposite] at hleaf
      cases hleaf
    rw [View.setState_of_ne _ _ hne]
    exact h.during s' hs' hcomposite

/-- Widening a transition that becomes planar ones of its own. -/
theorem Faithful.setTransition {t : Placed Transition} (h : Faithful chart (t :: pending) v)
    (hi : Identified chart base) (ht : t ∈ chart.transitions) (hp : pending ⊆ chart.transitions)
    (hnot : t ∉ pending) (hproper : isNestedDefault t = false) (l : TransitionLabel) :
    Faithful chart pending (v.setTransition t.item.ssid l) := by
  have hne : ∀ t' ∈ chart.transitions, t ≠ t' → t.item.ssid ≠ t'.item.ssid :=
    fun t' ht' hne he => hne (hi.eq_of_transition_ssid ht ht' he)
  refine ⟨h.entry, h.exit, h.during, fun t' ht' => ?_, fun t' ht' hnested => ?_⟩
  · rw [View.setTransition_of_ne _ _ (hne t' (hp ht') (fun he => hnot (he ▸ ht')))]
    exact h.pending t' (List.mem_cons_of_mem _ ht')
  · have : t ≠ t' := by
      rintro rfl
      rw [hproper] at hnested
      cases hnested
    rw [View.setTransition_of_ne _ _ (hne t' ht' this)]
    exact h.nested t' ht' hnested

theorem Faithful.tail {t : Placed Transition} (h : Faithful chart (t :: pending) v) :
    Faithful chart pending v :=
  ⟨h.entry, h.exit, h.during, fun t' ht' => h.pending t' (List.mem_cons_of_mem _ ht'), h.nested⟩

end

/-! ## The hierarchy -/

section

variable {chart : Chart} {base : List Container}

theorem enclosingStates_append (h : Hierarchical chart base) {above : List Container}
    (ha : ∀ k ∈ above, k.kind = .state) : enclosingStates (above ++ base) = above.map (·.ssid) := by
  obtain ⟨ssid, beyond, rfl⟩ := h.root
  induction above with
  | nil => rfl
  | cons k above ih =>
    obtain ⟨kind, name⟩ := k
    obtain rfl : kind = .state := ha _ (List.mem_cons_self ..)
    rw [List.cons_append, enclosingStates_state, List.map_cons,
      ih fun k hk => ha k (List.mem_cons_of_mem _ hk)]

/-- The states around a state are composite states of the chart. -/
theorem enclosing_composite (h : Hierarchical chart base) {s : Placed State}
    (hs : s ∈ chart.states) :
    ∀ k ∈ enclosingStates s.around,
      ∃ q ∈ chart.states, q.item.isComposite = true ∧ q.item.ssid = k := by
  intro k hk
  obtain ⟨above, ha, hstate⟩ := h.around_eq hs
  rw [ha, enclosingStates_append h hstate] at hk
  obtain ⟨k', hk', rfl⟩ := List.mem_map.mp hk
  obtain ⟨a, b, rfl⟩ := List.append_of_mem hk'
  have hl : s.lineage = (⟨.state, s.item.ssid⟩ :: a) ++ k' :: (b ++ base) := by
    simp [Placed.lineage, ha]
  obtain ⟨q, hq, hql, -, hcomposite⟩ := h.place_of_lineage hs hl (by simp)
  refine ⟨q, hq, hcomposite (by simp), ?_⟩
  exact congrArg Container.ssid (List.cons.inj hql).1

/-- A transition that stands in something with the identifier of a state stands in that state. -/
theorem around_eq_lineage (h : Hierarchical chart base) (hi : Identified chart base)
    {t : Placed Transition} (ht : t ∈ chart.transitions) {s : Placed State}
    (hs : s ∈ chart.states) {parent : Container} (hp : t.around.head? = some parent)
    (he : parent.ssid = s.item.ssid) : t.around = s.lineage ∧ s.item.isComposite = true := by
  rcases h.parents t ht with hbase | ⟨q, hq, hcomposite, haround⟩
  · rw [hbase] at hp
    exact absurd he.symm (hi.apart s hs parent hp)
  · rw [haround, Placed.lineage, List.head?_cons, Option.some.injEq] at hp
    subst hp
    obtain rfl := hi.eq_of_ssid hq hs he
    exact ⟨haround, hcomposite⟩

theorem active_composite (h : Hierarchical chart base) (hi : Identified chart base)
    {t : Placed Transition} (ht : t ∈ chart.transitions) {s : Placed State}
    (hs : s ∈ chart.states) {parent : Container} (hp : t.around.head? = some parent) :
    ∀ k ∈ active parent.ssid s.item.ssid s.around,
      ∃ q ∈ chart.states, q.item.isComposite = true ∧ q.item.ssid = k := by
  intro k hk
  rcases List.mem_append.mp hk with hk | hk
  · by_cases he : s.item.ssid = parent.ssid
    · rw [if_pos (by simpa using he), List.mem_singleton] at hk
      exact ⟨s, hs, (around_eq_lineage h hi ht hs hp he.symm).2, hk.symm⟩
    · rw [if_neg (by simpa using he)] at hk
      cases hk
  · exact enclosing_composite h hs k hk

/-! ## Default transitions -/

/-- The transitions that a way takes or refuses. -/
def Way.defaults (w : Way) : List Transition :=
  w.choices.flatMap fun x => x.refused ++ x.taken.toList

theorem waysVia_defaults {ss : List State} {ssid : Option String} {P : Transition → Prop}
    (hss : ∀ s ∈ ss, ∀ ws, ways s = some ws → ∀ w ∈ ws, ∀ t ∈ w.defaults, P t)
    (ts refused : List Transition) (hts : ∀ t ∈ refused ++ ts, P t) {ws : List Way}
    (h : waysVia (waysOf ss) ssid refused ts = some ws) :
    ∀ w ∈ ws, ∀ t ∈ w.defaults, P t := by
  induction ts generalizing refused ws with
  | nil =>
    rw [waysVia, Option.some.injEq] at h
    subst h
    intro w hw t ht
    rw [List.mem_singleton.mp hw] at ht
    exact hts t (by simpa [Way.defaults] using ht)
  | cons u ts ih =>
    obtain ⟨s, below, others, hs, hb, ho, rfl⟩ := waysVia_cons.mp h
    intro w hw t ht
    rcases List.mem_append.mp hw with hw | hw
    · obtain ⟨w', hw', rfl⟩ := List.mem_map.mp hw
      rcases List.mem_append.mp (show t ∈ (refused ++ [u]) ++ w'.defaults from ht) with ht | ht
      · exact hts t (List.append_subset.mpr
          ⟨List.subset_append_left .., by simp⟩ ht)
      · exact hss s (List.mem_of_find?_eq_some hs) below hb w' hw' t ht
    · exact ih (refused ++ [u]) (by simpa using hts) ho w hw t ht

/-- Ways into a state are made of default transitions in it. -/
theorem ways_defaults (s : State) (around : List Container) {ws : List Way}
    (h : ways s = some ws) :
    ∀ w ∈ ws, ∀ t ∈ w.defaults, ∃ p ∈ s.places around, t ∈ p.item.defaults := by
  induction s using State.induction generalizing around ws with
  | mk ssid composite defaults substates ih =>
    rw [ways] at h
    cases composite with
    | false =>
      simp only [Bool.false_eq_true, if_false, Option.some.injEq] at h
      subst h
      intro w hw t ht
      rw [List.mem_singleton.mp hw] at ht
      cases ht
    | true =>
      simp only [if_true, Option.bind_eq_some_iff] at h
      obtain ⟨ts, hts, h⟩ := h
      have hsorted : sortByOrder defaults = .ok ts := by
        cases hd : sortByOrder defaults with
        | error f =>
          rw [hd] at hts
          cases hts
        | ok us =>
          rw [hd] at hts
          cases hts
          rfl
      refine waysVia_defaults (fun s hs ws hws w hw t ht => ?_) ts [] (fun t ht => ?_) h
      · obtain ⟨p, hp, htp⟩ := ih s hs (⟨.state, ssid⟩ :: around) hws w hw t ht
        refine ⟨p, ?_, htp⟩
        rw [State.places_eq]
        exact List.mem_cons_of_mem _ (State.mem_placesOf.mpr ⟨s, hs, hp⟩)
      · exact ⟨_, State.self_mem_places .., mem_of_sortByOrder hsorted ht⟩

/-- The default transitions on a way into a state of the chart are nested in it. -/
theorem ways_nested (h : Hierarchical chart base) {s : Placed State} (hs : s ∈ chart.states)
    {ws : List Way} (hw : ways s.item = some ws) :
    ∀ w ∈ ws, ∀ t ∈ w.defaults,
      ∃ t' ∈ chart.transitions, t'.item = t ∧ isNestedDefault t' = true := by
  intro w hwm t ht
  obtain ⟨p, hp, htp⟩ := ways_defaults s.item s.around hw w hwm t ht
  obtain ⟨hsource, hmem⟩ := h.defaults p (h.mem_of_mem_places hs hp) t htp
  refine ⟨_, hmem, rfl, ?_⟩
  simp [isNestedDefault, isInitial, sourceKey, hsource, Placed.lineage]

/-- Ways show the same under views that agree on the default transitions and what they enter. -/
theorem Way.congr {v v' : View} {w : Way}
    (hw : ∀ t ∈ w.defaults, v.transition t.ssid = v'.transition t.ssid ∧
      (v.state t.destination).entry = (v'.state t.destination).entry) :
    w.conditions v = w.conditions v' ∧ w.actions v = w.actions v' := by
  have hlabel : ∀ x ∈ w.choices, ∀ t ∈ x.refused ++ x.taken.toList,
      v.transition t.ssid = v'.transition t.ssid ∧
        (v.state t.destination).entry = (v'.state t.destination).entry :=
    fun x hx t ht => hw t (List.mem_flatMap_of_mem hx ht)
  constructor
  · refine List.flatMap_congr fun x hx => ?_
    unfold Choice.conditions
    congr 1
    · refine List.map_congr_left fun t ht => ?_
      rw [refusal, refusal, (hlabel x hx t (List.mem_append_left _ ht)).1]
    · refine List.flatMap_congr fun t ht => ?_
      rw [conditionOf, conditionOf, (hlabel x hx t (List.mem_append_right _ ht)).1]
  · refine List.flatMap_congr fun x hx => List.flatMap_congr fun t ht => ?_
    obtain ⟨hself, hentry⟩ := hlabel x hx t (List.mem_append_right _ ht)
    rw [defaultActions, defaultActions, hself, hentry]

/-- Ways show the same under a faithful view. -/
theorem Faithful.way_eq {pending : List (Placed Transition)} {v : View}
    (h : Faithful chart pending v) {w : Way}
    (hw : ∀ t ∈ w.defaults, ∃ t' ∈ chart.transitions, t'.item = t ∧ isNestedDefault t' = true) :
    w.conditions v = w.conditions (View.original chart) ∧
      w.actions v = w.actions (View.original chart) := by
  refine Way.congr fun t ht => ⟨?_, h.entry t.destination⟩
  obtain ⟨t', ht', rfl, hnested⟩ := hw t ht
  exact h.nested t' ht' hnested

end

/-! ## Steps -/

section

variable {chart : Chart} {base : List Container} {pending : List (Placed Transition)}
  {c c' : Cache}

theorem runs_climb (hi : Identified chart base) {s : Placed State} (hs : s ∈ chart.states)
    (hleaf : s.item.isComposite = false) (around : List Container) {name longName : String}
    (hc : c.Kept chart) (hv : Faithful chart pending (c.view chart))
    (h : Runs (climb chart s.item.ssid around name) c longName c') :
    c'.Kept chart ∧ Faithful chart pending (c'.view chart) := by
  induction around generalizing name c with
  | nil =>
    rw [climb] at h
    exact absurd h not_runs_throw
  | cons k around ih =>
    obtain ⟨kind, outer⟩ := k
    by_cases hk : kind = .state
    · subst hk
      rw [climb] at h
      obtain ⟨l, c₁, hl, h⟩ := runs_bind.mp h
      obtain ⟨-, -, hl⟩ := Cache.runs_state hc hl
      obtain ⟨own, c₂, ho, h⟩ := runs_bind.mp h
      obtain ⟨rfl, hread, ho⟩ := Cache.runs_state hl.kept ho
      obtain ⟨u, c₃, hset, h⟩ := runs_bind.mp h
      obtain ⟨hview, hkept⟩ := Cache.runs_setState ho.kept hread hset
      refine ih hkept ?_ h
      rw [hview, ho.view]
      rw [hl.view]
      exact hv.setState hi hs hleaf _
    · rw [climb_of_ne hk] at h
      obtain ⟨-, rfl⟩ := runs_pure.mp h
      exact ⟨hc, hv⟩

theorem runs_leafState (hi : Identified chart base) {s : Placed State} (hs : s ∈ chart.states)
    (hleaf : s.item.isComposite = false) {p : PlanarState} (hc : c.Kept chart)
    (hv : Faithful chart pending (c.view chart)) (h : Runs (leafState chart s) c p c') :
    c'.Kept chart ∧ Faithful chart pending (c'.view chart) := by
  unfold leafState at h
  obtain ⟨l, c₁, hl, h⟩ := runs_bind.mp h
  obtain ⟨-, -, hl⟩ := Cache.runs_state hc hl
  obtain ⟨longName, c₂, hclimb, h⟩ := runs_bind.mp h
  obtain ⟨hkept, hfaithful⟩ := runs_climb hi hs hleaf s.around hl.kept (hl.view ▸ hv) hclimb
  obtain ⟨own, c₃, ho, h⟩ := runs_bind.mp h
  obtain ⟨-, -, ho⟩ := Cache.runs_state hkept ho
  obtain ⟨-, rfl⟩ := runs_pure.mp h
  exact ⟨ho.kept, ho.view ▸ hfaithful⟩

/-- The states of the planar chart are a table of leaves with the two states of its own. -/
theorem runs_planarStates (hi : Identified chart base)
    {states : Table (Option String) PlanarState} (hc : c.Kept chart)
    (hv : Faithful chart pending (c.view chart)) (h : Runs (planarStates chart) c states c') :
    c'.Kept chart ∧ Faithful chart pending (c'.view chart) ∧
      ∃ leaves, states = ((Table.ofList leaves).insert (some "start") (bareState "start")).insert
        (some "error") (bareState "error") := by
  unfold planarStates at h
  obtain ⟨leaves, c₁, hl, h⟩ := runs_bind.mp h
  obtain ⟨rfl, rfl⟩ := runs_pure.mp h
  have hkeeps : c₁.Kept chart ∧ Faithful chart pending (c₁.view chart) := by
    refine runs_mapM_keeps (P := fun c => c.Kept chart ∧ Faithful chart pending (c.view chart))
      (fun s hs => ?_) ⟨hc, hv⟩ hl
    rintro c y c' ⟨hc, hv⟩ hrun
    obtain ⟨hs, hleaf⟩ := List.mem_filter.mp hs
    obtain ⟨p, c₂, hp, hrun⟩ := runs_bind.mp hrun
    obtain ⟨-, rfl⟩ := runs_pure.mp hrun
    exact runs_leafState hi hs (by simpa using hleaf) hc hv hp
  exact ⟨hkeeps.1, hkeeps.2, leaves, rfl⟩

/-- A label with actions put in front of its own. -/
def widened (l : TransitionLabel) (first leaving : List String) : TransitionLabel :=
  { l with
    conditionActions := first ++ l.conditionActions
    transitionActions := leaving ++ l.transitionActions }

/-- Widening by the source: what comes first and what is left goes into the label. -/
theorem runs_widenBySource {t : Transition} {parent : Option String} {u : Unit}
    (hplain : Chart.IsPlain t.source) (hc : c.Kept chart)
    (h : Runs (widenBySource chart t parent) c u c') :
    ∃ first leaving, c'.Kept chart ∧
      c'.view chart = (c.view chart).setTransition t.ssid
        (widened ((c.view chart).transition t.ssid) first leaving) ∧
      ((isInitial t = true ∧ first = [] ∧ leaving = []) ∨
      (isInitial t = false ∧ ∃ s, stateOf chart (some (sourceKey t)) = some s ∧
        AllReadable chart (some (sourceKey t) :: enclosingStates s.around) ∧
        first = durings (c.view chart) (active parent (some (sourceKey t)) s.around) ∧
        leaving = exits (c.view chart) (left parent (some (sourceKey t)) s.around))) := by
  unfold widenBySource at h
  cases hinitial : isInitial t with
  | true =>
    simp only [hinitial, if_true] at h
    obtain ⟨-, rfl⟩ := runs_pure.mp h
    refine ⟨[], [], hc, ?_, .inl ⟨rfl, rfl, rfl⟩⟩
    exact (View.setTransition_same ..).symm
  | false =>
    simp only [hinitial, Bool.false_eq_true, if_false] at h
    obtain ⟨l, c₁, hl, h⟩ := runs_bind.mp h
    obtain ⟨rfl, hread, hl⟩ := Cache.runs_state hc hl
    obtain ⟨s, c₂, hs, h⟩ := runs_bind.mp h
    obtain ⟨hstate, rfl⟩ := runs_stateAt (isPlain_sourceKey hplain) hs
    obtain ⟨⟨during, exited⟩, c₃, hleave, h⟩ := runs_bind.mp h
    obtain ⟨hduring, hexited, hlook, hreads⟩ := runs_leaving s.around hl.kept hleave
    dsimp only at h hduring hexited
    obtain ⟨own, c₄, ho, h⟩ := runs_bind.mp h
    obtain ⟨rfl, hlabel, ho⟩ := Cache.runs_transition hlook.kept ho
    obtain ⟨hview, hkept⟩ := Cache.runs_setTransition ho.kept hlabel h
    refine ⟨during, exited, hkept, ?_, .inr ⟨rfl, s, hstate, hreads.cons hread, ?_, ?_⟩⟩
    · rw [hview, ho.view, hlook.view, hl.view]
      rfl
    · rw [hduring, hl.view]
      cases hinner : some (sourceKey t) == parent <;> simp [active, hinner, durings]
    · rw [hexited, hl.view]
      cases hinner : some (sourceKey t) == parent <;> simp [left, hinner, exits]

theorem runs_ownEntries {parent destination : Option String} {own : List String}
    (hc : c.Kept chart) (h : Runs (ownEntries chart parent destination) c own c') :
    own = entries (c.view chart) (if destination == parent then [] else [destination]) ∧
      AllReadable chart (if destination == parent then [] else [destination]) ∧
      Looked chart c c' := by
  unfold ownEntries at h
  cases he : destination == parent with
  | true =>
    simp only [he, if_true] at h
    obtain ⟨rfl, rfl⟩ := runs_pure.mp h
    exact ⟨rfl, by simp [AllReadable], hc.looked⟩
  | false =>
    simp only [he, Bool.false_eq_true, if_false] at h
    obtain ⟨l, hl, rfl⟩ := runs_map.mp h
    obtain ⟨rfl, hread, hl⟩ := Cache.runs_state hc hl
    exact ⟨by simp [entries], by simpa [AllReadable] using hread, hl⟩

/-- Widening by the destination: what is entered goes to the end of the label. -/
theorem runs_widenByDestination {t : Transition} {parent : Option String} {u : Unit}
    (hplain : Chart.IsPlain t.destination) (hc : c.Kept chart)
    (h : Runs (widenByDestination chart t parent) c u c') :
    ∃ d, stateOf chart t.destination = some d ∧
      AllReadable chart (entered parent t.destination d.around) ∧ c'.Kept chart ∧
      c'.view chart = (c.view chart).setTransition t.ssid
        { (c.view chart).transition t.ssid with
          transitionActions := ((c.view chart).transition t.ssid).transitionActions ++
            entries (c.view chart) (entered parent t.destination d.around) } := by
  unfold widenByDestination at h
  obtain ⟨own, c₁, ho, h⟩ := runs_bind.mp h
  obtain ⟨rfl, hown, ho⟩ := runs_ownEntries hc ho
  obtain ⟨d, c₂, hd, h⟩ := runs_bind.mp h
  obtain ⟨hstate, rfl⟩ := runs_stateAt hplain hd
  obtain ⟨entering, c₂, he, h⟩ := runs_bind.mp h
  obtain ⟨rfl, he, hup⟩ := runs_arriving d.around ho.kept he
  obtain ⟨l, c₃, hl, h⟩ := runs_bind.mp h
  obtain ⟨rfl, hlabel, hl⟩ := Cache.runs_transition he.kept hl
  obtain ⟨hview, hkept⟩ := Cache.runs_setTransition hl.kept hlabel h
  refine ⟨d, hstate, ?_, hkept, ?_⟩
  · intro k hk
    rcases List.mem_append.mp hk with hk | hk
    · exact hown k hk
    · exact hup k hk
  · rw [hview, hl.view, he.view, ho.view]
    simp [entered, entries]

theorem runs_leavesFrom (h : Hierarchical chart base) {t : Transition}
    (hplain : Chart.IsPlain t.source) {leaves : List (Option String × List String)}
    (hc : c.Kept chart)
    (hrun : Runs (leavesFrom chart t) c leaves c') :
    Looked chart c c' ∧
      ((isInitial t = true ∧ leaves = [(some startId, [])]) ∨
      (isInitial t = false ∧ ∃ s, stateOf chart (some (sourceKey t)) = some s ∧
        leaves = (s.item.leaves s.around).map (exitPath (c.view chart) s.lineage []) ∧
        ∀ p ∈ s.item.leaves s.around, AllReadable chart (p.within s.lineage))) := by
  unfold leavesFrom at hrun
  cases hinitial : isInitial t with
  | true =>
    simp only [hinitial, if_true] at hrun
    obtain ⟨rfl, rfl⟩ := runs_pure.mp hrun
    exact ⟨hc.looked, .inl ⟨rfl, rfl⟩⟩
  | false =>
    simp only [hinitial, Bool.false_eq_true, if_false] at hrun
    obtain ⟨s, c₁, hs, hrun⟩ := runs_bind.mp hrun
    obtain ⟨hstate, rfl⟩ := runs_stateAt (isPlain_sourceKey hplain) hs
    have hcomposite : ∀ p ∈ s.item.places s.around,
        p.item.substates ≠ [] → p.item.isComposite = true :=
      fun p hp => h.composite p (h.mem_of_mem_places (stateOf_mem hstate) hp)
    obtain ⟨hleaves, hlook, hread⟩ := runs_exitPaths s.item s.around hcomposite hc hrun
    exact ⟨hlook, .inr ⟨rfl, s, hstate, hleaves, hread⟩⟩

theorem runs_levelFrom {t : Transition} (hplain : Chart.IsPlain t.source) {level : Int}
    (hrun : Runs (levelFrom chart t) c level c') :
    c = c' ∧ ((isInitial t = true ∧ level = 0) ∨
      (isInitial t = false ∧ ∃ s, stateOf chart (some (sourceKey t)) = some s ∧
        levelOf s.around = .ok level)) := by
  unfold levelFrom at hrun
  cases hinitial : isInitial t with
  | true =>
    simp only [hinitial, if_true] at hrun
    obtain ⟨rfl, rfl⟩ := runs_pure.mp hrun
    exact ⟨rfl, .inl ⟨rfl, rfl⟩⟩
  | false =>
    simp only [hinitial, Bool.false_eq_true, if_false] at hrun
    obtain ⟨s, c₁, hs, hrun⟩ := runs_bind.mp hrun
    obtain ⟨hstate, rfl⟩ := runs_stateAt (isPlain_sourceKey hplain) hs
    obtain ⟨hlevel, rfl⟩ := runs_lift.mp hrun
    exact ⟨rfl, .inr ⟨rfl, s, hstate, hlevel⟩⟩

/-- What the steps find at the source of a transition is its departure. -/
theorem departs_of_steps (h : Hierarchical chart base) (hi : Identified chart base)
    {t : Placed Transition} (ht : t ∈ chart.transitions) {parent : Container}
    (hparent : t.around.head? = some parent)
    (hkind : isInitial t.item = true → parent.kind = .chart)
    {done : List (Placed Transition)} {v v' : View} (hv : Faithful chart done v)
    (hv' : Faithful chart pending v') {first leaving : List String}
    {leaves : List (Option String × List String)} {level : Int}
    (hwidened : (isInitial t.item = true ∧ first = [] ∧ leaving = []) ∨
      (isInitial t.item = false ∧ ∃ s, stateOf chart (some (sourceKey t.item)) = some s ∧
        AllReadable chart (some (sourceKey t.item) :: enclosingStates s.around) ∧
        first = durings v (active parent.ssid (some (sourceKey t.item)) s.around) ∧
        leaving = exits v (left parent.ssid (some (sourceKey t.item)) s.around)))
    (hleaves : (isInitial t.item = true ∧ leaves = [(some startId, [])]) ∨
      (isInitial t.item = false ∧ ∃ s, stateOf chart (some (sourceKey t.item)) = some s ∧
        leaves = (s.item.leaves s.around).map (exitPath v' s.lineage []) ∧
        ∀ p ∈ s.item.leaves s.around, AllReadable chart (p.within s.lineage)))
    (hlevel : (isInitial t.item = true ∧ level = 0) ∨
      (isInitial t.item = false ∧ ∃ s, stateOf chart (some (sourceKey t.item)) = some s ∧
        levelOf s.around = .ok level)) :
    Departs chart (View.original chart) t.item parent ⟨first, leaves, leaving, level⟩ := by
  cases hin : isInitial t.item with
  | true =>
    simp only [hin, true_and, Bool.true_eq_false, false_and, or_false] at hwidened hleaves hlevel
    obtain ⟨⟨rfl, rfl⟩, rfl, rfl⟩ := And.intro hwidened (And.intro hleaves hlevel)
    exact .start hin (hkind hin)
  | false =>
    simp only [hin, Bool.false_eq_true, false_and, true_and, false_or] at hwidened hleaves hlevel
    obtain ⟨s, hs, hread, rfl, rfl⟩ := hwidened
    obtain ⟨s', hs', rfl, hbelow⟩ := hleaves
    obtain ⟨s'', hs'', hlevel⟩ := hlevel
    obtain rfl : s = s' := Option.some.inj (hs.symm.trans hs')
    obtain rfl : s = s'' := Option.some.inj (hs.symm.trans hs'')
    have hname : s.item.ssid = some (sourceKey t.item) := stateOf_ssid hs
    have hcomposite := active_composite h hi ht (stateOf_mem hs) hparent
    rw [hname] at hcomposite
    have e : (⟨durings v (active parent.ssid (some (sourceKey t.item)) s.around),
        (s.item.leaves s.around).map (exitPath v' s.lineage []),
        exits v (left parent.ssid (some (sourceKey t.item)) s.around), level⟩ : Departure) =
        .ofState (View.original chart) parent.ssid (sourceKey t.item) s level := by
      have hpath : exitPath v' s.lineage [] = exitPath (View.original chart) s.lineage [] := by
        funext p
        rw [exitPath, exitPath, hv'.exits_eq]
      rw [hv.durings_eq hcomposite, hv.exits_eq, hpath]
      rfl
    rw [e]
    exact .state hin hs hlevel hread hbelow

/-- One transition: it becomes what the texts say, and the rest stays to be read. -/
theorem runs_planarTransitions (h : Hierarchical chart base) (hi : Identified chart base)
    (hends : chart.PlainEnds) {t : Placed Transition} (ht : t ∈ chart.transitions)
    (hp : pending ⊆ chart.transitions) (hnot : t ∉ pending) {block : List PlanarTransition}
    (hc : c.Kept chart)
    (hv : Faithful chart (t :: pending) (c.view chart))
    (hrun : Runs (planarTransitions chart t) c block c') :
    Becomes chart (View.original chart) t block ∧ c'.Kept chart ∧
      Faithful chart pending (c'.view chart) := by
  obtain ⟨hplain, hplain'⟩ := hends t ht
  unfold planarTransitions at hrun
  obtain ⟨own, c₁, hl, hrun⟩ := runs_bind.mp hrun
  obtain ⟨-, hlabel, hl⟩ := Cache.runs_transition hc hl
  rw [← hl.view] at hv
  cases hparent : t.around.head? with
  | none =>
    simp only [hparent] at hrun
    exact absurd hrun not_runs_throw
  | some parent =>
    simp only [hparent] at hrun
    have hnested : isNestedDefault t = (isInitial t.item && parent.kind != .chart) := by
      simp [isNestedDefault, hparent]
    rw [← hnested] at hrun
    cases hn : isNestedDefault t with
    | true =>
      simp only [hn, if_true] at hrun
      obtain ⟨rfl, rfl⟩ := runs_pure.mp hrun
      exact ⟨.nested hn, hl.kept, hv.tail⟩
    | false =>
      simp only [hn, Bool.false_eq_true, if_false] at hrun
      obtain ⟨u, c₂, hsource, hrun⟩ := runs_bind.mp hrun
      obtain ⟨first, leaving, hkept₂, hview₂, hdeparts⟩ := runs_widenBySource hplain hl.kept hsource
      obtain ⟨u', c₃, hdest, hrun⟩ := runs_bind.mp hrun
      obtain ⟨goal, hgoal, hentered, hkept₃, hview₃⟩ := runs_widenByDestination hplain' hkept₂ hdest
      obtain ⟨leaves, c₄, hout, hrun⟩ := runs_bind.mp hrun
      obtain ⟨hlook₄, hleaves⟩ := runs_leavesFrom h hplain hkept₃ hout
      obtain ⟨l, c₅, hown, hrun⟩ := runs_bind.mp hrun
      obtain ⟨rfl, -, hlook₅⟩ := Cache.runs_transition hlook₄.kept hown
      obtain ⟨q, c₆, hplace, hrun⟩ := runs_bind.mp hrun
      obtain ⟨hfound, rfl⟩ := runs_placeAt hplace
      obtain ⟨hq, hsame⟩ := stateOf_of_place? hplain' hfound
      have hitem : goal.item = State.ofNode q.node :=
        congrArg Placed.item (Option.some.inj (hgoal.symm.trans hsame))
      obtain ⟨paths, c₆, hpaths, hrun⟩ := runs_bind.mp hrun
      obtain ⟨ws, hws, rfl, hlook₆, hreadable⟩ :=
        runs_entryPaths hends (maxDepth chart) hq hlook₅.kept hpaths
      rw [← hitem] at hws
      obtain ⟨level, c₇, hlevel, hrun⟩ := runs_bind.mp hrun
      obtain ⟨rfl, hdepth⟩ := runs_levelFrom hplain hlevel
      obtain ⟨order, c₇, horder, hrun⟩ := runs_bind.mp hrun
      obtain ⟨hordered, rfl⟩ := runs_lift.mp horder
      obtain ⟨rfl, rfl⟩ := runs_pure.mp hrun
      have hfaithful : Faithful chart pending (c₃.view chart) := by
        rw [hview₃, hview₂, View.setTransition_setTransition]
        exact hv.setTransition hi ht hp hnot hn _
      have hentries : ∀ ks, entries (c₂.view chart) ks = entries (View.original chart) ks := by
        intro ks
        rw [hview₂]
        exact hv.entries_eq ks
      -- the label as it was widened on both sides
      have hwide : (c₃.view chart).transition t.item.ssid =
          { (View.original chart).transition t.item.ssid with
            conditionActions :=
              first ++ ((View.original chart).transition t.item.ssid).conditionActions
            transitionActions :=
              leaving ++ ((View.original chart).transition t.item.ssid).transitionActions ++
                entries (View.original chart)
                  (entered parent.ssid t.item.destination goal.around) } := by
        rw [hview₃, View.setTransition_self, hentries, hview₂,
          View.setTransition_self, hv.pending t (List.mem_cons_self ..)]
        rfl
      have hd : Departs chart (View.original chart) t.item parent
          ⟨first, leaves, leaving, level⟩ := by
        have hkind : isInitial t.item = true → parent.kind = .chart := by
          intro hinitial
          simpa [hinitial, hn] using hnested
        exact departs_of_steps h hi ht hparent hkind hv hfaithful hdeparts hleaves hdepth
      refine ⟨?_, hlook₆.kept, ?_⟩
      · have hmade := Becomes.made hn hparent hd hgoal hws hordered hlabel hentered hreadable
        convert hmade using 1
        refine List.flatMap_congr fun leaf _ => ?_
        rw [List.map_map]
        refine List.map_congr_left fun w hw => ?_
        obtain ⟨hconditions, hactions⟩ :=
          hfaithful.way_eq (ways_nested h (stateOf_mem hgoal) hws w hw)
        simp only [Function.comp_apply, Way.path, hwide, hlook₅.view, hlook₄.view, hconditions,
          hactions, Departure.made, Departure.lead, conditionOf, List.nil_append, List.append_assoc]
      · rw [hlook₆.view, hlook₅.view, hlook₄.view]
        exact hfaithful

/-- All transitions in turn. -/
theorem runs_allTransitions (h : Hierarchical chart base) (hi : Identified chart base)
    (hends : chart.PlainEnds) (pending : List (Placed Transition))
    (hp : pending ⊆ chart.transitions)
    (hnodup : (pending.map (·.item.ssid)).Nodup) {blocks : List (List PlanarTransition)}
    (hc : c.Kept chart) (hv : Faithful chart pending (c.view chart))
    (hrun : Runs (pending.mapM (planarTransitions chart)) c blocks c') :
    List.Forall₂ (Becomes chart (View.original chart)) pending blocks := by
  induction pending generalizing c blocks with
  | nil =>
    rw [List.mapM_nil] at hrun
    obtain ⟨rfl, -⟩ := runs_pure.mp hrun
    exact .nil
  | cons t pending ih =>
    obtain ⟨block, c₁, rest, hblock, hrest, rfl⟩ := runs_mapM_cons.mp hrun
    obtain ⟨hnot, hnodup⟩ := List.nodup_cons.mp hnodup
    obtain ⟨ht, hp⟩ := List.cons_subset.mp hp
    have hmem : t ∉ pending := fun hmem => hnot (List.mem_map_of_mem hmem)
    obtain ⟨hbecomes, hkept, hfaithful⟩ := runs_planarTransitions h hi hends ht hp hmem hc hv hblock
    exact .cons hbecomes (ih hp hnodup hkept hfaithful hrest)

theorem runs_flattening {lines lines' : Lines} {planar : PlanarChart}
    (hrun : Runs (flatten chart) lines planar lines') :
    ∃ c', Runs (flattening chart) (Cache.fresh lines) planar c' := by
  have e : (flatten chart).run.run lines = (((flattening chart).run.run (.fresh lines)).1,
      ((flattening chart).run.run (.fresh lines)).2.lines) := rfl
  unfold Runs at hrun
  rw [e] at hrun
  exact ⟨((flattening chart).run.run (.fresh lines)).2, Prod.ext (Prod.mk.inj hrun).1 rfl⟩

/-- Whatever is flattened, the start has a transition of its own that fails. -/
theorem flatten_shape {lines lines' : Lines} {planar : PlanarChart}
    (hrun : Runs (flatten chart) lines planar lines') :
    ∃ blocks : List (List PlanarTransition), planar.transitions = blocks.flatten ++ [startFails] ∧
      ∀ block ∈ blocks, ∃ t ∈ chart.transitions, ∃ c c',
        Runs (planarTransitions chart t) c block c' := by
  obtain ⟨c', hwork⟩ := runs_flattening hrun
  unfold flattening at hwork
  obtain ⟨states, c₁, -, hwork⟩ := runs_bind.mp hwork
  obtain ⟨blocks, c₂, hblocks, hwork⟩ := runs_bind.mp hwork
  obtain ⟨vars, c₃, -, hwork⟩ := runs_bind.mp hwork
  obtain ⟨cache, c₄, -, hwork⟩ := runs_bind.mp hwork
  obtain ⟨rfl, -⟩ := runs_pure.mp hwork
  exact ⟨blocks, rfl, mem_of_runs_mapM hblocks⟩

/-- A planar transition made from a transition goes from a leaf below its source along a path
into its destination. -/
theorem planarTransitions_mem {t : Placed Transition} {block : List PlanarTransition}
    (hrun : Runs (planarTransitions chart t) c block c') {e : PlanarTransition} (he : e ∈ block) :
    ∃ (l : TransitionLabel) (goal : Place) (leaves : List (Option String × List String))
      (paths : List EntryPath) (c₁ c₂ c₃ c₄ : Cache), Runs (leavesFrom chart t.item) c₁ leaves c₂ ∧
      chart.place? t.item.destination = .ok (some goal) ∧
      Runs (entryPaths chart (maxDepth chart) goal
        (if l.condition == "" then [] else [l.condition]) []) c₃ paths c₄ ∧
      (∃ leaf ∈ leaves, e.source = leaf.1) ∧
      ∃ path ∈ paths, e.target = path.target ∧ e.conditions = path.conditions := by
  unfold planarTransitions at hrun
  obtain ⟨own, c₁, -, hrun⟩ := runs_bind.mp hrun
  cases hparent : t.around.head? with
  | none =>
    simp only [hparent] at hrun
    exact absurd hrun not_runs_throw
  | some parent =>
    simp only [hparent] at hrun
    split at hrun
    · obtain ⟨rfl, -⟩ := runs_pure.mp hrun
      cases he
    · obtain ⟨u, c₂, -, hrun⟩ := runs_bind.mp hrun
      obtain ⟨u', c₃, -, hrun⟩ := runs_bind.mp hrun
      obtain ⟨leaves, c₄, hleaves, hrun⟩ := runs_bind.mp hrun
      obtain ⟨l, c₅, -, hrun⟩ := runs_bind.mp hrun
      obtain ⟨goal, c₆, hgoal, hrun⟩ := runs_bind.mp hrun
      obtain ⟨paths, c₇, hpaths, hrun⟩ := runs_bind.mp hrun
      obtain ⟨level, c₈, -, hrun⟩ := runs_bind.mp hrun
      obtain ⟨order, c₉, -, hrun⟩ := runs_bind.mp hrun
      obtain ⟨rfl, -⟩ := runs_pure.mp hrun
      obtain ⟨leaf, hleaf, he⟩ := List.mem_flatMap.mp he
      obtain ⟨path, hpath, rfl⟩ := List.mem_map.mp he
      exact ⟨l, goal, leaves, paths, c₃, c₄, c₆, c₇, hleaves, (runs_placeAt hgoal).1, hpaths,
        ⟨leaf, hleaf, rfl⟩, path, hpath, rfl, rfl⟩

theorem planarTransitions_conditions {t : Placed Transition} {block : List PlanarTransition}
    (hrun : Runs (planarTransitions chart t) c block c') :
    ∀ e ∈ block, ∀ x ∈ e.conditions, x ≠ "" := by
  intro e he
  obtain ⟨l, goal, -, paths, -, -, c₃, c₄, -, -, hpaths, -, path, hpath, -, hconditions⟩ :=
    planarTransitions_mem hrun he
  rw [hconditions]
  refine entryPaths_conditions (maxDepth chart) goal (fun x hx => ?_) hpaths path hpath
  split at hx
  · cases hx
  · next hne =>
    rw [List.mem_singleton.mp hx]
    simpa using hne

/-- No condition of a flattened chart is empty. -/
theorem flatten_conditions {lines lines' : Lines} {planar : PlanarChart}
    (hrun : Runs (flatten chart) lines planar lines') :
    ∀ t ∈ planar.transitions, ∀ c ∈ t.conditions, c ≠ "" := by
  obtain ⟨blocks, hts, hblocks⟩ := flatten_shape hrun
  intro e he
  rw [hts] at he
  rcases List.mem_append.mp he with he | he
  · obtain ⟨block, hblock, he⟩ := List.mem_flatten.mp he
    obtain ⟨t, -, c, c', hrun⟩ := hblocks block hblock
    exact planarTransitions_conditions hrun e he
  · rw [List.mem_singleton.mp he]
    simp [startFails]

/-- Flattening: every transition becomes what the labels of the texts say, in the order of the
chart, and the start has one more transition that fails. -/
theorem runs_flatten (h : Hierarchical chart base) (hi : Identified chart base)
    (hends : chart.PlainEnds) {lines lines' : Lines} {planar : PlanarChart}
    (hrun : Runs (flatten chart) lines planar lines') :
    (∃ blocks, List.Forall₂ (Becomes chart (View.original chart)) chart.transitions blocks ∧
      planar.transitions = blocks.flatten ++ [startFails]) ∧
    ∃ leaves, planar.states = ((Table.ofList leaves).insert (some "start")
      (bareState "start")).insert (some "error") (bareState "error") := by
  obtain ⟨c', hwork⟩ := runs_flattening hrun
  unfold flattening at hwork
  obtain ⟨states, c₁, hstates, hwork⟩ := runs_bind.mp hwork
  have hv : Faithful chart chart.transitions ((Cache.fresh lines).view chart) := by
    rw [Cache.view_fresh]
    exact .original chart chart.transitions
  obtain ⟨hkept, hfaithful, hleaves⟩ :=
    runs_planarStates hi (Cache.kept_fresh chart lines) hv hstates
  obtain ⟨blocks, c₂, hblocks, hwork⟩ := runs_bind.mp hwork
  have hall := runs_allTransitions h hi hends chart.transitions (List.Subset.refl _) hi.transitions
    hkept hfaithful hblocks
  obtain ⟨vars, c₃, -, hwork⟩ := runs_bind.mp hwork
  obtain ⟨cache, c₄, -, hwork⟩ := runs_bind.mp hwork
  obtain ⟨rfl, -⟩ := runs_pure.mp hwork
  exact ⟨⟨blocks, hall, rfl⟩, hleaves⟩

/-! ## Evaluation -/

/-- The planar chart of a chart on its own, or an empty one. -/
def planarOf (chart : Chart) : PlanarChart :=
  ((flatten chart).run.run .initial).1.toOption.getD ⟨none, none, .empty, [], .empty⟩

theorem runs_planarOf (chart : Chart) (h : ((flatten chart).run.run .initial).1.isOk = true) :
    ∃ lines, Runs (flatten chart) .initial (planarOf chart) lines := by
  refine ⟨((flatten chart).run.run .initial).2, Prod.ext ?_ rfl⟩
  unfold planarOf
  revert h
  cases ((flatten chart).run.run .initial).1 with
  | error f => exact fun h => by cases h
  | ok planar => exact fun _ => rfl

end

end Statechart.Planar
