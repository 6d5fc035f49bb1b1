import Statechart.Proofs.Label.Ownership
import Statechart.Proofs.Planar.Actions
import Statechart.Proofs.Planar.Defaults

/-!
How deep a default transition leads. A transition of the chart, or one between states, may go to
a state at any depth, and all states around its destination are entered on the way. A default
transition in a state may not: its destination is looked for directly in that state only. If
labels can be read, entering a state works and enters all that lies on the way down exactly if
each default transition that is tried leads to a state directly in its own
(`descends_iff_direct`).
-/

namespace Statechart.Planar

open Xml (Node Place)
open Chart (State Transition Placed Identified Hierarchical DecimalIds isDecimal IsPlain)
open Label (View Cache)
open Label.Cache (Kept)

/-! ## How deep elements are nested -/

/-- How many elements are in a node does not depend on what is around it. -/
theorem length_inside (n : Node) (above above' : List Node) :
    (n.inside above).length = (n.inside above').length := by
  induction n using Chart.node_induction generalizing above above' with
  | text s => rfl
  | other => rfl
  | element name as cs ih =>
    have hsame : ∀ above above' : List Node, ∀ k ∈ cs, (Chart.placesFrom above k).length =
        (Chart.placesFrom above' k).length := by
      intro above above' k hk
      rw [Chart.placesFrom, Chart.placesFrom, List.length_append, List.length_append,
        ih k hk above above']
      cases k.isElement <;> rfl
    rw [Chart.inside_eq_flatMap, Chart.inside_eq_flatMap, List.length_flatMap,
      List.length_flatMap]
    exact congrArg List.sum (List.map_congr_left (hsame _ _))

/-- Fewer elements are in what is inside. -/
theorem length_inside_lt (n : Node) {above : List Node} {q : Place} (hq : q ∈ n.inside above) :
    (q.node.inside q.above).length < (n.inside above).length := by
  induction n using Chart.node_induction generalizing above with
  | text s => cases hq
  | other => cases hq
  | element name as cs ih =>
    have hchild : ∀ k ∈ cs, k.isElement = true →
        (k.inside (Node.element name as cs :: above)).length <
          ((Node.element name as cs).inside above).length := by
      intro k hk he
      rw [Chart.inside_eq_flatMap above, List.flatMap_def]
      refine Nat.lt_of_lt_of_le ?_
        (List.sublist_flatten_of_mem (List.mem_map_of_mem hk)).length_le
      simp [Chart.placesFrom, he]
    obtain ⟨k, hk, ⟨he, rfl⟩ | hq⟩ := Chart.mem_inside.mp hq
    · exact hchild k hk he
    · exact (ih k hk hq).trans (hchild k hk (Chart.isElement_of_mem_inside hq))

theorem length_inside_substate {q r : Place} (hr : r ∈ q.path ["Children", "state"]) :
    (r.node.inside r.above).length < (q.node.inside q.above).length := by
  obtain ⟨list, hlist, htag, hm, hstate, habove⟩ := Chart.mem_path_state.mp hr
  refine length_inside_lt q.node (Chart.mem_inside.mpr ⟨list, hlist, .inr ?_⟩)
  refine Chart.mem_inside.mpr ⟨r.node, hm, .inl ⟨Chart.isElement_of_hasTag hstate, ?_⟩⟩
  rw [← habove]

/-- A chart goes as deep as it has to. -/
theorem length_inside_lt_maxDepth {chart : Chart} {q : Place}
    (hq : q ∈ chart.place.descendants "state") :
    (q.node.inside q.above).length < maxDepth chart := by
  have hless := length_inside_lt chart.place.node (List.mem_filter.mp hq).1
  rw [length_inside chart.place.node chart.place.above []] at hless
  rw [maxDepth, List.foldr_cons]
  omega

/-! ## Default transitions that are tried -/

/-- `Tried s u d`: entering `s` comes to try `d`, a default transition of the state `u` in it. -/
inductive Tried : State → State → Transition → Prop
  | here {s : State} {d : Transition} (composite : s.isComposite = true)
      (stands : d ∈ s.defaults) : Tried s s d
  | inside {s inner u : State} {t d : Transition} (composite : s.isComposite = true)
      (stands : t ∈ s.defaults)
      (found : s.substates.find? (·.ssid == some (worded t.destination)) = some inner)
      (tried : Tried inner u d) : Tried s u d

/-- The state `u` has the destination of `d` directly in it. -/
def IsDirect (u : State) (d : Transition) : Prop :=
  ∃ t ∈ u.substates, t.ssid = some (worded d.destination)

theorem isDirect_iff {u : State} {d : Transition} :
    IsDirect u d ↔
      ∃ t, u.substates.find? (·.ssid == some (worded d.destination)) = some t := by
  rw [← Option.isSome_iff_exists, List.find?_isSome]
  simp [IsDirect]

/-- What is tried stands in a state at or below the one that is entered. -/
theorem Tried.placed {s u : State} {d : Transition} (h : Tried s u d)
    (around : List Chart.Container) :
    d ∈ u.defaults ∧ ∃ q ∈ s.places around, q.item = u := by
  induction h generalizing around with
  | here _ stands => exact ⟨stands, _, State.self_mem_places .., rfl⟩
  | @inside s inner u t d _ _ found _ ih =>
    obtain ⟨hd, q, hq, hu⟩ := ih (⟨.state, s.ssid⟩ :: around)
    refine ⟨hd, q, ?_, hu⟩
    rw [State.places_eq]
    exact List.mem_cons_of_mem _
      (State.mem_placesOf.mpr ⟨inner, List.mem_of_find?_eq_some found, hq⟩)

/-- If there are ways into a state, whatever is tried leads one level down. -/
theorem Tried.isDirect {s u : State} {d : Transition} (h : Tried s u d) {ws : List Way}
    (hws : ways s = some ws) : IsDirect u d := by
  induction h generalizing ws with
  | here composite stands =>
    obtain ⟨ts, hts, hvia⟩ := ways_composite composite hws
    obtain ⟨inner, -, hfound, -⟩ :=
      waysVia_takes hvia ((sortByOrder_sorted hts).1.mem_iff.mpr stands)
    exact isDirect_iff.mpr ⟨inner, hfound⟩
  | inside composite stands found _ ih =>
    obtain ⟨ts, hts, hvia⟩ := ways_composite composite hws
    obtain ⟨inner, below, hfound, hbelow, -⟩ :=
      waysVia_takes hvia ((sortByOrder_sorted hts).1.mem_iff.mpr stands)
    cases found.symm.trans hfound
    exact ih hbelow

/-! ## Entering a state -/

/-- A default transition that has an order and whose labels can be read. -/
structure Ready (chart : Chart) (d : Transition) : Prop where
  order : d.order.isSome = true
  label : (chart.transitionLabel? d.ssid).isSome = true
  destination : (chart.stateLabel? d.destination).isSome = true

theorem exists_tryDefaults {chart : Chart}
    {inside : Option String → Except Fault (Option Entering)} {ts : List Transition}
    (hts : ∀ t ∈ ts, Ready chart t ∧ ∃ enter, inside t.destination = .ok (some enter) ∧
      ∀ conditions actions c, ∃ paths c', Runs (enter conditions actions) c paths c')
    (conditions actions excluded : List String) (c : Cache) :
    ∃ paths c', Runs (tryDefaults chart inside conditions actions excluded ts) c paths c' := by
  induction ts generalizing excluded c with
  | nil => exact ⟨_, c, runs_pure.mpr ⟨rfl, rfl⟩⟩
  | cons t ts ih =>
    obtain ⟨hready, enter, hinside, henter⟩ := hts t (List.mem_cons_self ..)
    obtain ⟨l, c₁, hl⟩ := Cache.exists_transition hready.label c
    obtain ⟨d, c₂, hd⟩ := Cache.exists_state hready.destination c₁
    obtain ⟨below, c₃, hbelow⟩ := henter
      (conditions ++ excluded ++ if l.condition == "" then [] else [l.condition])
      (actions ++ l.conditionActions ++ l.transitionActions ++ d.entry) c₂
    obtain ⟨others, c₄, hothers⟩ := ih (fun u hu => hts u (List.mem_cons_of_mem _ hu))
      (excluded ++ [negate [l.condition]]) c₃
    exact ⟨below ++ others, c₄, runs_tryDefaults_cons.mpr
      ⟨enter, l, d, below, others, c₁, c₂, c₃, hinside, hl, hd, hbelow, hothers, rfl⟩⟩

/-- A state can be entered if whatever is tried can be read and leads one level down. -/
theorem exists_entryPaths {chart : Chart} (depth : Nat) {q : Place}
    (hdepth : (q.node.inside q.above).length < depth)
    (hq : ∀ u d, Tried (State.ofNode q.node) u d →
      Ready chart d ∧ IsPlain d.destination ∧ IsDirect u d)
    (conditions actions : List String) (c : Cache) :
    ∃ paths c', Runs (entryPaths chart depth q conditions actions) c paths c' := by
  induction depth generalizing q conditions actions c with
  | zero => exact absurd hdepth (Nat.not_lt_zero _)
  | succ depth ih =>
    cases hcomposite : (State.ofNode q.node).isComposite with
    | false => exact ⟨_, c, runs_entryPaths_succ.mpr (.inl ⟨hcomposite, rfl, rfl⟩)⟩
    | true =>
      obtain ⟨ts, hts⟩ := sortByOrder_ok_iff.mpr
        (.inr fun d hd => (hq _ d (.here hcomposite hd)).1.order)
      have hmem : ∀ {t}, t ∈ ts → t ∈ (State.ofNode q.node).defaults :=
        (sortByOrder_sorted hts).1.mem_iff.mp
      have hbelow : ∀ t ∈ ts, Ready chart t ∧ ∃ enter,
          enterSubstate (entryPaths chart depth) q t.destination = .ok (some enter) ∧
          ∀ conditions actions c, ∃ paths c', Runs (enter conditions actions) c paths c' := by
        intro t ht
        obtain ⟨hready, hplain, hdirect⟩ := hq _ t (.here hcomposite (hmem ht))
        obtain ⟨inner, hfound⟩ := isDirect_iff.mp hdirect
        obtain ⟨r, hr, rfl⟩ := Chart.exists_substate? hplain hfound
        refine ⟨hready, _, enterSubstate_eq_some.mpr ⟨r, hr, rfl⟩, ?_⟩
        have hsmaller := length_inside_substate (Chart.substate?_eq_some hplain hr).1
        exact ih (by omega) fun u d hd => hq u d (.inside hcomposite (hmem ht) hfound hd)
      obtain ⟨paths, c', hpaths⟩ := exists_tryDefaults hbelow conditions actions [] c
      exact ⟨paths, c', runs_entryPaths_succ.mpr (.inr ⟨hcomposite, ts, hts, hpaths⟩)⟩

/-! ## The way down -/

/-- The default transition that a way takes first. -/
def Way.first (w : Way) : Option Transition := w.choices.head?.bind (·.taken)

/-- There are ways through the default transition `d` of `s`, and each of them does what `d` does,
then enters all states in `s` down to the destination of `d`, the outermost first, and goes on as
some way into the destination does. -/
def LeadsDown (chart : Chart) (v : View) (s : Placed State) (ws : List Way) (d : Transition) :
    Prop :=
  ∃ goal below, stateOf chart d.destination = some goal ∧ ways goal.item = some below ∧
    (∃ w ∈ ws, w.first = some d) ∧
    ∀ w ∈ ws, w.first = some d → ∃ b ∈ below, w.target = b.target ∧
      w.actions v = (v.transition d.ssid).conditionActions ++
        (v.transition d.ssid).transitionActions ++ entries v (goal.within s.lineage) ++ b.actions v

/-- The state at a place can be entered, and each of its default transitions leads down to its
destination. -/
def Descends (chart : Chart) (c : Cache) (q : Place) (conditions actions : List String) : Prop :=
  ∃ ws c', ways (State.ofNode q.node) = some ws ∧
    Runs (entryPaths chart (maxDepth chart) q conditions actions) c
      (ws.map (Way.path (c.view chart) conditions actions)) c' ∧
    ∀ d ∈ (State.ofNode q.node).defaults,
      LeadsDown chart (c.view chart) (.ofPlace State.ofNode q) ws d

section

variable {chart : Chart} {base : List Chart.Container}

theorem stateOf_of_mem (hi : Identified chart base) {s : Placed State} (hs : s ∈ chart.states)
    {k : Option String} (hk : s.item.ssid = some (worded k)) : stateOf chart k = some s := by
  have hsome : (stateOf chart k).isSome := List.find?_isSome.mpr ⟨s, hs, by simp [hk]⟩
  obtain ⟨s', hs'⟩ := Option.isSome_iff_exists.mp hsome
  rw [hs', hi.eq_of_ssid (stateOf_mem hs') hs ((stateOf_ssid hs').trans hk.symm)]

/-- A state directly in another one. -/
theorem mem_states_of_substate (h : Hierarchical chart base) {s : Placed State}
    (hs : s ∈ chart.states) {t : State} (ht : t ∈ s.item.substates) :
    (⟨t, s.lineage⟩ : Placed State) ∈ chart.states := by
  refine h.mem_of_mem_places hs ?_
  rw [State.places_eq]
  exact List.mem_cons_of_mem _ (State.mem_placesOf.mpr ⟨t, ht, State.self_mem_places ..⟩)

/-- A destination that is there is a decimal identifier, as all identifiers are. -/
theorem isPlain_of_tried (h : Hierarchical chart base) (hids : DecimalIds chart)
    {s : Placed State} (hs : s ∈ chart.states) {u : State} {d : Transition}
    (htried : Tried s.item u d) (hdirect : IsDirect u d) : IsPlain d.destination := by
  obtain ⟨-, q, hq, rfl⟩ := htried.placed s.around
  obtain ⟨t, ht, hssid⟩ := hdirect
  have hplaced := mem_states_of_substate h (h.mem_of_mem_places hs hq) ht
  exact Chart.isPlain_of_isDecimal (by simpa [hssid] using hids.states _ hplaced)

/-- If there are ways into a state, its default transitions lead down. -/
theorem leadsDown_of_ways (h : Hierarchical chart base) (hi : Identified chart base)
    (hids : DecimalIds chart) {s : Placed State} (hs : s ∈ chart.states)
    (hcomposite : s.item.isComposite = true) {ws : List Way} (hws : ways s.item = some ws)
    {d : Transition} (hd : d ∈ s.item.defaults) (v : View) : LeadsDown chart v s ws d := by
  obtain ⟨ts, hts, hvia⟩ := ways_composite hcomposite hws
  have hmem := (sortByOrder_sorted hts).1.mem_iff.mpr hd
  obtain ⟨inner, below, hfound, hbelow, b, hb⟩ := waysVia_takes hvia hmem
  have hplaced := mem_states_of_substate h hs (List.mem_of_find?_eq_some hfound)
  have hssid : inner.ssid = some (worded d.destination) := by simpa using List.find?_some hfound
  have hdecimal : isDecimal (worded d.destination) = true := by
    simpa [hssid] using hids.states _ hplaced
  obtain ⟨x, hx, -⟩ := Chart.some_of_isDecimal hdecimal
  have hwithin : (⟨inner, s.lineage⟩ : Placed State).within s.lineage = [d.destination] := by
    rw [Placed.within_eq (show _ = [⟨.state, inner.ssid⟩] ++ s.lineage from rfl)]
    simp [hssid, hx, worded]
  refine ⟨⟨inner, s.lineage⟩, below, stateOf_of_mem hi hplaced hssid, hbelow, ?_, ?_⟩
  · obtain ⟨before, after, rfl⟩ := List.append_of_mem hmem
    exact ⟨_, (mem_waysVia hvia).mpr
      (.inr ⟨before, d, after, inner, below, rfl, hfound, hbelow, b, hb, rfl⟩), rfl⟩
  · intro w hw hfirst
    rcases (mem_waysVia hvia).mp hw with
      rfl | ⟨before, t, after, inner', below', -, hfound', hbelow', b', hb', rfl⟩
    · -- a way on which all are refused takes none
      cases hfirst
    · obtain rfl : t = d := Option.some.inj hfirst
      cases hfound.symm.trans hfound'
      cases hbelow.symm.trans hbelow'
      refine ⟨b', hb', rfl, ?_⟩
      rw [hwithin]
      simp [Way.actions, Choice.actions, defaultActions, entries]

end

/-- If orders are there and labels can be read, a state can be entered through all states on the way
down to the destinations of its default transitions exactly if no default transition that is tried
crosses a level. -/
theorem descends_iff_direct {p : Place} (hshape : Chart.TreeShaped p)
    (hi : Identified (Chart.ofPlace p) (Chart.baseOf p)) (hids : DecimalIds (Chart.ofPlace p))
    (hends : (Chart.ofPlace p).PlainEnds) {q : Place} (hq : q ∈ p.descendants "state")
    (hcomposite : (State.ofNode q.node).isComposite = true)
    (hready : ∀ u d, Tried (State.ofNode q.node) u d → Ready (Chart.ofPlace p) d) {c : Cache}
    (hc : c.Kept (Chart.ofPlace p)) (conditions actions : List String) :
    Descends (Chart.ofPlace p) c q conditions actions ↔
      ∀ u d, Tried (State.ofNode q.node) u d → IsDirect u d := by
  have hs := Chart.mem_states_of_place hq
  constructor
  · rintro ⟨ws, c', hws, -, -⟩ u d htried
    exact htried.isDirect hws
  · intro hdirect
    have hall : ∀ u d, Tried (State.ofNode q.node) u d →
        Ready (Chart.ofPlace p) d ∧ IsPlain d.destination ∧ IsDirect u d := fun u d ht =>
      ⟨hready u d ht, isPlain_of_tried hshape.hierarchical hids hs ht (hdirect u d ht),
        hdirect u d ht⟩
    obtain ⟨paths, c', hpaths⟩ :=
      exists_entryPaths _ (length_inside_lt_maxDepth hq) hall conditions actions c
    obtain ⟨ws, hws, rfl, -, -⟩ := runs_entryPaths hends _ hq hc hpaths
    exact ⟨ws, c', hws, hpaths, fun d hd =>
      leadsDown_of_ways hshape.hierarchical hi hids hs hcomposite hws hd _⟩

/-- A house with a floor and on it a room, where the default transition in the house goes to
`landing`. -/
def stairs (landing : String) : Place :=
  Chart.drawn "stairs" [
    .state "1" "House\nen: a = 1" [
      .state "2" "Floor\nen: b = 1" [
        .state "3" "Room\nen: c = 1" [],
        .transition "10" none "3" "" "1"],
      .transition "11" none landing "/d = 1" "1"],
    .transition "12" none "1" "" "1"]

theorem descends_iff_direct_stairs :
    ∃ q ∈ (stairs "2").descendants "state", (State.ofNode q.node).ssid = some "1" ∧
      Descends (Chart.ofPlace (stairs "2")) (.fresh .initial) q [] [] := by
  have hids : Identified (Chart.ofPlace (stairs "2")) (Chart.baseOf (stairs "2")) ∧
      DecimalIds (Chart.ofPlace (stairs "2")) ∧ (Chart.ofPlace (stairs "2")).PlainEnds := by
    decide +kernel
  have hhouse : ∃ q ∈ (stairs "2").descendants "state", (State.ofNode q.node).ssid = some "1" ∧
      (State.ofNode q.node).isComposite = true ∧
      ∀ r ∈ (State.ofNode q.node).places [], ∀ d ∈ r.item.defaults,
        (d.order.isSome = true ∧
          ((Chart.ofPlace (stairs "2")).transitionLabel? d.ssid).isSome = true ∧
          ((Chart.ofPlace (stairs "2")).stateLabel? d.destination).isSome = true) ∧
        ∃ t ∈ r.item.substates, t.ssid = some (worded d.destination) := by
    decide +kernel
  obtain ⟨q, hq, hssid, hcomposite, htried⟩ := hhouse
  refine ⟨q, hq, hssid, (descends_iff_direct (Chart.treeShaped_drawn _ _) hids.1 hids.2.1 hids.2.2
    hq hcomposite ?_ (Cache.kept_fresh _ _) [] []).mpr ?_⟩
  · intro u d h
    obtain ⟨hd, r, hr, rfl⟩ := h.placed []
    obtain ⟨⟨horder, hlabel, hgoal⟩, -⟩ := htried r hr d hd
    exact ⟨horder, hlabel, hgoal⟩
  · intro u d h
    obtain ⟨hd, r, hr, rfl⟩ := h.placed []
    exact (htried r hr d hd).2

/-- If the default transition in the house goes to the room, two levels down, the house cannot be
entered, although nothing else is wrong with the transition. -/
theorem stairs_skip_floor :
    ∃ q ∈ (stairs "3").descendants "state", (State.ofNode q.node).ssid = some "1" ∧
      (∃ d ∈ (State.ofNode q.node).defaults, Ready (Chart.ofPlace (stairs "3")) d ∧
        ∃ goal, stateOf (Chart.ofPlace (stairs "3")) d.destination = some goal ∧
          (Placed.ofPlace State.ofNode q).lineage <:+ goal.around) ∧
      ∀ c : Cache, c.Kept (Chart.ofPlace (stairs "3")) → ∀ conditions actions paths c',
        ¬ Runs (entryPaths (Chart.ofPlace (stairs "3")) (maxDepth (Chart.ofPlace (stairs "3"))) q
          conditions actions) c paths c' := by
  have hends : (Chart.ofPlace (stairs "3")).PlainEnds := by decide +kernel
  have hhouse : ∃ q ∈ (stairs "3").descendants "state", (State.ofNode q.node).ssid = some "1" ∧
      (State.ofNode q.node).isComposite = true ∧ ∃ d ∈ (State.ofNode q.node).defaults,
        (d.order.isSome = true ∧
          ((Chart.ofPlace (stairs "3")).transitionLabel? d.ssid).isSome = true ∧
          ((Chart.ofPlace (stairs "3")).stateLabel? d.destination).isSome = true) ∧
        (∃ goal ∈ stateOf (Chart.ofPlace (stairs "3")) d.destination,
          (Placed.ofPlace State.ofNode q).lineage <:+ goal.around) ∧
        ∀ t ∈ (State.ofNode q.node).substates, t.ssid ≠ some (worded d.destination) := by
    decide +kernel
  obtain ⟨q, hq, hssid, hcomposite, d, hd, ⟨horder, hlabel, hentry⟩, hgoal, hnone⟩ := hhouse
  refine ⟨q, hq, hssid, ⟨d, hd, ⟨horder, hlabel, hentry⟩, hgoal⟩, ?_⟩
  intro c hc conditions actions paths c' hrun
  obtain ⟨ws, hws, -⟩ := runs_entryPaths hends _ hq hc hrun
  obtain ⟨t, ht, he⟩ := (Tried.here hcomposite hd).isDirect hws
  exact hnone t ht he

end Statechart.Planar
