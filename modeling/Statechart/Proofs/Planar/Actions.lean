import Mathlib.Data.List.Forall2
import Mathlib.Data.List.ProdSigma
import Mathlib.Data.List.TakeWhile
import Statechart.Proofs.Chart.Drawn
import Statechart.Proofs.Planar.Flattening

/-!
The order of actions. A transition in a chart or state runs the during actions of what stays
active, its condition actions, the exit actions outwards, its own actions and the entry actions
inwards, and then those on the way along default transitions. Flattening puts actions in this
order, except that a transition to the state that it stands in also enters the states around
that state (`actions_in_order_iff`).
-/

namespace Statechart.Planar

open Chart (State Transition Container Placed Hierarchical Identified)
open Label (View)

variable {chart : Chart} {base : List Container}

/-! ## Lineages -/

/-- A state further in than what a transition stands in is something else. -/
theorem ssid_ne_parent (h : Hierarchical chart base) (hi : Identified chart base)
    {t : Placed Transition} (ht : t ∈ chart.transitions) {parent : Container}
    (hp : t.around.head? = some parent) {s : Placed State} (hs : s ∈ chart.states)
    {front rest : List Container} {k : Container} (hl : s.lineage = front ++ k :: rest)
    (hr : t.around <:+ rest) : k.ssid ≠ parent.ssid := by
  intro he
  have hlen : base.length ≤ rest.length :=
    ((h.base_suffix ht).trans hr).length_le
  obtain ⟨q, hq, hql, -, -⟩ := h.place_of_lineage hs hl hlen
  have hk : k.ssid = q.item.ssid := congrArg Container.ssid (List.cons.inj hql).1.symm
  have haround := (around_eq_lineage h hi ht hq hp (he.symm.trans hk)).1
  have hle := hr.length_le
  rw [haround, hql, List.length_cons] at hle
  omega

theorem enclosingStates_mid {mid : List Container} (hmid : ∀ k ∈ mid, k.kind = .state)
    (around : List Container) :
    enclosingStates (mid ++ around) = mid.map (·.ssid) ++ enclosingStates around := by
  induction mid with
  | nil => rfl
  | cons k mid ih =>
    obtain ⟨kind, name⟩ := k
    obtain rfl : kind = .state := hmid _ (List.mem_cons_self ..)
    rw [List.cons_append, enclosingStates_state, ih fun k hk => hmid k (List.mem_cons_of_mem _ hk)]
    rfl

/-- What a transition stands in is where climbing up to it ends. -/
theorem upTo_around (h : Hierarchical chart base) {t : Placed Transition}
    (ht : t ∈ chart.transitions) {parent : Container} (hp : t.around.head? = some parent) :
    upTo parent.ssid t.around = [] := by
  rcases h.parents t ht with hbase | ⟨q, -, -, haround⟩
  · obtain ⟨ssid, beyond, hroot⟩ := h.root
    rw [upTo, hbase, hroot, enclosingStates_of_ne (by simp), List.takeWhile_nil]
  · rw [haround, Placed.lineage, List.head?_cons, Option.some.injEq] at hp
    subst hp
    simp [haround, upTo, Placed.lineage]

/-- Climbing up from within what a transition stands in passes the states in between. -/
theorem upTo_mid (h : Hierarchical chart base) (hi : Identified chart base)
    {t : Placed Transition} (ht : t ∈ chart.transitions) {parent : Container}
    (hp : t.around.head? = some parent) {s : Placed State} (hs : s ∈ chart.states)
    {mid : List Container} (hmid : s.around = mid ++ t.around) :
    upTo parent.ssid s.around = mid.map (·.ssid) := by
  obtain ⟨above, ha, hstate⟩ := h.around_eq hs
  have hkind : ∀ k ∈ mid, k.kind = .state := by
    obtain ⟨front, hf⟩ := h.base_suffix ht
    have : above = mid ++ front := by
      rw [hmid, ← hf, ← List.append_assoc] at ha
      exact (List.append_cancel_right ha).symm
    exact fun k hk => hstate k (this ▸ List.mem_append_left _ hk)
  have hne : ∀ k ∈ mid.map (·.ssid), (k != parent.ssid) = true := by
    intro k hk
    obtain ⟨k', hk', rfl⟩ := List.mem_map.mp hk
    obtain ⟨a, b, rfl⟩ := List.append_of_mem hk'
    have hl : s.lineage = (⟨.state, s.item.ssid⟩ :: a) ++ k' :: (b ++ t.around) := by
      simp [Placed.lineage, hmid]
    simpa using ssid_ne_parent h hi ht hp hs hl ⟨b, rfl⟩
  rw [upTo, hmid, enclosingStates_mid hkind, List.takeWhile_append_of_pos hne]
  have := upTo_around h ht hp
  rw [upTo] at this
  rw [this, List.append_nil]

/-- The states around a state have identifiers of their own. -/
theorem upTo_self (h : Hierarchical chart base) (hi : Identified chart base) {s : Placed State}
    (hs : s ∈ chart.states) : upTo s.item.ssid s.around = enclosingStates s.around := by
  refine List.takeWhile_eq_self_iff.mpr fun k hk => ?_
  obtain ⟨above, ha, hstate⟩ := h.around_eq hs
  rw [ha, enclosingStates_append h hstate] at hk
  obtain ⟨k', hk', rfl⟩ := List.mem_map.mp hk
  obtain ⟨a, b, rfl⟩ := List.append_of_mem hk'
  have hl : s.lineage = (⟨.state, s.item.ssid⟩ :: a) ++ k' :: (b ++ base) := by
    simp [Placed.lineage, ha]
  obtain ⟨q, hq, hql, -, -⟩ := h.place_of_lineage hs hl (by simp)
  rw [bne_iff_ne]
  intro he
  have hk : k'.ssid = q.item.ssid := congrArg Container.ssid (List.cons.inj hql).1.symm
  obtain rfl := hi.eq_of_ssid hq hs (hk.symm.trans he)
  have hlen := congrArg List.length (hl.symm.trans hql)
  simp at hlen
  omega

theorem within_append {s l : Placed State} {outer : List Container} (hs : outer <:+ s.lineage)
    (hl : s.lineage <:+ l.lineage) :
    l.within outer = l.within s.lineage ++ s.within outer := by
  obtain ⟨front, hf⟩ := hl
  obtain ⟨mid, hm⟩ := hs
  have hlong : l.lineage = (front ++ mid) ++ outer := by rw [← hf, ← hm, List.append_assoc]
  rw [Placed.within_eq hf.symm, Placed.within_eq hm.symm, Placed.within_eq hlong, List.map_append]

/-- A state is what a transition stands in, or it is further in. -/
theorem lineage_cases {t : Placed Transition} {s : Placed State} (hin : t.around <:+ s.lineage) :
    t.around = s.lineage ∨
      ∃ mid, s.around = mid ++ t.around ∧ s.within t.around = s.item.ssid :: mid.map (·.ssid) := by
  obtain ⟨front, hf⟩ := hin
  cases front with
  | nil => exact .inl hf
  | cons k mid =>
    have hk : k = ⟨.state, s.item.ssid⟩ := (List.cons.inj hf).1
    refine .inr ⟨mid, (List.cons.inj hf).2.symm, ?_⟩
    rw [Placed.within_eq hf.symm, List.map_cons, hk]

theorem within_self (s : Placed State) : s.within s.lineage = [] := by
  simp [Placed.within]

/-! ## What is left, entered and active -/

section

variable {t : Placed Transition} {parent : Container} {s : Placed State}

theorem parent_ssid (hp : t.around.head? = some parent) (he : t.around = s.lineage) :
    parent.ssid = s.item.ssid := by
  rw [he, Placed.lineage, List.head?_cons, Option.some.injEq] at hp
  rw [← hp]

/-- A transition leaves a source within what it stands in, and the states in between. -/
theorem left_eq_within (h : Hierarchical chart base) (hi : Identified chart base)
    (ht : t ∈ chart.transitions) (hp : t.around.head? = some parent) (hs : s ∈ chart.states)
    (hin : t.around <:+ s.lineage) :
    left parent.ssid s.item.ssid s.around = s.within t.around := by
  rcases lineage_cases hin with heq | ⟨mid, hmid, hwithin⟩
  · rw [left, parent_ssid hp heq, heq, within_self, if_pos (beq_self_eq_true _)]
  · have hl : s.lineage = [] ++ ⟨.state, s.item.ssid⟩ :: (mid ++ t.around) := by
      simp [Placed.lineage, hmid]
    have hne := ssid_ne_parent h hi ht hp hs hl ⟨mid, rfl⟩
    rw [left, if_neg (by simpa using hne), upTo_mid h hi ht hp hs hmid, hwithin]

/-- A transition enters a destination within what it stands in, and the states in between; but
if it stands in the destination, it enters the states around it. -/
theorem entered_eq (h : Hierarchical chart base) (hi : Identified chart base)
    (ht : t ∈ chart.transitions) (hp : t.around.head? = some parent) (hs : s ∈ chart.states)
    (hin : t.around <:+ s.lineage) :
    entered parent.ssid s.item.ssid s.around =
      s.within t.around ++ if t.around = s.lineage then enclosingStates s.around else [] := by
  rcases lineage_cases hin with heq | ⟨mid, hmid, hwithin⟩
  · rw [entered, parent_ssid hp heq, if_pos (beq_self_eq_true _), upTo_self h hi hs, if_pos heq,
      heq, within_self]
  · have hl : s.lineage = [] ++ ⟨.state, s.item.ssid⟩ :: (mid ++ t.around) := by
      simp [Placed.lineage, hmid]
    have hne := ssid_ne_parent h hi ht hp hs hl ⟨mid, rfl⟩
    have houter : t.around ≠ s.lineage := by
      intro he
      have hlen := congrArg List.length (he.trans hl)
      simp at hlen
      omega
    rw [entered, if_neg (by simpa using hne), upTo_mid h hi ht hp hs hmid, if_neg houter, hwithin,
      List.append_nil, List.singleton_append]

theorem active_eq (h : Hierarchical chart base) (hi : Identified chart base)
    (ht : t ∈ chart.transitions) (hp : t.around.head? = some parent) (hs : s ∈ chart.states) :
    active parent.ssid s.item.ssid s.around =
      (if t.around = s.lineage then [s.item.ssid] else []) ++ enclosingStates s.around := by
  by_cases he : t.around = s.lineage
  · rw [active, parent_ssid hp he, if_pos (beq_self_eq_true _), if_pos he]
  · have hne : s.item.ssid ≠ parent.ssid := fun hs' =>
      he (around_eq_lineage h hi ht hs hp hs'.symm).1
    rw [active, if_neg (by simpa using hne), if_neg he]

end

/-! ## The order of execution -/

/-- The source of a transition that is no nested default: a state, or none before the first
transition. -/
def StartsAt (chart : Chart) (t : Placed Transition) : Option (Placed State) → Prop
  | none => isInitial t.item = true
  | some s => isInitial t.item = false ∧ s ∈ chart.states ∧ t.item.source = s.item.ssid ∧
    t.around <:+ s.lineage

def EndsAt (chart : Chart) (t : Placed Transition) (goal : Placed State) : Prop :=
  goal ∈ chart.states ∧ t.item.destination = goal.item.ssid ∧ t.around <:+ goal.lineage

/-- Where planar transitions start: in the leaves below the source, or before everything. -/
def origins : Option (Placed State) → List (Option (Placed State))
  | none => [none]
  | some s => (s.item.leaves s.around).map some

def originName : Option (Placed State) → Option String
  | none => some startId
  | some leaf => leaf.item.ssid

/-- The states whose during actions are run: those around the source, and the source itself if
the transition stands in it. -/
def stayActive (t : Placed Transition) : Option (Placed State) → List (Option String)
  | none => []
  | some s => (if t.around = s.lineage then [s.item.ssid] else []) ++ enclosingStates s.around

/-- The states from a leaf outwards up to what the transition stands in. -/
def leftFrom (t : Placed Transition) : Option (Placed State) → List (Option String)
  | none => []
  | some leaf => leaf.within t.around

/-- Actions in the order of execution. -/
def inOrder (v : View) (t : Placed Transition) (source leaf : Option (Placed State))
    (goal : Placed State) (w : Way) : List String :=
  durings v (stayActive t source) ++ (v.transition t.item.ssid).conditionActions ++
    exits v (leftFrom t leaf) ++ (v.transition t.item.ssid).transitionActions ++
    entries v (goal.within t.around) ++ w.actions v

/-- The labels that actions are taken from are read from their texts. -/
structure LabelsRead (chart : Chart) (t : Placed Transition) (source : Option (Placed State))
    (goal : Placed State) (ws : List Way) : Prop where
  transition : (chart.transitionLabel? t.item.ssid).isSome
  active : AllReadable chart (stayActive t source)
  left : ∀ o ∈ origins source, AllReadable chart (leftFrom t o)
  entered : AllReadable chart (goal.within t.around)
  ways : ∀ w ∈ ws, w.Readable chart

/-- The actions that come on top: entry actions around a destination that the transition stands
in. -/
def reentered (t : Placed Transition) (goal : Placed State) : List (Option String) :=
  if t.around = goal.lineage then enclosingStates goal.around else []

theorem entries_append (v : View) (ks js : List (Option String)) :
    entries v (ks ++ js) = entries v js ++ entries v ks := by
  simp [entries]

theorem exits_append (v : View) (ks js : List (Option String)) :
    exits v (ks ++ js) = exits v ks ++ exits v js := by
  simp [exits]

theorem entries_eq_nil {v : View} {ks : List (Option String)} :
    entries v ks = [] ↔ ∀ k ∈ ks, (v.state k).entry = [] := by
  simp [entries, List.flatMap_eq_nil_iff]

/-- A state that a transition names is the one that is looked up. -/
theorem stateOf_eq (hi : Identified chart base) {name : Option String} {s s' : Placed State}
    (hs : s ∈ chart.states) (hname : name = s.item.ssid) (hs' : stateOf chart name = some s') :
    s' = s := by
  obtain ⟨x, hx⟩ := Option.isSome_iff_exists.mp (hi.named s hs)
  refine hi.eq_of_ssid (stateOf_mem hs') hs ?_
  rw [stateOf_ssid hs', hname, hx]
  rfl

/-- Departures run during and exit actions in order. -/
theorem Departs.in_order (h : Hierarchical chart base) (hi : Identified chart base)
    {t : Placed Transition} (ht : t ∈ chart.transitions) {parent : Container}
    (hp : t.around.head? = some parent) {v : View} {d : Departure}
    (hd : Departs chart v t.item parent d) {source : Option (Placed State)}
    (hs : StartsAt chart t source) :
    AllReadable chart (stayActive t source) ∧ d.first = durings v (stayActive t source) ∧
      ∃ path, d.leaves = (origins source).map path ∧ ∀ o ∈ origins source,
        AllReadable chart (leftFrom t o) ∧ (path o).1 = originName o ∧
        (path o).2 ++ d.leaving = exits v (leftFrom t o) := by
  cases source with
  | none =>
    cases hd with
    | start initial kind =>
      refine ⟨by simp [AllReadable, stayActive], rfl, fun _ => (some startId, []), rfl, ?_⟩
      intro o ho
      rw [List.mem_singleton.mp ho]
      exact ⟨by simp [AllReadable, leftFrom], rfl, rfl⟩
    | state proper => exact absurd (hs.symm.trans proper) (by simp)
  | some s =>
    obtain ⟨hproper, hmem, hname, hin⟩ := hs
    have hkey : some (sourceKey t.item) = s.item.ssid := by
      obtain ⟨x, hx⟩ := Option.isSome_iff_exists.mp (hi.named s hmem)
      simp [sourceKey, hname, hx]
    cases hd with
    | start initial kind => exact absurd (hproper.symm.trans initial) (by simp)
    | @state s' level _ found depth readable below =>
      obtain rfl : s' = s := stateOf_eq hi hmem hkey found
      rw [hkey] at readable
      have hactive := active_eq h hi ht hp hmem
      have hleft := left_eq_within h hi ht hp hmem hin
      have hwithin : AllReadable chart (s'.within t.around) := by
        intro k hk
        rw [← hleft, left] at hk
        split at hk
        · cases hk
        · rcases List.mem_cons.mp hk with rfl | hk
          · exact readable _ (List.mem_cons_self ..)
          · exact readable k (List.mem_cons_of_mem _ (List.takeWhile_subset _ hk))
      refine ⟨?_, ?_, fun o => exitPath v s'.lineage [] (o.getD s'), ?_, ?_⟩
      · intro k hk
        rcases List.mem_append.mp hk with hk | hk
        · split at hk
          · rw [List.mem_singleton.mp hk]
            exact readable _ (List.mem_cons_self ..)
          · cases hk
        · exact readable k (List.mem_cons_of_mem _ hk)
      · rw [Departure.ofState, hkey, hactive]
        rfl
      · rw [origins, List.map_map]
        rfl
      · intro o ho
        obtain ⟨leaf, hleaf, rfl⟩ := List.mem_map.mp ho
        obtain ⟨front, hf, -⟩ :=
          State.lineage_of_mem_places s'.item s'.around (List.mem_filter.mp hleaf).1
        have happend : leaf.within t.around = leaf.within s'.lineage ++ s'.within t.around :=
          within_append hin ⟨front, hf.symm⟩
        refine ⟨?_, rfl, ?_⟩
        · intro k hk
          rw [leftFrom, happend] at hk
          rcases List.mem_append.mp hk with hk | hk
          · exact below leaf hleaf k hk
          · exact hwithin k hk
        · rw [leftFrom, happend, exits_append, Departure.ofState, hkey, hleft]
          simp [exitPath]

/-- The planar transitions of a transition, leaf by leaf and way by way, with their actions. -/
theorem Becomes.actions (h : Hierarchical chart base) (hi : Identified chart base)
    {t : Placed Transition} (ht : t ∈ chart.transitions) {v : View}
    {block : List PlanarTransition} (hb : Becomes chart v t block)
    (hproper : isNestedDefault t = false) {source : Option (Placed State)}
    (hs : StartsAt chart t source) {goal : Placed State} (hg : EndsAt chart t goal) :
    ∃ ws, ways goal.item = some ws ∧ LabelsRead chart t source goal ws ∧
      List.Forall₂ (fun x e => e.source = originName x.1 ∧ e.target = x.2.target ∧
        e.actions = durings v (stayActive t source) ++
          (v.transition t.item.ssid).conditionActions ++ exits v (leftFrom t x.1) ++
          (v.transition t.item.ssid).transitionActions ++ entries v (reentered t goal) ++
          entries v (goal.within t.around) ++ x.2.actions v)
        ((origins source).product ws) block := by
  cases hb with
  | nested nested => exact absurd (hproper.symm.trans nested) (by simp)
  | @made parent d goal' ws order _ stands departs arrives enters ordered label readable below =>
    obtain ⟨hmem, hname, hin⟩ := hg
    obtain rfl : goal' = goal := stateOf_eq hi hmem hname arrives
    obtain ⟨hactive, hfirst, path, hleaves, hpath⟩ := departs.in_order h hi ht stands hs
    have hentered : entered parent.ssid t.item.destination goal'.around =
        goal'.within t.around ++ reentered t goal' := by
      rw [hname]
      exact entered_eq h hi ht stands hmem hin
    rw [hentered] at readable ⊢
    refine ⟨ws, enters, ⟨label, hactive, fun o ho => (hpath o ho).1,
      fun k hk => readable k (List.mem_append_left _ hk), below⟩, ?_⟩
    have hblock : ((origins source).map path).flatMap (fun leaf => ws.map (d.made v t.item
          (entries v (goal'.within t.around ++ reentered t goal')) (rankIn parent.ssid t.item)
          order leaf)) =
        ((origins source).product ws).map fun x => d.made v t.item
          (entries v (goal'.within t.around ++ reentered t goal')) (rankIn parent.ssid t.item)
          order (path x.1) x.2 := by
      simp [List.product, List.flatMap_map, List.map_flatMap, List.map_map, Function.comp_def]
    rw [hleaves, hblock, List.forall₂_map_right_iff, List.forall₂_same]
    intro x hx
    obtain ⟨-, horigin, hexits⟩ := hpath x.1 (List.mem_product.mp hx).1
    refine ⟨horigin, rfl, ?_⟩
    rw [Departure.made, Departure.lead, ← hfirst, ← hexits, entries_append]
    simp only [List.append_assoc]

theorem Becomes.ssid {t : Placed Transition} {v : View} {block : List PlanarTransition}
    (hb : Becomes chart v t block) : ∀ e ∈ block, e.ssid = t.item.ssid := by
  intro e he
  cases hb with
  | nested => cases he
  | made =>
    obtain ⟨leaf, -, he⟩ := List.mem_flatMap.mp he
    obtain ⟨w, -, rfl⟩ := List.mem_map.mp he
    rfl

/-- The planar transitions of a transition, if it is no nested default: one from each leaf below
the source along each way into the destination. Their actions are in order just if no entry
actions come on top. -/
def MadeInOrder (chart : Chart) (t : Placed Transition) (block : List PlanarTransition) : Prop :=
  (∀ e ∈ block, e.ssid = t.item.ssid) ∧
    ∀ source goal, isNestedDefault t = false → StartsAt chart t source → EndsAt chart t goal →
      ∃ ws, ways goal.item = some ws ∧ LabelsRead chart t source goal ws ∧
        List.Forall₂ (fun x e => e.source = originName x.1 ∧ e.target = x.2.target ∧
          (e.actions = inOrder (View.original chart) t source x.1 goal x.2 ↔
            (t.around = goal.lineage →
              ∀ k ∈ enclosingStates goal.around, ((View.original chart).state k).entry = [])))
          ((origins source).product ws) block

/-- Flattening puts the actions of a transition in the order of execution, unless the transition
goes to the state that it stands in: then entry actions of the states around that state come on
top, and the order is kept just if there are none. -/
theorem actions_in_order_iff {p : Xml.Place} (htree : Chart.TreeShaped p)
    (hids : Identified (Chart.ofPlace p) (Chart.baseOf p)) (hplain : (Chart.ofPlace p).Plain)
    {lines lines' : Lines} {planar : PlanarChart}
    (hrun : Runs (flatten (Chart.ofPlace p)) lines planar lines') :
    ∃ blocks, planar.transitions = blocks.flatten ++ [startFails] ∧
      List.Forall₂ (MadeInOrder (Chart.ofPlace p)) (Chart.ofPlace p).transitions blocks := by
  have hforest := htree.hierarchical
  obtain ⟨⟨blocks, hblocks, hts⟩, -⟩ := runs_flatten hforest hids hplain.ends hrun
  refine ⟨blocks, hts, ?_⟩
  have hmem := (List.forall₂_and_left _ _).mpr ⟨fun t ht => ht, hblocks⟩
  refine hmem.imp ?_
  rintro t block ⟨ht, hb⟩
  refine ⟨hb.ssid, fun source goal hproper hs hg => ?_⟩
  obtain ⟨ws, hws, hread, hactions⟩ := hb.actions hforest hids ht hproper hs hg
  refine ⟨ws, hws, hread, hactions.imp ?_⟩
  rintro x e ⟨hsource, htarget, he⟩
  refine ⟨hsource, htarget, ?_⟩
  rw [he, inOrder, reentered]
  by_cases hself : t.around = goal.lineage
  · rw [if_pos hself, ← entries_eq_nil]
    simp [hself]
  · simp [hself, entries]

/-- A state in a state in a state, with a transition from the innermost to the one around it. -/
def boxes : Xml.Place :=
  Chart.drawn "boxes" [
    .state "1" "Outer\nen: a = 1" [
      .state "2" "Middle" [
        .state "3" "Inner" [],
        .transition "11" none "3" "" "1",
        .transition "12" (some "3") "2" "" "1"],
      .transition "13" none "2" "" "1"],
    .transition "14" none "1" "" "1"]

theorem boxes_identified : Identified (Chart.ofPlace boxes) (Chart.baseOf boxes) :=
  ⟨by decide +kernel, by decide +kernel, by decide +kernel, by decide +kernel⟩

theorem actions_in_order_iff_boxes :
    ∃ lines, Runs (flatten (Chart.ofPlace boxes)) .initial (planarOf (Chart.ofPlace boxes)) lines ∧
      ∃ blocks, (planarOf (Chart.ofPlace boxes)).transitions = blocks.flatten ++ [startFails] ∧
        List.Forall₂ (MadeInOrder (Chart.ofPlace boxes)) (Chart.ofPlace boxes).transitions
          blocks := by
  obtain ⟨lines, hrun⟩ := runs_planarOf (Chart.ofPlace boxes) (by decide +kernel)
  exact ⟨lines, hrun,
    actions_in_order_iff (Chart.treeShaped_drawn _ _) boxes_identified (by decide +kernel) hrun⟩

/-- The transition to the middle box, in which it stands, runs the entry action of the outer
one, although nothing is entered from outside the middle box. -/
theorem boxes_not_in_order :
    ∃ t ∈ (Chart.ofPlace boxes).transitions, ∃ s ∈ (Chart.ofPlace boxes).states,
      ∃ goal ∈ (Chart.ofPlace boxes).states, isNestedDefault t = false ∧
        t.item.source = s.item.ssid ∧ t.around <:+ s.lineage ∧
        t.item.destination = goal.item.ssid ∧ t.around <:+ goal.lineage ∧
        ∃ w ∈ (ways goal.item).getD [], ∃ e ∈ (planarOf (Chart.ofPlace boxes)).transitions,
          e.ssid = t.item.ssid ∧ e.source = s.item.ssid ∧ e.target = w.target ∧
          e.actions = ["a = 1"] ∧
          inOrder (View.original (Chart.ofPlace boxes)) t (some s) (some s) goal w = [] := by
  decide +kernel

end Statechart.Planar
