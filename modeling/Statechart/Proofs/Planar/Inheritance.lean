import Statechart.Proofs.Chart.Drawn
import Statechart.Proofs.Planar.Survival

/-!
What a leaf has from the states around it. Flattening climbs from every leaf to the chart, and on
the way it puts during actions into the label of the leaf, where the labels of all states are kept.
A leaf is never around another one, so each climb finds the labels of the texts, whatever was
climbed before (`runs_leaves`). So the name and the during actions of a leaf are those of the states
above it and its own, outermost first (`leaves_inherit`), as long as each identifier finds the label
of its own state (`notes_lend_label`).
-/

namespace Statechart

open Xml (Node Place)

/-! ## The states above an element -/

namespace Chart

/-- The state elements that an element of the chart stands in, innermost first. -/
def ancestors (p q : Place) : List Node :=
  (q.above.take (q.above.length - p.above.length)).filter (·.hasTag "state")

/-- A state stands in a list of children of the chart, or of a state of the chart. -/
theorem TreeShaped.owner {p q : Place} (h : TreeShaped p) (hq : q ∈ p.descendants "state") :
    ∃ list owner rest, q.above = list :: owner :: rest ∧ list.hasTag "Children" = true ∧
      ((owner = p.node ∧ rest = p.above) ∨ (⟨owner, rest⟩ : Place) ∈ p.descendants "state") := by
  have hseat := h.states q hq
  have hin : q ∈ p.node.inside p.above := (List.mem_filter.mp hq).1
  obtain ⟨node, above⟩ := q
  rcases above with _ | ⟨list, _ | ⟨owner, rest⟩⟩
  · cases hseat
  · cases hseat
  simp only [isSeated, isList, Bool.and_eq_true, Bool.or_eq_true, beq_iff_eq] at hseat
  obtain ⟨hlist, howner⟩ := hseat
  refine ⟨list, owner, rest, rfl, hlist, ?_⟩
  obtain ⟨-, ⟨rfl, -⟩ | hin⟩ := owner_of_mem_inside p.node p.above hin rfl
  · exact absurd (hasTag_inj h.chart hlist) (by decide)
  obtain ⟨-, hself | hin⟩ := owner_of_mem_inside p.node p.above hin rfl
  · exact .inl hself
  rcases howner with hs | hlen
  · exact .inr (List.mem_filter.mpr ⟨hin, hs⟩)
  · have := length_lt_of_mem_inside p.node hin
    simp only at this
    omega

/-- What is around a state, up to the chart, are the states above it, which are states of the
chart. -/
theorem TreeShaped.enclosingStates_eq {p : Place} (h : TreeShaped p) (n : Nat) {q : Place}
    (hn : q.above.length = n) (hq : q ∈ p.descendants "state") :
    Planar.enclosingStates (containersOf q.above) =
        (ancestors p q).map (·.attribute? "SSID") ∧
      ∀ a ∈ ancestors p q, ∃ above, (⟨a, above⟩ : Place) ∈ p.descendants "state" := by
  -- the induction goes from a state to the one it stands in
  induction n using Nat.strong_induction_on generalizing q with
  | _ n ih =>
    obtain ⟨list, owner, rest, habove, hlist, howner⟩ := h.owner hq
    have hskip := hasTag_of_ne hlist (show "Children" ≠ "state" by decide)
    have hcontainers : containersOf q.above = Container.ofNode owner :: containersOf rest := by
      rw [habove]
      rfl
    rw [hcontainers]
    rcases howner with ⟨rfl, rfl⟩ | howner
    · have hchart := hasTag_of_ne h.chart (show "chart" ≠ "state" by decide)
      have htake : q.above.length - p.above.length = 2 := by
        simp only [habove, List.length_cons]
        omega
      have hnone : ancestors p q = [] := by
        rw [ancestors, htake, habove]
        simp [hskip, hchart]
      rw [hnone, Planar.enclosingStates_of_ne (by simp [Container.ofNode, h.chart, hchart])]
      exact ⟨rfl, by simp⟩
    · obtain ⟨hin, hs⟩ := List.mem_filter.mp howner
      have hlen := length_lt_of_mem_inside p.node hin
      simp only at hlen
      have hshorter : rest.length < n := by
        rw [← hn, habove]
        simp only [List.length_cons]
        omega
      obtain ⟨hrest, hplaces⟩ := ih rest.length hshorter rfl howner
      have htake : q.above.length - p.above.length = (rest.length - p.above.length) + 2 := by
        simp only [habove, List.length_cons]
        omega
      have hcons : ancestors p q = owner :: ancestors p ⟨owner, rest⟩ := by
        rw [ancestors, ancestors, htake, habove, List.take_succ_cons, List.take_succ_cons,
          List.filter_cons_of_neg (by simp [hskip]), List.filter_cons_of_pos hs]
      rw [hcons, Container.ofNode_state hs, Planar.enclosingStates_state, hrest, List.map_cons]
      exact ⟨rfl, List.forall_mem_cons.mpr ⟨⟨rest, howner⟩, hplaces⟩⟩

/-- Where identifiers are not repeated, the text that is found for a state is its own. -/
theorem Identified.lookup_stateLabels {p q : Place} {base : List Container}
    (h : Identified (ofPlace p) base) (hq : q ∈ p.descendants "state") :
    (ofPlace p).stateLabels.lookup (worded (idOf q)) = q.node.property? "labelString" := by
  have hnodup : ((p.descendants "state").map idOf).Nodup := by
    have hmap : (ofPlace p).states.map (·.item.ssid) = (p.descendants "state").map idOf := by
      rw [Chart.states, List.map_map]
      exact List.map_congr_left fun r _ => State.ssid_ofNode r.node
    exact hmap ▸ h.states
  obtain ⟨x, hx⟩ := Option.isSome_iff_exists.mp (h.named _ (mem_states_of_place hq))
  replace hx : idOf q = some x := (ssid_eq_idOf hq).symm.trans hx
  have hself : hasId (idOf q) q = true := by
    rw [hasId, ← idOf, hx]
    exact beq_self_eq_true _
  obtain ⟨before, after, hsplit⟩ := List.append_of_mem hq
  rw [hsplit, List.map_append, List.map_cons, List.nodup_middle, List.nodup_cons] at hnodup
  have hothers : ∀ r ∈ before ++ after, ¬ hasId (idOf q) r = true := by
    intro r hr hid
    rw [hasId, ← idOf, hx, beq_iff_eq] at hid
    refine hnodup.1 ?_
    rw [← List.map_append, hx]
    exact List.mem_map.mpr ⟨r, hr, hid⟩
  rw [stateLabels, lookup_labelsOf]
  change ((p.descendants "state").filter (hasId (idOf q))).findSome? _ = _
  rw [hsplit, List.filter_append, List.filter_cons_of_pos hself,
    List.filter_eq_nil_iff.mpr fun r hr => hothers r (List.mem_append_left _ hr),
    List.filter_eq_nil_iff.mpr fun r hr => hothers r (List.mem_append_right _ hr)]
  exact List.findSome?_singleton

end Chart

namespace Planar

open Chart (State Transition Container Placed Hierarchical Identified)
open Chart (hasRoom idOf ancestors IsPlain)
open Label (View Cache)

variable {chart : Chart} {base : List Container}

/-! ## One leaf -/

/-- Joining the last two parts ahead of all others. -/
theorem intercalate_concat (separator a b : String) (xs : List String) :
    separator.intercalate (xs ++ [a ++ separator ++ b]) =
      separator.intercalate (xs ++ [a, b]) := by
  induction xs with
  | nil => simp
  | cons x xs ih =>
    cases xs with
    | nil => simp [String.append_assoc]
    | cons y ys =>
      simp only [List.cons_append, String.intercalate_cons_cons] at ih ⊢
      rw [ih]

/-- A leaf with the names and the during actions of the states around it. -/
def inherited (v : View) (s : Placed State) : PlanarState where
  longName := "_".intercalate
    ((enclosingStates s.around).reverse.map (fun k => (v.state k).name) ++
      [(v.state s.item.ssid).name])
  label := { v.state s.item.ssid with
    during := durings v (enclosingStates s.around) ++ (v.state s.item.ssid).during }
  parents := enclosingStates s.around

/-- A climb that finds the labels of `v` around a leaf. -/
theorem runs_climb_inherits {v : View} {ssid : Option String} (around : List Container)
    {name longName : String} {c c' : Cache} (hc : c.Kept chart)
    (hread : (chart.stateLabel? ssid).isSome)
    (hv : ∀ k ∈ enclosingStates around, ssid ≠ k ∧ (c.view chart).state k = v.state k)
    (h : Runs (climb chart ssid around name) c longName c') :
    longName = "_".intercalate
        ((enclosingStates around).reverse.map (fun k => (v.state k).name) ++ [name]) ∧
      c'.Kept chart ∧ AllReadable chart (enclosingStates around) ∧
      c'.view chart = (c.view chart).setState ssid { (c.view chart).state ssid with
        during := durings v (enclosingStates around) ++ ((c.view chart).state ssid).during } := by
  induction around generalizing name c with
  | nil =>
    rw [climb] at h
    exact absurd h not_runs_throw
  | cons k around ih =>
    obtain ⟨kind, outer⟩ := k
    by_cases hk : kind = .state
    · subst hk
      rw [climb] at h
      obtain ⟨l, c₁, hl, h⟩ := runs_bind.mp h
      obtain ⟨rfl, houter, hl⟩ := Cache.runs_state hc hl
      obtain ⟨own, c₂, ho, h⟩ := runs_bind.mp h
      obtain ⟨rfl, -, ho⟩ := Cache.runs_state hl.kept ho
      obtain ⟨u, c₃, hset, h⟩ := runs_bind.mp h
      obtain ⟨hview, hkept⟩ := Cache.runs_setState ho.kept hread hset
      rw [ho.view, hl.view] at hview
      obtain ⟨hne, hstate⟩ := hv outer (List.mem_cons_self ..)
      -- the label of the leaf has changed, and no label around it
      have hrest : ∀ k ∈ enclosingStates around,
          ssid ≠ k ∧ (c₃.view chart).state k = v.state k := by
        intro k hk
        obtain ⟨hne, hstate⟩ := hv k (List.mem_cons_of_mem _ hk)
        refine ⟨hne, ?_⟩
        rw [hview, View.setState_of_ne _ _ hne, hstate]
      obtain ⟨hname, hkept, hreads, hfinal⟩ := ih hkept hrest h
      refine ⟨?_, hkept, hreads.cons houter, ?_⟩
      · rw [hname, intercalate_concat, enclosingStates_state, List.reverse_cons, List.map_append,
          List.append_assoc, hstate]
        rfl
      · rw [hfinal, hview, View.setState_self, View.setState_setState, hstate]
        simp [durings]
    · rw [climb_of_ne hk] at h
      obtain ⟨rfl, rfl⟩ := runs_pure.mp h
      have hnil := enclosingStates_of_ne (k := ⟨kind, outer⟩) hk around
      refine ⟨by simp [hnil], hc, by simp [hnil, AllReadable], ?_⟩
      rw [hnil]
      exact (View.setState_same ..).symm

/-- The labels of the states above a leaf and its own can be read. -/
def LeafReadable (chart : Chart) (s : Placed State) : Prop :=
  AllReadable chart (s.item.ssid :: enclosingStates s.around)

/-- One leaf: it has what the labels in `v` say, and no other label is changed. -/
theorem runs_leafState_inherits {v : View} {s : Placed State} {ps : PlanarState} {c c' : Cache}
    (hc : c.Kept chart) (hself : (c.view chart).state s.item.ssid = v.state s.item.ssid)
    (hv : ∀ k ∈ enclosingStates s.around,
      s.item.ssid ≠ k ∧ (c.view chart).state k = v.state k)
    (h : Runs (leafState chart s) c ps c') :
    ps = inherited v s ∧ LeafReadable chart s ∧ c'.Kept chart ∧
      ∀ k, s.item.ssid ≠ k → (c'.view chart).state k = (c.view chart).state k := by
  unfold leafState at h
  obtain ⟨l, c₁, hl, h⟩ := runs_bind.mp h
  obtain ⟨rfl, hread, hl⟩ := Cache.runs_state hc hl
  obtain ⟨longName, c₂, hclimb, h⟩ := runs_bind.mp h
  rw [← hl.view] at hv
  obtain ⟨rfl, hkept, hreads, hview⟩ := runs_climb_inherits s.around hl.kept hread hv hclimb
  obtain ⟨own, c₃, ho, h⟩ := runs_bind.mp h
  obtain ⟨rfl, -, ho⟩ := Cache.runs_state hkept ho
  obtain ⟨rfl, rfl⟩ := runs_pure.mp h
  refine ⟨?_, hreads.cons hread, ho.kept, fun k hk => ?_⟩
  · rw [hview, View.setState_self, hl.view, hself]
    rfl
  · rw [ho.view, hview, View.setState_of_ne _ _ hk, hl.view]

/-! ## All leaves -/

/-- The labels of composite states, and of the leaves that are still to be climbed from, are those
of the texts. -/
def Intact (chart : Chart) (pending : List (Placed State)) (v : View) : Prop :=
  ∀ s ∈ chart.states, (s.item.isComposite = true ∨ s ∈ pending) →
    v.state s.item.ssid = (View.original chart).state s.item.ssid

/-- A state around a leaf is another state. -/
theorem leaf_ne_enclosing (h : Hierarchical chart base) (hi : Identified chart base)
    {s : Placed State} (hs : s ∈ chart.states) (hleaf : s.item.isComposite = false) :
    ∀ k ∈ enclosingStates s.around, s.item.ssid ≠ k := by
  rintro k hk rfl
  obtain ⟨q, hq, hcomposite, hid⟩ := enclosing_composite h hs _ hk
  rw [hi.eq_of_ssid hq hs hid, hleaf] at hcomposite
  cases hcomposite

/-- Every leaf has what the labels of the texts say, whatever was climbed from before. -/
theorem runs_leaves (h : Hierarchical chart base) (hi : Identified chart base)
    (leaves : List (Placed State))
    (hleaves : ∀ s ∈ leaves, s ∈ chart.states ∧ s.item.isComposite = false)
    (hnodup : (leaves.map (·.item.ssid)).Nodup)
    {entries : List (Option String × PlanarState)} {c c' : Cache} (hc : c.Kept chart)
    (hv : Intact chart leaves (c.view chart))
    (hrun : Runs (leaves.mapM fun s => do return (s.item.ssid, ← leafState chart s)) c entries
      c') :
    entries = leaves.map (fun s => (s.item.ssid, inherited (View.original chart) s)) ∧
      ∀ s ∈ leaves, LeafReadable chart s := by
  induction leaves generalizing c entries with
  | nil =>
    rw [List.mapM_nil] at hrun
    obtain ⟨rfl, -⟩ := runs_pure.mp hrun
    exact ⟨rfl, by simp⟩
  | cons s leaves ih =>
    obtain ⟨entry, c₁, rest, hentry, hrest, rfl⟩ := runs_mapM_cons.mp hrun
    obtain ⟨ps, c₂, hps, hentry⟩ := runs_bind.mp hentry
    obtain ⟨rfl, rfl⟩ := runs_pure.mp hentry
    obtain ⟨hs, hleaf⟩ := hleaves s (List.mem_cons_self ..)
    obtain ⟨hnot, hnodup⟩ := List.nodup_cons.mp hnodup
    have hself := hv s hs (.inr (List.mem_cons_self ..))
    have houter : ∀ k ∈ enclosingStates s.around, s.item.ssid ≠ k ∧
        (c.view chart).state k = (View.original chart).state k := by
      intro k hk
      refine ⟨leaf_ne_enclosing h hi hs hleaf k hk, ?_⟩
      obtain ⟨q, hq, hcomposite, rfl⟩ := enclosing_composite h hs k hk
      exact hv q hq (.inl hcomposite)
    obtain ⟨rfl, hread, hkept, hothers⟩ := runs_leafState_inherits hc hself houter hps
    -- what is left has other identifiers
    have hintact : Intact chart leaves (c₂.view chart) := by
      intro q hq hstill
      rw [hothers q.item.ssid fun hid => ?_]
      · exact hv q hq (hstill.imp_right (List.mem_cons_of_mem _))
      · rcases hstill with hcomposite | hmem
        · rw [hi.eq_of_ssid hs hq hid, hcomposite] at hleaf
          cases hleaf
        · exact hnot (List.mem_map.mpr ⟨q, hmem, hid.symm⟩)
    obtain ⟨hrest, hreads⟩ := ih (fun s hs => hleaves s (List.mem_cons_of_mem _ hs)) hnodup hkept
      hintact hrest
    refine ⟨by rw [hrest, List.map_cons], fun q hq => ?_⟩
    rcases List.mem_cons.mp hq with rfl | hq
    · exact hread
    · exact hreads q hq

/-- The leaves of a chart, with what they have from the states around them. -/
def inheritedStates (chart : Chart) : List (Option String × PlanarState) :=
  (chart.states.filter (!·.item.isComposite)).map fun s =>
    (s.item.ssid, inherited (View.original chart) s)

/-- The states of a flattened chart. -/
theorem flatten_states (h : Hierarchical chart base) (hi : Identified chart base)
    {lines lines' : Lines} {planar : PlanarChart}
    (hrun : Runs (flatten chart) lines planar lines') :
    planar.states = ((Table.ofList (inheritedStates chart)).insert (some "start")
        (bareState "start")).insert (some "error") (bareState "error") ∧
      ∀ s ∈ chart.states, s.item.isComposite = false → LeafReadable chart s := by
  obtain ⟨c', hwork⟩ := runs_flattening hrun
  unfold flattening at hwork
  obtain ⟨states, c₁, hstates, hwork⟩ := runs_bind.mp hwork
  obtain ⟨blocks, c₂, -, hwork⟩ := runs_bind.mp hwork
  obtain ⟨vars, c₃, -, hwork⟩ := runs_bind.mp hwork
  obtain ⟨cache, c₄, -, hwork⟩ := runs_bind.mp hwork
  obtain ⟨rfl, -⟩ := runs_pure.mp hwork
  unfold planarStates at hstates
  obtain ⟨leaves, c₅, hleaves, hstates⟩ := runs_bind.mp hstates
  obtain ⟨rfl, -⟩ := runs_pure.mp hstates
  have hmem : ∀ s, s ∈ chart.states.filter (!·.item.isComposite) ↔
      s ∈ chart.states ∧ s.item.isComposite = false := by
    intro s
    rw [List.mem_filter, Bool.not_eq_true']
  have hintact : Intact chart (chart.states.filter (!·.item.isComposite))
      ((Cache.fresh lines).view chart) := by
    intro s _ _
    rw [Cache.view_fresh]
  obtain ⟨rfl, hreads⟩ := runs_leaves h hi _ (fun s hs => (hmem s).mp hs)
    (hi.states.sublist (List.filter_sublist.map _)) (Cache.kept_fresh chart lines) hintact hleaves
  exact ⟨rfl, fun s hs hleaf => hreads s ((hmem s).mpr ⟨hs, hleaf⟩)⟩

/-! ## Labels by their texts -/

theorem addSections_name {owner : String} (ss : List Label.Section) {l l' : StateLabel}
    {vars vars' : Variables} {lines lines' : Lines}
    (h : Runs (Label.addSections owner l vars ss) lines (l', vars') lines') : l'.name = l.name := by
  induction ss generalizing l vars lines with
  | nil =>
    obtain ⟨he, -⟩ := runs_pure.mp h
    rw [← (Prod.mk.inj he).1]
  | cons s ss ih =>
    obtain ⟨heading, body⟩ := s
    cases heading with
    | bind => exact absurd h not_runs_throw
    | on e => exact absurd h not_runs_throw
    | actions words =>
      obtain ⟨r, lines₁, -, h⟩ := runs_bind.mp h
      exact (ih h).trans rfl

theorem readState_name {text : String} {ssid : Option String} {l : StateLabel} {vars : Variables}
    {lines lines' : Lines} (h : Runs (Label.readState text ssid) lines (l, vars) lines') :
    l.name = Text.trimmed (Label.stateName text) := by
  unfold Label.readState at h
  obtain ⟨ss, lines₁, -, h⟩ := runs_bind.mp h
  rw [addSections_name ss h]

/-- The text of a state element reads as a label, whose name is the trimmed name in the text. -/
def Spells (n : Node) (l : StateLabel) : Prop :=
  ∃ text vars lines, n.property? "labelString" = some text ∧
    Runs (Label.readState text (n.attribute? "SSID")) .initial (l, vars) lines ∧
    l.name = Text.trimmed (Label.stateName text)

/-- What a chart shows for a plain identifier is the label of the state that has it. -/
theorem spells_original {p q : Place} (hi : Identified (Chart.ofPlace p) base)
    (hq : q ∈ p.descendants "state") (hplain : IsPlain (idOf q))
    (h : ((Chart.ofPlace p).stateLabel? (idOf q)).isSome) :
    Spells q.node ((View.original (Chart.ofPlace p)).state (idOf q)) := by
  obtain ⟨l, hl⟩ := Option.isSome_iff_exists.mp h
  obtain ⟨text, vars, ht, hread⟩ := Chart.text_of_stateLabel? hl
  obtain ⟨lines, hread⟩ := hread .initial
  have hsame : (View.original (Chart.ofPlace p)).state (idOf q) = l := by
    simp [View.original, hl]
  rw [Chart.stateText?_plain hplain, hi.lookup_stateLabels hq] at ht
  rw [hsame]
  exact ⟨text, vars, lines, ht, hread, readState_name hread⟩

theorem mem_inheritedStates {p q : Place} (hq : q ∈ p.descendants "state")
    (hroom : hasRoom q = false) :
    idOf q ∈ (inheritedStates (Chart.ofPlace p)).map (·.1) := by
  have hleaf : (Chart.Placed.ofPlace State.ofNode q).item.isComposite = false := by
    rw [← hroom, ← Chart.isComposite_eq_hasRoom hq]
    rfl
  rw [inheritedStates, List.map_map]
  refine List.mem_map.mpr ⟨Chart.Placed.ofPlace State.ofNode q, ?_, Chart.ssid_eq_idOf hq⟩
  exact List.mem_filter.mpr ⟨Chart.mem_states_of_place hq, by rw [hleaf]; rfl⟩

/-- If no state has a quotation mark in its identifier, every leaf is in the flattened chart and has
the states above it as its parents. Its long name has their trimmed names, outermost first, and then
its own, and its during actions are theirs, outermost first, and then its own, as the texts of the
labels give them. The other two states are those that every planar chart has. -/
theorem leaves_inherit {p : Place} (htree : Chart.TreeShaped p)
    (hids : Identified (Chart.ofPlace p) (Chart.baseOf p))
    (hplain : ∀ s ∈ (Chart.ofPlace p).states, IsPlain s.item.ssid)
    {lines lines' : Lines} {planar : PlanarChart}
    (hrun : Runs (flatten (Chart.ofPlace p)) lines planar lines') :
    (∀ q ∈ p.descendants "state", hasRoom q = false →
      (planar.states.get? (idOf q)).isSome = true) ∧
    ∀ k ps, planar.states.get? k = some ps →
      (k = some "start" ∧ ps = bareState "start") ∨ (k = some "error" ∧ ps = bareState "error") ∨
      ∃ q ∈ p.descendants "state", hasRoom q = false ∧ idOf q = k ∧
        ps.parents = (ancestors p q).map (·.attribute? "SSID") ∧
        ∃ own outer, Spells q.node own ∧ List.Forall₂ Spells (ancestors p q) outer ∧
          ps.longName = "_".intercalate ((outer.map (·.name)).reverse ++ [own.name]) ∧
          ps.label = { own with during := outer.reverse.flatMap (·.during) ++ own.during } := by
  obtain ⟨hstates, hreads⟩ := flatten_states htree.hierarchical hids hrun
  constructor
  · intro q hq hroom
    rw [hstates, Table.isSome_get?, Table.mem_keys_insert, Table.mem_keys_insert,
      Table.mem_keys_ofList]
    exact .inr (.inr (mem_inheritedStates hq hroom))
  intro k ps hps
  rw [hstates, Table.get?_insert, Table.get?_insert] at hps
  split at hps
  · next hk =>
    cases hps
    exact .inr (.inl ⟨hk.symm, rfl⟩)
  split at hps
  · next hk =>
    cases hps
    exact .inl ⟨hk.symm, rfl⟩
  obtain ⟨s, hs, he⟩ := List.mem_map.mp (Table.mem_of_get?_ofList hps)
  cases he
  obtain ⟨hs, hleaf⟩ := List.mem_filter.mp hs
  rw [Bool.not_eq_true'] at hleaf
  obtain ⟨q, hq, rfl⟩ := Chart.mem_states_ofPlace.mp hs
  obtain ⟨hancestors, hplaces⟩ := htree.enclosingStates_eq _ rfl hq
  have hread := hreads _ hs hleaf
  have hstate : ∀ r ∈ p.descendants "state", IsPlain (idOf r) := by
    intro r hr
    rw [← Chart.ssid_eq_idOf hr]
    exact hplain (Chart.Placed.ofPlace State.ofNode r) (Chart.mem_states_of_place hr)
  refine .inr (.inr ⟨q, hq, ?_, (Chart.ssid_eq_idOf hq).symm, hancestors,
    (View.original (Chart.ofPlace p)).state (idOf q),
    (ancestors p q).map fun a => (View.original (Chart.ofPlace p)).state (a.attribute? "SSID"),
    spells_original hids hq (hstate q hq) ?_,
    List.forall₂_map_right_iff.mpr (List.forall₂_same.mpr fun a ha => ?_), ?_, ?_⟩)
  · rw [← Chart.isComposite_eq_hasRoom hq]
    exact hleaf
  · rw [← Chart.ssid_eq_idOf hq]
    exact hread _ (List.mem_cons_self ..)
  · obtain ⟨above, hr⟩ := hplaces a ha
    have hk : a.attribute? "SSID" ∈ enclosingStates (Chart.containersOf q.above) := by
      rw [hancestors]
      exact List.mem_map_of_mem ha
    exact spells_original hids hr (hstate _ hr) (hread _ (List.mem_cons_of_mem _ hk))
  · rw [inherited, Chart.ssid_eq_idOf hq]
    simp only [hancestors, List.map_reverse, List.map_map, Function.comp_def]
  · rw [inherited, Chart.ssid_eq_idOf hq]
    simp only [hancestors, durings, ← List.map_reverse, List.flatMap_map]

/-- A house with a room, in which there are a lamp and a fan. -/
def house : Place :=
  Chart.drawn "house" [
    .state "1" "House\ndu: a = 1" [
      .state "2" " Room \ndu: b = 1" [
        .state "3" "Lamp/du: c = 1" [],
        .state "4" "Fan\ndu: d = 1; e = 1" [],
        .transition "11" none "3" "" "1"],
      .transition "12" none "2" "" "1"],
    .transition "13" none "1" "" "1"]

theorem leaves_inherit_house :
    ∃ lines, Runs (flatten (Chart.ofPlace house)) .initial (planarOf (Chart.ofPlace house)) lines ∧
      ∃ ps, (planarOf (Chart.ofPlace house)).states.get? (some "4") = some ps ∧
        ps.longName = "House_Room_Fan" ∧ ps.label.during = ["a = 1", "b = 1", "d = 1", "e = 1"] ∧
        ps.parents = [some "2", some "1"] ∧
        ∃ q ∈ house.descendants "state", hasRoom q = false ∧ idOf q = some "4" ∧
          ps.parents = (ancestors house q).map (·.attribute? "SSID") := by
  have hids : Identified (Chart.ofPlace house) (Chart.baseOf house) ∧
      ∀ s ∈ (Chart.ofPlace house).states, IsPlain s.item.ssid := by
    decide +kernel
  have hfan : ((flatten (Chart.ofPlace house)).run.run .initial).1.isOk = true ∧
      ∃ ps ∈ (planarOf (Chart.ofPlace house)).states.get? (some "4"),
        ps.longName = "House_Room_Fan" ∧ ps.label.during = ["a = 1", "b = 1", "d = 1", "e = 1"] ∧
          ps.parents = [some "2", some "1"] := by
    decide +kernel
  obtain ⟨hok, ps, hps, hname, hduring, hparents⟩ := hfan
  obtain ⟨lines, hrun⟩ := runs_planarOf (Chart.ofPlace house) hok
  rw [Option.mem_def] at hps
  refine ⟨lines, hrun, ps, hps, hname, hduring, hparents, ?_⟩
  rcases (leaves_inherit (Chart.treeShaped_drawn _ _) hids.1 hids.2 hrun).2 _ ps hps with
    ⟨hk, -⟩ | ⟨hk, -⟩ | ⟨q, hq, hroom, hid, habove, -⟩
  · exact absurd hk (by decide)
  · exact absurd hk (by decide)
  · exact ⟨q, hq, hroom, hid, habove⟩

/-- An identifier with quotation marks in it. -/
def quotedNote : String := "1\"]/../state[@SSID=\"2"

def notes : Place :=
  Chart.drawn "notes" [
    .state "1" "A\ndu: a = 1" [],
    .state "2" "B\ndu: b = 1" [],
    .state quotedNote "C\ndu: c = 1" [],
    .transition "11" none "1" "" "1"]

/-- The look-up with the identifier of the third note finds the label of the second. -/
theorem notes_lend_label :
    Chart.TreeShaped notes ∧ Identified (Chart.ofPlace notes) (Chart.baseOf notes) ∧
      ∃ lines, Runs (flatten (Chart.ofPlace notes)) .initial (planarOf (Chart.ofPlace notes))
          lines ∧
        ∃ q ∈ notes.descendants "state", idOf q = some quotedNote ∧ ancestors notes q = [] ∧
          (∃ own, Spells q.node own ∧ own.name = "C" ∧ own.during = ["c = 1"]) ∧
          ∃ ps, (planarOf (Chart.ofPlace notes)).states.get? (some quotedNote) = some ps ∧
            ps.longName = "B" ∧ ps.label.during = ["b = 1"] := by
  have hread : ((Label.readState "C\ndu: c = 1" (some quotedNote)).run.run .initial).1.toOption =
      some (⟨"C", [], ["c = 1"], []⟩, .empty) := by
    decide +kernel
  have hnote : ((flatten (Chart.ofPlace notes)).run.run .initial).1.isOk = true ∧
      ∃ q ∈ notes.descendants "state", idOf q = some quotedNote ∧
        (ancestors notes q).isEmpty = true ∧
        q.node.property? "labelString" = some "C\ndu: c = 1" ∧
        ∃ ps ∈ (planarOf (Chart.ofPlace notes)).states.get? (some quotedNote),
          ps.longName = "B" ∧ ps.label.during = ["b = 1"] := by
    decide +kernel
  obtain ⟨hok, q, hq, hid, habove, htext, ps, hps, hname, hduring⟩ := hnote
  obtain ⟨lines, hrun⟩ := runs_planarOf (Chart.ofPlace notes) hok
  have hown : Spells q.node ⟨"C", [], ["c = 1"], []⟩ := by
    have hssid : q.node.attribute? "SSID" = some quotedNote := hid
    exact ⟨_, _, _, htext, hssid ▸ runs_of_toOption hread, by decide +kernel⟩
  exact ⟨Chart.treeShaped_drawn _ _, by decide +kernel, lines, hrun, q, hq, hid,
    List.isEmpty_iff.mp habove, ⟨_, hown, rfl, rfl⟩, ps, hps, hname, hduring⟩

end Planar

end Statechart
