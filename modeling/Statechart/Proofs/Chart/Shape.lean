import Statechart.Proofs.Chart.Forest
import Statechart.Proofs.Chart.Lookup

/-!
Documents in the shape of a tree: every state and every transition stands in a list of children
of the chart or of a state. The chart that is read off such a document is hierarchical
(`TreeShaped.hierarchical`).
-/

namespace Statechart.Chart

open Xml (Node Place placesIn)

/-- Whether a node is a list of children of a state, or of the chart, which has `depth` nodes
around it. -/
def isList (depth : Nat) (n : Node) (above : List Node) : Bool :=
  match above with
  | [] => false
  | owner :: rest => n.hasTag "Children" && (owner.hasTag "state" || rest.length == depth)

/-- Whether an element stands in a list of children of a state or of the chart. -/
def isSeated (depth : Nat) (q : Place) : Bool :=
  match q.above with
  | [] => false
  | n :: above => isList depth n above

/-- Every state and every transition in the chart stands in a list of children. -/
structure TreeShaped (p : Place) : Prop where
  chart : p.node.hasTag "chart" = true
  states : ∀ q ∈ p.descendants "state", isSeated p.above.length q = true
  transitions : ∀ q ∈ p.descendants "transition", isSeated p.above.length q = true

/-- The chart and what is around it. -/
def baseOf (p : Place) : List Container :=
  Container.ofNode p.node :: p.enclosing.map Container.ofNode

/-! ## Nodes -/

theorem hasTag_inj {n : Node} {a b : String} (ha : n.hasTag a = true) (hb : n.hasTag b = true) :
    a = b := by
  cases n with
  | element name as cs =>
    simp only [Node.hasTag, beq_iff_eq] at ha hb
    rw [ha] at hb
    exact (Xml.Name.mk.inj hb).2
  | text s => cases ha
  | other => cases ha

theorem hasTag_of_ne {n : Node} {a b : String} (ha : n.hasTag a = true) (h : a ≠ b) :
    n.hasTag b = false := by
  cases hb : n.hasTag b with
  | false => rfl
  | true => exact absurd (hasTag_inj ha hb) h

theorem isElement_of_hasTag {n : Node} {a : String} (h : n.hasTag a = true) :
    n.isElement = true := by
  cases n with
  | element name as cs => rfl
  | text s => cases h
  | other => cases h

/-- Induction over a node and the nodes in it. -/
theorem node_induction {P : Node → Prop}
    (element : ∀ name attributes children, (∀ k ∈ children, P k) →
      P (.element name attributes children))
    (text : ∀ s, P (.text s)) (other : P .other) (n : Node) : P n := by
  refine Node.rec (motive_1 := P) (motive_2 := fun ns => ∀ k ∈ ns, P k)
    element text other ?_ ?_ n
  · intro k hk
    cases hk
  · intro m ms hm hms k hk
    rcases List.mem_cons.mp hk with rfl | hk
    · exact hm
    · exact hms k hk

/-- A node, if it is an element, and the elements in it. -/
def placesFrom (above : List Node) (n : Node) : List Place :=
  (if n.isElement then [⟨n, above⟩] else []) ++ n.inside above

theorem placesIn_eq_flatMap (above ns : List Node) :
    placesIn above ns = ns.flatMap (placesFrom above) := by
  induction ns with
  | nil => rfl
  | cons n ns ih => rw [placesIn, List.flatMap_cons, ih, placesFrom]

theorem inside_eq_flatMap (above : List Node) (n : Node) :
    n.inside above = n.children.flatMap (placesFrom (n :: above)) := by
  cases n with
  | element name as cs => exact placesIn_eq_flatMap ..
  | text s => rfl
  | other => rfl

theorem mem_placesFrom {above : List Node} {n : Node} {q : Place} :
    q ∈ placesFrom above n ↔ (n.isElement = true ∧ q = ⟨n, above⟩) ∨ q ∈ n.inside above := by
  rw [placesFrom, List.mem_append]
  cases n.isElement <;> simp

theorem mem_inside {above : List Node} {n : Node} {q : Place} :
    q ∈ n.inside above ↔
      ∃ k ∈ n.children, (k.isElement = true ∧ q = ⟨k, n :: above⟩) ∨ q ∈ k.inside (n :: above) := by
  rw [inside_eq_flatMap, List.mem_flatMap]
  constructor
  · rintro ⟨k, hk, h⟩
    exact ⟨k, hk, mem_placesFrom.mp h⟩
  · rintro ⟨k, hk, h⟩
    exact ⟨k, hk, mem_placesFrom.mpr h⟩

theorem isElement_of_mem_inside {above : List Node} {n : Node} {q : Place}
    (h : q ∈ n.inside above) : n.isElement = true := by
  cases n with
  | element name as cs => rfl
  | text s => cases h
  | other => cases h

/-- The element that a place stands in is the one it was found from, or stands inside it. -/
theorem owner_of_mem_inside (n : Node) (above : List Node) {q : Place}
    (hq : q ∈ n.inside above) {m : Node} {rest : List Node} (hm : q.above = m :: rest) :
    q.node ∈ m.children ∧ ((m = n ∧ rest = above) ∨ (⟨m, rest⟩ : Place) ∈ n.inside above) := by
  induction n using node_induction generalizing above with
  | text s => cases hq
  | other => cases hq
  | element name as cs ih =>
    obtain ⟨k, hk, ⟨-, rfl⟩ | hq⟩ := mem_inside.mp hq
    · obtain ⟨rfl, rfl⟩ := List.cons.inj hm
      exact ⟨hk, .inl ⟨rfl, rfl⟩⟩
    · obtain ⟨hc, ⟨rfl, rfl⟩ | hin⟩ := ih k hk _ hq
      · exact ⟨hc, .inr (mem_inside.mpr ⟨m, hk, .inl ⟨isElement_of_mem_inside hq, rfl⟩⟩)⟩
      · exact ⟨hc, .inr (mem_inside.mpr ⟨k, hk, .inr hin⟩)⟩

/-- What stands in a child of a place, or of a child of it, stands inside. -/
theorem mem_inside_of_child {n : Node} {above : List Node} {q : Place} {k : Node}
    (hq : q ∈ n.inside above) (hk : k ∈ q.node.children) (he : k.isElement = true) :
    (⟨k, q.node :: q.above⟩ : Place) ∈ n.inside above := by
  induction n using node_induction generalizing above with
  | text s => cases hq
  | other => cases hq
  | element name as cs ih =>
    obtain ⟨m, hm, ⟨hme, rfl⟩ | hq⟩ := mem_inside.mp hq
    · exact mem_inside.mpr ⟨m, hm, .inr (mem_inside.mpr ⟨k, hk, .inl ⟨he, rfl⟩⟩)⟩
    · exact mem_inside.mpr ⟨m, hm, .inr (ih m hm hq)⟩

theorem mem_inside_trans {n : Node} {above : List Node} {q r : Place} (hq : q ∈ n.inside above)
    (hr : r ∈ q.node.inside q.above) : r ∈ n.inside above := by
  induction n using node_induction generalizing above with
  | text s => cases hq
  | other => cases hq
  | element name as cs ih =>
    obtain ⟨k, hk, ⟨-, rfl⟩ | hq⟩ := mem_inside.mp hq
    · exact mem_inside.mpr ⟨k, hk, .inr hr⟩
    · exact mem_inside.mpr ⟨k, hk, .inr (ih k hk hq)⟩

/-! ## States and transitions -/

/-- States and transitions among the places are in lists of children. -/
def AllSeated (depth : Nat) (ps : List Place) : Prop :=
  ∀ q ∈ ps, (q.node.hasTag "state" = true ∨ q.node.hasTag "transition" = true) →
    isSeated depth q = true

theorem AllSeated.child {depth : Nat} {n : Node} {above : List Node}
    (h : AllSeated depth (n.inside above)) {k : Node} (hk : k ∈ n.children) :
    AllSeated depth (k.inside (n :: above)) :=
  fun q hq => h q (mem_inside.mpr ⟨k, hk, .inr hq⟩)

/-- A state or transition makes the node that it stands in a list of children. -/
theorem AllSeated.isList {depth : Nat} {n : Node} {above : List Node}
    (h : AllSeated depth (n.inside above)) {k : Node} (hk : k ∈ n.children)
    (ht : k.hasTag "state" = true ∨ k.hasTag "transition" = true) :
    isList depth n above = true := by
  have he : k.isElement = true := by
    rcases ht with ht | ht <;> exact isElement_of_hasTag ht
  exact h ⟨k, n :: above⟩ (mem_inside.mpr ⟨k, hk, .inl ⟨he, rfl⟩⟩) ht

/-- Neither a state nor a transition stands in a node that is neither a state nor a list of
children. -/
theorem AllSeated.bare {depth : Nat} (n : Node) {above : List Node}
    (h : AllSeated depth (n.inside above)) (hd : depth < above.length)
    (hs : n.hasTag "state" = false) (hl : Chart.isList depth n above = false) :
    ∀ q ∈ n.inside above, ¬ (q.node.hasTag "state" = true ∨ q.node.hasTag "transition" = true) := by
  induction n using node_induction generalizing above with
  | text s => intro q hq; cases hq
  | other => intro q hq; cases hq
  | element name as cs ih =>
    intro q hq
    obtain ⟨k, hk, hq⟩ := mem_inside.mp hq
    have hbare : ¬ (k.hasTag "state" = true ∨ k.hasTag "transition" = true) := by
      intro ht
      rw [h.isList hk ht] at hl
      cases hl
    rcases hq with ⟨-, rfl⟩ | hq
    · exact hbare
    · refine ih k hk (h.child hk) (by simp; omega) ?_ ?_ q hq
      · cases hk' : k.hasTag "state" with
        | false => rfl
        | true => exact absurd (.inl hk') hbare
      · have hne : (above.length == depth) = false := by simp; omega
        simp [Chart.isList, hs, hne]

/-! ## The forest of states -/

/-- The states among places, as they are read. -/
def statesAt (ps : List Place) : List (Placed State) :=
  (ps.filter (·.node.hasTag "state")).map (Placed.ofPlace State.ofNode)

theorem statesAt_flatMap (above ns : List Node) :
    statesAt (ns.flatMap (placesFrom above)) =
      ns.flatMap fun n => statesAt (placesFrom above n) := by
  simp only [statesAt, List.filter_flatMap, List.map_flatMap]

theorem statesAt_eq_nil {ps : List Place}
    (h : ∀ q ∈ ps, ¬ (q.node.hasTag "state" = true ∨ q.node.hasTag "transition" = true)) :
    statesAt ps = [] := by
  rw [statesAt, List.filter_eq_nil_iff.mpr (fun q hq hs => h q hq (.inl hs)), List.map_nil]

theorem statesAt_placesFrom {above : List Node} {n : Node} (h : n.hasTag "state" = false) :
    statesAt (placesFrom above n) = statesAt (n.inside above) := by
  unfold placesFrom
  split <;> simp [statesAt, h]

theorem substatesOf_eq_flatMap (ns : List Node) : substatesOf ns = ns.flatMap statesIn := by
  induction ns with
  | nil => rfl
  | cons n ns ih => rw [substatesOf, List.flatMap_cons, ih]

theorem statesAmong_eq_flatMap (ns : List Node) :
    statesAmong ns = ns.flatMap fun n => if n.hasTag "state" then [State.ofNode n] else [] := by
  induction ns with
  | nil => rfl
  | cons n ns ih => rw [statesAmong, List.flatMap_cons, ih]

theorem statesIn_eq (n : Node) :
    statesIn n = if n.hasTag "Children" then statesAmong n.children else [] := by
  cases n <;> rfl

theorem placesOf_flatMap {α : Type} (around : List Container) (f : α → List State)
    (xs : List α) :
    State.placesOf around (xs.flatMap f) = xs.flatMap fun x => State.placesOf around (f x) := by
  simp only [State.placesOf_eq_flatMap, List.flatMap_assoc]

theorem State.ofNode_eq {n : Node} (h : n.hasTag "state" = true) :
    State.ofNode n = .mk (n.attribute? "SSID") (!(n.tagged "Children").isEmpty) (defaultsOf n)
      (substatesOf n.children) := by
  cases n with
  | element name as cs => rw [State.ofNode]; rfl
  | text s => cases h
  | other => cases h

theorem Container.ofNode_state {n : Node} (h : n.hasTag "state" = true) :
    Container.ofNode n = ⟨.state, n.attribute? "SSID"⟩ := by
  simp [Container.ofNode, h]

/-- What is around an element with these nodes above it. -/
def containersOf (above : List Node) : List Container :=
  (Place.everySecond above).map Container.ofNode

/-- The states in an owner are the forest of its substates, and the states in a list of
children are the forest of the states among them. The two go by turns down the document. -/
theorem statesAt_inside (depth : Nat) (n : Node) :
    (∀ above, depth ≤ above.length → n.hasTag "Children" = false →
        AllSeated depth (n.inside above) →
        statesAt (n.inside above) =
          State.placesOf (Container.ofNode n :: containersOf above) (substatesOf n.children)) ∧
      (∀ owner above, depth ≤ above.length → n.hasTag "Children" = true →
        AllSeated depth (n.inside (owner :: above)) →
        statesAt (n.inside (owner :: above)) =
          State.placesOf (Container.ofNode owner :: containersOf above)
            (statesAmong n.children)) := by
  induction n using node_induction with
  | text s =>
    exact ⟨fun _ _ _ _ => rfl, fun _ _ _ h => by cases h⟩
  | other =>
    exact ⟨fun _ _ _ _ => rfl, fun _ _ _ h => by cases h⟩
  | element name as cs ih =>
    constructor
    · intro above hd hc hseat
      rw [inside_eq_flatMap, statesAt_flatMap, substatesOf_eq_flatMap, placesOf_flatMap]
      refine List.flatMap_congr fun m hm => ?_
      rw [statesIn_eq]
      have hstate : m.hasTag "state" = false := by
        cases hs : m.hasTag "state" with
        | false => rfl
        | true =>
          have hl := hseat.isList hm (.inl hs)
          cases above <;> simp [isList, hc] at hl
      rw [statesAt_placesFrom hstate]
      cases hmc : m.hasTag "Children" with
      | true =>
        rw [if_pos rfl]
        exact (ih m hm).2 _ above hd hmc (hseat.child hm)
      | false =>
        rw [if_neg (by simp)]
        refine statesAt_eq_nil ((hseat.child hm).bare m (by simp; omega) hstate ?_)
        simp [isList, hmc]
    · intro owner above hd hc hseat
      rw [inside_eq_flatMap, statesAt_flatMap, statesAmong_eq_flatMap, placesOf_flatMap]
      refine List.flatMap_congr fun k hk => ?_
      cases hks : k.hasTag "state" with
      | false =>
        rw [statesAt_placesFrom hks, if_neg (by simp)]
        refine statesAt_eq_nil ((hseat.child hk).bare k (by simp; omega) hks ?_)
        have hs := hasTag_of_ne hc (show "Children" ≠ "state" by decide)
        have hne : ((owner :: above).length == depth) = false := by simp; omega
        simp only [isList, hs, hne, Bool.or_self, Bool.and_false]
      | true =>
        have hsub := (ih k hk).1 (.element name as cs :: owner :: above) (by simp; omega)
          (hasTag_of_ne hks (by decide)) (hseat.child hk)
        have hself : statesAt (placesFrom (.element name as cs :: owner :: above) k) =
            ⟨State.ofNode k, Container.ofNode owner :: containersOf above⟩ ::
              statesAt (k.inside (.element name as cs :: owner :: above)) := by
          simp [placesFrom, isElement_of_hasTag hks, statesAt, hks, Placed.ofPlace, Place.enclosing,
            Place.everySecond, containersOf]
        rw [if_pos rfl, hself, hsub, State.placesOf, State.placesOf, List.append_nil,
          State.places_eq, Container.ofNode_state hks, State.ofNode_eq hks]
        rfl

/-- The states of a document in the shape of a tree are a forest. -/
theorem TreeShaped.states_eq {p : Place} (h : TreeShaped p) :
    (ofPlace p).states = State.placesOf (baseOf p) (substatesOf p.node.children) := by
  refine (statesAt_inside p.above.length p.node).1 p.above (Nat.le_refl _)
    (hasTag_of_ne h.chart (by decide)) fun q hq ht => ?_
  rcases ht with ht | ht
  · exact h.states q (List.mem_filter.mpr ⟨hq, ht⟩)
  · exact h.transitions q (List.mem_filter.mpr ⟨hq, ht⟩)

theorem mem_states_ofPlace {p : Place} {s : Placed State} :
    s ∈ (ofPlace p).states ↔
      ∃ q ∈ p.descendants "state", s = ⟨State.ofNode q.node, containersOf q.above⟩ := by
  simp only [ofPlace, states, List.mem_map, Placed.ofPlace, Place.enclosing, containersOf]
  constructor
  · rintro ⟨q, hq, rfl⟩
    exact ⟨q, hq, rfl⟩
  · rintro ⟨q, hq, rfl⟩
    exact ⟨q, hq, rfl⟩

theorem mem_transitions_ofPlace {p : Place} {t : Placed Transition} :
    t ∈ (ofPlace p).transitions ↔
      ∃ q ∈ p.descendants "transition", t = ⟨Transition.ofNode q.node, containersOf q.above⟩ := by
  simp only [ofPlace, transitions, List.mem_map, Placed.ofPlace, Place.enclosing, containersOf]
  constructor
  · rintro ⟨q, hq, rfl⟩
    exact ⟨q, hq, rfl⟩
  · rintro ⟨q, hq, rfl⟩
    exact ⟨q, hq, rfl⟩

theorem length_lt_of_mem_inside (n : Node) {above : List Node} {q : Place}
    (hq : q ∈ n.inside above) : above.length < q.above.length := by
  induction n using node_induction generalizing above with
  | text s => cases hq
  | other => cases hq
  | element name as cs ih =>
    obtain ⟨k, hk, ⟨-, rfl⟩ | hq⟩ := mem_inside.mp hq
    · simp
    · have := ih k hk hq
      simp at this
      omega

theorem tagged_ne_nil {n k : Node} {tag : String} (hk : k ∈ n.children)
    (ht : k.hasTag tag = true) : (n.tagged tag).isEmpty = false := by
  rw [List.isEmpty_eq_false_iff_exists_mem]
  exact ⟨k, List.mem_filter.mpr ⟨hk, ht⟩⟩

theorem lineage_ofNode {n : Node} (h : n.hasTag "state" = true) (list : Node)
    (above : List Node) :
    containersOf (list :: n :: above) =
      Placed.lineage ⟨State.ofNode n, containersOf above⟩ := by
  rw [Placed.lineage, State.ofNode_eq h]
  show Container.ofNode n :: containersOf above = _
  rw [Container.ofNode_state h]
  rfl

/-- A state with states in it has room for them. -/
theorem isComposite_ofNode {n : Node} (h : (State.ofNode n).substates ≠ []) :
    (State.ofNode n).isComposite = true := by
  cases n with
  | text s => exact absurd rfl h
  | other => exact absurd rfl h
  | element name as cs =>
    have hs : substatesOf cs ≠ [] := by
      rw [State.ofNode] at h
      exact h
    rw [substatesOf_eq_flatMap] at hs
    obtain ⟨k, hk, hne⟩ : ∃ k ∈ cs, statesIn k ≠ [] := by
      rcases Classical.em (∃ k ∈ cs, statesIn k ≠ []) with hex | hex
      · exact hex
      · refine absurd (List.flatMap_eq_nil_iff.mpr fun k hk => ?_) hs
        rcases Classical.em (statesIn k = []) with he | he
        · exact he
        · exact absurd ⟨k, hk, he⟩ hex
    have ht : k.hasTag "Children" = true := by
      rw [statesIn_eq] at hne
      cases hc : k.hasTag "Children" with
      | true => rfl
      | false => simp [hc] at hne
    have := tagged_ne_nil (n := .element name as cs) hk ht
    rw [State.ofNode]
    simp [State.isComposite, this]

/-- A transition stands in the chart or in a composite state. -/
theorem TreeShaped.parents {p : Place} (h : TreeShaped p) {t : Placed Transition}
    (ht : t ∈ (ofPlace p).transitions) :
    t.around = baseOf p ∨
      ∃ s ∈ (ofPlace p).states, s.item.isComposite = true ∧ t.around = s.lineage := by
  obtain ⟨q, hq, rfl⟩ := mem_transitions_ofPlace.mp ht
  have hseat := h.transitions q hq
  have hin : q ∈ p.node.inside p.above := (List.mem_filter.mp hq).1
  obtain ⟨node, above⟩ := q
  rcases above with _ | ⟨list, _ | ⟨owner, rest⟩⟩
  · cases hseat
  · cases hseat
  simp only [isSeated, isList, Bool.and_eq_true, Bool.or_eq_true, beq_iff_eq] at hseat
  obtain ⟨hlist, howner⟩ := hseat
  obtain ⟨-, ⟨rfl, -⟩ | hin⟩ := owner_of_mem_inside p.node p.above hin rfl
  · exact absurd (hasTag_inj h.chart hlist) (by decide)
  obtain ⟨hchild, ⟨rfl, rfl⟩ | hin⟩ := owner_of_mem_inside p.node p.above hin rfl
  · exact .inl rfl
  rcases howner with hs | hlen
  · refine .inr ⟨⟨State.ofNode owner, containersOf rest⟩, ?_, ?_, lineage_ofNode hs list rest⟩
    · exact mem_states_ofPlace.mpr ⟨⟨owner, rest⟩, List.mem_filter.mpr ⟨hin, hs⟩, rfl⟩
    · rw [State.ofNode_eq hs]
      simp [State.isComposite, tagged_ne_nil hchild hlist]
  · have := length_lt_of_mem_inside p.node hin
    simp only at this
    omega

/-- The default transitions of a state are among the transitions, inside that state. -/
theorem mem_transitions_of_mem_defaults {p : Place} {s : Placed State}
    (hs : s ∈ (ofPlace p).states) {d : Transition} (hd : d ∈ s.item.defaults) :
    d.source = none ∧ (⟨d, s.lineage⟩ : Placed Transition) ∈ (ofPlace p).transitions := by
  obtain ⟨⟨n, above⟩, hq, rfl⟩ := mem_states_ofPlace.mp hs
  obtain ⟨hin, hn⟩ := List.mem_filter.mp hq
  simp only [State.ofNode_eq hn, State.defaults] at hd
  obtain ⟨hd, hsource⟩ := List.mem_filter.mp hd
  obtain ⟨m, hm, rfl⟩ := List.mem_map.mp hd
  simp only [Node.path, List.mem_flatMap, List.mem_singleton] at hm
  obtain ⟨list, hlist, m, hm, rfl⟩ := hm
  obtain ⟨hlist, hlt⟩ := List.mem_filter.mp hlist
  obtain ⟨hm, hmt⟩ := List.mem_filter.mp hm
  refine ⟨Option.isNone_iff_eq_none.mp hsource, ?_⟩
  have hl := mem_inside_of_child hin hlist (isElement_of_hasTag hlt)
  have ht := mem_inside_of_child hl hm (isElement_of_hasTag hmt)
  refine mem_transitions_ofPlace.mpr ⟨_, List.mem_filter.mpr ⟨ht, hmt⟩, ?_⟩
  rw [← lineage_ofNode hn list above]

theorem TreeShaped.hierarchical {p : Place} (h : TreeShaped p) :
    Hierarchical (ofPlace p) (baseOf p) where
  root := by
    refine ⟨p.node.attribute? "SSID", p.enclosing.map Container.ofNode, ?_⟩
    have hs := hasTag_of_ne h.chart (show "chart" ≠ "state" by decide)
    simp [baseOf, Container.ofNode, h.chart, hs]
  states := ⟨_, h.states_eq⟩
  composite := by
    intro s hs hne
    obtain ⟨q, -, rfl⟩ := mem_states_ofPlace.mp hs
    exact isComposite_ofNode hne
  parents := fun _ ht => h.parents ht
  defaults := fun _ hs _ hd => mem_transitions_of_mem_defaults hs hd

/-! ## States in states -/

theorem State.ssid_ofNode (n : Node) : (State.ofNode n).ssid = n.attribute? "SSID" := by
  cases n <;> rw [State.ofNode] <;> rfl

theorem mem_path_state {q r : Place} :
    r ∈ q.path ["Children", "state"] ↔
      ∃ list ∈ q.node.children, list.hasTag "Children" = true ∧ r.node ∈ list.children ∧
        r.node.hasTag "state" = true ∧ r.above = list :: q.node :: q.above := by
  simp only [Place.path, Place.tagged, Node.tagged, List.mem_flatMap, List.mem_map,
    List.mem_filter, List.mem_singleton]
  constructor
  · rintro ⟨_, ⟨list, ⟨hlist, htag⟩, rfl⟩, _, ⟨m, ⟨hm, hstate⟩, rfl⟩, rfl⟩
    exact ⟨list, hlist, htag, hm, hstate, rfl⟩
  · rintro ⟨list, hlist, htag, hm, hstate, habove⟩
    refine ⟨_, ⟨list, ⟨hlist, htag⟩, rfl⟩, _, ⟨r.node, ⟨hm, hstate⟩, rfl⟩, ?_⟩
    rw [← habove]

/-- What is directly in a state of the chart is a state of the chart. -/
theorem mem_descendants_of_path {p q r : Place} (hq : q ∈ p.descendants "state")
    (hr : r ∈ q.path ["Children", "state"]) : r ∈ p.descendants "state" := by
  obtain ⟨list, hlist, htag, hm, hstate, habove⟩ := mem_path_state.mp hr
  obtain ⟨hin, -⟩ := List.mem_filter.mp hq
  have hl := mem_inside_of_child hin hlist (isElement_of_hasTag htag)
  have hmin := mem_inside_of_child hl hm (isElement_of_hasTag hstate)
  rw [← habove] at hmin
  exact List.mem_filter.mpr ⟨hmin, hstate⟩

/-- The states in a state are read off the places directly in it. -/
theorem substates_ofNode (q : Place) :
    (State.ofNode q.node).substates =
      (q.path ["Children", "state"]).map (State.ofNode ·.node) := by
  have hfilter {α β : Type} (xs : List α) (keep : α → Bool) (f : α → List β) :
      (xs.filter keep).flatMap f = xs.flatMap fun x => if keep x then f x else [] := by
    induction xs with
    | nil => rfl
    | cons x xs ih => cases h : keep x <;> simp [h, ih]
  have hsubstates : (State.ofNode q.node).substates = substatesOf q.node.children := by
    cases q.node <;> rw [State.ofNode] <;> rfl
  rw [hsubstates, substatesOf_eq_flatMap]
  simp only [Place.path, Place.tagged, Node.tagged, List.flatMap_map, List.map_flatMap, hfilter]
  refine List.flatMap_congr fun n _ => ?_
  rw [statesIn_eq, statesAmong_eq_flatMap]
  simp only [apply_ite (List.map _), List.map_flatMap, List.map_cons, List.map_nil]

/-- A plain identifier is looked up among the states in a state. -/
theorem substate?_eq_some {q r : Place} {ssid : Option String} (hplain : IsPlain ssid)
    (h : substate? q ssid = .ok (some r)) :
    r ∈ q.path ["Children", "state"] ∧
      (State.ofNode q.node).substates.find? (·.ssid == some (worded ssid)) =
        some (State.ofNode r.node) := by
  rw [substate?_plain hplain, Except.ok.injEq] at h
  refine ⟨List.mem_of_find?_eq_some h, ?_⟩
  rw [substates_ofNode, List.find?_map, Function.comp_def]
  simp only [State.ssid_ofNode]
  exact congrArg (Option.map _) h

theorem exists_substate? {q : Place} {ssid : Option String} (hplain : IsPlain ssid) {s : State}
    (h : (State.ofNode q.node).substates.find? (·.ssid == some (worded ssid)) = some s) :
    ∃ r, substate? q ssid = .ok (some r) ∧ State.ofNode r.node = s := by
  rw [substates_ofNode, List.find?_map, Function.comp_def] at h
  simp only [State.ssid_ofNode] at h
  obtain ⟨r, hr, hs⟩ := Option.map_eq_some_iff.mp h
  exact ⟨r, (substate?_plain hplain).trans (congrArg _ hr), hs⟩

/-! ## Labels -/

theorem mem_labelsOf {ps : List Place} {e : String × String} (h : e ∈ labelsOf ps) :
    ∃ q ∈ ps, q.node.attribute? "SSID" = some e.1 := by
  obtain ⟨q, hq, he⟩ := List.mem_filterMap.mp h
  obtain ⟨ssid, hssid, he⟩ := Option.bind_eq_some_iff.mp he
  obtain ⟨label, -, he⟩ := Option.bind_eq_some_iff.mp he
  cases he
  exact ⟨q, hq, hssid⟩

theorem state_of_label {p : Place} {e : String × String} (h : e ∈ (ofPlace p).stateLabels) :
    ∃ s ∈ (ofPlace p).states, s.item.ssid = some e.1 := by
  obtain ⟨q, hq, hssid⟩ := mem_labelsOf h
  refine ⟨_, mem_states_ofPlace.mpr ⟨q, hq, rfl⟩, ?_⟩
  rw [State.ofNode_eq (List.mem_filter.mp hq).2]
  exact hssid

theorem transition_of_label {p : Place} {e : String × String}
    (h : e ∈ (ofPlace p).transitionLabels) :
    ∃ t ∈ (ofPlace p).transitions, t.item.ssid = some e.1 := by
  obtain ⟨q, hq, hssid⟩ := mem_labelsOf h
  exact ⟨_, mem_transitions_ofPlace.mpr ⟨q, hq, rfl⟩, hssid⟩

end Statechart.Chart
