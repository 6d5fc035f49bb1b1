import Mathlib.Data.List.Perm.Basic
import Statechart.Proofs.Chart.Shape

/-!
Documents in which transitions are listed in another order. A transition may stand anywhere among
the children of a state or of the chart; states, data and everything else keep their order
(`Reordered`). Of two such documents the charts differ in the order of transitions only
(`alike_ofPlace`).
-/

namespace Statechart.Chart

open Xml (Node Place)

/-! ## Reordered documents -/

/-- Transitions have moved, past each other and past other nodes. -/
structure Moved (ns ns' : List Node) : Prop where
  transitions : (ns.filter (·.hasTag "transition")).Perm (ns'.filter (·.hasTag "transition"))
  others : ns.filter (!·.hasTag "transition") = ns'.filter (!·.hasTag "transition")

/-- In lists of children, anywhere in the document, transitions have moved. -/
inductive Reordered : Node → Node → Prop
  | text (s : String) : Reordered (.text s) (.text s)
  | other : Reordered .other .other
  | element {name : Xml.Name} {attributes : List (Xml.Name × String)} {cs cs' : List Node}
      (within : List.Forall₂ Reordered cs cs') :
      Reordered (.element name attributes cs) (.element name attributes cs')
  | list {attributes : List (Xml.Name × String)} {cs ms cs' : List Node}
      (within : List.Forall₂ Reordered cs ms) (moved : Moved ms cs') :
      Reordered (.element ⟨none, "Children"⟩ attributes cs)
        (.element ⟨none, "Children"⟩ attributes cs')

theorem Moved.refl (ns : List Node) : Moved ns ns := ⟨List.Perm.refl _, rfl⟩

theorem Moved.perm {ns ns' : List Node} (h : Moved ns ns') : ns.Perm ns' := by
  have hns := List.filter_append_perm (fun n : Node => n.hasTag "transition") ns
  have hns' := List.filter_append_perm (fun n : Node => n.hasTag "transition") ns'
  rw [h.others] at hns
  exact hns.symm.trans ((h.transitions.append_right _).trans hns')

/-- What does not look at transitions does not see that they have moved. -/
theorem Moved.flatMap_eq {α : Type} {ns ns' : List Node} (h : Moved ns ns') {f : Node → List α}
    (hf : ∀ n ∈ ns, n.hasTag "transition" = true → f n = []) : ns.flatMap f = ns'.flatMap f := by
  have hothers : ∀ {ms : List Node}, (∀ n ∈ ms, n.hasTag "transition" = true → f n = []) →
      ms.flatMap f = (ms.filter (!·.hasTag "transition")).flatMap f := by
    intro ms hms
    induction ms with
    | nil => rfl
    | cons n ms ih =>
      have ih := ih fun n hn => hms n (List.mem_cons_of_mem _ hn)
      cases ht : n.hasTag "transition" with
      | true =>
        rw [List.flatMap_cons, hms n (List.mem_cons_self ..) ht, List.nil_append, ih,
          List.filter_cons_of_neg (by simp [ht])]
      | false =>
        rw [List.flatMap_cons, ih, List.filter_cons_of_pos (by simp [ht]), List.flatMap_cons]
  rw [hothers hf, hothers fun n hn => hf n (h.perm.mem_iff.mpr hn), h.others]

theorem Moved.filter_eq {ns ns' : List Node} (h : Moved ns ns') {f : Node → Bool}
    (hf : ∀ n, n.hasTag "transition" = true → f n = false) : ns.filter f = ns'.filter f := by
  have hothers : f = fun n => f n && !n.hasTag "transition" := by
    funext n
    cases ht : n.hasTag "transition" with
    | true => simp [hf n ht]
    | false => simp
  rw [hothers, ← List.filter_filter, ← List.filter_filter, h.others]

/-- Induction over a document and its reordering. In every element the nodes are reordered first,
and then transitions have moved among them. -/
theorem Reordered.induction {P : ∀ n n', Reordered n n' → Prop}
    (text : ∀ s, P _ _ (.text s)) (other : P _ _ .other)
    (element : ∀ {name attributes cs ms cs'},
      List.Forall₂ (fun c m => ∃ h, P c m h) cs ms → Moved ms cs' →
      ∀ h : Reordered (.element name attributes cs) (.element name attributes cs'), P _ _ h)
    {n n' : Node} (h : Reordered n n') : P n n' h := by
  refine Reordered.rec (motive_1 := P)
    (motive_2 := fun cs ms _ => List.Forall₂ (fun c m => ∃ h, P c m h) cs ms)
    text other ?_ ?_ ?_ ?_ h
  · intro name attributes cs cs' within ih
    exact element ih (.refl _) (.element within)
  · intro attributes cs ms cs' within moved ih
    exact element ih moved (.list within moved)
  · exact .nil
  · intro c m cs ms hcm _ ih ihs
    exact .cons ⟨hcm, ih⟩ ihs

/-! ## What is read off a node -/

theorem map_of_forall₂ {α β γ : Type} {R : α → β → Prop} {f : α → γ} {g : β → γ}
    (hf : ∀ {x y}, R x y → f x = g y) {xs : List α} {ys : List β} (h : List.Forall₂ R xs ys) :
    xs.map f = ys.map g := by
  induction h with
  | nil => rfl
  | cons hxy _ ih => rw [List.map_cons, List.map_cons, hf hxy, ih]

theorem exists_of_forall₂ {α β : Type} {R : α → β → Prop} {xs : List α} {ys : List β}
    (h : List.Forall₂ R xs ys) {y : β} (hy : y ∈ ys) : ∃ x ∈ xs, R x y := by
  induction h with
  | nil => cases hy
  | cons hxy _ ih =>
    rcases List.mem_cons.mp hy with rfl | hy
    · exact ⟨_, List.mem_cons_self .., hxy⟩
    · obtain ⟨x, hx, h⟩ := ih hy
      exact ⟨x, List.mem_cons_of_mem _ hx, h⟩

theorem filter_of_forall₂ {α : Type} {R : α → α → Prop} {p : α → Bool}
    (hp : ∀ {x y}, R x y → p x = p y) {xs ys : List α} (h : List.Forall₂ R xs ys) :
    List.Forall₂ R (xs.filter p) (ys.filter p) :=
  List.rel_filter (fun _ _ hxy => Bool.eq_iff_iff.mp (hp hxy)) h

namespace Reordered

variable {n n' : Node}

theorem refl (n : Node) : Reordered n n := by
  induction n using node_induction with
  | text s => exact .text s
  | other => exact .other
  | element name attributes children ih => exact .element (List.forall₂_same.mpr ih)

theorem hasTag_eq (h : Reordered n n') (tag : String) : n.hasTag tag = n'.hasTag tag := by
  cases h <;> rfl

theorem attribute?_eq (h : Reordered n n') (key : String) :
    n.attribute? key = n'.attribute? key := by
  cases h <;> rfl

/-- Outside lists of children nothing has moved. -/
theorem children (h : Reordered n n') (hn : n.hasTag "Children" = false) :
    List.Forall₂ Reordered n.children n'.children := by
  cases h with
  | text s => exact .nil
  | other => exact .nil
  | element within => exact within
  | list within moved => cases hn

/-- Nodes of a tag correspond to each other. -/
theorem filter_hasTag {ns ns' : List Node} (h : List.Forall₂ Reordered ns ns') (tag : String) :
    List.Forall₂ (fun m m' => m.hasTag tag = true ∧ Reordered m m') (ns.filter (·.hasTag tag))
      (ns'.filter (·.hasTag tag)) := by
  refine (List.forall₂_and_left _ _).mpr ⟨fun m hm => (List.mem_filter.mp hm).2, ?_⟩
  exact filter_of_forall₂ (fun h => h.hasTag_eq tag) h

theorem tagged (h : Reordered n n') (hn : n.hasTag "Children" = false) (tag : String) :
    List.Forall₂ (fun m m' => m.hasTag tag = true ∧ Reordered m m') (n.tagged tag)
      (n'.tagged tag) :=
  filter_hasTag (h.children hn) tag

theorem leadingText_eq (h : Reordered n n') (hn : n.hasTag "Children" = false) :
    n.leadingText = n'.leadingText := by
  cases h with
  | text s => rfl
  | other => rfl
  | element within =>
    cases within with
    | nil => rfl
    | cons first _ => cases first <;> rfl
  | list within moved => cases hn

/-- Properties that correspond have the same text. -/
theorem properties (h : Reordered n n') (hn : n.hasTag "Children" = false) (name : String) :
    List.Forall₂ (fun m m' => m.leadingText = m'.leadingText) (n.properties name)
      (n'.properties name) := by
  refine (filter_of_forall₂ (fun h => ?_) (h.tagged hn "P")).imp fun m m' h => ?_
  · rw [h.2.attribute?_eq]
  · exact h.2.leadingText_eq (hasTag_of_ne h.1 (by decide))

theorem property?_eq (h : Reordered n n') (hn : n.hasTag "Children" = false) (name : String) :
    n.property? name = n'.property? name := by
  rw [Node.property?, Node.property?, ← List.head?_map, ← List.head?_map,
    map_of_forall₂ (fun h => h) (h.properties hn name)]

theorem propertyIn?_eq (h : Reordered n n') (hn : n.hasTag "Children" = false) {tag : String}
    (htag : tag ≠ "Children") (name : String) :
    n.propertyIn? tag name = n'.propertyIn? tag name := by
  have hproperties : List.Forall₂ (fun m m' => m.leadingText = m'.leadingText)
      ((n.tagged tag).flatMap (Node.properties name))
      ((n'.tagged tag).flatMap (Node.properties name)) :=
    List.rel_flatMap (h.tagged hn tag) fun _ _ h => h.2.properties (hasTag_of_ne h.1 htag) name
  rw [Node.propertyIn?, Node.propertyIn?, ← List.head?_map, ← List.head?_map,
    map_of_forall₂ (fun h => h) hproperties]

theorem transition_eq (h : Reordered n n') (hn : n.hasTag "Children" = false) :
    Transition.ofNode n = Transition.ofNode n' := by
  simp only [Transition.ofNode, h.attribute?_eq, h.property?_eq hn,
    h.propertyIn?_eq hn (show "src" ≠ "Children" by decide),
    h.propertyIn?_eq hn (show "dst" ≠ "Children" by decide)]

end Reordered

/-! ## Places -/

/-- A place in a document and the place that it has after reordering. -/
structure ReorderedAt (q q' : Place) : Prop where
  node : Reordered q.node q'.node
  above : List.Forall₂ Reordered q.above q'.above

/-- The elements of a tag from a node on. -/
def taggedFrom (tag : String) (above : List Node) (n : Node) : List Place :=
  (placesFrom above n).filter (·.node.hasTag tag)

theorem taggedFrom_eq (tag : String) (above : List Node) (n : Node) :
    taggedFrom tag above n =
      (if n.hasTag tag then [⟨n, above⟩] else []) ++
        n.children.flatMap (taggedFrom tag (n :: above)) := by
  have hself : (if n.isElement then [(⟨n, above⟩ : Place)] else []).filter (·.node.hasTag tag) =
      if n.hasTag tag then [⟨n, above⟩] else [] := by
    cases ht : n.hasTag tag with
    | true => simp [isElement_of_hasTag ht, ht]
    | false => split <;> simp [ht]
  rw [taggedFrom, placesFrom, List.filter_append, hself, inside_eq_flatMap, List.filter_flatMap]
  rfl

theorem descendants_eq (tag : String) (p : Place) :
    p.descendants tag = p.node.children.flatMap (taggedFrom tag (p.node :: p.above)) := by
  rw [Place.descendants, inside_eq_flatMap, List.filter_flatMap]
  rfl

theorem Reordered.self {n n' : Node} (h : Reordered n n') (tag : String) {above above' : List Node}
    (ha : List.Forall₂ Reordered above above') :
    List.Forall₂ ReorderedAt (if n.hasTag tag then [⟨n, above⟩] else [])
      (if n'.hasTag tag then [⟨n', above'⟩] else []) := by
  rw [← h.hasTag_eq]
  split
  · exact .cons ⟨h, ha⟩ .nil
  · exact .nil

/-- Elements of any tag correspond to each other, in some order. -/
theorem Reordered.taggedFrom_perm {n n' : Node} (h : Reordered n n') (tag : String)
    {above above' : List Node} (ha : List.Forall₂ Reordered above above') :
    ∃ qs, List.Forall₂ ReorderedAt (taggedFrom tag above n) qs ∧
      qs.Perm (taggedFrom tag above' n') := by
  induction h using Reordered.induction generalizing above above' with
  | text s => exact ⟨[], .nil, .refl _⟩
  | other => exact ⟨[], .nil, .refl _⟩
  | @element name attributes cs ms cs' within moved h =>
    have hchildren : ∃ qs,
        List.Forall₂ ReorderedAt
          (cs.flatMap (taggedFrom tag (.element name attributes cs :: above))) qs ∧
        qs.Perm (ms.flatMap (taggedFrom tag (.element name attributes cs' :: above'))) := by
      generalize Node.element name attributes cs = n at h ⊢
      clear moved
      induction within with
      | nil => exact ⟨[], .nil, .refl _⟩
      | cons hcm _ ih =>
        obtain ⟨-, ihc⟩ := hcm
        obtain ⟨qs, hqs, hperm⟩ := ihc (.cons h ha)
        obtain ⟨rs, hrs, hperm'⟩ := ih
        exact ⟨qs ++ rs, List.rel_append hqs hrs, hperm.append hperm'⟩
    obtain ⟨qs, hqs, hperm⟩ := hchildren
    rw [taggedFrom_eq, taggedFrom_eq]
    exact ⟨_, List.rel_append (h.self tag ha) hqs,
      (hperm.trans (moved.perm.flatMap_right _)).append_left _⟩

/-- Elements of a tag that are not found in transitions keep their order. -/
theorem Reordered.taggedFrom {n n' : Node} (h : Reordered n n') {tag : String}
    (htag : tag ≠ "transition") {above above' : List Node}
    (ha : List.Forall₂ Reordered above above')
    (hbare : ∀ q ∈ Chart.taggedFrom "transition" above n, q.descendants tag = []) :
    List.Forall₂ ReorderedAt (Chart.taggedFrom tag above n) (Chart.taggedFrom tag above' n') := by
  induction h using Reordered.induction generalizing above above' with
  | text s => exact .nil
  | other => exact .nil
  | @element name attributes cs ms cs' within moved h =>
    have hbare' : ∀ c ∈ cs,
        ∀ q ∈ Chart.taggedFrom "transition" (.element name attributes cs :: above) c,
        q.descendants tag = [] := by
      intro c hc q hq
      apply hbare
      rw [taggedFrom_eq]
      exact List.mem_append_right _ (List.mem_flatMap_of_mem hc hq)
    have hpairs : List.Forall₂ (fun c m => (c ∈ cs ∧ Reordered c m) ∧
        List.Forall₂ ReorderedAt (Chart.taggedFrom tag (.element name attributes cs :: above) c)
          (Chart.taggedFrom tag (.element name attributes cs' :: above') m)) cs ms := by
      refine ((List.forall₂_and_left _ _).mpr ⟨fun c hc => hc, within⟩).imp ?_
      rintro c m ⟨hc, hcm, ih⟩
      exact ⟨⟨hc, hcm⟩, ih (.cons h ha) (hbare' c hc)⟩
    -- nothing is found in the transitions that have moved
    have hmoved : ∀ m ∈ ms, m.hasTag "transition" = true →
        Chart.taggedFrom tag (.element name attributes cs' :: above') m = [] := by
      intro m hm ht
      obtain ⟨c, -, ⟨hc, hcm⟩, hplaces⟩ := exists_of_forall₂ hpairs hm
      rw [← hcm.hasTag_eq] at ht
      have hself : (⟨c, .element name attributes cs :: above⟩ : Place) ∈
          Chart.taggedFrom "transition" (.element name attributes cs :: above) c := by
        rw [taggedFrom_eq, if_pos ht]
        exact List.mem_append_left _ (List.mem_singleton.mpr rfl)
      have hnone : Chart.taggedFrom tag (.element name attributes cs :: above) c = [] := by
        have hinside := hbare' c hc _ hself
        rw [descendants_eq] at hinside
        rw [taggedFrom_eq, hasTag_of_ne ht htag.symm, hinside]
        rfl
      rw [hnone] at hplaces
      exact List.forall₂_nil_left_iff.mp hplaces
    rw [taggedFrom_eq, taggedFrom_eq]
    refine List.rel_append (h.self tag ha) ?_
    rw [Node.children, Node.children, ← moved.flatMap_eq hmoved]
    exact List.rel_flatMap hpairs fun _ _ h => h.2

/-! ## Shapes -/

/-- Data, too, stand in lists of children of the chart or of states. -/
structure WellShaped (p : Place) : Prop extends TreeShaped p where
  data : ∀ q ∈ p.descendants "data", isSeated p.above.length q = true

theorem TreeShaped.allSeated {p q : Place} (h : TreeShaped p) (hq : q ∈ p.node.inside p.above) :
    AllSeated p.above.length (q.node.inside q.above) := by
  intro r hr ht
  have hin := mem_inside_trans hq hr
  rcases ht with ht | ht
  · exact h.states r (List.mem_filter.mpr ⟨hin, ht⟩)
  · exact h.transitions r (List.mem_filter.mpr ⟨hin, ht⟩)

/-- There are no states in a transition. -/
theorem TreeShaped.no_states {p q : Place} (h : TreeShaped p)
    (hq : q ∈ p.descendants "transition") : q.descendants "state" = [] := by
  obtain ⟨hin, ht⟩ := List.mem_filter.mp hq
  refine List.filter_eq_nil_iff.mpr fun r hr hs => ?_
  refine (h.allSeated hin).bare q.node (length_lt_of_mem_inside p.node hin)
    (hasTag_of_ne ht (by decide)) ?_ r hr (.inl hs)
  have hlist := hasTag_of_ne ht (show "transition" ≠ "Children" by decide)
  obtain ⟨node, above⟩ := q
  cases above with
  | nil => rfl
  | cons owner rest => simp [isList, hlist]

/-- There are no data in a transition. -/
theorem WellShaped.no_data {p q : Place} (h : WellShaped p)
    (hq : q ∈ p.descendants "transition") : q.descendants "data" = [] := by
  obtain ⟨hin, ht⟩ := List.mem_filter.mp hq
  refine List.filter_eq_nil_iff.mpr fun r hr hd => ?_
  have hseat := h.data r (List.mem_filter.mpr ⟨mem_inside_trans hin hr, hd⟩)
  obtain ⟨node, above⟩ := r
  rcases above with _ | ⟨list, _ | ⟨owner, rest⟩⟩
  · cases hseat
  · cases hseat
  simp only [isSeated, isList, Bool.and_eq_true, Bool.or_eq_true, beq_iff_eq] at hseat
  obtain ⟨hlist, howner⟩ := hseat
  have hdeep := length_lt_of_mem_inside p.node hin
  -- the list of children is in the transition, and so is the state that owns it
  obtain ⟨-, ⟨rfl, -⟩ | hl⟩ := owner_of_mem_inside q.node q.above hr rfl
  · exact absurd (hasTag_inj ht hlist) (by decide)
  obtain ⟨-, ⟨rfl, rfl⟩ | ho⟩ := owner_of_mem_inside q.node q.above hl rfl
  · rcases howner with hs | hlen
    · exact absurd (hasTag_inj ht hs) (by decide)
    · omega
  · rcases howner with hs | hlen
    · have hnone := h.no_states hq
      rw [Place.descendants, List.filter_eq_nil_iff] at hnone
      exact hnone _ ho hs
    · have := length_lt_of_mem_inside q.node ho
      simp only at this
      omega

section

variable {p p' : Place}

theorem taggedFrom_chart (h : p.node.hasTag "chart" = true) {tag : String} (htag : tag ≠ "chart") :
    taggedFrom tag p.above p.node = p.descendants tag := by
  rw [taggedFrom_eq, hasTag_of_ne h htag.symm, descendants_eq]
  rfl

/-- Transitions correspond to each other, in some order. -/
theorem ReorderedAt.transitions (hr : ReorderedAt p p') (h : p.node.hasTag "chart" = true) :
    ∃ qs, List.Forall₂ ReorderedAt (p.descendants "transition") qs ∧
      qs.Perm (p'.descendants "transition") := by
  have h' : p'.node.hasTag "chart" = true := hr.node.hasTag_eq "chart" ▸ h
  have hplaces := hr.node.taggedFrom_perm "transition" hr.above
  rwa [taggedFrom_chart h (by decide), taggedFrom_chart h' (by decide)] at hplaces

theorem ReorderedAt.states (hr : ReorderedAt p p') (h : TreeShaped p) :
    List.Forall₂ ReorderedAt (p.descendants "state") (p'.descendants "state") := by
  have h' : p'.node.hasTag "chart" = true := hr.node.hasTag_eq "chart" ▸ h.chart
  rw [← taggedFrom_chart h.chart (by decide), ← taggedFrom_chart h' (by decide)]
  refine hr.node.taggedFrom (by decide) hr.above fun q hq => h.no_states ?_
  rwa [taggedFrom_chart h.chart (by decide)] at hq

theorem ReorderedAt.data (hr : ReorderedAt p p') (h : WellShaped p) :
    List.Forall₂ ReorderedAt (p.descendants "data") (p'.descendants "data") := by
  have h' : p'.node.hasTag "chart" = true := hr.node.hasTag_eq "chart" ▸ h.chart
  rw [← taggedFrom_chart h.chart (by decide), ← taggedFrom_chart h' (by decide)]
  refine hr.node.taggedFrom (by decide) hr.above fun q hq => h.no_data ?_
  rwa [taggedFrom_chart h.chart (by decide)] at hq

end

/-! ## Charts -/

/-- States that differ in the order of default transitions. -/
inductive State.Alike : State → State → Prop
  | mk {ssid : Option String} {composite : Bool} {ds ds' : List Transition} {ss ss' : List State}
      (defaults : ds.Perm ds') (substates : List.Forall₂ State.Alike ss ss') :
      State.Alike (.mk ssid composite ds ss) (.mk ssid composite ds' ss')

/-- States in the same place that differ in the order of default transitions. -/
structure Placed.Alike (s s' : Placed State) : Prop where
  around : s.around = s'.around
  item : State.Alike s.item s'.item

/-- Charts that differ in the order of transitions. -/
structure Alike (c c' : Chart) : Prop where
  states : List.Forall₂ Placed.Alike c.states c'.states
  transitions : c.transitions.Perm c'.transitions
  data : c.data = c'.data
  stateLabels : c.stateLabels = c'.stateLabels
  transitionLabels : c.transitionLabels.Perm c'.transitionLabels

theorem perm_flatMap_of_forall₂ {α β : Type} {f : α → List β} {xs ys : List α}
    (h : List.Forall₂ (fun x y => (f x).Perm (f y)) xs ys) :
    (xs.flatMap f).Perm (ys.flatMap f) := by
  induction h with
  | nil => exact .refl _
  | cons hxy _ ih => exact hxy.append ih

section

variable {n n' : Node}

/-- Nodes are reordered, and then transitions have moved among them. -/
theorem Reordered.moved (h : Reordered n n') :
    ∃ ms, List.Forall₂ Reordered n.children ms ∧ Moved ms n'.children := by
  cases h with
  | text s => exact ⟨[], .nil, .refl _⟩
  | other => exact ⟨[], .nil, .refl _⟩
  | element within => exact ⟨_, within, .refl _⟩
  | list within moved => exact ⟨_, within, moved⟩

theorem Reordered.transitions_perm (h : Reordered n n') :
    ((n.tagged "transition").map Transition.ofNode).Perm
      ((n'.tagged "transition").map Transition.ofNode) := by
  obtain ⟨ms, within, moved⟩ := h.moved
  have hsame : (n.tagged "transition").map Transition.ofNode =
      (ms.filter (·.hasTag "transition")).map Transition.ofNode :=
    map_of_forall₂ (fun h => h.2.transition_eq (hasTag_of_ne h.1 (by decide)))
      (filter_hasTag within "transition")
  rw [hsame]
  exact moved.transitions.map _

theorem Reordered.lists (h : Reordered n n') :
    List.Forall₂ Reordered (n.tagged "Children") (n'.tagged "Children") := by
  obtain ⟨ms, within, moved⟩ := h.moved
  have hlists : ms.filter (·.hasTag "Children") = n'.children.filter (·.hasTag "Children") :=
    moved.filter_eq fun m hm => hasTag_of_ne hm (by decide)
  rw [Node.tagged, Node.tagged, ← hlists]
  exact (filter_hasTag within "Children").imp fun _ _ h => h.2

theorem Reordered.defaults_perm (h : Reordered n n') : (defaultsOf n).Perm (defaultsOf n') := by
  have hpath : ∀ n : Node, (n.path ["Children", "transition"]).map Transition.ofNode =
      (n.tagged "Children").flatMap fun k => (k.tagged "transition").map Transition.ofNode := by
    intro n
    simp [Node.path, List.map_flatMap]
  rw [defaultsOf, defaultsOf, hpath, hpath]
  exact (perm_flatMap_of_forall₂ (h.lists.imp fun _ _ h => h.transitions_perm)).filter _

/-- The states in reordered nodes. -/
theorem Reordered.states (h : Reordered n n') :
    State.Alike (State.ofNode n) (State.ofNode n') ∧
      List.Forall₂ State.Alike (statesIn n) (statesIn n') := by
  induction h using Reordered.induction with
  | text s => exact ⟨.mk (.refl _) .nil, .nil⟩
  | other => exact ⟨.mk (.refl _) .nil, .nil⟩
  | @element name attributes cs ms cs' within moved h =>
    constructor
    · have hcomposite : ((Node.element name attributes cs).tagged "Children").isEmpty =
          ((Node.element name attributes cs').tagged "Children").isEmpty := by
        have hlists := h.lists
        generalize (Node.element name attributes cs).tagged "Children" = ks at hlists
        generalize (Node.element name attributes cs').tagged "Children" = ks' at hlists
        cases hlists <;> rfl
      have hsubstates : ms.flatMap statesIn = cs'.flatMap statesIn := by
        refine moved.flatMap_eq fun m _ hm => ?_
        rw [statesIn_eq, hasTag_of_ne hm (by decide)]
        rfl
      rw [State.ofNode, State.ofNode, hcomposite]
      refine .mk h.defaults_perm ?_
      rw [substatesOf_eq_flatMap, substatesOf_eq_flatMap, ← hsubstates]
      exact List.rel_flatMap within fun _ _ hin => hin.2.2
    · rw [statesIn_eq, statesIn_eq, ← h.hasTag_eq]
      split
      · have hamong : (ms.flatMap fun m => if m.hasTag "state" then [State.ofNode m] else []) =
            cs'.flatMap fun m => if m.hasTag "state" then [State.ofNode m] else [] := by
          refine moved.flatMap_eq fun m _ hm => ?_
          rw [hasTag_of_ne hm (by decide)]
          rfl
        rw [Node.children, Node.children, statesAmong_eq_flatMap, statesAmong_eq_flatMap, ← hamong]
        refine List.rel_flatMap within fun c m hin => ?_
        obtain ⟨hcm, ih⟩ := hin
        rw [hcm.hasTag_eq]
        split
        · exact .cons ih.1 .nil
        · exact .nil
      · exact .nil

end

theorem State.Alike.ssid_eq {s s' : State} (h : State.Alike s s') : s.ssid = s'.ssid := by
  cases h
  rfl

theorem State.Alike.isComposite_eq {s s' : State} (h : State.Alike s s') :
    s.isComposite = s'.isComposite := by
  cases h
  rfl

theorem Alike.identified {c c' : Chart} {base : List Container} (h : Alike c c')
    (hi : Identified c base) : Identified c' base where
  states := by
    rw [← map_of_forall₂ (fun h => h.item.ssid_eq) h.states]
    exact hi.states
  transitions := (h.transitions.map _).nodup_iff.mp hi.transitions
  named s' hs' := by
    obtain ⟨s, hs, hss⟩ := exists_of_forall₂ h.states hs'
    rw [← hss.item.ssid_eq]
    exact hi.named s hs
  apart s' hs' := by
    obtain ⟨s, hs, hss⟩ := exists_of_forall₂ h.states hs'
    rw [← hss.item.ssid_eq]
    exact hi.apart s hs

/-! ## Texts of labels -/

end Statechart.Chart
