import Mathlib.Data.Prod.Lex
import Statechart.Proofs.Planar.Flattening

/-!
Priorities of planar transitions. Level, rank and order together are a key, and a transition
comes before another if its key is smaller. In a flattened chart whose orders are apart, planar
transitions from one leaf with one key were made from one transition along two ways, so one of
them takes a condition that the other refuses (`flatten_pairwise`).
-/

namespace Statechart

/-- What planar transitions are compared by. -/
def PlanarTransition.priority (t : PlanarTransition) : Int ×ₗ Int ×ₗ Int :=
  toLex (t.level, toLex (t.rank, t.order))

theorem PlanarTransition.before_iff {t u : PlanarTransition} :
    t.before u = true ↔ t.priority < u.priority := by
  simp [before, priority, Prod.Lex.toLex_lt_toLex]

theorem PlanarTransition.priority_inj {t u : PlanarTransition} :
    t.priority = u.priority ↔ t.level = u.level ∧ t.rank = u.rank ∧ t.order = u.order := by
  simp [priority]

namespace Planar

open Chart (State Transition Container Placed Hierarchical Identified)
open Label (View)

variable {chart : Chart} {base : List Container}

/-- Two transitions with one source that are both inner or both outer, and two initial ones,
have different orders. -/
def OrderedApart (t u : Placed Transition) : Prop :=
  isNestedDefault t = false → isNestedDefault u = false →
    sourceKey t.item = sourceKey u.item → isInner t = isInner u →
    (orderOf t.item).toOption ≠ (orderOf u.item).toOption

instance (t u : Placed Transition) : Decidable (OrderedApart t u) :=
  inferInstanceAs (Decidable (_ → _ → _ → _ → _))

/-! ## Levels and leaves -/

theorem levelOf_append (h : Hierarchical chart base) {above : List Container}
    (ha : ∀ k ∈ above, k.kind = .state) : levelOf (above ++ base) = .ok (above.length + 1) := by
  obtain ⟨ssid, beyond, rfl⟩ := h.root
  induction above with
  | nil => rfl
  | cons k above ih =>
    obtain ⟨kind, name⟩ := k
    obtain rfl : kind = .state := ha _ (List.mem_cons_self ..)
    have hstep : ∀ around, levelOf (⟨.state, name⟩ :: around) = do return (← levelOf around) + 1 :=
      fun _ => rfl
    rw [List.cons_append, hstep, ih fun k hk => ha k (List.mem_cons_of_mem _ hk)]
    exact congrArg Except.ok (by simp)

/-- The level of a state says how many states are around it. -/
theorem length_of_levelOf (h : Hierarchical chart base) {s : Placed State}
    (hs : s ∈ chart.states) {level : Int} (hl : levelOf s.around = .ok level) :
    (s.around.length : Int) = level - 1 + base.length := by
  obtain ⟨above, ha, hk⟩ := h.around_eq hs
  rw [ha, levelOf_append h hk] at hl
  obtain rfl := Except.ok.inj hl
  simp [ha]

theorem leaves_subset (h : Hierarchical chart base) {s : Placed State} (hs : s ∈ chart.states) :
    ∀ p ∈ s.item.leaves s.around, p ∈ chart.states :=
  fun _ hp => h.mem_of_mem_places hs (List.mem_filter.mp hp).1

theorem lineage_suffix_of_leaf {s p : Placed State} (hp : p ∈ s.item.leaves s.around) :
    s.lineage <:+ p.lineage := by
  obtain ⟨front, hf, -⟩ := State.lineage_of_mem_places s.item s.around (List.mem_filter.mp hp).1
  exact ⟨front, hf.symm⟩

theorem leaves_nodup (h : Hierarchical chart base) (hi : Identified chart base)
    {s : Placed State} (hs : s ∈ chart.states) :
    ((s.item.leaves s.around).map (·.item.ssid)).Nodup := by
  exact hi.states.sublist ((List.filter_sublist.trans (h.places_sublist hs)).map _)

/-! ## Planar transitions of two transitions -/

/-- Planar transitions that were made from one transition. -/
theorem Becomes.mem {t : Placed Transition} {block : List PlanarTransition} {v : View}
    (hb : Becomes chart v t block) {e : PlanarTransition} (he : e ∈ block) :
    isNestedDefault t = false ∧ orderOf t.item = .ok e.order ∧
      ∃ parent d, t.around.head? = some parent ∧ Departs chart v t.item parent d ∧
        (∃ leaf ∈ d.leaves, e.source = leaf.1) ∧ e.level = d.level ∧
        e.rank = rankIn parent.ssid t.item := by
  cases hb with
  | nested => cases he
  | made proper stands departs arrives enters ordered label readable below =>
    obtain ⟨leaf, hleaf, he⟩ := List.mem_flatMap.mp he
    obtain ⟨w, hw, rfl⟩ := List.mem_map.mp he
    exact ⟨proper, ordered, _, _, stands, departs, ⟨leaf, hleaf, rfl⟩, rfl, rfl⟩

/-- A planar transition from a state starts in a leaf below it. -/
theorem Departs.leaf (h : Hierarchical chart base) {v : View} {t : Transition}
    {parent : Container} {d : Departure} (hd : Departs chart v t parent d)
    {leaf : Option String × List String} (hleaf : leaf ∈ d.leaves) :
    (isInitial t = true ∧ parent.kind = .chart ∧ leaf.1 = some startId ∧ d.level = 0) ∨
    (isInitial t = false ∧ ∃ s ∈ chart.states, ∃ p ∈ chart.states,
      s.item.ssid = some (sourceKey t) ∧ leaf.1 = p.item.ssid ∧ s.lineage <:+ p.lineage ∧
        levelOf s.around = .ok d.level) := by
  cases hd with
  | start initial kind =>
    rw [Departure.start, List.mem_singleton] at hleaf
    subst hleaf
    exact .inl ⟨initial, kind, rfl, rfl⟩
  | state proper source depth readable below =>
    obtain ⟨p, hp, rfl⟩ := List.mem_map.mp hleaf
    have hs := stateOf_mem source
    exact .inr ⟨proper, _, hs, p, leaves_subset h hs p hp, stateOf_ssid source, rfl,
      lineage_suffix_of_leaf hp, depth⟩

theorem isInner_eq {t : Placed Transition} {parent : Container}
    (hp : t.around.head? = some parent) :
    isInner t = (parent.ssid == some (sourceKey t.item)) := by
  simp [isInner, hp]

/-- Planar transitions with one source and one key were made from transitions with one source,
both inner or both outer. -/
theorem same_source_of_priority (h : Hierarchical chart base) (hi : Identified chart base)
    (hnames : ∀ s ∈ chart.states, s.item.ssid ≠ some startId) {v : View}
    {t u : Placed Transition} (ht : t ∈ chart.transitions) (hu : u ∈ chart.transitions)
    {parent parent' : Container} (hp : t.around.head? = some parent)
    (hp' : u.around.head? = some parent') {d d' : Departure}
    (hd : Departs chart v t.item parent d) (hd' : Departs chart v u.item parent' d')
    {leaf leaf' : Option String × List String} (hl : leaf ∈ d.leaves) (hl' : leaf' ∈ d'.leaves)
    (hsource : leaf.1 = leaf'.1) (hlevel : d.level = d'.level)
    (hrank : rankIn parent.ssid t.item = rankIn parent'.ssid u.item) :
    sourceKey t.item = sourceKey u.item ∧ isInner t = isInner u := by
  rcases hd.leaf h hl with ⟨hin, hk, hstart, -⟩ | ⟨hout, s, hs, p, hps, hsid, hleaf, hsuf, hdepth⟩
  · rcases hd'.leaf h hl' with ⟨hin', hk', -, -⟩ | ⟨-, s', -, p', hps', -, hleaf', -, -⟩
    · -- two initial transitions stand in the chart
      have hbase : ∀ {t : Placed Transition} {parent : Container}, t ∈ chart.transitions →
          t.around.head? = some parent → parent.kind = .chart → base.head? = some parent := by
        intro t parent ht hp hk
        rcases h.parents t ht with hbase | ⟨q, -, -, haround⟩
        · rwa [hbase] at hp
        · rw [haround, Placed.lineage, List.head?_cons, Option.some.injEq] at hp
          rw [← hp] at hk
          cases hk
      have hkey : sourceKey t.item = sourceKey u.item :=
        (eq_of_beq hin).trans (eq_of_beq hin').symm
      have hsame : parent = parent' :=
        Option.some.inj ((hbase ht hp hk).symm.trans (hbase hu hp' hk'))
      exact ⟨hkey, by rw [isInner_eq hp, isInner_eq hp', hkey, hsame]⟩
    · exact absurd (hleaf'.symm.trans (hsource.symm.trans hstart)) (hnames p' hps')
  · rcases hd'.leaf h hl' with
      ⟨-, -, hstart, -⟩ | ⟨hout', s', hs', p', hps', hsid', hleaf', hsuf', hdepth'⟩
    · exact absurd (hleaf.symm.trans (hsource.trans hstart)) (hnames p hps)
    · -- the two sources are around one leaf and equally deep
      obtain rfl : p = p' :=
        hi.eq_of_ssid hps hps' (hleaf.symm.trans (hsource.trans hleaf'))
      have hlen : s.around.length = s'.around.length := by
        have := length_of_levelOf h hs hdepth
        have := length_of_levelOf h hs' hdepth'
        omega
      obtain rfl : s = s' := hi.eq_of_suffix hs hs' hsuf hsuf' hlen
      have hkey : sourceKey t.item = sourceKey u.item :=
        Option.some.inj (hsid.symm.trans hsid')
      refine ⟨hkey, ?_⟩
      rw [isInner_eq hp, isInner_eq hp']
      simp only [rankIn, hout, hout', Bool.false_eq_true, if_false] at hrank
      cases hinner : parent.ssid == some (sourceKey t.item) <;>
        cases hinner' : parent'.ssid == some (sourceKey u.item) <;> simp_all

/-! ## Flattened charts -/

/-- If neither of two planar transitions comes before the other, they exclude each other. -/
def Apart (e e' : PlanarTransition) : Prop :=
  e.source = e'.source → e.priority = e'.priority → Excludes e.conditions e'.conditions

/-- Planar transitions that were made from one transition. -/
theorem Becomes.pairwise (h : Hierarchical chart base) (hi : Identified chart base) {v : View}
    {t : Placed Transition} {block : List PlanarTransition} (hb : Becomes chart v t block) :
    block.Pairwise Apart := by
  cases hb with
  | nested => exact .nil
  | @made parent d goal ws order proper stands departs arrives enters =>
    have hleaves : d.leaves.Pairwise fun leaf leaf' => leaf.1 ≠ leaf'.1 := by
      cases departs with
      | start => exact List.pairwise_singleton ..
      | state out source =>
        refine List.pairwise_map.mpr (List.pairwise_map.mp ?_)
        exact leaves_nodup h hi (stateOf_mem source)
    refine List.pairwise_flatMap.mpr ⟨fun leaf _ => ?_, hleaves.imp ?_⟩
    · refine List.pairwise_map.mpr ((ways_pairwise v goal.item enters).imp ?_)
      intro w w' hex _ _
      exact hex.mono (List.subset_append_right ..) (List.subset_append_right ..)
    · intro leaf leaf' hne e he e' he' hsource
      obtain ⟨w, -, rfl⟩ := List.mem_map.mp he
      obtain ⟨w', -, rfl⟩ := List.mem_map.mp he'
      exact absurd hsource hne

theorem mem_of_forall₂ {v : View} {ts : List (Placed Transition)}
    {blocks : List (List PlanarTransition)} (hb : List.Forall₂ (Becomes chart v) ts blocks)
    {e : PlanarTransition} (he : e ∈ blocks.flatten) :
    ∃ t ∈ ts, ∃ block, Becomes chart v t block ∧ e ∈ block := by
  induction hb with
  | nil => cases he
  | @cons t block ts blocks hblock hrest ih =>
    rw [List.flatten_cons] at he
    rcases List.mem_append.mp he with he | he
    · exact ⟨t, List.mem_cons_self .., block, hblock, he⟩
    · obtain ⟨u, hu, h⟩ := ih he
      exact ⟨u, List.mem_cons_of_mem _ hu, h⟩

/-- Planar transitions that were made from different transitions. -/
theorem Becomes.apart (h : Hierarchical chart base) (hi : Identified chart base)
    (hnames : ∀ s ∈ chart.states, s.item.ssid ≠ some startId) {v : View}
    {t u : Placed Transition} (ht : t ∈ chart.transitions) (hu : u ∈ chart.transitions)
    (horders : OrderedApart t u) {block block' : List PlanarTransition}
    (hb : Becomes chart v t block) (hb' : Becomes chart v u block') {e e' : PlanarTransition}
    (he : e ∈ block) (he' : e' ∈ block') : Apart e e' := by
  intro hsource hpriority
  obtain ⟨hlevel, hrank, horder⟩ := PlanarTransition.priority_inj.mp hpriority
  obtain ⟨ht', hto, parent, d, hp, hd, ⟨leaf, hleaf, hs⟩, hl, hr⟩ := hb.mem he
  obtain ⟨hu', huo, parent', d', hp', hd', ⟨leaf', hleaf', hs'⟩, hl', hr'⟩ := hb'.mem he'
  obtain ⟨hkey, hinner⟩ := same_source_of_priority h hi hnames ht hu hp hp' hd hd' hleaf hleaf'
    (hs ▸ hs' ▸ hsource) (hl ▸ hl' ▸ hlevel) (hr ▸ hr' ▸ hrank)
  refine absurd ?_ (horders ht' hu' hkey hinner)
  rw [hto, huo, horder]

theorem blocks_pairwise (h : Hierarchical chart base) (hi : Identified chart base)
    (hnames : ∀ s ∈ chart.states, s.item.ssid ≠ some startId) {v : View}
    {ts : List (Placed Transition)} {blocks : List (List PlanarTransition)}
    (hb : List.Forall₂ (Becomes chart v) ts blocks) (hts : ts ⊆ chart.transitions)
    (horders : ts.Pairwise OrderedApart) :
    blocks.flatten.Pairwise Apart := by
  induction hb with
  | nil => exact .nil
  | @cons t block ts blocks hblock hrest ih =>
    obtain ⟨ht, hts⟩ := List.cons_subset.mp hts
    obtain ⟨hhead, htail⟩ := List.pairwise_cons.mp horders
    rw [List.flatten_cons]
    refine List.pairwise_append.mpr ⟨hblock.pairwise h hi, ih hts htail, ?_⟩
    intro e he e' he'
    obtain ⟨u, hu, block', hb', he'⟩ := mem_of_forall₂ hrest he'
    exact hblock.apart h hi hnames ht (hts hu) (hhead u hu) hb' he he'

/-- In a flattened chart with orders apart, planar transitions that are not ranked against each
other exclude each other. -/
theorem flatten_pairwise (h : Hierarchical chart base) (hi : Identified chart base)
    (hends : chart.PlainEnds) (hnames : ∀ s ∈ chart.states, s.item.ssid ≠ some startId)
    (horders : chart.transitions.Pairwise OrderedApart) {lines lines' : Lines}
    {planar : PlanarChart}
    (hrun : Runs (flatten chart) lines planar lines') : planar.transitions.Pairwise Apart := by
  obtain ⟨⟨blocks, hblocks, hts⟩, -⟩ := runs_flatten h hi hends hrun
  rw [hts]
  refine List.pairwise_append.mpr
    ⟨blocks_pairwise h hi hnames hblocks (List.Subset.refl _) horders,
      List.pairwise_singleton .., ?_⟩
  -- initial transitions come before the one that fails
  intro e he e' he' hsource hpriority
  rw [List.mem_singleton] at he'
  subst he'
  obtain ⟨t, ht, block, hb, he⟩ := mem_of_forall₂ hblocks he
  obtain ⟨-, -, parent, d, -, hd, ⟨leaf, hleaf, hs⟩, hl, -⟩ := hb.mem he
  have hlevel : d.level = 1 := hl ▸ (PlanarTransition.priority_inj.mp hpriority).1
  rcases hd.leaf h hleaf with ⟨-, -, -, hzero⟩ | ⟨-, s, -, p, hps, -, hname, -, -⟩
  · rw [hzero] at hlevel
    cases hlevel
  · exact absurd (hname.symm.trans (hs.symm.trans hsource)) (hnames p hps)

end Planar

end Statechart
