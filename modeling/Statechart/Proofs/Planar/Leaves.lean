import Statechart.Proofs.Chart.Shape
import Statechart.Proofs.Planar.Flattening
import Statechart.Proofs.Table

/-!
Leaves of a chart. The states of a flattened chart are the leaves and the two states that every
planar chart has (`flatten_keys`). Planar transitions go between these, in whatever document the
chart stands: what is below a state that is read is read as well (`Chart.Holds.substate`), so
following children from a state ends in leaves that were listed (`flatten_ends`).
-/

namespace Statechart

open Xml (Node Place)

namespace Chart

/-- A state is one of the chart, wherever it stands. -/
def Holds (c : Chart) (s : State) : Prop := ∃ q ∈ c.states, q.item = s

/-- What is in a state of the chart is a state of the chart. -/
theorem Holds.substate {c : Chart} {s sub : State} (h : c.Holds s) (hsub : sub ∈ s.substates) :
    c.Holds sub := by
  obtain ⟨placed, hplaced, rfl⟩ := h
  obtain ⟨q, hq, rfl⟩ := mem_states_ofPlace.mp hplaced
  simp only [substates_ofNode, List.mem_map] at hsub
  obtain ⟨r, hr, rfl⟩ := hsub
  exact ⟨_, mem_states_ofPlace.mpr ⟨r, mem_descendants_of_path hq hr, rfl⟩, rfl⟩

theorem Plain.isPlain_of_holds {c : Chart} (hplain : c.Plain) {s : State} (h : c.Holds s) :
    IsPlain s.ssid := by
  obtain ⟨placed, hplaced, rfl⟩ := h
  exact hplain.states placed hplaced

end Chart

namespace Planar

open Chart (State Transition Container Placed)
open Label (Cache)

variable {chart : Chart} {c c' : Cache}

/-- A leaf of the chart has this identifier. -/
def HasLeaf (chart : Chart) (k : Option String) : Prop :=
  ∃ s ∈ chart.states, s.item.isComposite = false ∧ s.item.ssid = k

/-! ## States -/

theorem keys_planarStates {states : Table (Option String) PlanarState}
    (h : Runs (planarStates chart) c states c') (k : Option String) :
    k ∈ states.keys ↔ k = some "error" ∨ k = some "start" ∨ HasLeaf chart k := by
  unfold planarStates at h
  obtain ⟨leaves, c₁, hleaves, h⟩ := runs_bind.mp h
  obtain ⟨rfl, -⟩ := runs_pure.mp h
  have hnames : leaves.map (·.1) =
      (chart.states.filter (!·.item.isComposite)).map (·.item.ssid) := by
    refine runs_mapM_map (fun {s c₁ y c₂} hrun => ?_) hleaves
    obtain ⟨p, c₃, -, hrun⟩ := runs_bind.mp hrun
    obtain ⟨rfl, -⟩ := runs_pure.mp hrun
    rfl
  rw [Table.mem_keys_insert, Table.mem_keys_insert, Table.mem_keys_ofList, hnames]
  refine or_congr_right (or_congr_right ?_)
  simp only [List.mem_map, List.mem_filter, HasLeaf, Bool.not_eq_true', and_assoc]

theorem flatten_keys {lines lines' : Lines} {planar : PlanarChart}
    (hrun : Runs (flatten chart) lines planar lines') (k : Option String) :
    k ∈ planar.states.keys ↔ k = some "error" ∨ k = some "start" ∨ HasLeaf chart k := by
  obtain ⟨c', hwork⟩ := runs_flattening hrun
  unfold flattening at hwork
  obtain ⟨states, c₁, hstates, hwork⟩ := runs_bind.mp hwork
  obtain ⟨blocks, c₂, -, hwork⟩ := runs_bind.mp hwork
  obtain ⟨vars, c₃, -, hwork⟩ := runs_bind.mp hwork
  obtain ⟨cache, c₄, -, hwork⟩ := runs_bind.mp hwork
  obtain ⟨rfl, -⟩ := runs_pure.mp hwork
  exact keys_planarStates hstates k

/-! ## Ends of planar transitions -/

theorem exitPathsOf_leaf (ss : List State)
    (ih : ∀ s ∈ ss, ∀ {later paths} {c c' : Cache}, Runs (exitPaths chart s later) c paths c' →
      ∀ x ∈ paths, HasLeaf chart x.1)
    {later : List String} {paths : List (Option String × List String)} {c c' : Cache}
    (h : Runs (exitPathsOf chart ss later) c paths c') : ∀ x ∈ paths, HasLeaf chart x.1 := by
  induction ss generalizing paths c with
  | nil =>
    rw [exitPathsOf] at h
    obtain ⟨rfl, -⟩ := runs_pure.mp h
    simp
  | cons s ss ihs =>
    rw [exitPathsOf] at h
    obtain ⟨l, c₁, -, h⟩ := runs_bind.mp h
    obtain ⟨first, c₂, hfirst, h⟩ := runs_bind.mp h
    obtain ⟨rest, c₃, hrest, h⟩ := runs_bind.mp h
    obtain ⟨rfl, rfl⟩ := runs_pure.mp h
    refine List.forall_mem_append.mpr ⟨ih s (List.mem_cons_self ..) hfirst, ?_⟩
    exact ihs (fun s hs => ih s (List.mem_cons_of_mem _ hs)) hrest

/-- A state is left from leaves of the chart. -/
theorem exitPaths_leaf (s : State) (hs : chart.Holds s)
    {later : List String} {paths : List (Option String × List String)} {c c' : Cache}
    (h : Runs (exitPaths chart s later) c paths c') : ∀ x ∈ paths, HasLeaf chart x.1 := by
  induction s using State.induction generalizing later paths c c' with
  | mk ssid composite defaults substates ih =>
    rw [exitPaths] at h
    cases composite with
    | false =>
      simp only [Bool.false_eq_true, if_false] at h
      obtain ⟨rfl, -⟩ := runs_pure.mp h
      intro x hx
      rw [List.mem_singleton.mp hx]
      obtain ⟨q, hq, hitem⟩ := hs
      exact ⟨q, hq, by rw [hitem]; rfl, by rw [hitem]; rfl⟩
    | true =>
      simp only [if_true] at h
      exact exitPathsOf_leaf substates (fun s hmem => ih s hmem (hs.substate hmem)) h

theorem tryDefaults_leaf {inside : Option String → Except Fault (Option Entering)}
    {conditions actions : List String} (ts : List Transition)
    (hinside : ∀ t ∈ ts, ∀ enter, inside t.destination = .ok (some enter) →
      ∀ {conditions actions paths} {c c' : Cache}, Runs (enter conditions actions) c paths c' →
      ∀ e ∈ paths, e.target = some "error" ∨ HasLeaf chart e.target)
    {excluded : List String} {paths : List EntryPath} {c c' : Cache}
    (h : Runs (tryDefaults chart inside conditions actions excluded ts) c paths c') :
    ∀ e ∈ paths, e.target = some "error" ∨ HasLeaf chart e.target := by
  induction ts generalizing excluded paths c with
  | nil =>
    rw [tryDefaults] at h
    obtain ⟨rfl, -⟩ := runs_pure.mp h
    intro e he
    rw [List.mem_singleton.mp he]
    exact .inl rfl
  | cons t ts iht =>
    obtain ⟨enter, l, d, below, others, c₁, c₂, c₃, henter, -, -, hb, ho, rfl⟩ :=
      runs_tryDefaults_cons.mp h
    refine List.forall_mem_append.mpr ⟨hinside t (List.mem_cons_self ..) enter henter hb, ?_⟩
    exact iht (fun u hu => hinside u (List.mem_cons_of_mem _ hu)) ho

/-- A way into a state ends in a leaf of the chart or fails. -/
theorem entryPaths_leaf (hends : chart.PlainEnds) (depth : Nat) {q : Place}
    (hq : q ∈ chart.place.descendants "state") {conditions actions : List String}
    {paths : List EntryPath} {c c' : Cache}
    (h : Runs (entryPaths chart depth q conditions actions) c paths c') :
    ∀ e ∈ paths, e.target = some "error" ∨ HasLeaf chart e.target := by
  induction depth generalizing q conditions actions paths c c' with
  | zero => exact absurd h not_runs_entryPaths_zero
  | succ depth ih =>
    rcases runs_entryPaths_succ.mp h with ⟨hleaf, rfl, -⟩ | ⟨-, ts, hts, h⟩
    · intro e he
      rw [List.mem_singleton.mp he]
      exact .inr ⟨_, Chart.mem_states_ofPlace.mpr ⟨q, hq, rfl⟩, hleaf, rfl⟩
    · refine tryDefaults_leaf ts (fun t ht enter henter => ?_) h
      obtain ⟨r, hr, rfl⟩ := enterSubstate_eq_some.mp henter
      obtain ⟨hmem, -⟩ := Chart.substate?_eq_some (isPlain_of_sortByOrder hends hq hts ht) hr
      exact ih (Chart.mem_descendants_of_path hq hmem)

theorem leavesFrom_leaf {t : Transition} (hplain : Chart.IsPlain t.source)
    {leaves : List (Option String × List String)}
    (h : Runs (leavesFrom chart t) c leaves c') :
    ∀ x ∈ leaves, x.1 = some startId ∨ HasLeaf chart x.1 := by
  unfold leavesFrom at h
  intro x hx
  split at h
  · obtain ⟨rfl, -⟩ := runs_pure.mp h
    rw [List.mem_singleton.mp hx]
    exact .inl rfl
  · obtain ⟨s, c₁, hs, h⟩ := runs_bind.mp h
    have hmem := stateOf_mem (runs_stateAt (isPlain_sourceKey hplain) hs).1
    exact .inr (exitPaths_leaf s.item ⟨s, hmem, rfl⟩ h x hx)

/-- A planar transition goes from the start or a leaf to a leaf, or it fails. -/
theorem flatten_ends (hends : chart.PlainEnds) {lines lines' : Lines} {planar : PlanarChart}
    (hrun : Runs (flatten chart) lines planar lines') :
    ∀ e ∈ planar.transitions, (e.source = some "start" ∨ HasLeaf chart e.source) ∧
      (e.target = some "error" ∨ HasLeaf chart e.target) := by
  obtain ⟨blocks, hts, hblocks⟩ := flatten_shape hrun
  intro e he
  rw [hts] at he
  rcases List.mem_append.mp he with he | he
  · obtain ⟨block, hblock, he⟩ := List.mem_flatten.mp he
    obtain ⟨t, ht, c, c', hrun⟩ := hblocks block hblock
    obtain ⟨hplain, hplain'⟩ := hends t ht
    obtain ⟨l, goal, leaves, paths, c₁, c₂, c₃, c₄, hleaves, hgoal, hpaths, ⟨leaf, hleaf, hsource⟩,
      path, hpath, htarget, -⟩ := planarTransitions_mem hrun he
    rw [hsource, htarget]
    refine ⟨leavesFrom_leaf hplain hleaves leaf hleaf, ?_⟩
    have hgoal := (stateOf_of_place? hplain' hgoal).1
    exact entryPaths_leaf hends (maxDepth chart) hgoal hpaths path hpath
  · rw [List.mem_singleton.mp he]
    exact ⟨.inl rfl, .inl rfl⟩

end Planar

end Statechart
