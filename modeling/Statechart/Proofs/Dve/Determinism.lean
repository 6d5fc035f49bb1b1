import Statechart.Proofs.Chart.Drawn
import Statechart.Proofs.Dve.Guards
import Statechart.Proofs.Table

/-!
Determinism of a process. Planar transitions that are ranked against each other exclude each
other by the negated guards, the others by the default transitions that they take and refuse,
and a loop excludes every transition. So at most one edge from a state is enabled, and from the
start exactly one (`process_deterministic`). An end with a quotation mark in it may find a state
that has another identifier, and then transitions of two states leave one
(`mirror_not_deterministic`).
-/

namespace Statechart.Dve

open Planar (Apart)

variable {ev : String → Bool} {ts : List PlanarTransition}

/-! ## Edges and loops exclude each other -/

/-- No two edges from one state are enabled. -/
def Exclusive (ev : String → Bool) (e e' : Edge) : Prop :=
  e.source = e'.source → ¬ (e.enabled ev = true ∧ e'.enabled ev = true)

theorem takeable_of_enabled (h : Evaluates ev ts) (hs : Stated ts) {alternate : Bool}
    {t : PlanarTransition} (he : (edgeOf alternate ts t).enabled ev = true) :
    t.conditions.all ev = true := by
  rw [enabled_edgeOf h hs] at he
  simp only [Bool.and_eq_true] at he
  exact he.1.1

/-- A transition that can be taken disables what comes after it. -/
theorem not_enabled_of_before (h : Evaluates ev ts) (hs : Stated ts) {alternate : Bool}
    {t u : PlanarTransition} (ht : t ∈ ts) (hsource : t.source = u.source)
    (hbefore : t.priority < u.priority) (htake : t.conditions.all ev = true) :
    (edgeOf alternate ts u).enabled ev ≠ true := by
  intro he
  rw [enabled_edgeOf h hs] at he
  simp only [Bool.and_eq_true, List.all_eq_true] at he
  have hrival : t ∈ rivals ts u := List.mem_filter.mpr
    ⟨ht, by simp [hsource, PlanarTransition.before_iff.mpr hbefore]⟩
  have hnot := he.2 t hrival
  rw [htake] at hnot
  cases hnot

theorem edges_exclusive (h : Evaluates ev ts) (hs : Stated ts) (alternate : Bool)
    (hapart : ts.Pairwise Apart) : (ts.map (edgeOf alternate ts)).Pairwise (Exclusive ev) := by
  refine List.pairwise_map.mpr (hapart.imp_of_mem ?_)
  rintro t u ht hu hapart hsource ⟨het, heu⟩
  have htt := takeable_of_enabled h hs het
  have huu := takeable_of_enabled h hs heu
  rcases lt_trichotomy t.priority u.priority with hlt | heq | hgt
  · exact not_enabled_of_before h hs ht hsource hlt htt heu
  · exact h.not_both ht (hapart hsource heq) ⟨htt, huu⟩
  · exact not_enabled_of_before h hs hu hsource.symm hgt huu het

theorem loops_exclusive (alternate : Bool) {chart : PlanarChart}
    (hkeys : chart.states.keys.Nodup) : (loops alternate chart).Pairwise (Exclusive ev) := by
  have hsources : chart.states.entries.Pairwise fun e e' => e.1 ≠ e'.1 := List.pairwise_map.mp hkeys
  refine List.pairwise_map.mpr ((hsources.filter _).imp ?_)
  intro e e' hne hsource
  exact absurd hsource hne

theorem edge_loop_exclusive (h : Evaluates ev ts) (hs : Stated ts) (alternate : Bool)
    {t : PlanarTransition} (ht : t ∈ ts) (ssid : Option String) (s : PlanarState) :
    Exclusive ev (edgeOf alternate ts t) (loopOf alternate ts ssid s) := by
  rintro hsource ⟨hedge, hloop⟩
  rw [enabled_loopOf h hs] at hloop
  simp only [Bool.and_eq_true, List.all_eq_true] at hloop
  have hmem : t ∈ ts.filter (·.source == ssid) :=
    List.mem_filter.mpr ⟨ht, beq_iff_eq.mpr hsource⟩
  have hnot := hloop.2 t hmem
  rw [takeable_of_enabled h hs hedge] at hnot
  cases hnot

/-- The edges of a process that are written exclude each other. -/
theorem written_exclusive {chart : PlanarChart} (h : Evaluates ev chart.transitions)
    (hs : Stated chart.transitions) (alternate : Bool)
    (hapart : chart.transitions.Pairwise Apart) (hkeys : chart.states.keys.Nodup) :
    (written alternate chart).Pairwise (Exclusive ev) := by
  refine List.Pairwise.filter _ (List.pairwise_append.mpr
    ⟨edges_exclusive h hs alternate hapart, loops_exclusive alternate hkeys, ?_⟩)
  intro e he e' he'
  obtain ⟨t, ht, rfl⟩ := List.mem_map.mp he
  obtain ⟨entry, -, rfl⟩ := List.mem_map.mp he'
  exact edge_loop_exclusive h hs alternate ht entry.1 entry.2

/-- The edges from a state that are written and enabled. -/
def enabledFrom (ev : String → Bool) (chart : PlanarChart) (s : Option String) : List Edge :=
  (written false chart).filter fun e => e.source == s && e.enabled ev

theorem length_enabledFrom_le {chart : PlanarChart}
    (h : (written false chart).Pairwise (Exclusive ev)) (s : Option String) :
    (enabledFrom ev chart s).length ≤ 1 := by
  have hpair : (enabledFrom ev chart s).Pairwise (Exclusive ev) := h.filter _
  have hprop : ∀ e ∈ enabledFrom ev chart s, e.source = s ∧ e.enabled ev = true := by
    intro e he
    simpa using (List.mem_filter.mp he).2
  match hes : enabledFrom ev chart s with
  | [] => exact Nat.zero_le _
  | [_] => exact Nat.le_refl _
  | e :: e' :: rest =>
    rw [hes] at hpair hprop
    obtain ⟨hsource, he⟩ := hprop e (by simp)
    obtain ⟨hsource', he'⟩ := hprop e' (by simp)
    exact absurd ⟨he, he'⟩ ((List.pairwise_cons.mp hpair).1 e' (by simp)
      (hsource.trans hsource'.symm))

/-- If a transition from a state can be taken, an edge from it is written and enabled. -/
theorem enabledFrom_ne_nil {chart : PlanarChart} (h : Evaluates ev chart.transitions)
    (hs : Stated chart.transitions) {t : PlanarTransition} (ht : t ∈ chart.transitions)
    (htake : t.conditions.all ev = true) : enabledFrom ev chart t.source ≠ [] := by
  obtain ⟨u, hu, hsource, henabled⟩ := exists_enabled h hs false rfl ht htake
  refine List.ne_nil_of_mem (a := edgeOf false chart.transitions u) (List.mem_filter.mpr ⟨?_, ?_⟩)
  · refine List.mem_filter.mpr ⟨List.mem_append_left _ (List.mem_map_of_mem hu), ?_⟩
    rw [not_dead_of_enabled h henabled]
    rfl
  · rw [henabled, Bool.and_true, beq_iff_eq]
    exact hsource

/-! ## Processes of charts -/

/-- A process is deterministic if the ends of the transitions have no quotation mark in them: of the
edges from a state at most one is enabled, and of those from the start exactly one. -/
theorem process_deterministic {p : Xml.Place} (htree : Chart.TreeShaped p)
    (hids : Chart.Identified (Chart.ofPlace p) (Chart.baseOf p))
    (hends : (Chart.ofPlace p).PlainEnds)
    (hnames : ∀ s ∈ (Chart.ofPlace p).states, s.item.ssid ≠ some "start")
    (horders : (Chart.ofPlace p).transitions.Pairwise Planar.OrderedApart)
    {lines lines' : Lines} {chart : PlanarChart}
    (hrun : Runs (Planar.flatten (Chart.ofPlace p)) lines chart lines')
    (hev : Evaluates ev chart.transitions) (s : Option String) :
    (enabledFrom ev chart s).length ≤ 1 ∧
      (s = some "start" → (enabledFrom ev chart s).length = 1) := by
  have hforest := htree.hierarchical
  have hstated : Stated chart.transitions := Planar.flatten_conditions hrun
  have hapart := Planar.flatten_pairwise hforest hids hends hnames horders hrun
  obtain ⟨⟨blocks, -, htransitions⟩, leaves, hstates⟩ :=
    Planar.runs_flatten hforest hids hends hrun
  have hkeys : chart.states.keys.Nodup := by
    rw [hstates]
    exact Table.nodup_insert (Table.nodup_insert (Table.nodup_ofList leaves) _ _) _ _
  have hle := length_enabledFrom_le (written_exclusive hev hstated false hapart hkeys) s
  refine ⟨hle, ?_⟩
  rintro rfl
  have hfails : Planar.startFails ∈ chart.transitions := by
    rw [htransitions]
    exact List.mem_append_right _ (List.mem_singleton_self _)
  have hsome := enabledFrom_ne_nil hev hstated hfails rfl
  exact Nat.le_antisymm hle (List.length_pos_of_ne_nil hsome)

/-- A lift that goes up slowly or fast, with default, inner and outer transitions. -/
def lift : Xml.Place :=
  Chart.drawn "lift" [
    .state "1" "Up\nen: a = 1\ndu: b = b + 1\nex: a = 0" [
      .state "2" "Slow" [],
      .state "3" "Fast\ndu: c = c + 2" [],
      .transition "11" none "2" "[a > 0]" "1",
      .transition "12" none "3" "[b > 0]" "2",
      .transition "13" (some "1") "3" "[c > 3]" "1"],
    .state "4" "Down" [],
    .transition "14" none "1" "" "1",
    .transition "15" (some "1") "4" "[c > 9]" "1",
    .transition "16" (some "4") "1" "" "1"]

/-- The texts that hold if `a` is 0, `b` is 1 and `c` is 5. -/
def liftHolds (c : String) : Bool :=
  ["b > 0", "c > 3", "not (a > 0)", "not (c > 9)", "not (not (b > 0))",
    "not (not (a > 0)) or not (not (b > 0))"].contains c

theorem process_deterministic_lift :
    ∃ lines, Runs (Planar.flatten (Chart.ofPlace lift)) .initial
        (Planar.planarOf (Chart.ofPlace lift)) lines ∧
      Evaluates liftHolds (Planar.planarOf (Chart.ofPlace lift)).transitions ∧
      (enabledFrom liftHolds (Planar.planarOf (Chart.ofPlace lift)) (some "start")).length = 1 ∧
      (enabledFrom liftHolds (Planar.planarOf (Chart.ofPlace lift)) (some "3")).length ≤ 1 := by
  have hchart : Chart.Identified (Chart.ofPlace lift) (Chart.baseOf lift) ∧
      (Chart.ofPlace lift).PlainEnds ∧
      (∀ s ∈ (Chart.ofPlace lift).states, s.item.ssid ≠ some "start") ∧
      (Chart.ofPlace lift).transitions.Pairwise Planar.OrderedApart := by
    decide +kernel
  obtain ⟨hids, hends, hnames, horders⟩ := hchart
  have hplanar : ((Planar.flatten (Chart.ofPlace lift)).run.run .initial).1.isOk = true ∧
      Evaluates liftHolds (Planar.planarOf (Chart.ofPlace lift)).transitions := by
    decide +kernel
  obtain ⟨hok, hev⟩ := hplanar
  obtain ⟨lines, hrun⟩ := Planar.runs_planarOf (Chart.ofPlace lift) hok
  have hdet := process_deterministic (Chart.treeShaped_drawn _ _) hids hends hnames horders hrun hev
  exact ⟨lines, hrun, hev, (hdet (some "start")).2 rfl, (hdet (some "3")).1⟩

/-- An identifier that ends the quotation in a path, goes up and starts another. -/
def detour : String := "1\"]/../state[@SSID=\"1"

/-- Two states with a transition from each to itself. -/
def mirror : Xml.Place :=
  Chart.drawn "mirror" [
    .state "1" "Left" [],
    .state detour "Right" [],
    .transition "11" none "1" "" "1",
    .transition "12" (some "1") "1" "" "1",
    .transition "13" (some detour) detour "" "1"]

/-- The state on the right is looked up and the one on the left is found, so both transitions leave
it, and no order ranks them. -/
theorem mirror_not_deterministic :
    Chart.TreeShaped mirror ∧ Chart.Identified (Chart.ofPlace mirror) (Chart.baseOf mirror) ∧
      (∀ s ∈ (Chart.ofPlace mirror).states,
        s.item.ssid ≠ some "start" ∧ s.item.ssid ≠ some "error") ∧
      (Chart.ofPlace mirror).transitions.Pairwise Planar.OrderedApart ∧
      ∃ lines, Runs (Planar.flatten (Chart.ofPlace mirror)) .initial
          (Planar.planarOf (Chart.ofPlace mirror)) lines ∧
        Evaluates (fun _ => false) (Planar.planarOf (Chart.ofPlace mirror)).transitions ∧
        (enabledFrom (fun _ => false) (Planar.planarOf (Chart.ofPlace mirror))
          (some "1")).length = 2 := by
  have hchart : Chart.Identified (Chart.ofPlace mirror) (Chart.baseOf mirror) ∧
      (∀ s ∈ (Chart.ofPlace mirror).states,
        s.item.ssid ≠ some "start" ∧ s.item.ssid ≠ some "error") ∧
      (Chart.ofPlace mirror).transitions.Pairwise Planar.OrderedApart := by
    decide +kernel
  have hplanar : ((Planar.flatten (Chart.ofPlace mirror)).run.run .initial).1.isOk = true ∧
      Evaluates (fun _ => false) (Planar.planarOf (Chart.ofPlace mirror)).transitions ∧
      (enabledFrom (fun _ => false) (Planar.planarOf (Chart.ofPlace mirror))
        (some "1")).length = 2 := by
    decide +kernel
  obtain ⟨lines, hrun⟩ := Planar.runs_planarOf (Chart.ofPlace mirror) hplanar.1
  exact ⟨Chart.treeShaped_drawn _ _, hchart.1, hchart.2.1, hchart.2.2, lines, hrun, hplanar.2⟩

end Statechart.Dve
