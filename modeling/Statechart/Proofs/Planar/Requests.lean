import Statechart.Proofs.Label.Ownership
import Statechart.Proofs.Planar.Leaves

/-!
The labels that flattening asks for. Every function that works on the labels of a chart asks for
some of them, and which ones is fixed by the chart. So is what flattening asks for as a whole
(`requests`), and with it which variables of labels the planar chart has (`flatten_tracks`).
-/

namespace Statechart.Planar

open Chart (State Transition Container Placed)
open Chart (IsPlain Holds)
open Label (Cache Owner Tracks)
open Xml (Place)

/-! ## Requests -/

/-- A leaf state asks for its label and those of the states around it. -/
def leafRequests (s : Placed State) : List Owner :=
  (s.item.ssid :: enclosingStates s.around).map .state

mutual

/-- The ways out of a state ask for the labels of the states in it. -/
def exitRequests : State → List Owner
  | .mk _ composite _ substates => if composite then exitRequestsOf substates else []

def exitRequestsOf : List State → List Owner
  | [] => []
  | s :: ss => .state s.ssid :: (exitRequests s ++ exitRequestsOf ss)

end

/-- A default transition that is tried, taken or not. -/
def defaultRequests (t : Transition) : List Owner := [.transition t.ssid, .state t.destination]

def Way.requests (w : Way) : List Owner := w.defaults.flatMap defaultRequests

def entryRequests (s : State) : List Owner := ((ways s).getD []).flatMap Way.requests

/-- The source of a transition and the states around it. -/
def sourceRequests (chart : Chart) (t : Transition) : List Owner :=
  if isInitial t then []
  else .state (some (sourceKey t)) ::
    (stateOf chart (some (sourceKey t))).toList.flatMap fun s =>
      (enclosingStates s.around).map .state

/-- The states in the source of a transition. -/
def leavesRequests (chart : Chart) (t : Transition) : List Owner :=
  if isInitial t then []
  else (stateOf chart (some (sourceKey t))).toList.flatMap fun s => exitRequests s.item

/-- The states that are entered from `parent` on, and the default transitions below. -/
def destinationRequests (chart : Chart) (parent : Option String) (t : Transition) : List Owner :=
  (stateOf chart t.destination).toList.flatMap fun s =>
    (entered parent t.destination s.around).map .state ++ entryRequests s.item

def transitionRequests (chart : Chart) (t : Placed Transition) : List Owner :=
  .transition t.item.ssid ::
    if isNestedDefault t then []
    else sourceRequests chart t.item ++ leavesRequests chart t.item ++
      t.around.head?.toList.flatMap fun parent => destinationRequests chart parent.ssid t.item

/-- The labels that flattening a chart asks for. -/
def requests (chart : Chart) : List Owner :=
  (chart.states.filter (!·.item.isComposite)).flatMap leafRequests ++
    chart.transitions.flatMap (transitionRequests chart)

/-! ## Steps -/

section

variable {chart : Chart} {asked : List Owner} {c c' : Cache}

theorem tracks_climb (hdec : chart.DecimalLabels) {ssid : Option String}
    (around : List Container) (hplain : ∀ k ∈ enclosingStates around, IsPlain k)
    {name longName : String} (h : Tracks chart asked c) (hmem : .state ssid ∈ asked)
    (hrun : Runs (climb chart ssid around name) c longName c') :
    Tracks chart (asked ++ (enclosingStates around).map .state) c' := by
  induction around generalizing name c asked with
  | nil =>
    rw [climb] at hrun
    exact absurd hrun not_runs_throw
  | cons k around ih =>
    obtain ⟨kind, outer⟩ := k
    by_cases hk : kind = .state
    · subst hk
      rw [climb] at hrun
      obtain ⟨l, c₁, hl, hrun⟩ := runs_bind.mp hrun
      obtain ⟨own, c₂, ho, hrun⟩ := runs_bind.mp hrun
      obtain ⟨u, c₃, hset, hrun⟩ := runs_bind.mp hrun
      have hmem' : .state ssid ∈ asked ++ [.state outer] := List.mem_append_left _ hmem
      have hself : IsPlain ssid := h.plain (.state ssid) hmem
      obtain ⟨houter, haround⟩ := List.forall_mem_cons.mp hplain
      have h₂ := ((h.state hdec houter hl).state hdec hself ho).again hmem'
      simpa using ih haround (h₂.setState hmem' hset) hmem' hrun
    · rw [climb_of_ne hk] at hrun
      obtain ⟨-, rfl⟩ := runs_pure.mp hrun
      simpa [enclosingStates_of_ne (k := ⟨kind, outer⟩) hk] using h

theorem tracks_leafState (hdec : chart.DecimalLabels) {s : Placed State} {ps : PlanarState}
    (hself : IsPlain s.item.ssid) (haround : ∀ k ∈ enclosingStates s.around, IsPlain k)
    (h : Tracks chart asked c) (hrun : Runs (leafState chart s) c ps c') :
    Tracks chart (asked ++ leafRequests s) c' := by
  unfold leafState at hrun
  obtain ⟨l, c₁, hl, hrun⟩ := runs_bind.mp hrun
  obtain ⟨longName, c₂, hclimb, hrun⟩ := runs_bind.mp hrun
  obtain ⟨own, c₃, ho, hrun⟩ := runs_bind.mp hrun
  obtain ⟨-, rfl⟩ := runs_pure.mp hrun
  have h₂ := tracks_climb hdec s.around haround (h.state hdec hself hl) (by simp) hclimb
  simpa [leafRequests] using (h₂.state hdec hself ho).again (by simp)

theorem tracks_leaving (hdec : chart.DecimalLabels) {parent : Option String}
    (around : List Container) (hplain : ∀ k ∈ enclosingStates around, IsPlain k)
    {exiting : Bool} {during exited : List String} {r : List String × List String}
    (h : Tracks chart asked c)
    (hrun : Runs (leaving chart parent around exiting during exited) c r c') :
    Tracks chart (asked ++ (enclosingStates around).map .state) c' := by
  induction around generalizing exiting during exited c asked with
  | nil =>
    rw [leaving] at hrun
    exact absurd hrun not_runs_throw
  | cons k around ih =>
    obtain ⟨kind, ssid⟩ := k
    by_cases hk : kind = .state
    · subst hk
      rw [leaving] at hrun
      obtain ⟨l, c₁, hl, hrun⟩ := runs_bind.mp hrun
      obtain ⟨hself, haround⟩ := List.forall_mem_cons.mp hplain
      simpa using ih haround (h.state hdec hself hl) hrun
    · rw [leaving_of_ne hk] at hrun
      obtain ⟨-, rfl⟩ := runs_pure.mp hrun
      simpa [enclosingStates_of_ne (k := ⟨kind, ssid⟩) hk] using h

theorem tracks_arriving (hdec : chart.DecimalLabels) {parent : Option String}
    (around : List Container) (hplain : ∀ k ∈ enclosingStates around, IsPlain k)
    {entering r : List String} (h : Tracks chart asked c)
    (hrun : Runs (arriving chart parent around entering) c r c') :
    Tracks chart (asked ++ (upTo parent around).map .state) c' := by
  induction around generalizing entering c asked with
  | nil =>
    rw [arriving] at hrun
    exact absurd hrun not_runs_throw
  | cons k around ih =>
    obtain ⟨kind, ssid⟩ := k
    by_cases hk : kind = .state
    · subst hk
      rw [arriving] at hrun
      by_cases he : ssid = parent
      · simp only [he, beq_self_eq_true, if_true] at hrun
        obtain ⟨-, rfl⟩ := runs_pure.mp hrun
        simpa [upTo, he] using h
      · simp only [beq_iff_eq, he, if_false] at hrun
        obtain ⟨l, c₁, hl, hrun⟩ := runs_bind.mp hrun
        obtain ⟨hself, haround⟩ := List.forall_mem_cons.mp hplain
        have hcons : upTo parent (⟨.state, ssid⟩ :: around) = ssid :: upTo parent around := by
          simp [upTo, he]
        simpa [hcons] using ih haround (h.state hdec hself hl) hrun
    · rw [arriving_of_ne hk] at hrun
      obtain ⟨-, rfl⟩ := runs_pure.mp hrun
      simpa [upTo, enclosingStates_of_ne (k := ⟨kind, ssid⟩) hk] using h

/-! ## Ways out and ways in -/

theorem tracks_exitPathsOf (hdec : chart.DecimalLabels) (ss : List State)
    (hplain : ∀ s ∈ ss, IsPlain s.ssid)
    (ih : ∀ s ∈ ss, ∀ {later paths asked} {c c' : Cache}, Tracks chart asked c →
      Runs (exitPaths chart s later) c paths c' → Tracks chart (asked ++ exitRequests s) c')
    {later : List String} {paths : List (Option String × List String)} (h : Tracks chart asked c)
    (hrun : Runs (exitPathsOf chart ss later) c paths c') :
    Tracks chart (asked ++ exitRequestsOf ss) c' := by
  induction ss generalizing paths c asked with
  | nil =>
    rw [exitPathsOf] at hrun
    obtain ⟨-, rfl⟩ := runs_pure.mp hrun
    simpa [exitRequestsOf] using h
  | cons s ss ihs =>
    rw [exitPathsOf] at hrun
    obtain ⟨l, c₁, hl, hrun⟩ := runs_bind.mp hrun
    obtain ⟨first, c₂, hfirst, hrun⟩ := runs_bind.mp hrun
    obtain ⟨rest, c₃, hrest, hrun⟩ := runs_bind.mp hrun
    obtain ⟨-, rfl⟩ := runs_pure.mp hrun
    obtain ⟨hself, hothers⟩ := List.forall_mem_cons.mp hplain
    have h₂ := ih s (List.mem_cons_self ..) (h.state hdec hself hl) hfirst
    simpa [exitRequestsOf] using ihs hothers (fun s hs => ih s (List.mem_cons_of_mem _ hs)) h₂ hrest

theorem tracks_exitPaths (hdec : chart.DecimalLabels) (hplain : chart.Plain) (s : State)
    (hs : chart.Holds s) {later : List String}
    {paths : List (Option String × List String)} (h : Tracks chart asked c)
    (hrun : Runs (exitPaths chart s later) c paths c') :
    Tracks chart (asked ++ exitRequests s) c' := by
  induction s using State.induction generalizing later paths asked c c' with
  | mk ssid composite defaults substates ih =>
    rw [exitPaths] at hrun
    cases composite with
    | false =>
      simp only [Bool.false_eq_true, if_false] at hrun
      obtain ⟨-, rfl⟩ := runs_pure.mp hrun
      simpa [exitRequests] using h
    | true =>
      simp only [if_true] at hrun
      simpa [exitRequests] using tracks_exitPathsOf hdec substates
        (fun s hmem => hplain.isPlain_of_holds (hs.substate hmem))
        (fun s hmem => ih s hmem (hs.substate hmem)) h hrun

/-- Whoever enters by `enter` asks for the labels that are needed on the ways into `s`. -/
def AsksAlong (chart : Chart) (s : State) (enter : Entering) : Prop :=
  ∀ {conditions actions : List String} {paths : List EntryPath} {asked : List Owner}
    {c c' : Cache}, Tracks chart asked c → Runs (enter conditions actions) c paths c' →
    (ways s).isSome ∧ Tracks chart (asked ++ entryRequests s) c'

/-- Some way on refuses all that are refused already. -/
theorem waysVia_refuses {ss : List State} {ssid : Option String} (ts refused : List Transition)
    {ws : List Way} (h : waysVia (waysOf ss) ssid refused ts = some ws) :
    ∃ w ∈ ws, refused ⊆ w.defaults := by
  induction ts generalizing refused ws with
  | nil =>
    rw [waysVia, Option.some.injEq] at h
    subst h
    exact ⟨_, List.mem_singleton.mpr rfl, by simp [Way.defaults]⟩
  | cons t ts ih =>
    obtain ⟨s, below, others, -, -, ho, rfl⟩ := waysVia_cons.mp h
    obtain ⟨w, hw, hsub⟩ := ih _ ho
    exact ⟨w, List.mem_append_right _ hw, (List.append_subset.mp hsub).1⟩

/-- Ways through a default transition ask for its labels, and so do the ways around it. -/
theorem mem_requests_waysVia {ss : List State} {ssid : Option String}
    {refused : List Transition} {t : Transition} {ts : List Transition} {below others : List Way}
    (ho : waysVia (waysOf ss) ssid (refused ++ [t]) ts = some others) (o : Owner) :
    o ∈ (below.map (fun w : Way => (⟨w.target, ⟨ssid, refused, some t⟩ :: w.choices⟩ : Way)) ++
        others).flatMap Way.requests ↔
      o ∈ (refused ++ [t]).flatMap defaultRequests ∨ o ∈ below.flatMap Way.requests ∨
        o ∈ others.flatMap Way.requests := by
  obtain ⟨w, hw, hsub⟩ := waysVia_refuses ts _ ho
  have hthrough : ∀ w' : Way,
      Way.requests ⟨w'.target, ⟨ssid, refused, some t⟩ :: w'.choices⟩ =
        (refused ++ [t]).flatMap defaultRequests ++ w'.requests := by
    intro w'
    simp [Way.requests, Way.defaults]
  rw [List.flatMap_append, List.mem_append, List.flatMap_map]
  simp only [hthrough, List.mem_flatMap (l := below), List.mem_append]
  constructor
  · rintro (⟨w', hw', ho | ho⟩ | ho)
    · exact .inl ho
    · exact .inr (.inl ⟨w', hw', ho⟩)
    · exact .inr (.inr ho)
  · rintro (ho | ⟨w', hw', ho⟩ | ho)
    · obtain ⟨u, hu, ho⟩ := List.mem_flatMap.mp ho
      exact .inr (List.mem_flatMap_of_mem hw (List.mem_flatMap_of_mem (hsub hu) ho))
    · exact .inl ⟨w', hw', .inr ho⟩
    · exact .inr ho

theorem tracks_tryDefaults (hdec : chart.DecimalLabels) {ss : List State} (ssid : Option String)
    {inside : Option String → Except Fault (Option Entering)} {conditions actions : List String}
    (ts refused : List Transition)
    (hplain : ∀ t ∈ ts, IsPlain t.ssid ∧ IsPlain t.destination)
    (hinside : ∀ t ∈ ts, ∀ enter, inside t.destination = .ok (some enter) →
      ∃ s, ss.find? (·.ssid == some (worded t.destination)) = some s ∧ AsksAlong chart s enter)
    {excluded : List String} {paths : List EntryPath} (h : Tracks chart asked c)
    (hasked : refused.flatMap defaultRequests ⊆ asked)
    (hrun : Runs (tryDefaults chart inside conditions actions excluded ts) c paths c') :
    ∃ ws, waysVia (waysOf ss) ssid refused ts = some ws ∧
      Tracks chart (asked ++ ws.flatMap Way.requests) c' := by
  induction ts generalizing refused excluded paths c asked with
  | nil =>
    rw [tryDefaults] at hrun
    obtain ⟨-, rfl⟩ := runs_pure.mp hrun
    refine ⟨_, rfl, h.congr fun o => ?_⟩
    have hrefused : o ∈ refused.flatMap defaultRequests → o ∈ asked := (hasked ·)
    simpa [Way.requests, Way.defaults] using hrefused
  | cons t ts iht =>
    obtain ⟨enter, l, d, below, others, c₁, c₂, c₃, henter, hl, hd, hb, ho, rfl⟩ :=
      runs_tryDefaults_cons.mp hrun
    obtain ⟨⟨hself, hdest⟩, hplain⟩ := List.forall_mem_cons.mp hplain
    obtain ⟨s, hf, hs⟩ := hinside t (List.mem_cons_self ..) enter henter
    obtain ⟨hsome, h₃⟩ := hs ((h.transition hdec hself hl).state hdec hdest hd) hb
    obtain ⟨ws, hws⟩ := Option.isSome_iff_exists.mp hsome
    rw [entryRequests, hws, Option.getD_some] at h₃
    have hasked' : (refused ++ [t]).flatMap defaultRequests ⊆
        asked ++ [.transition t.ssid] ++ [.state t.destination] ++ ws.flatMap Way.requests := by
      rw [List.flatMap_append]
      refine List.append_subset.mpr ⟨fun o ho => ?_, fun o ho => ?_⟩
      · exact List.mem_append_left _ (by simp [hasked ho])
      · rw [List.flatMap_singleton] at ho
        refine List.mem_append_left _ ?_
        rw [List.append_assoc]
        exact List.mem_append_right _ ho
    obtain ⟨ws', hws', h₄⟩ := iht (refused ++ [t]) hplain
      (fun u hu => hinside u (List.mem_cons_of_mem _ hu)) h₃ hasked' ho
    have hways := waysVia_cons.mpr ⟨s, ws, ws', hf, hws, hws', rfl⟩
    refine ⟨_, hways, h₄.congr fun o => ?_⟩
    have hrefused : o ∈ refused.flatMap defaultRequests → o ∈ asked := (hasked ·)
    refine .trans ?_ (List.mem_append.trans (or_congr_right (mem_requests_waysVia hws' o))).symm
    simp only [List.mem_append, List.flatMap_append, List.flatMap_singleton, defaultRequests,
      List.mem_cons, List.not_mem_nil, or_false] at hrefused ⊢
    grind

theorem tracks_entryPaths (hdec : chart.DecimalLabels) (hplain : chart.Plain) (depth : Nat)
    {q : Place} (hq : q ∈ chart.place.descendants "state") :
    AsksAlong chart (State.ofNode q.node) (entryPaths chart depth q) := by
  induction depth generalizing q with
  | zero => exact fun _ hrun => absurd hrun not_runs_entryPaths_zero
  | succ depth ih =>
    intro conditions actions paths asked c c' h hrun
    rw [entryRequests, ways_eq]
    rcases runs_entryPaths_succ.mp hrun with ⟨hleaf, -, rfl⟩ | ⟨hcomposite, ts, hts, hrun⟩
    · rw [if_neg (by simp [hleaf])]
      exact ⟨rfl, by simpa [Way.requests, Way.defaults] using h⟩
    · have htried : ∀ t ∈ ts, IsPlain t.ssid ∧ IsPlain t.destination := fun t ht =>
        ⟨isPlain_ssid_of_sortByOrder hplain hq hts ht,
          isPlain_of_sortByOrder hplain.ends hq hts ht⟩
      have hinside : ∀ t ∈ ts, ∀ enter,
          enterSubstate (entryPaths chart depth) q t.destination = .ok (some enter) →
          ∃ s, (State.ofNode q.node).substates.find? (·.ssid == some (worded t.destination)) =
            some s ∧ AsksAlong chart s enter := by
        intro t ht enter henter
        obtain ⟨r, hr, rfl⟩ := enterSubstate_eq_some.mp henter
        obtain ⟨hmem, hfound⟩ := Chart.substate?_eq_some (htried t ht).2 hr
        exact ⟨_, hfound, ih (Chart.mem_descendants_of_path hq hmem)⟩
      obtain ⟨ws, hws, h'⟩ := tracks_tryDefaults hdec (State.ofNode q.node).ssid ts [] htried
        hinside h (by simp) hrun
      rw [if_pos hcomposite, hts]
      simp only [Except.toOption, Option.bind_some, hws, Option.getD_some, Option.isSome_some,
        true_and]
      exact h'

/-! ## Transitions -/

/-- The states around a state of the chart have plain identifiers. -/
def PlainAround (chart : Chart) : Prop :=
  ∀ s ∈ chart.states, ∀ k ∈ enclosingStates s.around, IsPlain k

instance (chart : Chart) : Decidable (PlainAround chart) :=
  inferInstanceAs (Decidable (∀ s ∈ chart.states, ∀ k ∈ enclosingStates s.around, IsPlain k))

theorem plainAround_of_plain {base : List Container} (h : Chart.Hierarchical chart base)
    (hplain : chart.Plain) : PlainAround chart := by
  intro s hs k hk
  obtain ⟨q, hq, -, rfl⟩ := enclosing_composite h hs k hk
  exact hplain.states q hq

theorem tracks_widenBySource (hdec : chart.DecimalLabels) (haround : PlainAround chart)
    {t : Transition} (hplain : IsPlain t.source) {parent : Option String} {u : Unit}
    (h : Tracks chart asked c) (hmem : .transition t.ssid ∈ asked)
    (hrun : Runs (widenBySource chart t parent) c u c') :
    Tracks chart (asked ++ sourceRequests chart t) c' := by
  unfold widenBySource at hrun
  cases hinitial : isInitial t with
  | true =>
    simp only [hinitial, if_true] at hrun
    obtain ⟨-, rfl⟩ := runs_pure.mp hrun
    simpa [sourceRequests, hinitial] using h
  | false =>
    simp only [hinitial, Bool.false_eq_true, if_false] at hrun
    obtain ⟨l, c₁, hl, hrun⟩ := runs_bind.mp hrun
    obtain ⟨s, c₂, hs, hrun⟩ := runs_bind.mp hrun
    have hkey := isPlain_sourceKey hplain
    obtain ⟨hstate, rfl⟩ := runs_stateAt hkey hs
    obtain ⟨r, c₃, hleave, hrun⟩ := runs_bind.mp hrun
    obtain ⟨own, c₄, ho, hrun⟩ := runs_bind.mp hrun
    have h₃ := tracks_leaving hdec s.around (haround s (List.mem_of_find?_eq_some hstate))
      (h.state hdec hkey hl) hleave
    have hself : IsPlain t.ssid := h.plain (.transition t.ssid) hmem
    have h₄ := (h₃.transition hdec hself ho).again (by simp [hmem])
    simpa [sourceRequests, hinitial, hstate] using h₄.setTransition (by simp [hmem]) hrun

theorem tracks_widenByDestination (hdec : chart.DecimalLabels) (haround : PlainAround chart)
    {t : Transition} (hplain : IsPlain t.destination) {parent : Option String} {u : Unit}
    (h : Tracks chart asked c) (hmem : .transition t.ssid ∈ asked)
    (hrun : Runs (widenByDestination chart t parent) c u c') :
    ∃ d, stateOf chart t.destination = some d ∧
      Tracks chart (asked ++ (entered parent t.destination d.around).map .state) c' := by
  unfold widenByDestination at hrun
  obtain ⟨own, c₁, ho, hrun⟩ := runs_bind.mp hrun
  obtain ⟨d, c₂, hd, hrun⟩ := runs_bind.mp hrun
  obtain ⟨hstate, rfl⟩ := runs_stateAt hplain hd
  obtain ⟨entering, c₂, he, hrun⟩ := runs_bind.mp hrun
  obtain ⟨l, c₃, hl, hrun⟩ := runs_bind.mp hrun
  have h₁ : Tracks chart (asked ++
      (if t.destination == parent then [] else [t.destination]).map .state) c₁ := by
    unfold ownEntries at ho
    cases hp : t.destination == parent with
    | true =>
      simp only [hp, if_true] at ho
      obtain ⟨-, rfl⟩ := runs_pure.mp ho
      simpa using h
    | false =>
      simp only [hp, Bool.false_eq_true, if_false] at ho
      obtain ⟨l, hl, -⟩ := runs_map.mp ho
      simpa using h.state hdec hplain hl
  have h₂ := tracks_arriving hdec d.around (haround d (List.mem_of_find?_eq_some hstate)) h₁ he
  have hself : IsPlain t.ssid := h.plain (.transition t.ssid) hmem
  have h₃ := (h₂.transition hdec hself hl).again (by simp [hmem])
  refine ⟨d, hstate, ?_⟩
  simpa [entered] using h₃.setTransition (by simp [hmem]) hrun

theorem tracks_leavesFrom (hdec : chart.DecimalLabels) (hplain : chart.Plain) {t : Transition}
    (hsource : IsPlain t.source) {leaves : List (Option String × List String)}
    (h : Tracks chart asked c)
    (hrun : Runs (leavesFrom chart t) c leaves c') :
    Tracks chart (asked ++ leavesRequests chart t) c' := by
  unfold leavesFrom at hrun
  cases hinitial : isInitial t with
  | true =>
    simp only [hinitial, if_true] at hrun
    obtain ⟨-, rfl⟩ := runs_pure.mp hrun
    simpa [leavesRequests, hinitial] using h
  | false =>
    simp only [hinitial, Bool.false_eq_true, if_false] at hrun
    obtain ⟨s, c₁, hs, hrun⟩ := runs_bind.mp hrun
    obtain ⟨hstate, rfl⟩ := runs_stateAt (isPlain_sourceKey hsource) hs
    have hholds : chart.Holds s.item := ⟨s, List.mem_of_find?_eq_some hstate, rfl⟩
    simpa [leavesRequests, hinitial, hstate] using
      tracks_exitPaths hdec hplain s.item hholds h hrun

/-- One transition. -/
theorem tracks_planarTransitions (hdec : chart.DecimalLabels) (hplain : chart.Plain)
    (haround : PlainAround chart) {t : Placed Transition} (ht : t ∈ chart.transitions)
    {block : List PlanarTransition} (h : Tracks chart asked c)
    (hrun : Runs (planarTransitions chart t) c block c') :
    Tracks chart (asked ++ transitionRequests chart t) c' := by
  unfold planarTransitions at hrun
  obtain ⟨own, c₁, hl, hrun⟩ := runs_bind.mp hrun
  have hself := hplain.transitions t ht
  obtain ⟨hsrc, hdst⟩ := hplain.ends t ht
  have h₁ := h.transition hdec hself hl
  cases hparent : t.around.head? with
  | none =>
    simp only [hparent] at hrun
    exact absurd hrun not_runs_throw
  | some parent =>
    simp only [hparent] at hrun
    have hnested : isNestedDefault t = (isInitial t.item && parent.kind != .chart) := by
      simp [isNestedDefault, hparent]
    rw [← hnested] at hrun
    cases hn : isNestedDefault t with
    | true =>
      simp only [hn, if_true] at hrun
      obtain ⟨-, rfl⟩ := runs_pure.mp hrun
      simpa [transitionRequests, hn] using h₁
    | false =>
      simp only [hn, Bool.false_eq_true, if_false] at hrun
      obtain ⟨u, c₂, hsource, hrun⟩ := runs_bind.mp hrun
      obtain ⟨u', c₃, hdest, hrun⟩ := runs_bind.mp hrun
      obtain ⟨leaves, c₄, hout, hrun⟩ := runs_bind.mp hrun
      obtain ⟨l, c₅, hown, hrun⟩ := runs_bind.mp hrun
      obtain ⟨goal', c₆, hgoal', hrun⟩ := runs_bind.mp hrun
      obtain ⟨hfound, rfl⟩ := runs_placeAt hgoal'
      obtain ⟨paths, c₆, hpaths, hrun⟩ := runs_bind.mp hrun
      obtain ⟨level, c₇, hlevel, hrun⟩ := runs_bind.mp hrun
      obtain ⟨rfl, -⟩ := runs_levelFrom hsrc hlevel
      obtain ⟨order, c₇, horder, hrun⟩ := runs_bind.mp hrun
      obtain ⟨-, rfl⟩ := runs_lift.mp horder
      obtain ⟨-, rfl⟩ := runs_pure.mp hrun
      have h₂ := tracks_widenBySource hdec haround hsrc h₁ (by simp) hsource
      obtain ⟨goal, hgoal, h₃⟩ := tracks_widenByDestination hdec haround hdst h₂ (by simp) hdest
      obtain ⟨hq, hsame⟩ := stateOf_of_place? hdst hfound
      have hitem : goal.item = State.ofNode goal'.node :=
        congrArg Placed.item (Option.some.inj (hgoal.symm.trans hsame))
      have h₄ := tracks_leavesFrom hdec hplain hsrc h₃ hout
      have h₅ := (h₄.transition hdec hself hown).again (by simp)
      obtain ⟨-, h₆⟩ := tracks_entryPaths hdec hplain _ hq h₅ hpaths
      rw [← hitem] at h₆
      refine h₆.congr fun o => ?_
      simp only [transitionRequests, hn, hparent, destinationRequests, hgoal, List.mem_append,
        List.mem_cons, Bool.false_eq_true, if_false, Option.toList_some, List.flatMap_singleton,
        List.not_mem_nil, or_false]
      grind

/-! ## The whole chart -/

/-- What is asked for along a list. -/
theorem tracks_mapM {α β : Type} {f : α → Cache.Work β} {g : α → List Owner} (xs : List α)
    (hf : ∀ x ∈ xs, ∀ {asked} {c c' : Cache} {y}, Tracks chart asked c → Runs (f x) c y c' →
      Tracks chart (asked ++ g x) c') {ys : List β} (h : Tracks chart asked c)
    (hrun : Runs (xs.mapM f) c ys c') : Tracks chart (asked ++ xs.flatMap g) c' := by
  induction xs generalizing asked c ys with
  | nil =>
    rw [List.mapM_nil] at hrun
    obtain ⟨-, rfl⟩ := runs_pure.mp hrun
    simpa using h
  | cons x xs ih =>
    obtain ⟨y, c₁, zs, hy, hz, -⟩ := runs_mapM_cons.mp hrun
    have h₁ := hf x (List.mem_cons_self ..) h hy
    simpa using ih (fun x hx => hf x (List.mem_cons_of_mem _ hx)) h₁ hz

/-- The variables of a flattened chart are those of its data and those of the labels that were
asked for. -/
theorem flatten_tracks (hdec : chart.DecimalLabels) (hplain : chart.Plain)
    (haround : PlainAround chart) {lines lines' : Lines} {planar : PlanarChart}
    (hrun : Runs (flatten chart) lines planar lines') :
    ∃ (data : Variables) (c : Cache), dataVariables chart.data = .ok data ∧
      planar.vars = data.merge c.vars ∧ Tracks chart (requests chart) c := by
  obtain ⟨c', hwork⟩ := runs_flattening hrun
  unfold flattening at hwork
  obtain ⟨states, c₁, hstates, hwork⟩ := runs_bind.mp hwork
  obtain ⟨blocks, c₂, hblocks, hwork⟩ := runs_bind.mp hwork
  obtain ⟨data, c₃, hdata, hwork⟩ := runs_bind.mp hwork
  obtain ⟨hvars, rfl⟩ := runs_lift.mp hdata
  obtain ⟨cache, c₄, hget, hwork⟩ := runs_bind.mp hwork
  obtain ⟨rfl, rfl⟩ := runs_get.mp hget
  obtain ⟨rfl, -⟩ := runs_pure.mp hwork
  unfold planarStates at hstates
  obtain ⟨leaves, c₄, hleaves, hstates⟩ := runs_bind.mp hstates
  obtain ⟨-, rfl⟩ := runs_pure.mp hstates
  have hstates := tracks_mapM (g := leafRequests) _ (fun s hs asked c c' y h hrun => by
    obtain ⟨ps, c₅, hps, hrun⟩ := runs_bind.mp hrun
    obtain ⟨-, rfl⟩ := runs_pure.mp hrun
    have hs := List.mem_of_mem_filter hs
    exact tracks_leafState hdec (hplain.states s hs) (haround s hs) h hps)
    (Label.tracks_fresh chart lines) hleaves
  have hall := tracks_mapM (g := transitionRequests chart) _
    (fun t ht _ _ _ _ h hrun => tracks_planarTransitions hdec hplain haround ht h hrun) hstates
    hblocks
  exact ⟨data, c₂, hvars, rfl, hall⟩

end

end Statechart.Planar
