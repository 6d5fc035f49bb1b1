import Statechart.Planar.Flatten
import Statechart.Proofs.Chart.Shape
import Statechart.Proofs.Label.View

/-!
The ways into a state and out of it. A way in is a list of choices, one for each composite
state on it: default transitions are refused until one is taken, or all are refused and the way
ends in `error`. Which ways there are does not depend on labels; labels only say what a way
takes and what it does. Flattening finds exactly these (`runs_entryPaths`, `runs_exitPaths`).
-/

namespace Statechart.Planar

open Chart (State Transition Container Placed)
open Label (View Cache)
open Label.Cache (Kept Looked)
open Xml (Place)

/-! ## Actions of several states, which are given innermost first -/

def durings (v : View) (ks : List (Option String)) : List String :=
  ks.reverse.flatMap fun k => (v.state k).during

def exits (v : View) (ks : List (Option String)) : List String :=
  ks.flatMap fun k => (v.state k).exit

def entries (v : View) (ks : List (Option String)) : List String :=
  ks.reverse.flatMap fun k => (v.state k).entry

/-- The labels of states can be read. -/
def AllReadable (chart : Chart) (ks : List (Option String)) : Prop :=
  ∀ k ∈ ks, (chart.stateLabel? k).isSome

theorem AllReadable.cons {chart : Chart} {k : Option String} {ks : List (Option String)}
    (hk : (chart.stateLabel? k).isSome) (hks : AllReadable chart ks) :
    AllReadable chart (k :: ks) := by
  intro j hj
  rcases List.mem_cons.mp hj with rfl | hj
  · exact hk
  · exact hks j hj

/-! ## Ways in -/

/-- What happens in a composite state that is entered. -/
structure Choice where
  state : Option String
  /-- The default transitions that are not taken, in the order in which they are tried. -/
  refused : List Transition
  taken : Option Transition

structure Way where
  target : Option String
  /-- From the outermost composite state inwards. -/
  choices : List Choice

/-- The condition of a transition, if it has one. -/
def conditionOf (v : View) (t : Transition) : List String :=
  if (v.transition t.ssid).condition == "" then [] else [(v.transition t.ssid).condition]

def refusal (v : View) (t : Transition) : String := negate [(v.transition t.ssid).condition]

/-- What a default transition does up to the entry of its destination. -/
def defaultActions (v : View) (t : Transition) : List String :=
  (v.transition t.ssid).conditionActions ++ (v.transition t.ssid).transitionActions ++
    (v.state t.destination).entry

def Choice.conditions (v : View) (x : Choice) : List String :=
  x.refused.map (refusal v) ++ x.taken.toList.flatMap (conditionOf v)

def Choice.actions (v : View) (x : Choice) : List String :=
  x.taken.toList.flatMap (defaultActions v)

def Way.conditions (v : View) (w : Way) : List String := w.choices.flatMap (·.conditions v)

def Way.actions (v : View) (w : Way) : List String := w.choices.flatMap (·.actions v)

/-- The path of a way, behind conditions and actions that come first. -/
def Way.path (v : View) (conditions actions : List String) (w : Way) : EntryPath :=
  ⟨w.target, conditions ++ w.conditions v, actions ++ w.actions v⟩

/-- The ways on from a composite state in which some default transitions are refused already. -/
def waysVia (substates : List (Option String × Option (List Way))) (ssid : Option String) :
    List Transition → List Transition → Option (List Way)
  | refused, [] => some [⟨some "error", [⟨ssid, refused, none⟩]⟩]
  | refused, t :: ts => do
    let (_, below?) ← substates.find? (·.1 == some (worded t.destination))
    let below ← below?
    let others ← waysVia substates ssid (refused ++ [t]) ts
    return below.map (fun w => ⟨w.target, ⟨ssid, refused, some t⟩ :: w.choices⟩) ++ others

mutual

/-- The ways into a state. -/
def ways : State → Option (List Way)
  | .mk ssid composite defaults substates =>
    if composite then (sortByOrder defaults).toOption.bind (waysVia (waysOf substates) ssid [])
    else some [⟨ssid, []⟩]

def waysOf : List State → List (Option String × Option (List Way))
  | [] => []
  | s :: ss => (s.ssid, ways s) :: waysOf ss

end

theorem waysOf_eq_map (ss : List State) : waysOf ss = ss.map fun s => (s.ssid, ways s) := by
  induction ss with
  | nil => rfl
  | cons s ss ih => rw [waysOf, List.map_cons, ih]

/-- A way on through the default transition `t`, or around it. -/
theorem waysVia_cons {ss : List State} {ssid : Option String} {refused : List Transition}
    {t : Transition} {ts : List Transition} {ws : List Way} :
    waysVia (waysOf ss) ssid refused (t :: ts) = some ws ↔
      ∃ s below others, ss.find? (·.ssid == some (worded t.destination)) = some s ∧
        ways s = some below ∧ waysVia (waysOf ss) ssid (refused ++ [t]) ts = some others ∧
        ws = below.map (fun w => ⟨w.target, ⟨ssid, refused, some t⟩ :: w.choices⟩) ++ others := by
  rw [waysVia, waysOf_eq_map, List.find?_map, ← waysOf_eq_map]
  simp only [Function.comp_def, Option.bind_eq_bind, Option.bind_eq_some_iff,
    Option.map_eq_some_iff, Option.pure_def, Option.some.injEq]
  constructor
  · rintro ⟨_, ⟨s, hs, rfl⟩, below, hb, others, ho, rfl⟩
    exact ⟨s, below, others, hs, hb, ho, rfl⟩
  · rintro ⟨s, below, others, hs, hb, ho, rfl⟩
    exact ⟨_, ⟨s, hs, rfl⟩, below, hb, others, ho, rfl⟩

/-- Every label that a choice looks at can be read. -/
def Choice.Readable (chart : Chart) (x : Choice) : Prop :=
  (∀ t ∈ x.refused ++ x.taken.toList, (chart.transitionLabel? t.ssid).isSome) ∧
    ∀ t ∈ x.taken, (chart.stateLabel? t.destination).isSome

def Way.Readable (chart : Chart) (w : Way) : Prop := ∀ x ∈ w.choices, x.Readable chart

/-! ## Entering -/

/-- To try a default transition is to look up and enter its destination and then to try the
others. -/
theorem runs_tryDefaults_cons {chart : Chart}
    {inside : Option String → Except Fault (Option Entering)}
    {conditions actions excluded : List String} {t : Transition} {ts : List Transition}
    {paths : List EntryPath} {c c' : Cache} :
    Runs (tryDefaults chart inside conditions actions excluded (t :: ts)) c paths c' ↔
      ∃ enter l d below others c₁ c₂ c₃, inside t.destination = .ok (some enter) ∧
        Runs (Cache.transition chart t.ssid) c l c₁ ∧
        Runs (Cache.state chart t.destination) c₁ d c₂ ∧
        Runs (enter (conditions ++ excluded ++ if l.condition == "" then [] else [l.condition])
          (actions ++ l.conditionActions ++ l.transitionActions ++ d.entry)) c₂ below c₃ ∧
        Runs (tryDefaults chart inside conditions actions
          (excluded ++ [negate [l.condition]]) ts) c₃ others c' ∧
        paths = below ++ others := by
  rw [tryDefaults]
  constructor
  · intro h
    obtain ⟨enter?, c₁, hlift, h⟩ := runs_bind.mp h
    obtain ⟨hinside, rfl⟩ := runs_lift.mp hlift
    obtain ⟨l, c₁, hl, h⟩ := runs_bind.mp h
    obtain ⟨d, c₂, hd, h⟩ := runs_bind.mp h
    cases enter? with
    | none => exact absurd h not_runs_throw
    | some enter =>
      obtain ⟨below, c₃, hbelow, h⟩ := runs_bind.mp h
      obtain ⟨others, c₄, hothers, h⟩ := runs_bind.mp h
      obtain ⟨rfl, rfl⟩ := runs_pure.mp h
      exact ⟨enter, l, d, below, others, c₁, c₂, c₃, hinside, hl, hd, hbelow, hothers, rfl⟩
  · rintro ⟨enter, l, d, below, others, c₁, c₂, c₃, hinside, hl, hd, hbelow, hothers, rfl⟩
    refine runs_bind.mpr ⟨some enter, c, runs_lift.mpr ⟨hinside, rfl⟩, ?_⟩
    refine runs_bind.mpr ⟨l, c₁, hl, runs_bind.mpr ⟨d, c₂, hd, ?_⟩⟩
    refine runs_bind.mpr ⟨below, c₃, hbelow, runs_bind.mpr ⟨others, c', hothers, ?_⟩⟩
    exact runs_pure.mpr ⟨rfl, rfl⟩

/-- A leaf is entered at once, and a composite state by its default transitions. -/
theorem runs_entryPaths_succ {chart : Chart} {depth : Nat} {q : Place}
    {conditions actions : List String} {paths : List EntryPath} {c c' : Cache} :
    Runs (entryPaths chart (depth + 1) q conditions actions) c paths c' ↔
      ((State.ofNode q.node).isComposite = false ∧
        paths = [⟨(State.ofNode q.node).ssid, conditions, actions⟩] ∧ c' = c) ∨
      ((State.ofNode q.node).isComposite = true ∧
        ∃ ts, sortByOrder (State.ofNode q.node).defaults = .ok ts ∧
          Runs (tryDefaults chart (enterSubstate (entryPaths chart depth) q) conditions actions []
            ts) c paths c') := by
  rw [entryPaths]
  cases hcomposite : (State.ofNode q.node).isComposite with
  | false =>
    simp only [hcomposite, Bool.false_eq_true, if_false, runs_pure, true_and, false_and, or_false]
    exact and_congr eq_comm eq_comm
  | true =>
    simp only [hcomposite, if_true, Bool.true_eq_false, false_and, false_or, true_and]
    constructor
    · intro h
      obtain ⟨ts, c₁, hlift, h⟩ := runs_bind.mp h
      obtain ⟨hts, rfl⟩ := runs_lift.mp hlift
      exact ⟨ts, hts, h⟩
    · rintro ⟨ts, hts, h⟩
      exact runs_bind.mpr ⟨ts, c, runs_lift.mpr ⟨hts, rfl⟩, h⟩

theorem not_runs_entryPaths_zero {chart : Chart} {q : Place} {conditions actions : List String}
    {paths : List EntryPath} {c c' : Cache} :
    ¬ Runs (entryPaths chart 0 q conditions actions) c paths c' :=
  not_runs_throw

theorem enterSubstate_eq_some {enter : Place → Entering} {q : Place} {ssid : Option String}
    {e : Entering} :
    enterSubstate enter q ssid = .ok (some e) ↔
      ∃ r, Chart.substate? q ssid = .ok (some r) ∧ e = enter r := by
  unfold enterSubstate
  rcases Chart.substate? q ssid with f | found
  · simp [bind, Except.bind]
  · cases found <;> simp [bind, Except.bind, pure, Except.pure, eq_comm]

theorem mem_insertByOrder {t u : String × Transition} {ts : List (String × Transition)}
    (h : u ∈ insertByOrder t ts) : u = t ∨ u ∈ ts := by
  induction ts with
  | nil => exact .inl (List.mem_singleton.mp h)
  | cons x xs ih =>
    rw [insertByOrder] at h
    split at h
    · rcases List.mem_cons.mp h with rfl | h
      · exact .inr (List.mem_cons_self ..)
      · exact (ih h).imp_right (List.mem_cons_of_mem _)
    · exact List.mem_cons.mp h

theorem mem_foldr_insertByOrder {u : String × Transition} {ts : List (String × Transition)}
    (h : u ∈ ts.foldr insertByOrder []) : u ∈ ts := by
  induction ts with
  | nil => cases h
  | cons t ts ih =>
    rcases mem_insertByOrder h with rfl | h
    · exact List.mem_cons_self ..
    · exact List.mem_cons_of_mem _ (ih h)

theorem mem_of_sortByOrder {ts us : List Transition} (h : sortByOrder ts = .ok us)
    {t : Transition} (ht : t ∈ us) : t ∈ ts := by
  unfold sortByOrder at h
  split at h
  · cases h
    exact ht
  · cases h
    exact ht
  · obtain ⟨keyed, hk, h⟩ := bind_eq_ok.mp h
    cases h
    obtain ⟨u, hu, rfl⟩ := List.mem_map.mp ht
    obtain ⟨t', ht', hkey⟩ := mem_of_mapM_eq_ok hk u (mem_foldr_insertByOrder hu)
    split at hkey
    · cases hkey
      exact ht'
    · cases hkey

/-- The default transitions of a state of a chart lead to plain identifiers if all transitions of
the chart do. -/
theorem isPlain_of_sortByOrder {chart : Chart} (hends : chart.PlainEnds) {q : Place}
    (hq : q ∈ chart.place.descendants "state") {ts : List Transition}
    (hts : sortByOrder (State.ofNode q.node).defaults = .ok ts) {t : Transition} (ht : t ∈ ts) :
    Chart.IsPlain t.destination := by
  have hstate := Chart.mem_states_ofPlace.mpr ⟨q, hq, rfl⟩
  exact (hends _ (Chart.mem_transitions_of_mem_defaults hstate (mem_of_sortByOrder hts ht)).2).2

theorem isPlain_ssid_of_sortByOrder {chart : Chart} (hplain : chart.Plain) {q : Place}
    (hq : q ∈ chart.place.descendants "state") {ts : List Transition}
    (hts : sortByOrder (State.ofNode q.node).defaults = .ok ts) {t : Transition} (ht : t ∈ ts) :
    Chart.IsPlain t.ssid := by
  have hstate := Chart.mem_states_ofPlace.mpr ⟨q, hq, rfl⟩
  obtain ⟨-, hmem⟩ := Chart.mem_transitions_of_mem_defaults hstate (mem_of_sortByOrder hts ht)
  have hself := hplain.transitions _ hmem
  exact hself

/-- Whoever enters by `enter` goes along the ways into `s`. -/
def EntersAlong (chart : Chart) (s : State) (enter : Entering) : Prop :=
  ∀ {conditions actions : List String} {paths : List EntryPath} {c c' : Cache}, c.Kept chart →
    Runs (enter conditions actions) c paths c' →
    ∃ ws, ways s = some ws ∧ paths = ws.map (Way.path (c.view chart) conditions actions) ∧
      Looked chart c c' ∧ ∀ w ∈ ws, w.Readable chart

/-- Trying default transitions finds the ways on. -/
theorem runs_tryDefaults {chart : Chart} {ss : List State} (ssid : Option String)
    {inside : Option String → Except Fault (Option Entering)} {conditions actions : List String}
    (ts refused : List Transition)
    (hinside : ∀ t ∈ ts, ∀ enter, inside t.destination = .ok (some enter) →
      ∃ s, ss.find? (·.ssid == some (worded t.destination)) = some s ∧ EntersAlong chart s enter)
    {paths : List EntryPath} {c c' : Cache} (hc : c.Kept chart)
    (hr : ∀ t ∈ refused, (chart.transitionLabel? t.ssid).isSome)
    (h : Runs (tryDefaults chart inside conditions actions
      (refused.map (refusal (c.view chart))) ts) c paths c') :
    ∃ ws, waysVia (waysOf ss) ssid refused ts = some ws ∧
      paths = ws.map (Way.path (c.view chart) conditions actions) ∧ Looked chart c c' ∧
      ∀ w ∈ ws, w.Readable chart := by
  induction ts generalizing refused paths c with
  | nil =>
    rw [tryDefaults] at h
    obtain ⟨rfl, rfl⟩ := runs_pure.mp h
    refine ⟨_, rfl, ?_, hc.looked, ?_⟩
    · simp [Way.path, Way.conditions, Way.actions, Choice.conditions, Choice.actions]
    · intro w hw
      rw [List.mem_singleton] at hw
      subst hw
      intro x hx
      rw [List.mem_singleton] at hx
      subst hx
      exact ⟨by simpa using hr, by simp⟩
  | cons t ts iht =>
    obtain ⟨enter, l, d, below, others, c₁, c₂, c₃, henter, hl, hd, hb, ho, rfl⟩ :=
      runs_tryDefaults_cons.mp h
    obtain ⟨s, hf, hs⟩ := hinside t (List.mem_cons_self ..) enter henter
    obtain ⟨rfl, hlr, hl⟩ := Cache.runs_transition hc hl
    obtain ⟨rfl, hdr, hd⟩ := Cache.runs_state hl.kept hd
    have h₂ := hl.trans hd
    obtain ⟨ws, hws, rfl, hlook, hread⟩ := hs h₂.kept hb
    have h₃ := h₂.trans hlook
    have hrefused : refused.map (refusal (c.view chart)) ++
        [negate [((c.view chart).transition t.ssid).condition]] =
        (refused ++ [t]).map (refusal (c₃.view chart)) := by
      rw [h₃.view, List.map_append, List.map_singleton, refusal]
    rw [hrefused] at ho
    have hr' : ∀ u ∈ refused ++ [t], (chart.transitionLabel? u.ssid).isSome := by
      intro u hu
      rcases List.mem_append.mp hu with hu | hu
      · exact hr u hu
      · rw [List.mem_singleton.mp hu]
        exact hlr
    obtain ⟨ws', hws', rfl, hlook', hread'⟩ := iht (refused ++ [t])
      (fun u hu => hinside u (List.mem_cons_of_mem _ hu)) h₃.kept hr' ho
    refine ⟨_, waysVia_cons.mpr ⟨s, ws, ws', hf, hws, hws', rfl⟩, ?_, h₃.trans hlook', ?_⟩
    · rw [List.map_append, List.map_map, h₂.view, h₃.view, hl.view]
      refine congrArg (· ++ _) (List.map_congr_left fun w _ => ?_)
      simp [Way.path, Way.conditions, Way.actions, Choice.conditions, Choice.actions,
        conditionOf, defaultActions]
    · intro w hw
      rcases List.mem_append.mp hw with hw | hw
      · obtain ⟨w', hw', rfl⟩ := List.mem_map.mp hw
        intro x hx
        rcases List.mem_cons.mp hx with rfl | hx
        · exact ⟨by simpa using hr', by simpa using hdr⟩
        · exact hread w' hw' x hx
      · exact hread' w hw

theorem ways_eq (s : State) :
    ways s = if s.isComposite then
      (sortByOrder s.defaults).toOption.bind (waysVia (waysOf s.substates) s.ssid [])
    else some [⟨s.ssid, []⟩] := by
  cases s
  rw [ways]
  rfl

/-- Flattening enters a state of a chart along its ways. -/
theorem runs_entryPaths {chart : Chart} (hends : chart.PlainEnds) (depth : Nat) {q : Place}
    (hq : q ∈ chart.place.descendants "state") :
    EntersAlong chart (State.ofNode q.node) (entryPaths chart depth q) := by
  induction depth generalizing q with
  | zero => exact fun _ h => absurd h not_runs_entryPaths_zero
  | succ depth ih =>
    intro conditions actions paths c c' hc h
    rw [ways_eq]
    rcases runs_entryPaths_succ.mp h with ⟨hleaf, rfl, rfl⟩ | ⟨hcomposite, ts, hts, h⟩
    · refine ⟨_, if_neg (by simp [hleaf]), by simp [Way.path, Way.conditions, Way.actions],
        hc.looked, ?_⟩
      intro w hw
      rw [List.mem_singleton.mp hw]
      intro x hx
      cases hx
    · have hinside : ∀ t ∈ ts, ∀ enter,
          enterSubstate (entryPaths chart depth) q t.destination = .ok (some enter) →
          ∃ s, (State.ofNode q.node).substates.find? (·.ssid == some (worded t.destination)) =
            some s ∧ EntersAlong chart s enter := by
        intro t ht enter henter
        obtain ⟨r, hr, rfl⟩ := enterSubstate_eq_some.mp henter
        obtain ⟨hmem, hfound⟩ :=
          Chart.substate?_eq_some (isPlain_of_sortByOrder hends hq hts ht) hr
        exact ⟨_, hfound, ih (Chart.mem_descendants_of_path hq hmem)⟩
      obtain ⟨ws, hws, hpaths, hlook, hread⟩ :=
        runs_tryDefaults (State.ofNode q.node).ssid ts [] hinside hc (by simp) h
      refine ⟨ws, ?_, hpaths, hlook, hread⟩
      rw [if_pos hcomposite, hts]
      exact hws

/-! ## Ways exclude each other -/

@[simp] theorem negate_singleton (c : String) : negate [c] = negateOne c := rfl

theorem negateOne_ne_empty (c : String) : negateOne c ≠ "" := by
  unfold negateOne
  split
  · decide
  · intro h
    simpa using congrArg String.toList h

/-- What is taken in the one list of conditions is refused in the other. -/
def Excludes (taken refused : List String) : Prop :=
  ∃ c, (c = "" ∨ c ∈ taken) ∧ negateOne c ∈ refused

theorem Excludes.mono {cs cs' ds ds' : List String} (h : Excludes cs ds) (hc : cs ⊆ cs')
    (hd : ds ⊆ ds') : Excludes cs' ds' := by
  obtain ⟨c, hmem, hneg⟩ := h
  exact ⟨c, hmem.imp_right (hc ·), hd hneg⟩

theorem waysVia_refused {v : View} {ss : List State} {ssid : Option String}
    (ts refused : List Transition) {ws : List Way}
    (h : waysVia (waysOf ss) ssid refused ts = some ws) :
    ∀ w ∈ ws, ∀ t ∈ refused, refusal v t ∈ w.conditions v := by
  induction ts generalizing refused ws with
  | nil =>
    rw [waysVia, Option.some.injEq] at h
    subst h
    intro w hw t ht
    rw [List.mem_singleton.mp hw]
    simpa [Way.conditions, Choice.conditions] using ⟨t, ht, rfl⟩
  | cons u ts ih =>
    obtain ⟨s, below, others, -, -, ho, rfl⟩ := waysVia_cons.mp h
    intro w hw t ht
    rcases List.mem_append.mp hw with hw | hw
    · obtain ⟨w', -, rfl⟩ := List.mem_map.mp hw
      have hc : refusal v t ∈ Choice.conditions v ⟨ssid, refused, some u⟩ :=
        List.mem_append_left _ (List.mem_map_of_mem ht)
      exact List.mem_flatMap_of_mem (List.mem_cons_self ..) hc
    · exact ih (refused ++ [u]) ho w hw t (List.mem_append_left _ ht)

theorem waysVia_pairwise {v : View} {ss : List State} {ssid : Option String}
    (hss : ∀ s ∈ ss, ∀ ws, ways s = some ws →
      ws.Pairwise fun w w' => Excludes (w.conditions v) (w'.conditions v))
    (ts refused : List Transition) {ws : List Way}
    (h : waysVia (waysOf ss) ssid refused ts = some ws) :
    ws.Pairwise fun w w' => Excludes (w.conditions v) (w'.conditions v) := by
  induction ts generalizing refused ws with
  | nil =>
    rw [waysVia, Option.some.injEq] at h
    subst h
    exact List.pairwise_singleton ..
  | cons t ts ih =>
    obtain ⟨s, below, others, hs, hb, ho, rfl⟩ := waysVia_cons.mp h
    have hconds : ∀ w : Way, Way.conditions v ⟨w.target, ⟨ssid, refused, some t⟩ :: w.choices⟩ =
        Choice.conditions v ⟨ssid, refused, some t⟩ ++ w.conditions v :=
      fun w => List.flatMap_cons
    refine List.pairwise_append.mpr ⟨?_, ih _ ho, ?_⟩
    · refine List.pairwise_map.mpr ((hss s (List.mem_of_find?_eq_some hs) below hb).imp ?_)
      intro w w' he
      rw [hconds, hconds]
      exact he.mono (List.subset_append_right ..) (List.subset_append_right ..)
    · -- ways through `t` take its condition, the ways around it refuse it
      intro w hw w' hw'
      obtain ⟨u, -, rfl⟩ := List.mem_map.mp hw
      refine ⟨(v.transition t.ssid).condition, ?_, ?_⟩
      · by_cases hc : (v.transition t.ssid).condition = ""
        · exact .inl hc
        · right
          rw [hconds]
          simp [Choice.conditions, conditionOf, hc]
      · exact waysVia_refused ts _ ho w' hw' t (by simp)

/-- Of two ways into a state one takes a condition that the other refuses. -/
theorem ways_pairwise (v : View) (s : State) {ws : List Way} (h : ways s = some ws) :
    ws.Pairwise fun w w' => Excludes (w.conditions v) (w'.conditions v) := by
  induction s using State.induction generalizing ws with
  | mk ssid composite defaults substates ih =>
    rw [ways] at h
    cases composite with
    | false =>
      simp only [Bool.false_eq_true, if_false, Option.some.injEq] at h
      subst h
      exact List.pairwise_singleton ..
    | true =>
      simp only [if_true, Option.bind_eq_some_iff] at h
      obtain ⟨ts, -, h⟩ := h
      exact waysVia_pairwise (fun s hs ws hw => ih s hs hw) ts [] h

/-! ## Conditions are never empty -/

theorem tryDefaults_conditions {chart : Chart}
    {inside : Option String → Except Fault (Option Entering)}
    (hinside : ∀ ssid enter, inside ssid = .ok (some enter) →
      ∀ {conditions actions paths} {c c' : Cache}, (∀ x ∈ conditions, x ≠ "") →
      Runs (enter conditions actions) c paths c' → ∀ e ∈ paths, ∀ x ∈ e.conditions, x ≠ "")
    {conditions actions : List String} (hconditions : ∀ x ∈ conditions, x ≠ "")
    (ts : List Transition) {excluded : List String} (hexcluded : ∀ x ∈ excluded, x ≠ "")
    {paths : List EntryPath} {c c' : Cache}
    (h : Runs (tryDefaults chart inside conditions actions excluded ts) c paths c') :
    ∀ e ∈ paths, ∀ x ∈ e.conditions, x ≠ "" := by
  induction ts generalizing excluded paths c with
  | nil =>
    rw [tryDefaults] at h
    obtain ⟨rfl, -⟩ := runs_pure.mp h
    intro e he
    rw [List.mem_singleton.mp he]
    exact List.forall_mem_append.mpr ⟨hconditions, hexcluded⟩
  | cons t ts iht =>
    obtain ⟨enter, l, d, below, others, c₁, c₂, c₃, henter, -, -, hb, ho, rfl⟩ :=
      runs_tryDefaults_cons.mp h
    have htaken : ∀ x ∈ (if l.condition == "" then [] else [l.condition]), x ≠ "" := by
      intro x hx
      split at hx
      · cases hx
      · next hne =>
        rw [List.mem_singleton.mp hx]
        simpa using hne
    have hnegated : ∀ x ∈ excluded ++ [negate [l.condition]], x ≠ "" := by
      refine List.forall_mem_append.mpr ⟨hexcluded, fun x hx => ?_⟩
      rw [List.mem_singleton.mp hx, negate_singleton]
      exact negateOne_ne_empty _
    refine List.forall_mem_append.mpr ⟨hinside _ enter henter ?_ hb, iht hnegated ho⟩
    exact List.forall_mem_append.mpr
      ⟨List.forall_mem_append.mpr ⟨hconditions, hexcluded⟩, htaken⟩

theorem entryPaths_conditions {chart : Chart} (depth : Nat) (q : Place)
    {conditions actions : List String} {paths : List EntryPath} {c c' : Cache}
    (hconditions : ∀ x ∈ conditions, x ≠ "")
    (h : Runs (entryPaths chart depth q conditions actions) c paths c') :
    ∀ e ∈ paths, ∀ x ∈ e.conditions, x ≠ "" := by
  induction depth generalizing q conditions actions paths c c' with
  | zero => exact absurd h not_runs_entryPaths_zero
  | succ depth ih =>
    rcases runs_entryPaths_succ.mp h with ⟨-, rfl, -⟩ | ⟨-, ts, -, h⟩
    · simpa using hconditions
    · refine tryDefaults_conditions (fun ssid enter henter => ?_) hconditions ts (by simp) h
      obtain ⟨r, -, rfl⟩ := enterSubstate_eq_some.mp henter
      exact ih r

/-! ## Ways out -/

/-- The path from a leaf out to `outer`, ahead of exit actions that come later. -/
def exitPath (v : View) (outer : List Container) (later : List String) (p : Placed State) :
    Option String × List String :=
  (p.item.ssid, exits v (p.within outer) ++ later)

/-- The leaves below a state in `around`, each with the exit actions on the way out. -/
def LeftAlong (chart : Chart) (around : List Container) (s : State) : Prop :=
  ∀ {later : List String} {paths} {c c' : Cache}, c.Kept chart →
    Runs (exitPaths chart s later) c paths c' →
    paths = (s.leaves around).map (exitPath (c.view chart) (⟨.state, s.ssid⟩ :: around) later) ∧
      Looked chart c c' ∧
      ∀ p ∈ s.leaves around, AllReadable chart (p.within (⟨.state, s.ssid⟩ :: around))

theorem runs_exitPathsOf {chart : Chart} {around : List Container} (ss : List State)
    (ih : ∀ s ∈ ss, LeftAlong chart around s) {later : List String}
    {paths : List (Option String × List String)} {c c' : Cache} (hc : c.Kept chart)
    (h : Runs (exitPathsOf chart ss later) c paths c') :
    paths = (ss.flatMap (State.leaves around)).map (exitPath (c.view chart) around later) ∧
      Looked chart c c' ∧
      ∀ p ∈ ss.flatMap (State.leaves around), AllReadable chart (p.within around) := by
  induction ss generalizing paths c with
  | nil =>
    rw [exitPathsOf] at h
    obtain ⟨rfl, rfl⟩ := runs_pure.mp h
    exact ⟨rfl, hc.looked, by simp⟩
  | cons s ss ihs =>
    rw [exitPathsOf] at h
    obtain ⟨l, c₁, hl, h⟩ := runs_bind.mp h
    obtain ⟨rfl, hread, hl⟩ := Cache.runs_state hc hl
    obtain ⟨first, c₂, hfirst, h⟩ := runs_bind.mp h
    obtain ⟨rfl, hfl, hfr⟩ := ih s (List.mem_cons_self ..) hl.kept hfirst
    obtain ⟨rest, c₃, hrest, h⟩ := runs_bind.mp h
    obtain ⟨rfl, rfl⟩ := runs_pure.mp h
    obtain ⟨rfl, hrl, hrr⟩ := ihs (fun s hs => ih s (List.mem_cons_of_mem _ hs)) hfl.kept hrest
    have hwithin : ∀ p ∈ s.leaves around,
        p.within around = p.within (⟨.state, s.ssid⟩ :: around) ++ [s.ssid] := by
      intro p hp
      obtain ⟨front, hf, -⟩ := State.lineage_of_mem_places s around (List.mem_filter.mp hp).1
      have hf' : p.lineage = (front ++ [⟨.state, s.ssid⟩]) ++ around := by simpa using hf
      rw [Placed.within_eq hf, Placed.within_eq hf', List.map_append, List.map_singleton]
    refine ⟨?_, (hl.trans hfl).trans hrl, ?_⟩
    · rw [List.flatMap_cons, List.map_append, hfl.view, hl.view]
      refine congrArg (· ++ _) (List.map_congr_left fun p hp => ?_)
      simp [exitPath, hwithin p hp, exits]
    · intro p hp k hk
      rw [List.flatMap_cons] at hp
      rcases List.mem_append.mp hp with hp | hp
      · rw [hwithin p hp] at hk
        rcases List.mem_append.mp hk with hk | hk
        · exact hfr p hp k hk
        · rw [List.mem_singleton.mp hk]
          exact hread
      · exact hrr p hp k hk

/-- Flattening leaves a state from its leaves. -/
theorem runs_exitPaths {chart : Chart} (s : State) (around : List Container)
    (hcomposite : ∀ p ∈ s.places around, p.item.substates ≠ [] → p.item.isComposite = true) :
    LeftAlong chart around s := by
  induction s using State.induction generalizing around with
  | mk ssid composite defaults substates ih =>
    intro later paths c c' hc h
    rw [exitPaths] at h
    have hplaces := State.places_eq around (.mk ssid composite defaults substates)
    cases composite with
    | false =>
      simp only [Bool.false_eq_true, if_false] at h
      obtain ⟨rfl, rfl⟩ := runs_pure.mp h
      have hnil : substates = [] := by
        by_contra hne
        have := hcomposite _ (State.self_mem_places ..) hne
        cases this
      subst hnil
      have hw : Placed.within ⟨.mk ssid false defaults [], around⟩
          (⟨.state, ssid⟩ :: around) = [] := by
        simp [Placed.within, Placed.lineage]
      have hleaves : State.leaves around (.mk ssid false defaults []) =
          [⟨.mk ssid false defaults [], around⟩] := rfl
      refine ⟨?_, hc.looked, ?_⟩
      · simp [hleaves, exitPath, hw, exits, State.ssid]
      · intro p hp k hk
        rw [hleaves, List.mem_singleton] at hp
        subst hp
        rw [State.ssid, hw] at hk
        cases hk
    | true =>
      simp only [if_true] at h
      have hleaves : State.leaves around (.mk ssid true defaults substates) =
          substates.flatMap (State.leaves (⟨.state, ssid⟩ :: around)) := by
        rw [State.leaves, hplaces, State.placesOf_eq_flatMap,
          List.filter_cons_of_neg (by simp [State.isComposite]), List.filter_flatMap]
        rfl
      rw [hleaves]
      refine runs_exitPathsOf substates (fun s hs => ih s hs _ fun p hp => ?_) hc h
      apply hcomposite
      rw [hplaces]
      exact List.mem_cons_of_mem _ (State.mem_placesOf.mpr ⟨s, hs, hp⟩)

end Statechart.Planar
