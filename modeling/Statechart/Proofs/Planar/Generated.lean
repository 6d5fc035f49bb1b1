import Statechart.Proofs.Planar.Ways

/-!
What a transition becomes. The planar transitions made from one transition are fixed by the
labels that the texts give (`Becomes`), although labels are widened in place while the
transitions are gone through: what is still to be read is never what was widened (`Faithful`).
`runs_flatten` says this of a whole chart.
-/

namespace Statechart.Planar

open Chart (State Transition Container Placed)
open Label (View Cache)
open Label.Cache (Kept Looked)
open Xml (Place)

/-! ## Sources -/

/-- A default transition in a state is only a part of ways into it. -/
def isNestedDefault (t : Placed Transition) : Bool :=
  isInitial t.item && t.around.head?.any (·.kind != .chart)

/-- An inner transition stands in its source. -/
def isInner (t : Placed Transition) : Bool :=
  t.around.head?.any (·.ssid == some (sourceKey t.item))

/-- The first state that a transition can mean by an identifier. -/
def stateOf (chart : Chart) (ssid : Option String) : Option (Placed State) :=
  chart.states.find? (·.item.ssid == some (worded ssid))

theorem stateOf_mem {chart : Chart} {ssid : Option String} {s : Placed State}
    (h : stateOf chart ssid = some s) : s ∈ chart.states :=
  List.mem_of_find?_eq_some h

theorem stateOf_ssid {chart : Chart} {ssid : Option String} {s : Placed State}
    (h : stateOf chart ssid = some s) : s.item.ssid = some (worded ssid) := by
  simpa using List.find?_some h

theorem runs_placeAt {chart : Chart} {ssid : Option String} {q : Place} {c c' : Cache}
    (h : Runs (placeAt chart ssid) c q c') : chart.place? ssid = .ok (some q) ∧ c = c' := by
  unfold placeAt at h
  obtain ⟨found, c₁, hlift, h⟩ := runs_bind.mp h
  obtain ⟨hfound, rfl⟩ := runs_lift.mp hlift
  cases found with
  | none => exact absurd h not_runs_throw
  | some q₀ =>
    obtain ⟨rfl, rfl⟩ := runs_pure.mp h
    exact ⟨hfound, rfl⟩

/-- A plain identifier is looked up among the states of the chart. -/
theorem stateOf_of_place? {chart : Chart} {ssid : Option String} (hplain : Chart.IsPlain ssid)
    {q : Place} (h : chart.place? ssid = .ok (some q)) :
    q ∈ chart.place.descendants "state" ∧
      stateOf chart ssid = some (.ofPlace State.ofNode q) := by
  rw [Chart.place?_plain hplain, Except.ok.injEq] at h
  refine ⟨List.mem_of_find?_eq_some h, ?_⟩
  rw [stateOf, Chart.states, List.find?_map, Function.comp_def]
  simp only [Placed.ofPlace, State.ssid_ofNode]
  exact congrArg (Option.map _) h

theorem runs_stateAt {chart : Chart} {ssid : Option String} (hplain : Chart.IsPlain ssid)
    {s : Placed State} {c c' : Cache} (h : Runs (stateAt chart ssid) c s c') :
    stateOf chart ssid = some s ∧ c = c' := by
  unfold stateAt at h
  obtain ⟨q, c₁, hq, h⟩ := runs_bind.mp h
  obtain ⟨rfl, rfl⟩ := runs_pure.mp h
  obtain ⟨hfound, rfl⟩ := runs_placeAt hq
  exact ⟨(stateOf_of_place? hplain hfound).2, rfl⟩

theorem isPlain_sourceKey {t : Transition} (h : Chart.IsPlain t.source) :
    Chart.IsPlain (some (sourceKey t)) := by
  rw [sourceKey]
  cases hs : t.source with
  | none => decide
  | some k =>
    rw [hs] at h
    exact h

/-! ## Actions along the hierarchy -/

/-- The states around an item up to the one that is `parent`, innermost first. -/
def upTo (parent : Option String) (around : List Container) : List (Option String) :=
  (enclosingStates around).takeWhile (· != parent)

/-- The states whose during actions go ahead of a transition, innermost first. -/
def active (parent source : Option String) (around : List Container) : List (Option String) :=
  (if source == parent then [source] else []) ++ enclosingStates around

/-- The states around and including the source that a transition leaves, innermost first. -/
def left (parent source : Option String) (around : List Container) : List (Option String) :=
  if source == parent then [] else source :: upTo parent around

/-- The states around and including the destination that are entered, innermost first. -/
def entered (parent destination : Option String) (around : List Container) :
    List (Option String) :=
  (if destination == parent then [] else [destination]) ++ upTo parent around

@[simp] theorem enclosingStates_state (k : Option String) (around : List Container) :
    enclosingStates (⟨.state, k⟩ :: around) = k :: enclosingStates around := rfl

theorem enclosingStates_of_ne {k : Container} (hk : k.kind ≠ .state) (around : List Container) :
    enclosingStates (k :: around) = [] := by
  simp [enclosingStates, hk]

/-- Outside the states a climb ends. -/
theorem climb_of_ne {chart : Chart} {kind : Chart.ContainerKind} (hk : kind ≠ .state)
    {ssid outer : Option String} {around : List Container} {name : String} :
    climb chart ssid (⟨kind, outer⟩ :: around) name = pure name := by
  cases kind with
  | state => exact absurd rfl hk
  | chart => rfl
  | other => rfl

theorem leaving_of_ne {chart : Chart} {kind : Chart.ContainerKind} (hk : kind ≠ .state)
    {parent ssid : Option String} {around : List Container} {exiting : Bool}
    {during exited : List String} :
    leaving chart parent (⟨kind, ssid⟩ :: around) exiting during exited =
      pure (during, exited) := by
  cases kind with
  | state => exact absurd rfl hk
  | chart => rfl
  | other => rfl

theorem arriving_of_ne {chart : Chart} {kind : Chart.ContainerKind} (hk : kind ≠ .state)
    {parent ssid : Option String} {around : List Container} {entering : List String} :
    arriving chart parent (⟨kind, ssid⟩ :: around) entering = pure entering := by
  cases kind with
  | state => exact absurd rfl hk
  | chart => rfl
  | other => rfl

theorem runs_leaving {chart : Chart} {parent : Option String} (around : List Container)
    {exiting : Bool} {during exited : List String} {r : List String × List String} {c c' : Cache}
    (hc : c.Kept chart)
    (h : Runs (leaving chart parent around exiting during exited) c r c') :
    r.1 = durings (c.view chart) (enclosingStates around) ++ during ∧
      r.2 = exited ++ (if exiting then exits (c.view chart) (upTo parent around) else []) ∧
      Looked chart c c' ∧ AllReadable chart (enclosingStates around) := by
  induction around generalizing exiting during exited c with
  | nil =>
    rw [leaving] at h
    exact absurd h not_runs_throw
  | cons k around ih =>
    obtain ⟨kind, ssid⟩ := k
    by_cases hk : kind = .state
    · subst hk
      rw [leaving] at h
      obtain ⟨l, c₁, hl, h⟩ := runs_bind.mp h
      obtain ⟨rfl, hread, hl⟩ := Cache.runs_state hc hl
      obtain ⟨h₁, h₂, hlook, hreads⟩ := ih hl.kept h
      rw [hl.view] at h₁ h₂
      refine ⟨?_, ?_, hl.trans hlook, hreads.cons hread⟩
      · simp [h₁, durings]
      · rw [h₂]
        cases exiting with
        | false => simp
        | true =>
          by_cases he : ssid = parent <;> simp [he, upTo, exits]
    · rw [leaving_of_ne hk] at h
      obtain ⟨rfl, rfl⟩ := runs_pure.mp h
      have hnil := enclosingStates_of_ne (k := ⟨kind, ssid⟩) hk around
      refine ⟨by simp [hnil, durings], ?_, hc.looked, by simp [hnil, AllReadable]⟩
      cases exiting <;> simp [upTo, hnil, exits]

theorem runs_arriving {chart : Chart} {parent : Option String} (around : List Container)
    {entering r : List String} {c c' : Cache} (hc : c.Kept chart)
    (h : Runs (arriving chart parent around entering) c r c') :
    r = entries (c.view chart) (upTo parent around) ++ entering ∧ Looked chart c c' ∧
      AllReadable chart (upTo parent around) := by
  induction around generalizing entering c with
  | nil =>
    rw [arriving] at h
    exact absurd h not_runs_throw
  | cons k around ih =>
    obtain ⟨kind, ssid⟩ := k
    by_cases hk : kind = .state
    · subst hk
      rw [arriving] at h
      by_cases he : ssid = parent
      · simp only [he, beq_self_eq_true, if_true] at h
        obtain ⟨rfl, rfl⟩ := runs_pure.mp h
        have hnil : upTo parent (⟨.state, ssid⟩ :: around) = [] := by simp [upTo, he]
        exact ⟨by simp [hnil, entries], hc.looked, by simp [hnil, AllReadable]⟩
      · simp only [beq_iff_eq, he, if_false] at h
        obtain ⟨l, c₁, hl, h⟩ := runs_bind.mp h
        obtain ⟨rfl, hread, hl⟩ := Cache.runs_state hc hl
        obtain ⟨rfl, hlook, hreads⟩ := ih hl.kept h
        have hcons : upTo parent (⟨.state, ssid⟩ :: around) = ssid :: upTo parent around := by
          simp [upTo, he]
        rw [hcons, hl.view]
        exact ⟨by simp [entries], hl.trans hlook, hreads.cons hread⟩
    · rw [arriving_of_ne hk] at h
      obtain ⟨rfl, rfl⟩ := runs_pure.mp h
      have hnil : upTo parent (⟨kind, ssid⟩ :: around) = [] := by
        rw [upTo, enclosingStates_of_ne (k := ⟨kind, ssid⟩) hk, List.takeWhile_nil]
      exact ⟨by simp [hnil, entries], hc.looked, by simp [hnil, AllReadable]⟩

/-! ## Planar transitions -/

/-- Where the planar transitions made from a transition start. -/
structure Departure where
  /-- Actions that come before everything. -/
  first : List String
  /-- The leaves with the exit actions on the way out to the source. -/
  leaves : List (Option String × List String)
  /-- Exit actions of the source and the states around it. -/
  leaving : List String
  level : Int

/-- What is done before the ways into the destination part. -/
def Departure.lead (d : Departure) (v : View) (t : Transition) (entering : List String)
    (leaf : Option String × List String) : List String :=
  d.first ++ (v.transition t.ssid).conditionActions ++ leaf.2 ++ d.leaving ++
    (v.transition t.ssid).transitionActions ++ entering

/-- The planar transition from a leaf along a way. -/
def Departure.made (d : Departure) (v : View) (t : Transition) (entering : List String)
    (rank order : Int) (leaf : Option String × List String) (w : Way) : PlanarTransition where
  ssid := t.ssid
  source := leaf.1
  target := w.target
  conditions := conditionOf v t ++ w.conditions v
  actions := d.lead v t entering leaf ++ w.actions v
  level := d.level
  rank
  order

/-- The departure before the first transition. -/
def Departure.start : Departure := ⟨[], [(some startId, [])], [], 0⟩

/-- The departure of a transition in `parent` from a state. -/
def Departure.ofState (v : View) (parent : Option String) (source : String) (s : Placed State)
    (level : Int) : Departure where
  first := durings v (active parent (some source) s.around)
  leaves := (s.item.leaves s.around).map (exitPath v s.lineage [])
  leaving := exits v (left parent (some source) s.around)
  level

inductive Departs (chart : Chart) (v : View) (t : Transition) (parent : Container) :
    Departure → Prop
  | start (initial : isInitial t = true) (kind : parent.kind = .chart) :
      Departs chart v t parent .start
  | state {s : Placed State} {level : Int} (proper : isInitial t = false)
      (source : stateOf chart (some (sourceKey t)) = some s)
      (depth : levelOf s.around = .ok level)
      (readable : AllReadable chart (some (sourceKey t) :: enclosingStates s.around))
      (below : ∀ p ∈ s.item.leaves s.around, AllReadable chart (p.within s.lineage)) :
      Departs chart v t parent (.ofState v parent.ssid (sourceKey t) s level)

/-- The planar transitions that are made from a transition. -/
inductive Becomes (chart : Chart) (v : View) (t : Placed Transition) :
    List PlanarTransition → Prop
  | nested (nested : isNestedDefault t = true) : Becomes chart v t []
  | made {parent : Container} {d : Departure} {goal : Placed State} {ws : List Way} {order : Int}
      (proper : isNestedDefault t = false) (stands : t.around.head? = some parent)
      (departs : Departs chart v t.item parent d)
      (arrives : stateOf chart t.item.destination = some goal) (enters : ways goal.item = some ws)
      (ordered : orderOf t.item = .ok order) (label : (chart.transitionLabel? t.item.ssid).isSome)
      (readable : AllReadable chart (entered parent.ssid t.item.destination goal.around))
      (below : ∀ w ∈ ws, w.Readable chart) :
      Becomes chart v t (d.leaves.flatMap fun leaf => ws.map (d.made v t.item
        (entries v (entered parent.ssid t.item.destination goal.around))
        (rankIn parent.ssid t.item) order leaf))

end Statechart.Planar
