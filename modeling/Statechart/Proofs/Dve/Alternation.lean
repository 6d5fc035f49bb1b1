import Statechart.Dve.Feed
import Statechart.Proofs.Chart.Drawn
import Statechart.Proofs.Dve.Guards

/-!
Alternation of chart steps and feeding steps. Each step of a chart hands the turn to the process
that feeds inputs and each feeding step hands it back, so the turn is 0 or 1 in every run. Nothing
moves on its turn without something to do: charts need a transition that can be taken or during
actions, and there is no feeding process without inputs (`alternation_live_iff`).
-/

namespace Statechart.Dve

/-! ## Feeding -/

/-- The edges of the process that feeds inputs, if steps alternate. -/
def feeds (interval : Int × Int) (charts : List PlanarChart) : List Edge :=
  let bytes := bytesOf (inputsOf charts)
  let ints := intsOf (inputsOf charts)
  if (inputsOf charts).isEmpty then []
  else (List.range (combinations interval bytes ints)).map fun n =>
    { source := some "start"
      target := some "start"
      guard := [turn]
      effect := [turn ++ " = 0",
        assignments (lastInput bytes ints) (bytes ++ ints) (valuesAt interval bytes ints n)] }

theorem feedLine_eq (assigned : String) :
    feedLine true assigned = edgeLine "start" "start" [turn] [turn ++ " = 0", assigned] := by
  have hlead : "\t\tstart -> start \x7b " ++
      ("guard " ++ turn ++ "; effect " ++ turn ++ " = 0, ") =
      "\t\t" ++ "start" ++ " -> " ++ "start" ++ " \x7b" ++ (" guard " ++ turn ++ ";") ++
        " effect " ++ (turn ++ " = 0") ++ ", " := by decide +kernel
  have htail : "; \x7d\n" = ";" ++ " \x7d\n" := by decide +kernel
  unfold feedLine edgeLine
  rw [if_pos rfl, if_neg (by simp), if_neg (by simp), String.intercalate_singleton,
    String.intercalate_cons_cons, String.intercalate_singleton, hlead, htail]
  simp only [String.append_assoc]

/-- The lines of these edges are what is written. -/
theorem feedPieces_eq (interval : Int × Int) (charts : List PlanarChart)
    (hinputs : inputsOf charts ≠ []) :
    ∃ before after, feedPieces interval true charts = before ++
      (feeds interval charts).map (fun e => .ok (edgeLine "start" "start" e.guard e.effect)) ++
      after := by
  have hne : (inputsOf charts).isEmpty = false := by simpa using hinputs
  simp only [feedPieces, feeds, hne, Bool.false_eq_true, if_false, List.map_map,
    Function.comp_def, ← feedLine_eq]
  exact ⟨_, _, rfl⟩

theorem combinations_pos {interval : Int × Int} (h : interval.1 ≤ interval.2)
    (bytes ints : List (Option String)) : 0 < combinations interval bytes ints := by
  have hwidth : 0 < width interval := by
    unfold width
    omega
  have hints : 0 < width interval ^ ints.length := Int.pow_pos hwidth
  have hbytes : (0 : Int) < 2 ^ bytes.length := Int.pow_pos (by decide)
  have hall := Int.mul_pos hints hbytes
  exact Int.lt_toNat.mpr hall

theorem feeds_ne_nil {interval : Int × Int} (h : interval.1 ≤ interval.2)
    (charts : List PlanarChart) : feeds interval charts ≠ [] ↔ inputsOf charts ≠ [] := by
  have hpos := combinations_pos h (bytesOf (inputsOf charts)) (intsOf (inputsOf charts))
  unfold feeds
  cases hinputs : inputsOf charts with
  | nil => simp
  | cons i is =>
    rw [hinputs] at hpos
    simp only [List.isEmpty_cons, Bool.false_eq_true, if_false, ne_eq, List.map_eq_nil_iff,
      List.range_eq_nil]
    simp [Nat.pos_iff_ne_zero.mp hpos]

theorem mem_feeds {interval : Int × Int} {charts : List PlanarChart} {e : Edge}
    (he : e ∈ feeds interval charts) :
    e.guard = [turn] ∧ ∃ last values, e.effect = [turn ++ " = 0",
      assignments last (bytesOf (inputsOf charts) ++ intsOf (inputsOf charts)) values] := by
  simp only [feeds] at he
  split at he
  · cases he
  · obtain ⟨n, -, rfl⟩ := List.mem_map.mp he
    exact ⟨rfl, _, _, rfl⟩

/-! ## Edges of charts -/

/-- A chart has something to do in a state: a transition that can be taken, or during actions. -/
def Movable (ev : String → Bool) (chart : PlanarChart) (place : Option String) : Prop :=
  (∃ t ∈ chart.transitions, t.source = place ∧ t.conditions.all ev = true) ∨
    ∃ s, (place, s) ∈ chart.states.entries ∧ s.label.during ≠ []

theorem mem_written {alternate : Bool} {chart : PlanarChart} {e : Edge}
    (he : e ∈ written alternate chart) :
    (∃ t ∈ chart.transitions, e = edgeOf alternate chart.transitions t) ∨
      ∃ s ∈ chart.states.entries, s.2.label.during ≠ [] ∧
        e = loopOf alternate chart.transitions s.1 s.2 := by
  obtain ⟨he, -⟩ := List.mem_filter.mp he
  rcases List.mem_append.mp he with he | he
  · obtain ⟨t, ht, rfl⟩ := List.mem_map.mp he
    exact .inl ⟨t, ht, rfl⟩
  · obtain ⟨s, hs, rfl⟩ := List.mem_map.mp he
    obtain ⟨hs, hduring⟩ := List.mem_filter.mp hs
    exact .inr ⟨s, hs, by simpa using hduring, rfl⟩

/-- Every edge of a chart waits for the turn of the charts and ends it. -/
theorem written_turn {chart : PlanarChart} {e : Edge} (he : e ∈ written true chart) :
    "not " ++ turn ∈ e.guard ∧ ∃ actions, e.effect = actions ++ [turn ++ " = 1"] := by
  rcases mem_written he with ⟨t, -, rfl⟩ | ⟨s, -, -, rfl⟩
  · exact ⟨by simp [edgeOf, turnGuard], t.actions, rfl⟩
  · exact ⟨by simp [loopOf, turnGuard], s.2.label.during, rfl⟩

/-- On the turn of the charts, a chart has an enabled edge if it has something to do. -/
theorem enabled_iff_movable {ev : String → Bool} {chart : PlanarChart}
    (hev : Evaluates ev chart.transitions) (hs : Stated chart.transitions)
    (hturn : ev ("not " ++ turn) = true) (place : Option String) :
    (∃ e ∈ written true chart, e.source = place ∧ e.enabled ev = true) ↔
      Movable ev chart place := by
  have hguard : (turnGuard true).all ev = true := by simpa [turnGuard] using hturn
  constructor
  · rintro ⟨e, he, rfl, henabled⟩
    rcases mem_written he with ⟨t, ht, rfl⟩ | ⟨s, hmem, hduring, rfl⟩
    · rw [enabled_edgeOf hev hs, Bool.and_eq_true, Bool.and_eq_true] at henabled
      exact .inl ⟨t, ht, rfl, henabled.1.1⟩
    · exact .inr ⟨s.2, hmem, hduring⟩
  · intro hmove
    by_cases htake : ∃ t ∈ chart.transitions, t.source = place ∧ t.conditions.all ev = true
    · obtain ⟨t, ht, rfl, htake⟩ := htake
      obtain ⟨u, hu, hsource, henabled⟩ := exists_enabled hev hs true hguard ht htake
      refine ⟨edgeOf true chart.transitions u, List.mem_filter.mpr ⟨?_, ?_⟩, hsource, henabled⟩
      · exact List.mem_append_left _ (List.mem_map_of_mem hu)
      · simp [not_dead_of_enabled hev henabled]
    · -- no transition can be taken, so the loop is not held back by any
      obtain ⟨s, hmem, hduring⟩ := hmove.resolve_left htake
      have henabled : (loopOf true chart.transitions place s).enabled ev = true := by
        rw [enabled_loopOf hev hs, hguard, Bool.true_and, List.all_eq_true]
        intro u hu
        obtain ⟨hu, hsource⟩ := List.mem_filter.mp hu
        by_contra htaken
        exact htake ⟨u, hu, by simpa using hsource, by simpa using htaken⟩
      refine ⟨_, List.mem_filter.mpr ⟨List.mem_append_right _ ?_, ?_⟩, rfl, henabled⟩
      · exact List.mem_map.mpr ⟨(place, s), List.mem_filter.mpr ⟨hmem, by simpa using hduring⟩, rfl⟩
      · simp [not_dead_of_enabled hev henabled]

/-! ## Runs -/

/-- Charts that run beside a process that feeds their inputs. The texts of each process have
meanings of their own, since each has its own variables; the turn is common to all. -/
structure System (σ : Type) where
  charts : List PlanarChart
  interval : Int × Int
  /-- What the texts of the chart at a position mean. -/
  meaning : Nat → Meaning σ
  /-- What the texts of the feeding process mean. -/
  feeding : Meaning σ
  /-- The value of the variable that holds the turn. -/
  turnOf : σ → Int
  initial : σ

/-- The state that each chart is in, and the values of all variables. -/
structure Config (σ : Type) where
  places : List (Option String)
  store : σ

/-- The process that takes a step. -/
inductive Mover where
  | chart (i : Nat)
  | feeding
  deriving Repr, DecidableEq

def Mover.isChart : Mover → Bool
  | .chart _ => true
  | .feeding => false

namespace System

variable {σ : Type} (S : System σ)

/-- The texts mean what they say, as far as conditions are combined and the turn is tested and
set. The turn is 0 at first, and no input has its name. -/
structure Lawful : Prop where
  initially : S.turnOf S.initial = 0
  evaluates : ∀ (i : Nat) (chart : PlanarChart), S.charts[i]? = some chart → ∀ s,
    Evaluates ((S.meaning i).holds · s) chart.transitions
  waits : ∀ i s, (S.meaning i).holds ("not " ++ turn) s = (S.turnOf s == 0)
  hands : ∀ i s, S.turnOf ((S.meaning i).act (turn ++ " = 1") s) = 1
  feedWaits : ∀ s, S.feeding.holds turn s = (S.turnOf s != 0)
  feedHands : ∀ s, S.turnOf (S.feeding.act (turn ++ " = 0") s) = 0
  assigns : ∀ e ∈ feeds S.interval S.charts, ∀ a ∈ e.effect.tail, ∀ s,
    S.turnOf (S.feeding.act a s) = S.turnOf s

/-- The texts of the chart at a position test and set the turn that is common to all. -/
structure Shares (i : Nat) : Prop where
  waits : ∀ s, (S.meaning i).holds ("not " ++ turn) s = (S.turnOf s == 0)
  hands : ∀ s, S.turnOf ((S.meaning i).act (turn ++ " = 1") s) = 1

/-- All processes go by the turn, and feeding leaves it as it was handed over. -/
structure Common : Prop where
  initially : S.turnOf S.initial = 0
  shares : ∀ (i : Nat) (chart : PlanarChart), S.charts[i]? = some chart → S.Shares i
  feedWaits : ∀ s, S.feeding.holds turn s = (S.turnOf s != 0)
  feedHands : ∀ s, S.turnOf (S.feeding.act (turn ++ " = 0") s) = 0
  assigns : ∀ e ∈ feeds S.interval S.charts, ∀ a ∈ e.effect.tail, ∀ s,
    S.turnOf (S.feeding.act a s) = S.turnOf s

/-- A process takes an enabled edge. States are named in a style, and those of one name are one
state: an edge leaves every place that has the name of its source. -/
inductive Move (style : NameStyle) (k : Config σ) : Mover → Config σ → Prop where
  | chart (i : Nat) (chart : PlanarChart) (place : Option String) (e : Edge)
      (hchart : S.charts[i]? = some chart) (he : e ∈ written true chart)
      (hplace : k.places[i]? = some place)
      (hname : stateId style chart.states place = stateId style chart.states e.source)
      (henabled : e.enabled ((S.meaning i).holds · k.store) = true) :
      Move style k (.chart i) ⟨k.places.set i e.target, (S.meaning i).run e.effect k.store⟩
  | feed (e : Edge) (he : e ∈ feeds S.interval S.charts)
      (henabled : e.enabled (S.feeding.holds · k.store) = true) :
      Move style k .feeding ⟨k.places, S.feeding.run e.effect k.store⟩

/-- Runs, by the processes that take their steps. -/
inductive Trail (style : NameStyle) : List Mover → Config σ → Prop where
  | init : Trail style [] ⟨S.charts.map fun _ => some "start", S.initial⟩
  | step {ms : List Mover} {m : Mover} {k k' : Config σ} (hrun : Trail style ms k)
      (hmove : S.Move style k m k') : Trail style (ms ++ [m]) k'

/-- One process takes an enabled edge, with states named by their identifiers. -/
def Step (k k' : Config σ) : Prop := ∃ m, S.Move .id k m k'

def Reachable (k : Config σ) : Prop := ∃ ms, S.Trail .id ms k

/-- Whoever has the turn has an enabled edge: a chart that has not failed, or the feeding process,
which hands the turn back. -/
def Live (k : Config σ) : Prop :=
  (S.turnOf k.store = 0 → ∃ (i : Nat) (chart : PlanarChart) (place : Option String),
    S.charts[i]? = some chart ∧ k.places[i]? = some place ∧ place ≠ some "error" ∧
      ∃ e ∈ written true chart, e.source = place ∧
        e.enabled ((S.meaning i).holds · k.store) = true) ∧
  (S.turnOf k.store = 1 → ∃ e ∈ feeds S.interval S.charts,
    e.enabled (S.feeding.holds · k.store) = true ∧
      S.turnOf (S.feeding.run e.effect k.store) = 0)

/-- Whoever has the turn has something to do. -/
def Occupied (k : Config σ) : Prop :=
  (S.turnOf k.store = 0 → ∃ (i : Nat) (chart : PlanarChart) (place : Option String),
    S.charts[i]? = some chart ∧ k.places[i]? = some place ∧ place ≠ some "error" ∧
      Movable ((S.meaning i).holds · k.store) chart place) ∧
  (S.turnOf k.store = 1 → inputsOf S.charts ≠ [])

variable {S} {style : NameStyle} {k k' : Config σ} {m : Mover} {ms : List Mover}

theorem Lawful.common (h : S.Lawful) : S.Common :=
  ⟨h.initially, fun i _ _ => ⟨h.waits i, h.hands i⟩, h.feedWaits, h.feedHands, h.assigns⟩

theorem Reachable.step (hk : S.Reachable k) (hstep : S.Step k k') : S.Reachable k' := by
  obtain ⟨ms, hrun⟩ := hk
  obtain ⟨m, hmove⟩ := hstep
  exact ⟨ms ++ [m], hrun.step hmove⟩

theorem Shares.turn_of_chart {i : Nat} (h : S.Shares i) {chart : PlanarChart} {e : Edge}
    (he : e ∈ written true chart) {s : σ}
    (henabled : e.enabled ((S.meaning i).holds · s) = true) :
    S.turnOf s = 0 ∧ S.turnOf ((S.meaning i).run e.effect s) = 1 := by
  obtain ⟨hguard, actions, heffect⟩ := written_turn he
  have hwaits := List.all_eq_true.mp henabled _ hguard
  rw [h.waits] at hwaits
  refine ⟨by simpa using hwaits, ?_⟩
  rw [heffect, Meaning.run_append]
  exact h.hands _

theorem Common.turn_of_feed (h : S.Common) {e : Edge} (he : e ∈ feeds S.interval S.charts)
    (s : σ) :
    e.enabled (S.feeding.holds · s) = (S.turnOf s != 0) ∧
      S.turnOf (S.feeding.run e.effect s) = 0 := by
  have hassigns := h.assigns e he
  obtain ⟨hguard, last, values, heffect⟩ := mem_feeds he
  rw [heffect] at hassigns ⊢
  refine ⟨?_, ?_⟩
  · rw [Edge.enabled, hguard, List.all_cons, List.all_nil, Bool.and_true]
    exact h.feedWaits s
  · have hkept := S.feeding.run_keeps S.turnOf _ hassigns
      (S.feeding.act (turn ++ " = 0") s)
    exact hkept.trans (h.feedHands s)

/-- Each step hands the turn over: one of a chart from 0 to 1, one that feeds back to 0. -/
theorem Move.turn (h : S.Common) (hmove : S.Move style k m k') :
    (m.isChart = true ∧ S.turnOf k.store = 0 ∧ S.turnOf k'.store = 1) ∨
      (m.isChart = false ∧ S.turnOf k.store ≠ 0 ∧ S.turnOf k'.store = 0) := by
  cases hmove with
  | chart i chart place e hchart he hplace hname henabled =>
    exact .inl ⟨rfl, (h.shares i chart hchart).turn_of_chart he henabled⟩
  | feed e he henabled =>
    obtain ⟨hguard, hafter⟩ := h.turn_of_feed he k.store
    rw [hguard] at henabled
    exact .inr ⟨rfl, by simpa using henabled, hafter⟩

/-- In every run the turn is 0 or 1. -/
theorem Trail.turn (h : S.Common) (hrun : S.Trail style ms k) :
    S.turnOf k.store = 0 ∨ S.turnOf k.store = 1 := by
  cases hrun with
  | init => exact .inl h.initially
  | step _ hmove =>
    rcases hmove.turn h with ⟨-, -, hafter⟩ | ⟨-, -, hafter⟩
    · exact .inr hafter
    · exact .inl hafter

theorem Live.exists_step (hturn : S.turnOf k.store = 0 ∨ S.turnOf k.store = 1) (hlive : S.Live k) :
    ∃ k', S.Step k k' := by
  rcases hturn with hturn | hturn
  · obtain ⟨i, chart, place, hchart, hplace, -, e, he, rfl, henabled⟩ := hlive.1 hturn
    exact ⟨_, .chart i, .chart i chart e.source e hchart he hplace rfl henabled⟩
  · obtain ⟨e, he, henabled, -⟩ := hlive.2 hturn
    exact ⟨_, .feeding, .feed e he henabled⟩

/-- Charts have an enabled edge on their turn if one has something to do. -/
theorem Lawful.charts_iff (h : S.Lawful) (hstated : ∀ chart ∈ S.charts, Stated chart.transitions)
    (hturn : S.turnOf k.store = 0) {i : Nat} {chart : PlanarChart}
    (hchart : S.charts[i]? = some chart) (place : Option String) :
    (∃ e ∈ written true chart, e.source = place ∧
      e.enabled ((S.meaning i).holds · k.store) = true) ↔
      Movable ((S.meaning i).holds · k.store) chart place := by
  refine enabled_iff_movable (h.evaluates i chart hchart k.store)
    (hstated chart (List.mem_of_getElem? hchart)) ?_ place
  rw [h.waits, hturn]
  rfl

/-- The feeding process has an enabled edge on its turn if there are inputs. -/
theorem Common.feed_iff (h : S.Common) (hinterval : S.interval.1 ≤ S.interval.2)
    (hturn : S.turnOf k.store = 1) :
    (∃ e ∈ feeds S.interval S.charts, e.enabled (S.feeding.holds · k.store) = true ∧
      S.turnOf (S.feeding.run e.effect k.store) = 0) ↔ inputsOf S.charts ≠ [] := by
  rw [← feeds_ne_nil hinterval]
  constructor
  · rintro ⟨e, he, -⟩
    exact List.ne_nil_of_mem he
  · intro hne
    obtain ⟨e, he⟩ := List.exists_mem_of_ne_nil _ hne
    obtain ⟨hguard, hafter⟩ := h.turn_of_feed he k.store
    exact ⟨e, he, by rw [hguard, hturn]; rfl, hafter⟩

theorem Move.isChart_of_no_inputs (hinputs : inputsOf S.charts = [])
    (hmove : S.Move style k m k') : m.isChart = true := by
  cases hmove with
  | chart => rfl
  | feed e he =>
    simp only [feeds, hinputs, List.isEmpty_nil, if_true] at he
    cases he

/-- Without inputs nobody hands the turn back: every run ends after one step. -/
theorem Step.last_of_no_inputs (h : S.Common) (hinputs : inputsOf S.charts = [])
    (hstep : S.Step k k') : ¬ ∃ k'', S.Step k' k'' := by
  obtain ⟨m, hmove⟩ := hstep
  rintro ⟨k'', m', hnext⟩
  have hchart := hmove.isChart_of_no_inputs hinputs
  have hchart' := hnext.isChart_of_no_inputs hinputs
  rcases hmove.turn h with ⟨-, -, hafter⟩ | ⟨hfeeds, -⟩
  · rcases hnext.turn h with ⟨-, hbefore, -⟩ | ⟨hfeeds, -⟩
    · exact absurd (hbefore.symm.trans hafter) (by decide)
    · exact absurd (hchart'.symm.trans hfeeds) (by decide)
  · exact absurd (hchart.symm.trans hfeeds) (by decide)

end System

/-- Alternating charts and feeding steps go on exactly where whoever has the turn has something to
do. The charts are any that flattening gives. -/
theorem alternation_live_iff {σ : Type} (S : System σ)
    (hcharts : ∀ chart ∈ S.charts, ∃ source lines lines',
      Runs (Planar.flatten source) lines chart lines')
    (hinterval : S.interval.1 ≤ S.interval.2) (hlawful : S.Lawful) {k : Config σ}
    (hk : S.Reachable k) :
    (S.turnOf k.store = 0 ∨ S.turnOf k.store = 1) ∧ (S.Live k ↔ S.Occupied k) ∧
      (S.Live k → ∃ k', S.Step k k') := by
  obtain ⟨ms, hrun⟩ := hk
  have hturn := hrun.turn hlawful.common
  have hstated : ∀ chart ∈ S.charts, Stated chart.transitions := by
    intro chart hchart
    obtain ⟨source, lines, lines', hrun⟩ := hcharts chart hchart
    exact Planar.flatten_conditions hrun
  refine ⟨hturn, and_congr (forall_congr' fun h0 => ?_) (forall_congr' fun h1 => ?_),
    System.Live.exists_step hturn⟩
  · refine exists_congr fun i => exists_congr fun chart => exists_congr fun place => ?_
    refine and_congr_right fun hchart => and_congr_right fun _ => and_congr_right fun _ => ?_
    exact hlawful.charts_iff hstated h0 hchart place
  · exact hlawful.common.feed_iff hinterval h1

/-! ## A chart at rest -/

/-- A chart that goes to its only state and stays there, with nothing to do. -/
def rest (items : List Chart.Item) : Chart :=
  Chart.ofPlace (Chart.drawn "rest"
    ([.state "1" "Rest" [], .transition "11" none "1" "" "1"] ++ items))

/-- The store is the turn. -/
def turnMeaning : Meaning Int where
  holds c s := (c == "not " ++ turn && s == 0) || (c == turn && s != 0)
  act a s := if a == turn ++ " = 1" then 1 else if a == turn ++ " = 0" then 0 else s

def resting (items : List Chart.Item) : System Int where
  charts := [Planar.planarOf (rest items)]
  interval := (0, 1)
  meaning _ := turnMeaning
  feeding := turnMeaning
  turnOf := id
  initial := 0

@[simp]
theorem turnMeaning_waits (s : Int) : turnMeaning.holds ("not " ++ turn) s = (s == 0) := by
  have h : "not " ++ turn ≠ turn := by decide +kernel
  simp [turnMeaning, h]

@[simp]
theorem turnMeaning_hands (s : Int) : turnMeaning.act (turn ++ " = 1") s = 1 := by
  simp [turnMeaning]

@[simp]
theorem turnMeaning_feedWaits (s : Int) : turnMeaning.holds turn s = (s != 0) := by
  have h : turn ≠ "not " ++ turn := by decide +kernel
  simp [turnMeaning, h]

@[simp]
theorem turnMeaning_feedHands (s : Int) : turnMeaning.act (turn ++ " = 0") s = 0 := by
  have h : turn ++ " = 0" ≠ turn ++ " = 1" := by decide +kernel
  simp [turnMeaning, h]

theorem resting_lawful {items : List Chart.Item}
    (hfree : ∀ t ∈ (Planar.planarOf (rest items)).transitions, t.conditions = [])
    (hfeeds : ∀ e ∈ feeds (0, 1) [Planar.planarOf (rest items)], ∀ a ∈ e.effect.tail,
      a ≠ turn ++ " = 1" ∧ a ≠ turn ++ " = 0") : (resting items).Lawful where
  initially := rfl
  waits _ := turnMeaning_waits
  hands _ := turnMeaning_hands
  feedWaits := turnMeaning_feedWaits
  feedHands := turnMeaning_feedHands
  evaluates i chart hchart s := by
    have hmem := List.mem_of_getElem? hchart
    rw [List.mem_singleton.mp hmem]
    refine ⟨?_, fun t ht c hc => ?_, fun t ht hne => absurd (hfree t ht) hne⟩
    · have h : never ≠ "not " ++ turn ∧ never ≠ turn := by decide +kernel
      simp [resting, turnMeaning, h]
    · rw [hfree t ht] at hc
      cases hc
  assigns e he a ha s := by
    obtain ⟨hone, hzero⟩ := hfeeds e he a ha
    simp [resting, turnMeaning, hone, hzero]

/-- An edge without conditions is taken on the turn of the charts. -/
theorem resting_moves {items : List Chart.Item} {style : NameStyle} (source target : Option String)
    (he : (⟨source, target, ["not " ++ turn], [turn ++ " = 1"]⟩ : Edge) ∈
      written true (Planar.planarOf (rest items))) :
    (resting items).Move style ⟨[source], 0⟩ (.chart 0) ⟨[target], 1⟩ := by
  have hafter : turnMeaning.run [turn ++ " = 1"] 0 = 1 := turnMeaning_hands 0
  rw [← hafter]
  exact .chart 0 _ source _ rfl he rfl rfl (by simp [Edge.enabled, resting])

/-- With an input, a chart at rest is fed after its first step, and has nothing to do then. -/
theorem alternation_live_iff_rest :
    let S := resting [.data "x" "int" "INPUT_DATA"]
    (S.Reachable ⟨[some "1"], 1⟩ ∧ S.Live ⟨[some "1"], 1⟩) ∧
      S.Reachable ⟨[some "1"], 0⟩ ∧ ¬ S.Live ⟨[some "1"], 0⟩ := by
  intro S
  -- all that is asked of the flattened chart, so that it is evaluated once
  have hchart : (∀ t ∈ (Planar.planarOf (rest [.data "x" "int" "INPUT_DATA"])).transitions,
        t.conditions = [] ∧ t.source ≠ some "1") ∧
      (∀ e ∈ (Planar.planarOf (rest [.data "x" "int" "INPUT_DATA"])).states.entries,
        e.2.label.during = []) ∧
      (∀ e ∈ feeds (0, 1) [Planar.planarOf (rest [.data "x" "int" "INPUT_DATA"])],
        ∀ a ∈ e.effect.tail, a ≠ turn ++ " = 1" ∧ a ≠ turn ++ " = 0") ∧
      (⟨some "start", some "1", ["not " ++ turn], [turn ++ " = 1"]⟩ : Edge) ∈
        written true (Planar.planarOf (rest [.data "x" "int" "INPUT_DATA"])) ∧
      inputsOf [Planar.planarOf (rest [.data "x" "int" "INPUT_DATA"])] ≠ [] ∧
      ((Planar.flatten (rest [.data "x" "int" "INPUT_DATA"])).run.run .initial).1.isOk = true := by
    decide +kernel
  obtain ⟨hfree, hidle, hfeeds, hedge, hinputs, hok⟩ := hchart
  have hlawful : S.Lawful := resting_lawful (fun t ht => (hfree t ht).1) hfeeds
  have hcharts : ∀ chart ∈ S.charts, ∃ source lines lines',
      Runs (Planar.flatten source) lines chart lines' := by
    intro chart hchart
    rw [List.mem_singleton.mp hchart]
    obtain ⟨lines, hrun⟩ := Planar.runs_planarOf (rest [.data "x" "int" "INPUT_DATA"]) hok
    exact ⟨_, _, lines, hrun⟩
  have hfirst : S.Reachable ⟨[some "1"], 1⟩ :=
    ⟨_, .step .init (resting_moves (some "start") (some "1") hedge)⟩
  have hlive : S.Live ⟨[some "1"], 1⟩ := by
    refine (alternation_live_iff S hcharts (by decide) hlawful hfirst).2.1.mpr ⟨?_, fun _ => ?_⟩
    · exact fun hturn => absurd hturn (by decide)
    · exact hinputs
  have hfed : S.Reachable ⟨[some "1"], 0⟩ := by
    obtain ⟨e, he, henabled, hafter⟩ := hlive.2 rfl
    have hstep := hfirst.step ⟨_, .feed e he henabled⟩
    rwa [show S.feeding.run e.effect 1 = 0 from hafter] at hstep
  refine ⟨⟨hfirst, hlive⟩, hfed, fun hstuck => ?_⟩
  have hbusy := (alternation_live_iff S hcharts (by decide) hlawful hfed).2.1.mp hstuck
  obtain ⟨i, chart, place, hchart, hplace, -, hmove⟩ := hbusy.1 rfl
  have hmem := List.mem_singleton.mp (List.mem_of_getElem? hchart)
  have hplace := List.mem_singleton.mp (List.mem_of_getElem? hplace)
  rw [hmem, hplace] at hmove
  rcases hmove with ⟨t, ht, hsource, -⟩ | ⟨s, hs, hduring⟩
  · exact (hfree t ht).2 hsource
  · exact hduring (hidle _ hs)

/-- Without inputs, a chart at rest is stuck after its first step, though it has not failed. -/
theorem rest_stuck :
    let S := resting []
    (∃ lines, Runs (Planar.flatten (rest [])) .initial (Planar.planarOf (rest [])) lines) ∧
      S.Lawful ∧ S.Reachable ⟨[some "1"], 1⟩ ∧ ¬ ∃ k, S.Step ⟨[some "1"], 1⟩ k := by
  intro S
  have hchart : (∀ t ∈ (Planar.planarOf (rest [])).transitions, t.conditions = []) ∧
      (⟨some "start", some "1", ["not " ++ turn], [turn ++ " = 1"]⟩ : Edge) ∈
        written true (Planar.planarOf (rest [])) ∧
      inputsOf [Planar.planarOf (rest [])] = [] ∧
      ((Planar.flatten (rest [])).run.run .initial).1.isOk = true := by
    decide +kernel
  obtain ⟨hfree, hedge, hinputs, hok⟩ := hchart
  have hlawful : S.Lawful := by
    refine resting_lawful hfree fun e he => ?_
    rw [feeds, hinputs] at he
    cases he
  have hfirst : S.Step ⟨[some "start"], 0⟩ ⟨[some "1"], 1⟩ :=
    ⟨_, resting_moves (some "start") (some "1") hedge⟩
  refine ⟨Planar.runs_planarOf (rest []) hok, hlawful, ?_, ?_⟩
  · exact System.Reachable.step ⟨_, .init⟩ hfirst
  · exact hfirst.last_of_no_inputs hlawful.common hinputs

end Statechart.Dve
