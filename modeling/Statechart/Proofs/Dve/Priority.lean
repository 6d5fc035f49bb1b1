import Statechart.Proofs.Compile

/-!
Priorities in the text of a process. The text is the one that the edges which are not dead give,
and it is there if all states have names (`writes_process_iff`). Under an evaluator that reads
guards as they are meant, an edge in it can be taken exactly if its transition can and none of
smaller priority from the same state can; what is dead and left out could not be taken
(`priority_realised`).
-/

namespace Statechart.Dve

/-! ## The text of a process -/

/-- Lines of edges, with the word for transitions before the first. -/
def sectionTexts : List String → List String
  | [] => []
  | s :: ss => ("\ttrans\n" ++ s) :: ss

/-- The process of a chart whose states are named by `name`, line by line. -/
def processTexts (opts : Options) (chart : PlanarChart) (name : Option String → String) :
    List String :=
  processHead opts chart ++ [stateLine (chart.states.keys.map name)] ++
    sectionTexts ((written opts.alternate chart).map fun e =>
      edgeLine (name e.source) (name e.target) e.guard e.effect) ++ ["\x7d\n\n"]

/-- The states of a chart and the ends of its transitions are named by `name`. -/
structure Names (opts : Options) (chart : PlanarChart) (name : Option String → String) : Prop where
  states : ∀ k ∈ chart.states.keys, stateId opts.names chart.states k = .ok (name k)
  sources : ∀ t ∈ chart.transitions, stateId opts.names chart.states t.source = .ok (name t.source)
  targets : ∀ t ∈ chart.transitions, stateId opts.names chart.states t.target = .ok (name t.target)

variable {opts : Options} {chart : PlanarChart} {name : Option String → String}

theorem Names.ends (h : Names opts chart name) {alternate : Bool} {e : Edge}
    (he : e ∈ edges alternate chart ++ loops alternate chart) :
    stateId opts.names chart.states e.source = .ok (name e.source) ∧
      stateId opts.names chart.states e.target = .ok (name e.target) := by
  rcases List.mem_append.mp he with he | he
  · obtain ⟨t, ht, rfl⟩ := List.mem_map.mp he
    exact ⟨h.sources t ht, h.targets t ht⟩
  · obtain ⟨s, hs, rfl⟩ := List.mem_map.mp he
    have hkey := h.states s.1 (List.mem_map_of_mem (List.mem_filter.mp hs).1)
    exact ⟨hkey, hkey⟩

theorem edgeSection_ok (ls : List (Option String)) :
    edgeSection (ls.map .ok) = (sectionTexts (ls.filterMap id)).map .ok := by
  unfold edgeSection
  simp only [List.filterMap_map]
  rw [show ls.filterMap _ = (ls.filterMap id).map .ok from ?_]
  · cases (ls.filterMap id) <;> rfl
  · induction ls with
    | nil => rfl
    | cons l ls ih =>
      cases l with
      | none => exact ih
      | some s => exact congrArg (.ok s :: ·) ih

theorem filterMap_alive (line : Edge → String) (es : List Edge) :
    (es.map fun e => if e.isDead then none else some (line e)).filterMap id =
      (es.filter (!·.isDead)).map line := by
  induction es with
  | nil => rfl
  | cons e es ih => cases hdead : e.isDead <;> simp_all

/-- A line that fails makes its section fail. -/
theorem ok_of_edgeSection {lines : List (Except Fault (Option String))}
    (h : ∀ piece ∈ edgeSection lines, ∃ s, piece = .ok s) : ∀ l ∈ lines, ∃ s, l = .ok s := by
  intro l hl
  cases l with
  | ok s => exact ⟨s, rfl⟩
  | error f =>
    have hnot : .error f ∉ edgeSection lines := by
      intro hmem
      obtain ⟨s, hs⟩ := h _ hmem
      cases hs
    refine absurd ?_ hnot
    unfold edgeSection
    dsimp only
    split
    · next hnil =>
      have hnone := List.filterMap_eq_nil_iff.mp hnil _ hl
      cases hnone
    · next p ps heq =>
      have hmem : .error f ∈ p :: ps := by
        rw [← heq]
        exact List.mem_filterMap.mpr ⟨_, hl, rfl⟩
      rcases List.mem_cons.mp hmem with rfl | hmem
      · exact List.mem_cons_self ..
      · exact List.mem_cons_of_mem _ hmem

/-- An edge with a line has both its ends named. -/
theorem ends_of_line? {style : NameStyle} {states : Table (Option String) PlanarState} {e : Edge}
    {l : Option String} (h : e.line? style states = .ok l) :
    (∃ source, stateId style states e.source = .ok source) ∧
      ∃ target, stateId style states e.target = .ok target := by
  obtain ⟨source, hsource, h⟩ := bind_eq_ok.mp h
  obtain ⟨target, htarget, -⟩ := bind_eq_ok.mp h
  exact ⟨⟨source, hsource⟩, target, htarget⟩

theorem Names.pieces (h : Names opts chart name) :
    processPieces opts chart = (processTexts opts chart name).map .ok := by
  have hlines : (edges opts.alternate chart ++ loops opts.alternate chart).map
      (·.line? opts.names chart.states) =
      ((edges opts.alternate chart ++ loops opts.alternate chart).map fun e =>
        if e.isDead then none
        else some (edgeLine (name e.source) (name e.target) e.guard e.effect)).map .ok := by
    rw [List.map_map]
    refine List.map_congr_left fun e he => ?_
    obtain ⟨hsource, htarget⟩ := h.ends he
    exact line?_eq hsource htarget
  rw [processPieces_eq, stateSection_eq (mapM_eq_map h.states), edgePieces, hlines, edgeSection_ok,
    filterMap_alive]
  simp [processTexts, written]

/-- Where all pieces of a process are texts, its states have names. -/
theorem exists_names {ss : List String} (h : processPieces opts chart = ss.map .ok) :
    ∃ name, Names opts chart name := by
  have hok : ∀ piece ∈ processPieces opts chart, ∃ s, piece = .ok s := by
    rw [h]
    simp
  rw [processPieces_eq] at hok
  have hstates : ∀ k ∈ chart.states.keys, ∃ n, stateId opts.names chart.states k = .ok n := by
    obtain ⟨s, hs⟩ := hok (stateSection opts.names chart.states) (by simp)
    obtain ⟨names, hnames, -⟩ := bind_eq_ok.mp hs
    exact exists_ok_of_mapM hnames
  have hends : ∀ t ∈ chart.transitions, (∃ n, stateId opts.names chart.states t.source = .ok n) ∧
      ∃ n, stateId opts.names chart.states t.target = .ok n := by
    intro t ht
    have hedges : ∀ piece ∈ edgePieces opts chart, ∃ s, piece = .ok s :=
      fun piece hp => hok piece (by simp [hp])
    have he : edgeOf opts.alternate chart.transitions t ∈
        edges opts.alternate chart ++ loops opts.alternate chart :=
      List.mem_append_left _ (List.mem_map_of_mem ht)
    obtain ⟨l, hl⟩ := ok_of_edgeSection hedges _ (List.mem_map_of_mem he)
    exact ends_of_line? hl
  refine ⟨fun k => (stateId opts.names chart.states k).toOption.getD "", ?_, ?_, ?_⟩
  · intro k hk
    obtain ⟨n, hn⟩ := hstates k hk
    simp [hn, Except.toOption]
  · intro t ht
    obtain ⟨n, hn⟩ := (hends t ht).1
    simp [hn, Except.toOption]
  · intro t ht
    obtain ⟨n, hn⟩ := (hends t ht).2
    simp [hn, Except.toOption]

/-- A process is written just if there are names for its states, and then as one text. -/
theorem writes_process_iff {text : String} :
    Writes (processPieces opts chart) text ↔
      ∃ name, Names opts chart name ∧ text = String.join (processTexts opts chart name) := by
  constructor
  · intro h
    obtain ⟨ss, hss, rfl⟩ := h.texts
    obtain ⟨name, hname⟩ := exists_names hss
    refine ⟨name, hname, ?_⟩
    rw [hname.pieces] at hss
    rw [List.map_injective_iff.mpr (fun a b h => Except.ok.inj h) hss]
  · rintro ⟨name, hname, rfl⟩
    rw [hname.pieces]
    exact writes_texts _

/-! ## Which edges can be taken -/

variable {ev : String → Bool}

theorem mem_written_of_enabled (h : Evaluates ev chart.transitions) {alternate : Bool} {e : Edge}
    (he : e ∈ edges alternate chart ++ loops alternate chart) (henabled : e.enabled ev = true) :
    e ∈ written alternate chart :=
  List.mem_filter.mpr ⟨he, by simp [not_dead_of_enabled h henabled]⟩

/-- An edge can be taken if its transition can and no transition comes before it that can. -/
theorem enabled_edgeOf_iff (h : Evaluates ev chart.transitions) (hs : Stated chart.transitions)
    (t : PlanarTransition) :
    (edgeOf false chart.transitions t).enabled ev = true ↔ t.conditions.all ev = true ∧
      ∀ u ∈ chart.transitions, u.source = t.source → u.priority < t.priority →
        u.conditions.all ev = false := by
  have hrivals : ((rivals chart.transitions t).all fun u => !u.conditions.all ev) = true ↔
      ∀ u ∈ chart.transitions, u.source = t.source → u.priority < t.priority →
        u.conditions.all ev = false := by
    rw [List.all_eq_true]
    simp only [rivals, List.mem_filter, Bool.and_eq_true, beq_iff_eq,
      PlanarTransition.before_iff, Bool.not_eq_true', and_imp]
  rw [enabled_edgeOf h hs, Bool.and_eq_true, Bool.and_eq_true, hrivals]
  exact and_congr_left fun _ => and_iff_left rfl

/-- A loop can be taken if no transition from its state can. -/
theorem enabled_loopOf_iff (h : Evaluates ev chart.transitions) (hs : Stated chart.transitions)
    (ssid : Option String) (s : PlanarState) :
    (loopOf false chart.transitions ssid s).enabled ev = true ↔
      ∀ t ∈ chart.transitions, t.source = ssid → t.conditions.all ev = false := by
  rw [enabled_loopOf h hs, show (turnGuard false).all ev = true from rfl, Bool.true_and,
    List.all_eq_true]
  simp only [List.mem_filter, beq_iff_eq, Bool.not_eq_true', and_imp]

/-- Without alternation, what is written are the edges that are not dead. A transition has an edge
there that can be taken just if its conditions hold and those of no transition from the same state
with smaller priority do, a state with during actions has a loop there that can be taken just if
no transition from it can be, and what is not written could not be taken. -/
theorem priority_realised (opts : Options) (halternate : opts.alternate = false)
    (h : Evaluates ev chart.transitions) (hs : Stated chart.transitions) :
    (∀ text, Writes (processPieces opts chart) text ↔
      ∃ name, Names opts chart name ∧ text = String.join (processTexts opts chart name)) ∧
    (∀ t ∈ chart.transitions,
      (edgeOf false chart.transitions t ∈ written opts.alternate chart ∧
        (edgeOf false chart.transitions t).enabled ev = true) ↔
      t.conditions.all ev = true ∧ ∀ u ∈ chart.transitions, u.source = t.source →
        u.priority < t.priority → u.conditions.all ev = false) ∧
    (∀ ssid s, (ssid, s) ∈ chart.states.entries → s.label.during ≠ [] →
      ((loopOf false chart.transitions ssid s ∈ written opts.alternate chart ∧
        (loopOf false chart.transitions ssid s).enabled ev = true) ↔
      ∀ t ∈ chart.transitions, t.source = ssid → t.conditions.all ev = false)) ∧
    ∀ e ∈ edges false chart ++ loops false chart, e ∉ written opts.alternate chart →
      e.enabled ev = false := by
  rw [halternate]
  refine ⟨fun text => writes_process_iff, fun t ht => ?_, fun ssid s hmem hduring => ?_,
    fun e he hnot => ?_⟩
  · rw [← enabled_edgeOf_iff h hs]
    have he : edgeOf false chart.transitions t ∈ edges false chart := List.mem_map_of_mem ht
    exact and_iff_right_of_imp (mem_written_of_enabled h (List.mem_append_left _ he))
  · rw [← enabled_loopOf_iff h hs ssid s]
    have he : loopOf false chart.transitions ssid s ∈ loops false chart :=
      List.mem_map.mpr ⟨(ssid, s), List.mem_filter.mpr ⟨hmem, by simpa using hduring⟩, rfl⟩
    exact and_iff_right_of_imp (mem_written_of_enabled h (List.mem_append_right _ he))
  · exact Bool.of_not_eq_true fun henabled => hnot (mem_written_of_enabled h he henabled)

/-- A junction: in `1` there are two transitions of one priority behind a third, and in `2` a
transition that is always taken stands before another. -/
def junction : PlanarChart where
  id := some "1"
  name := some "junction"
  states := .ofList [(some "1", ⟨"Wait", ⟨"Wait", [], ["c = 1"], []⟩, []⟩),
    (some "2", ⟨"Pass", ⟨"Pass", [], [], []⟩, []⟩), (some "start", Planar.bareState "start"),
    (some "error", Planar.bareState "error")]
  transitions := [⟨some "11", some "1", some "2", ["a > 0"], [], 1, 1, 1⟩,
    ⟨some "12", some "1", some "2", ["b > 0"], ["c = 0"], 1, 1, 2⟩,
    ⟨some "13", some "1", some "error", ["b > 0"], [], 1, 1, 2⟩,
    ⟨some "14", some "2", some "1", [], [], 1, 1, 1⟩,
    ⟨some "15", some "2", some "2", ["a > 0"], [], 1, 1, 2⟩]
  vars := .empty

theorem priority_realised_junction :
    let ev := fun c => ["b > 0", "not (a > 0)"].contains c
    Evaluates ev junction.transitions ∧ Stated junction.transitions ∧
      ((written false junction).filter (·.enabled ev)).map (fun e => (e.source, e.guard)) =
        [(some "1", ["b > 0", "not (a > 0)"]), (some "1", ["b > 0", "not (a > 0)"]),
          (some "2", [])] ∧
      ∀ t ∈ junction.transitions, t.ssid = some "12" →
        edgeOf false junction.transitions t ∈ written false junction ∧
          (edgeOf false junction.transitions t).enabled ev = true := by
  intro ev
  have hev : Evaluates ev junction.transitions := ⟨by decide, by decide, by decide⟩
  have hs : Stated junction.transitions := by unfold Stated; decide
  obtain ⟨-, hedges, -, -⟩ := priority_realised ⟨.id, none, false⟩ rfl hev hs
  refine ⟨hev, hs, by decide, fun t ht hssid => (hedges t ht).mpr ?_⟩
  revert t
  decide

end Statechart.Dve
