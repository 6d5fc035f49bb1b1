import Statechart.Label.Cache
import Statechart.Proofs.Chart.Lookup
import Statechart.Proofs.Label.Lines

/-!
What a cache shows. The labels of a chart are fixed by its texts (`Chart.stateLabel?`,
`Chart.transitionLabel?`), and a cache shows them unless one was widened in place: looking a
label up gives what the cache shows and changes nothing that it shows. Whatever works on a
chart through its cache is a function of the view.
-/

namespace Statechart

/-! ## The labels that the texts give -/

namespace Chart

/-- The text that is found for the label of a state. -/
def stateText? (chart : Chart) (ssid : Option String) : Option String :=
  (chart.label? "state" ssid).toOption.join

/-- The text that is found for the label of a transition; if there is none it is empty. -/
def transitionText? (chart : Chart) (ssid : Option String) : Option String :=
  (chart.label? "transition" ssid).toOption.map (·.getD "")

/-- The label of a state as its text gives it. -/
def stateLabel? (chart : Chart) (ssid : Option String) : Option StateLabel :=
  (chart.stateText? ssid).bind fun text =>
    ((Label.readState text ssid).run.run .initial).1.toOption.map (·.1)

/-- The label of a transition as its text gives it. -/
def transitionLabel? (chart : Chart) (ssid : Option String) : Option TransitionLabel :=
  (chart.transitionText? ssid).bind fun text =>
    ((Label.readTransition text ssid).run.run .initial).1.toOption.map (·.1)

variable {chart : Chart} {ssid : Option String}

theorem stateText?_eq_some {text : String} :
    chart.stateText? ssid = some text ↔ chart.label? "state" ssid = .ok (some text) := by
  rw [stateText?]
  cases chart.label? "state" ssid <;> simp [Except.toOption]

theorem transitionText?_eq_some {text : String} :
    chart.transitionText? ssid = some text ↔
      ∃ found, chart.label? "transition" ssid = .ok found ∧ found.getD "" = text := by
  rw [transitionText?]
  cases chart.label? "transition" ssid <;> simp [Except.toOption]

/-- The text of a plain identifier is the first one that is there for it. -/
theorem stateText?_plain (h : IsPlain ssid) :
    chart.stateText? ssid = chart.stateLabels.lookup (worded ssid) := by
  rw [stateText?, label?_plain (.inl rfl) h]
  rfl

theorem transitionText?_plain (h : IsPlain ssid) :
    chart.transitionText? ssid = some ((chart.transitionLabels.lookup (worded ssid)).getD "") := by
  rw [transitionText?, label?_plain (.inr rfl) h]
  rfl

theorem stateLabel?_eq {text : String} {l : StateLabel} {vars : Variables} {lines lines' : Lines}
    (ht : chart.stateText? ssid = some text)
    (hl : Runs (Label.readState text ssid) lines (l, vars) lines') :
    chart.stateLabel? ssid = some l := by
  obtain ⟨other, h⟩ := Label.readState_steady text ssid _ _ _ hl .initial
  unfold Runs at h
  simp [stateLabel?, ht, h, Except.toOption]

theorem transitionLabel?_eq {text : String} {l : TransitionLabel} {vars : Variables}
    {lines lines' : Lines} (ht : chart.transitionText? ssid = some text)
    (hl : Runs (Label.readTransition text ssid) lines (l, vars) lines') :
    chart.transitionLabel? ssid = some l := by
  obtain ⟨other, h⟩ := Label.readTransition_steady _ ssid _ _ _ hl .initial
  unfold Runs at h
  simp [transitionLabel?, ht, h, Except.toOption]

/-- The label of a state has a text that reads as it, with the counters wherever they are. -/
theorem text_of_stateLabel? {l : StateLabel} (h : chart.stateLabel? ssid = some l) :
    ∃ text vars, chart.stateText? ssid = some text ∧
      ∀ lines, ∃ lines', Runs (Label.readState text ssid) lines (l, vars) lines' := by
  obtain ⟨text, ht, h⟩ := Option.bind_eq_some_iff.mp h
  obtain ⟨⟨l', vars⟩, hread, rfl⟩ := Option.map_eq_some_iff.mp h
  exact ⟨text, vars, ht, Label.readState_steady text ssid _ _ _ (runs_of_toOption hread)⟩

theorem text_of_transitionLabel? {l : TransitionLabel} (h : chart.transitionLabel? ssid = some l) :
    ∃ text vars, chart.transitionText? ssid = some text ∧
      ∀ lines, ∃ lines', Runs (Label.readTransition text ssid) lines (l, vars) lines' := by
  obtain ⟨text, ht, h⟩ := Option.bind_eq_some_iff.mp h
  obtain ⟨⟨l', vars⟩, hread, rfl⟩ := Option.map_eq_some_iff.mp h
  exact ⟨text, vars, ht, Label.readTransition_steady text ssid _ _ _ (runs_of_toOption hread)⟩

-- Proofs go by the last four lemmas and never run a reader.
attribute [irreducible] stateLabel? transitionLabel?

end Chart

namespace Label

/-! ## Views -/

/-- A label for every identifier. -/
structure View where
  state : Option String → StateLabel
  transition : Option String → TransitionLabel

namespace View

/-- The labels as the texts of a chart give them; one that cannot be read is blank. -/
def original (chart : Chart) : View where
  state ssid := (chart.stateLabel? ssid).getD ⟨"", [], [], []⟩
  transition ssid := (chart.transitionLabel? ssid).getD ⟨"", [], []⟩

def setState (v : View) (ssid : Option String) (l : StateLabel) : View :=
  { v with state := fun k => if ssid = k then l else v.state k }

def setTransition (v : View) (ssid : Option String) (l : TransitionLabel) : View :=
  { v with transition := fun k => if ssid = k then l else v.transition k }

@[simp] theorem setState_transition (v : View) (ssid : Option String) (l : StateLabel) :
    (v.setState ssid l).transition = v.transition := rfl

@[simp] theorem setTransition_state (v : View) (ssid : Option String) (l : TransitionLabel) :
    (v.setTransition ssid l).state = v.state := rfl

@[simp] theorem setState_self (v : View) (ssid : Option String) (l : StateLabel) :
    (v.setState ssid l).state ssid = l := if_pos rfl

@[simp] theorem setTransition_self (v : View) (ssid : Option String) (l : TransitionLabel) :
    (v.setTransition ssid l).transition ssid = l := if_pos rfl

/-- Setting the label that is shown anyway. -/
theorem setState_same (v : View) (ssid : Option String) :
    v.setState ssid (v.state ssid) = v := by
  have e : (fun k => if ssid = k then v.state ssid else v.state k) = v.state := by
    funext k
    by_cases h : ssid = k
    · rw [if_pos h, h]
    · rw [if_neg h]
  simp only [setState, e]

@[simp] theorem setState_setState (v : View) (ssid : Option String) (l l' : StateLabel) :
    (v.setState ssid l).setState ssid l' = v.setState ssid l' := by
  have e : (fun k => if ssid = k then l' else if ssid = k then l else v.state k) =
      fun k => if ssid = k then l' else v.state k := by
    funext k
    by_cases h : ssid = k
    · rw [if_pos h, if_pos h]
    · rw [if_neg h, if_neg h, if_neg h]
  simp only [setState, e]

theorem setState_of_ne (v : View) {ssid k : Option String} (l : StateLabel) (h : ssid ≠ k) :
    (v.setState ssid l).state k = v.state k := if_neg h

theorem setTransition_of_ne (v : View) {ssid k : Option String} (l : TransitionLabel)
    (h : ssid ≠ k) : (v.setTransition ssid l).transition k = v.transition k := if_neg h

/-- Setting the label that is shown anyway. -/
theorem setTransition_same (v : View) (ssid : Option String) :
    v.setTransition ssid (v.transition ssid) = v := by
  have e : (fun k => if ssid = k then v.transition ssid else v.transition k) = v.transition := by
    funext k
    by_cases h : ssid = k
    · rw [if_pos h, h]
    · rw [if_neg h]
  simp only [setTransition, e]

@[simp] theorem setTransition_setTransition (v : View) (ssid : Option String)
    (l l' : TransitionLabel) :
    (v.setTransition ssid l).setTransition ssid l' = v.setTransition ssid l' := by
  have e : (fun k => if ssid = k then l' else if ssid = k then l else v.transition k) =
      fun k => if ssid = k then l' else v.transition k := by
    funext k
    by_cases h : ssid = k
    · rw [if_pos h, if_pos h]
    · rw [if_neg h, if_neg h, if_neg h]
  simp only [setTransition, e]

end View

namespace Cache

variable {chart : Chart} {c c' c'' : Cache}

def view (chart : Chart) (c : Cache) : View where
  state ssid := (c.states.get? ssid).getD ((View.original chart).state ssid)
  transition ssid := (c.transitions.get? ssid).getD ((View.original chart).transition ssid)

/-- Only labels that can be read are kept. -/
structure Kept (chart : Chart) (c : Cache) : Prop where
  state : ∀ ssid, (c.states.get? ssid).isSome → (chart.stateLabel? ssid).isSome
  transition : ∀ ssid, (c.transitions.get? ssid).isSome → (chart.transitionLabel? ssid).isSome

/-- From `c` to `c'` labels were looked up and none was changed. -/
structure Looked (chart : Chart) (c c' : Cache) : Prop where
  view : c'.view chart = c.view chart
  kept : c'.Kept chart

theorem Kept.looked (h : c.Kept chart) : Looked chart c c := ⟨rfl, h⟩

theorem Looked.trans (h : Looked chart c c') (h' : Looked chart c' c'') : Looked chart c c'' :=
  ⟨h'.view.trans h.view, h'.kept⟩

theorem kept_fresh (chart : Chart) (lines : Lines) : (fresh lines).Kept chart := by
  constructor <;> intro ssid h <;> simp [fresh] at h

theorem view_fresh (chart : Chart) (lines : Lines) :
    (fresh lines).view chart = View.original chart := by
  simp only [view, fresh, Table.get?_empty, Option.getD_none]

/-- Reading a text leaves the labels of the cache alone. -/
theorem runs_reading {α : Type} {r : Reading α} {a : α} (h : Runs (reading r) c a c') :
    ∃ lines, Runs r c.lines a lines ∧ c' = { c with lines } := by
  have e : (reading r).run.run c =
      ((r.run.run c.lines).1, { c with lines := (r.run.run c.lines).2 }) := rfl
  unfold Runs at h
  rw [e] at h
  obtain ⟨ha, rfl⟩ := Prod.mk.inj h
  exact ⟨(r.run.run c.lines).2, Prod.ext ha rfl, rfl⟩

theorem reading_runs {α : Type} {r : Reading α} {a : α} {lines : Lines}
    (h : Runs r c.lines a lines) : Runs (reading r) c a { c with lines } := by
  have e : (reading r).run.run c =
      ((r.run.run c.lines).1, { c with lines := (r.run.run c.lines).2 }) := rfl
  unfold Runs at h ⊢
  rw [e, h]

/-- The cache with one more label, which is the one it showed before. -/
theorem view_insert_state (ssid : Option String) (vars : Variables) (lines : Lines)
    {l : StateLabel} (hl : chart.stateLabel? ssid = some l) (hn : c.states.get? ssid = none) :
    view chart { c with states := c.states.insert ssid l, vars, lines } = c.view chart := by
  simp only [view, Table.get?_insert, View.mk.injEq, and_true]
  funext k
  by_cases h : ssid = k
  · subst h
    simp [hn, View.original, hl]
  · simp [h]

theorem view_insert_transition (ssid : Option String) (vars : Variables) (lines : Lines)
    {l : TransitionLabel} (hl : chart.transitionLabel? ssid = some l)
    (hn : c.transitions.get? ssid = none) :
    view chart { c with transitions := c.transitions.insert ssid l, vars, lines } =
      c.view chart := by
  simp only [view, Table.get?_insert, View.mk.injEq, true_and]
  funext k
  by_cases h : ssid = k
  · subst h
    simp [hn, View.original, hl]
  · simp [h]

theorem Kept.insert_state (hc : c.Kept chart) (ssid : Option String) (l : StateLabel)
    (vars : Variables) (lines : Lines) (hl : (chart.stateLabel? ssid).isSome) :
    Kept chart { c with states := c.states.insert ssid l, vars, lines } := by
  refine ⟨fun k h => ?_, hc.transition⟩
  by_cases e : ssid = k
  · exact e ▸ hl
  · rw [Table.get?_insert, if_neg e] at h
    exact hc.state k h

theorem Kept.insert_transition (hc : c.Kept chart) (ssid : Option String) (l : TransitionLabel)
    (vars : Variables) (lines : Lines) (hl : (chart.transitionLabel? ssid).isSome) :
    Kept chart { c with transitions := c.transitions.insert ssid l, vars, lines } := by
  refine ⟨hc.state, fun k h => ?_⟩
  by_cases e : ssid = k
  · exact e ▸ hl
  · rw [Table.get?_insert, if_neg e] at h
    exact hc.transition k h

/-- Looking up a state gives the label that is kept. If none is kept, the text is read, and the
label and its variables are kept from then on. -/
theorem runs_state_iff {ssid : Option String} {l : StateLabel} :
    Runs (state chart ssid) c l c' ↔
      (c.states.get? ssid = some l ∧ c' = c) ∨
      (c.states.get? ssid = none ∧
        ∃ text vars lines, chart.stateText? ssid = some text ∧
          Runs (readState text ssid) c.lines (l, vars) lines ∧
          c' = { c with states := c.states.insert ssid l, vars := c.vars.merge vars, lines }) := by
  unfold state
  constructor
  · intro h
    obtain ⟨c₁, c₂, hg, h⟩ := runs_bind.mp h
    obtain ⟨rfl, rfl⟩ := runs_get.mp hg
    cases hs : c.states.get? ssid with
    | some l₀ =>
      simp only [hs] at h
      obtain ⟨rfl, rfl⟩ := runs_pure.mp h
      exact .inl ⟨rfl, rfl⟩
    | none =>
      simp only [hs] at h
      obtain ⟨found, c₂, hfind, h⟩ := runs_bind.mp h
      obtain ⟨ht, rfl⟩ := runs_lift.mp hfind
      cases found with
      | none => exact absurd h not_runs_throw
      | some text =>
        obtain ⟨⟨l₁, vars⟩, c₃, hr, h⟩ := runs_bind.mp h
        obtain ⟨lines, hread, rfl⟩ := runs_reading hr
        obtain ⟨u, c₄, hm, h⟩ := runs_bind.mp h
        obtain rfl := runs_modify.mp hm
        obtain ⟨rfl, rfl⟩ := runs_pure.mp h
        exact .inr ⟨rfl, text, vars, lines, Chart.stateText?_eq_some.mpr ht, hread, rfl⟩
  · rintro (⟨hs, rfl⟩ | ⟨hs, text, vars, lines, ht, hread, rfl⟩)
    · refine runs_bind.mpr ⟨c', c', runs_get.mpr ⟨rfl, rfl⟩, ?_⟩
      simp only [hs]
      exact runs_pure.mpr ⟨rfl, rfl⟩
    · refine runs_bind.mpr ⟨c, c, runs_get.mpr ⟨rfl, rfl⟩, ?_⟩
      simp only [hs]
      refine runs_bind.mpr ⟨some text, c, runs_lift.mpr ⟨Chart.stateText?_eq_some.mp ht, rfl⟩, ?_⟩
      refine runs_bind.mpr ⟨(l, vars), _, reading_runs hread, ?_⟩
      exact runs_bind.mpr ⟨(), _, runs_modify.mpr rfl, runs_pure.mpr ⟨rfl, rfl⟩⟩

theorem runs_transition_iff {ssid : Option String} {l : TransitionLabel} :
    Runs (transition chart ssid) c l c' ↔
      (c.transitions.get? ssid = some l ∧ c' = c) ∨
      (c.transitions.get? ssid = none ∧
        ∃ text vars lines, chart.transitionText? ssid = some text ∧
          Runs (readTransition text ssid) c.lines (l, vars) lines ∧
          c' = { c with
            transitions := c.transitions.insert ssid l, vars := c.vars.merge vars, lines }) := by
  unfold transition
  constructor
  · intro h
    obtain ⟨c₁, c₂, hg, h⟩ := runs_bind.mp h
    obtain ⟨rfl, rfl⟩ := runs_get.mp hg
    cases hs : c.transitions.get? ssid with
    | some l₀ =>
      simp only [hs] at h
      obtain ⟨rfl, rfl⟩ := runs_pure.mp h
      exact .inl ⟨rfl, rfl⟩
    | none =>
      simp only [hs] at h
      obtain ⟨found, c₂, hfind, h⟩ := runs_bind.mp h
      obtain ⟨ht, rfl⟩ := runs_lift.mp hfind
      obtain ⟨⟨l₁, vars⟩, c₃, hr, h⟩ := runs_bind.mp h
      obtain ⟨lines, hread, rfl⟩ := runs_reading hr
      obtain ⟨u, c₄, hm, h⟩ := runs_bind.mp h
      obtain rfl := runs_modify.mp hm
      obtain ⟨rfl, rfl⟩ := runs_pure.mp h
      exact .inr ⟨rfl, _, vars, lines, Chart.transitionText?_eq_some.mpr ⟨found, ht, rfl⟩, hread,
        rfl⟩
  · rintro (⟨hs, rfl⟩ | ⟨hs, text, vars, lines, ht, hread, rfl⟩)
    · refine runs_bind.mpr ⟨c', c', runs_get.mpr ⟨rfl, rfl⟩, ?_⟩
      simp only [hs]
      exact runs_pure.mpr ⟨rfl, rfl⟩
    · refine runs_bind.mpr ⟨c, c, runs_get.mpr ⟨rfl, rfl⟩, ?_⟩
      simp only [hs]
      obtain ⟨found, hfind, rfl⟩ := Chart.transitionText?_eq_some.mp ht
      refine runs_bind.mpr ⟨found, c, runs_lift.mpr ⟨hfind, rfl⟩, ?_⟩
      refine runs_bind.mpr ⟨(l, vars), _, reading_runs hread, ?_⟩
      exact runs_bind.mpr ⟨(), _, runs_modify.mpr rfl, runs_pure.mpr ⟨rfl, rfl⟩⟩

/-- Looking up a state gives the label that the cache shows. -/
theorem runs_state (hc : c.Kept chart) {ssid : Option String} {l : StateLabel}
    (h : Runs (state chart ssid) c l c') :
    l = (c.view chart).state ssid ∧ (chart.stateLabel? ssid).isSome ∧ Looked chart c c' := by
  rcases runs_state_iff.mp h with ⟨hs, rfl⟩ | ⟨hs, text, vars, lines, ht, hread, rfl⟩
  · exact ⟨by simp [view, hs], hc.state ssid (by simp [hs]), hc.looked⟩
  · have hl : chart.stateLabel? ssid = some l := Chart.stateLabel?_eq ht hread
    refine ⟨by simp [view, hs, View.original, hl], by simp [hl], ?_, ?_⟩
    · exact view_insert_state ssid _ lines hl hs
    · exact hc.insert_state ssid l _ lines (by simp [hl])

/-- Looking up a transition gives the label that the cache shows. -/
theorem runs_transition (hc : c.Kept chart) {ssid : Option String} {l : TransitionLabel}
    (h : Runs (transition chart ssid) c l c') :
    l = (c.view chart).transition ssid ∧ (chart.transitionLabel? ssid).isSome ∧
      Looked chart c c' := by
  rcases runs_transition_iff.mp h with ⟨hs, rfl⟩ | ⟨hs, text, vars, lines, ht, hread, rfl⟩
  · exact ⟨by simp [view, hs], hc.transition ssid (by simp [hs]), hc.looked⟩
  · have hl : chart.transitionLabel? ssid = some l := Chart.transitionLabel?_eq ht hread
    refine ⟨by simp [view, hs, View.original, hl], by simp [hl], ?_, ?_⟩
    · exact view_insert_transition ssid _ lines hl hs
    · exact hc.insert_transition ssid l _ lines (by simp [hl])

/-- A label that can be read can be looked up. -/
theorem exists_state {ssid : Option String} (hread : (chart.stateLabel? ssid).isSome) (c : Cache) :
    ∃ l c', Runs (state chart ssid) c l c' := by
  obtain ⟨l, hl⟩ := Option.isSome_iff_exists.mp hread
  obtain ⟨text, vars, ht, hlines⟩ := Chart.text_of_stateLabel? hl
  obtain ⟨lines, hlines⟩ := hlines c.lines
  cases hs : c.states.get? ssid with
  | some l₀ => exact ⟨l₀, c, runs_state_iff.mpr (.inl ⟨hs, rfl⟩)⟩
  | none => exact ⟨l, _, runs_state_iff.mpr (.inr ⟨hs, text, vars, lines, ht, hlines, rfl⟩)⟩

theorem exists_transition {ssid : Option String} (hread : (chart.transitionLabel? ssid).isSome)
    (c : Cache) : ∃ l c', Runs (transition chart ssid) c l c' := by
  obtain ⟨l, hl⟩ := Option.isSome_iff_exists.mp hread
  obtain ⟨text, vars, ht, hlines⟩ := Chart.text_of_transitionLabel? hl
  obtain ⟨lines, hlines⟩ := hlines c.lines
  cases hs : c.transitions.get? ssid with
  | some l₀ => exact ⟨l₀, c, runs_transition_iff.mpr (.inl ⟨hs, rfl⟩)⟩
  | none => exact ⟨l, _, runs_transition_iff.mpr (.inr ⟨hs, text, vars, lines, ht, hlines, rfl⟩)⟩

theorem runs_setState (hc : c.Kept chart) {ssid : Option String} {l : StateLabel} {u : Unit}
    (hl : (chart.stateLabel? ssid).isSome) (h : Runs (setState ssid l) c u c') :
    c'.view chart = (c.view chart).setState ssid l ∧ c'.Kept chart := by
  obtain rfl := runs_modify.mp h
  refine ⟨?_, hc.insert_state ssid l c.vars c.lines hl⟩
  simp only [view, View.setState, Table.get?_insert, View.mk.injEq, and_true]
  funext k
  by_cases e : ssid = k <;> simp [e]

theorem runs_setTransition (hc : c.Kept chart) {ssid : Option String} {l : TransitionLabel}
    {u : Unit} (hl : (chart.transitionLabel? ssid).isSome)
    (h : Runs (setTransition ssid l) c u c') :
    c'.view chart = (c.view chart).setTransition ssid l ∧ c'.Kept chart := by
  obtain rfl := runs_modify.mp h
  refine ⟨?_, hc.insert_transition ssid l c.vars c.lines hl⟩
  simp only [view, View.setTransition, Table.get?_insert, View.mk.injEq, true_and]
  funext k
  by_cases e : ssid = k <;> simp [e]

end Cache

end Label

end Statechart
