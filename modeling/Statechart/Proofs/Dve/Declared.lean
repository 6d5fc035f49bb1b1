import Statechart.Proofs.Chart.Drawn
import Statechart.Proofs.Dve.Guards
import Statechart.Proofs.Planar.Leaves

/-!
States are declared before they are used. If the ends of transitions have no quotation mark in
them, a flattened chart has every state that its transitions name, so writing its process finds
them all, and the ends of every edge that is written are among the names in the declaration of
states (`ends_declared`). What can be missing is an identifier to write: that ends the writing with
the declaration itself.
-/

namespace Statechart.Dve

open Planar (HasLeaf)

/-! ## Pieces of text -/

theorem Output.extend_append (text : String) (ss : List String) (ps : Pieces) :
    extend text (ss.map .ok ++ ps) = extend (text ++ String.join ss) ps := by
  induction ss generalizing text with
  | nil => simp
  | cons s ss ih =>
    rw [List.map_cons, List.cons_append, extend, ih, String.join_cons, String.append_assoc]

theorem Output.fault_extend {ps : Pieces} (h : ∀ piece ∈ ps, ∃ s, piece = .ok s) (text : String) :
    (extend text ps).fault = none := by
  induction ps generalizing text with
  | nil => rfl
  | cons piece ps ih =>
    obtain ⟨s, rfl⟩ := h piece (List.mem_cons_self ..)
    exact ih (fun piece hp => h piece (List.mem_cons_of_mem _ hp)) _

/-- The lines of a section, if none fails. -/
theorem mem_edgeSection {lines : List (Except Fault (Option String))} {piece : Except Fault String}
    (hok : ∀ l ∈ lines, ∃ s, l = .ok s) (h : piece ∈ edgeSection lines) :
    ∃ s, .ok (some s) ∈ lines ∧ (piece = .ok s ∨ piece = .ok ("\ttrans\n" ++ s)) := by
  unfold edgeSection at h
  simp only at h
  split at h
  · cases h
  · next p ps heq =>
    have hwritten : ∀ q ∈ p :: ps, ∃ s, .ok (some s) ∈ lines ∧ q = .ok s := by
      rw [← heq]
      intro q hq
      obtain ⟨l, hl, hq⟩ := List.mem_filterMap.mp hq
      obtain ⟨s?, rfl⟩ := hok l hl
      cases s? with
      | none => cases hq
      | some s =>
        cases hq
        exact ⟨s, hl, rfl⟩
    rcases List.mem_cons.mp h with rfl | h
    · obtain ⟨s, hs, rfl⟩ := hwritten p (List.mem_cons_self ..)
      exact ⟨s, hs, .inr rfl⟩
    · obtain ⟨s, hs, rfl⟩ := hwritten piece (List.mem_cons_of_mem _ h)
      exact ⟨s, hs, .inl rfl⟩

/-! ## Names -/

/-- The one thing that a state of a table can lack is an identifier, where that is its name. -/
theorem stateId_of_mem {states : Table (Option String) PlanarState} {ssid : Option String}
    (h : ssid ∈ states.keys) (style : NameStyle) :
    (∃ name, stateId style states ssid = .ok name) ∨
      (style = .id ∧ ssid = none ∧ stateId style states ssid = .error .missingText) := by
  obtain ⟨s, hs⟩ := Option.isSome_iff_exists.mp (Table.isSome_get?.mpr h)
  unfold stateId
  split
  · next hplain =>
    cases ssid with
    | some name => exact .inl ⟨_, rfl⟩
    | none => exact .inr ⟨by simpa using hplain, rfl, rfl⟩
  · rw [hs]
    exact .inl ⟨_, rfl⟩

/-- Every transition goes between states of the chart. -/
def Linked (chart : PlanarChart) : Prop :=
  ∀ t ∈ chart.transitions, t.source ∈ chart.states.keys ∧ t.target ∈ chart.states.keys

theorem Linked.edge {chart : PlanarChart} (h : Linked chart) {alternate : Bool} {e : Edge}
    (he : e ∈ edges alternate chart ++ loops alternate chart) :
    e.source ∈ chart.states.keys ∧ e.target ∈ chart.states.keys := by
  rcases List.mem_append.mp he with he | he
  · obtain ⟨t, ht, rfl⟩ := List.mem_map.mp he
    exact h t ht
  · obtain ⟨s, hs, rfl⟩ := List.mem_map.mp he
    have hkey : s.1 ∈ chart.states.keys := List.mem_map_of_mem (List.mem_filter.mp hs).1
    exact ⟨hkey, hkey⟩

/-- The declaration of states with these names. -/
def stateLine (names : List String) : String :=
  "\tstate " ++ ", ".intercalate names ++ ";\n\tinit state_start;\n"

/-- What is written ahead of the declaration of states. -/
def processHead (opts : Options) (chart : PlanarChart) : List String :=
  ("process " ++ processName opts.names chart ++ " \x7b\n") ::
    chart.vars.entries.map fun e => declaration opts e.1 e.2

/-- The pieces for edges. -/
def edgePieces (opts : Options) (chart : PlanarChart) : Pieces :=
  edgeSection ((edges opts.alternate chart ++ loops opts.alternate chart).map
    (·.line? opts.names chart.states))

theorem processPieces_eq (opts : Options) (chart : PlanarChart) :
    processPieces opts chart = (processHead opts chart).map .ok ++
      stateSection opts.names chart.states :: (edgePieces opts chart ++ [.ok "\x7d\n\n"]) := by
  simp [processPieces, processHead, edgePieces, Function.comp_def]

theorem stateSection_eq {style : NameStyle} {states : Table (Option String) PlanarState}
    {names : List String} (h : states.keys.mapM (stateId style states) = .ok names) :
    stateSection style states = .ok (stateLine names) := by
  rw [stateSection, h]
  rfl

/-- A process is written as a whole, with the ends of all its edges declared; or a state has no
identifier although states are named by it, and then no edge is written. -/
def Declares (opts : Options) (chart : PlanarChart) : Prop :=
  ((Output.ofPieces (processPieces opts chart)).fault = none ∧
    ∃ names, stateSection opts.names chart.states = .ok (stateLine names) ∧
      ∀ piece ∈ edgePieces opts chart, ∃ e ∈ written opts.alternate chart,
        ∃ source ∈ names, ∃ target ∈ names,
          piece = .ok (edgeLine source target e.guard e.effect) ∨
            piece = .ok ("\ttrans\n" ++ edgeLine source target e.guard e.effect)) ∨
  (opts.names = .id ∧ none ∈ chart.states.keys ∧
    Output.ofPieces (processPieces opts chart) =
      ⟨String.join (processHead opts chart), some .missingText⟩)

/-- An edge between named states has a line. -/
theorem line?_eq {style : NameStyle} {states : Table (Option String) PlanarState} {e : Edge}
    {source target : String} (hsource : stateId style states e.source = .ok source)
    (htarget : stateId style states e.target = .ok target) :
    e.line? style states =
      .ok (if e.isDead then none else some (edgeLine source target e.guard e.effect)) := by
  rw [Edge.line?, hsource, htarget]
  rfl

theorem Linked.declares {chart : PlanarChart} (h : Linked chart) (opts : Options) :
    Declares opts chart := by
  by_cases hbare : opts.names = .id ∧ none ∈ chart.states.keys
  · -- the declaration of states fails, and what was written before it stays
    obtain ⟨hstyle, hnone⟩ := hbare
    have hfails : chart.states.keys.mapM (stateId opts.names chart.states) =
        .error .missingText := by
      refine mapM_eq_error (fun k hk => ?_) ⟨none, hnone, by rw [hstyle]; rfl⟩
      exact (stateId_of_mem hk opts.names).imp_right fun h => h.2.2
    refine .inr ⟨hstyle, hnone, ?_⟩
    rw [processPieces_eq, stateSection, hfails, Output.ofPieces, Output.extend_append,
      String.empty_append]
    rfl
  · have hnamed : ∀ k ∈ chart.states.keys, ∃ name,
        stateId opts.names chart.states k = .ok name := by
      intro k hk
      refine (stateId_of_mem hk opts.names).resolve_right ?_
      rintro ⟨hstyle, rfl, -⟩
      exact hbare ⟨hstyle, hk⟩
    choose! name hname using hnamed
    have hnames := mapM_eq_map hname
    have hline : ∀ e ∈ edges opts.alternate chart ++ loops opts.alternate chart,
        e.line? opts.names chart.states = .ok (if e.isDead then none else
          some (edgeLine (name e.source) (name e.target) e.guard e.effect)) := by
      intro e he
      obtain ⟨hsource, htarget⟩ := h.edge he
      exact line?_eq (hname _ hsource) (hname _ htarget)
    have hpieces : ∀ piece ∈ edgePieces opts chart, ∃ e ∈ written opts.alternate chart,
        piece = .ok (edgeLine (name e.source) (name e.target) e.guard e.effect) ∨
          piece = .ok ("\ttrans\n" ++
            edgeLine (name e.source) (name e.target) e.guard e.effect) := by
      intro piece hpiece
      have hok : ∀ l ∈ (edges opts.alternate chart ++ loops opts.alternate chart).map
          (·.line? opts.names chart.states), ∃ s, l = .ok s := by
        intro l hl
        obtain ⟨e, he, rfl⟩ := List.mem_map.mp hl
        exact ⟨_, hline e he⟩
      obtain ⟨s, hs, hpiece⟩ := mem_edgeSection hok hpiece
      obtain ⟨e, he, hs⟩ := List.mem_map.mp hs
      rw [hline e he] at hs
      split at hs
      · cases hs
      · next halive =>
        cases hs
        exact ⟨e, List.mem_filter.mpr ⟨he, by simpa using halive⟩, hpiece⟩
    refine .inl ⟨?_, chart.states.keys.map name, stateSection_eq hnames, ?_⟩
    · rw [processPieces_eq, Output.ofPieces, Output.extend_append, stateSection_eq hnames]
      refine Output.fault_extend (fun piece hpiece => ?_) _
      rcases List.mem_cons.mp hpiece with rfl | hpiece
      · exact ⟨_, rfl⟩
      rcases List.mem_append.mp hpiece with hpiece | hpiece
      · obtain ⟨e, -, rfl | rfl⟩ := hpieces piece hpiece
        · exact ⟨_, rfl⟩
        · exact ⟨_, rfl⟩
      · exact ⟨_, List.mem_singleton.mp hpiece⟩
    · intro piece hpiece
      obtain ⟨e, he, hpiece⟩ := hpieces piece hpiece
      obtain ⟨hsource, htarget⟩ := h.edge (List.mem_filter.mp he).1
      exact ⟨e, he, name e.source, List.mem_map_of_mem hsource, name e.target,
        List.mem_map_of_mem htarget, hpiece⟩

/-! ## Flattened charts -/

theorem linked_of_flatten {p : Xml.Place} (hends : (Chart.ofPlace p).PlainEnds)
    {lines lines' : Lines} {planar : PlanarChart}
    (hrun : Runs (Planar.flatten (Chart.ofPlace p)) lines planar lines') : Linked planar := by
  intro t ht
  obtain ⟨hsource, htarget⟩ := Planar.flatten_ends hends hrun t ht
  rw [Planar.flatten_keys hrun, Planar.flatten_keys hrun]
  exact ⟨.inr hsource, htarget.imp_right .inr⟩

/-- If the ends of transitions have no quotation mark in them, the planar transitions go between
states of the planar chart, none to the start, none from `error` and at least one from the start;
and in every style and with every option, its process is written without looking for a state in
vain, and the ends of all edges are declared. -/
theorem ends_declared {p : Xml.Place} (hends : (Chart.ofPlace p).PlainEnds)
    (hnames : ∀ s ∈ (Chart.ofPlace p).states,
      s.item.ssid ≠ some "start" ∧ s.item.ssid ≠ some "error")
    {lines lines' : Lines} {planar : PlanarChart}
    (hrun : Runs (Planar.flatten (Chart.ofPlace p)) lines planar lines') :
    (∀ t ∈ planar.transitions, t.source ∈ planar.states.keys ∧ t.target ∈ planar.states.keys ∧
        t.target ≠ some "start" ∧ t.source ≠ some "error") ∧
      (∃ t ∈ planar.transitions, t.source = some "start") ∧
      ∀ opts, Declares opts planar := by
  have hlinked := linked_of_flatten hends hrun
  refine ⟨fun t ht => ⟨(hlinked t ht).1, (hlinked t ht).2, ?_, ?_⟩, ?_, hlinked.declares⟩
  · rcases (Planar.flatten_ends hends hrun t ht).2 with he | ⟨s, hs, -, hid⟩
    · rw [he]
      decide
    · exact hid ▸ (hnames s hs).1
  · rcases (Planar.flatten_ends hends hrun t ht).1 with he | ⟨s, hs, -, hid⟩
    · rw [he]
      decide
    · exact hid ▸ (hnames s hs).2
  · obtain ⟨blocks, hts, -⟩ := Planar.flatten_shape hrun
    exact ⟨Planar.startFails, by rw [hts]; simp, rfl⟩

/-- Two states with one identifier in a state, entered on a condition. -/
def twins : Xml.Place :=
  Chart.drawn "twins" [
    .state "1" "Pair" [
      .state "2" "Elder" [],
      .state "2" "Younger" [],
      .transition "11" none "2" "[a > 0]" "1"],
    .transition "12" none "1" "" "1",
    .transition "13" (some "1") "2" "" "1"]

theorem ends_declared_twins :
    ∃ lines, Runs (Planar.flatten (Chart.ofPlace twins)) .initial
        (Planar.planarOf (Chart.ofPlace twins)) lines ∧
      (Planar.planarOf (Chart.ofPlace twins)).states.keys =
        [some "2", some "start", some "error"] ∧
      (∀ t ∈ (Planar.planarOf (Chart.ofPlace twins)).transitions,
        t.source ∈ (Planar.planarOf (Chart.ofPlace twins)).states.keys ∧
          t.target ∈ (Planar.planarOf (Chart.ofPlace twins)).states.keys ∧
          t.target ≠ some "start" ∧ t.source ≠ some "error") ∧
      Declares ⟨.short, some (0, 1), true⟩ (Planar.planarOf (Chart.ofPlace twins)) := by
  have hplanar : ((Planar.flatten (Chart.ofPlace twins)).run.run .initial).1.isOk = true ∧
      (Planar.planarOf (Chart.ofPlace twins)).states.keys =
        [some "2", some "start", some "error"] := by
    decide +kernel
  obtain ⟨hok, hkeys⟩ := hplanar
  obtain ⟨lines, hrun⟩ := Planar.runs_planarOf (Chart.ofPlace twins) hok
  obtain ⟨hends, -, hdeclares⟩ := ends_declared (by decide +kernel) (by decide +kernel) hrun
  exact ⟨lines, hrun, hkeys, hends, hdeclares _⟩

/-- An identifier that ends the quotation in a path and goes on to a label. -/
def astray : String := "1\"]/P[@Name=\"labelString"

/-- A state with a transition into it from another. -/
def island : Xml.Place :=
  Chart.drawn "island" [
    .state "1" "Shore" [],
    .state astray "Island" [
      .transition "12" (some "1") astray "" "1"],
    .transition "11" none "1" "" "1"]

/-- A state is looked up and a label is found, which has no identifier: the transition goes to no
state, and in no style is the process written to its end. -/
theorem island_end_undeclared :
    (∀ s ∈ (Chart.ofPlace island).states,
      s.item.ssid ≠ some "start" ∧ s.item.ssid ≠ some "error") ∧
    ∃ lines, Runs (Planar.flatten (Chart.ofPlace island)) .initial
        (Planar.planarOf (Chart.ofPlace island)) lines ∧
      (∃ t ∈ (Planar.planarOf (Chart.ofPlace island)).transitions,
        t.target ∉ (Planar.planarOf (Chart.ofPlace island)).states.keys) ∧
      ∀ style ∈ [NameStyle.id, NameStyle.hierarchical, NameStyle.short],
        (Output.ofPieces (processPieces ⟨style, none, false⟩
          (Planar.planarOf (Chart.ofPlace island)))).fault.isSome = true := by
  have hplanar : ((Planar.flatten (Chart.ofPlace island)).run.run .initial).1.isOk = true ∧
      (∃ t ∈ (Planar.planarOf (Chart.ofPlace island)).transitions,
        t.target ∉ (Planar.planarOf (Chart.ofPlace island)).states.keys) ∧
      ∀ style ∈ [NameStyle.id, NameStyle.hierarchical, NameStyle.short],
        (Output.ofPieces (processPieces ⟨style, none, false⟩
          (Planar.planarOf (Chart.ofPlace island)))).fault.isSome = true := by
    decide +kernel
  obtain ⟨lines, hrun⟩ := Planar.runs_planarOf (Chart.ofPlace island) hplanar.1
  exact ⟨by decide +kernel, lines, hrun, hplanar.2⟩

end Statechart.Dve
