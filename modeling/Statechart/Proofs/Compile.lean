import Statechart.Compile
import Statechart.Proofs.Dve.Declared
import Statechart.Proofs.Planar.Survival

/-!
A document is compiled as a whole or not at all (`compile_whole_or_nothing`). What can fail is
reading and checking the document and flattening its charts, and all of that is over before the
first piece is written. Writing needs a name for every state, and there is one in each style if
every state has an identifier and the ends of transitions have no quotation mark in them.
-/

namespace Statechart

open Xml (Node Place)

/-! ## Elements of a document -/

/-- What a path leads to stands inside, unless the path is empty. -/
theorem Xml.mem_inside_of_path {tags : List String} {p q : Place} (hne : tags ≠ [])
    (h : q ∈ p.path tags) : q ∈ p.node.inside p.above := by
  induction tags generalizing p with
  | nil => exact absurd rfl hne
  | cons tag tags ih =>
    obtain ⟨child, hchild, hq⟩ := List.mem_flatMap.mp h
    obtain ⟨k, hk, rfl⟩ := List.mem_map.mp hchild
    obtain ⟨hk, htag⟩ := List.mem_filter.mp hk
    have hin : (⟨k, p.node :: p.above⟩ : Place) ∈ p.node.inside p.above :=
      Chart.mem_inside.mpr ⟨k, hk, .inl ⟨Chart.isElement_of_hasTag htag, rfl⟩⟩
    cases tags with
    | nil =>
      rw [List.mem_singleton.mp hq]
      exact hin
    | cons t ts => exact Chart.mem_inside_trans hin (ih (by simp) hq)

/-- Every state element of a document has an identifier. -/
def StatesIdentified (root : Node) : Prop :=
  ∀ q ∈ (Place.mk root []).descendants "state", (q.node.attribute? "SSID").isSome = true

instance (root : Node) : Decidable (StatesIdentified root) :=
  inferInstanceAs (Decidable (∀ q ∈ (Place.mk root []).descendants "state",
    (q.node.attribute? "SSID").isSome = true))

/-- No transition of a document has an end with a quotation mark in it. -/
def EndsPlain (root : Node) : Prop := ∀ p ∈ Chart.chartPlaces root, (Chart.ofPlace p).PlainEnds

instance (root : Node) : Decidable (EndsPlain root) :=
  inferInstanceAs (Decidable (∀ p ∈ Chart.chartPlaces root, (Chart.ofPlace p).PlainEnds))

theorem StatesIdentified.ssid {root : Node} (h : StatesIdentified root) {p : Place}
    (hp : p ∈ Chart.chartPlaces root) : ∀ s ∈ (Chart.ofPlace p).states, s.item.ssid ≠ none := by
  intro s hs hnone
  obtain ⟨q, hq, rfl⟩ := List.mem_map.mp hs
  have hssid : Chart.idOf q = none := (Chart.ssid_eq_idOf hq).symm.trans hnone
  obtain ⟨hin, htag⟩ := List.mem_filter.mp hq
  have hdown := Chart.mem_inside_trans (Xml.mem_inside_of_path (by simp) hp) hin
  have hsome := h q (List.mem_filter.mpr ⟨hdown, htag⟩)
  rw [show q.node.attribute? "SSID" = none from hssid] at hsome
  cases hsome

/-! ## Charts -/

/-- The results of a run over a list are those of runs for its members, in order. -/
theorem forall₂_of_runs_mapM {σ α β : Type} {f : α → ExceptT Fault (StateM σ) β} {xs : List α}
    {s s' : σ}
    {ys : List β} (h : Runs (xs.mapM f) s ys s') :
    List.Forall₂ (fun x y => ∃ t t', Runs (f x) t y t') xs ys := by
  induction xs generalizing s ys with
  | nil =>
    rw [List.mapM_nil] at h
    obtain ⟨rfl, -⟩ := runs_pure.mp h
    exact .nil
  | cons x xs ih =>
    obtain ⟨y, t, zs, hy, hz, rfl⟩ := runs_mapM_cons.mp h
    exact .cons ⟨s, t, hy⟩ (ih hz)

theorem runs_planarCharts {root : Node} {charts : List PlanarChart}
    (h : planarCharts root = .ok charts) :
    ∃ lines, Runs ((Chart.ofDocument root).mapM Planar.flatten) .initial charts lines :=
  ⟨_, Prod.ext h rfl⟩

/-- One planar chart for each chart element, in the order of the document. -/
def Flattened (root : Node) (charts : List PlanarChart) : Prop :=
  List.Forall₂ (fun p chart => ∃ lines lines', Runs (Planar.flatten (Chart.ofPlace p)) lines chart
    lines') (Chart.chartPlaces root) charts

theorem flattened_of_planarCharts {root : Node} {charts : List PlanarChart}
    (h : planarCharts root = .ok charts) : Flattened root charts := by
  obtain ⟨lines, hrun⟩ := runs_planarCharts h
  have hall := forall₂_of_runs_mapM hrun
  rw [Chart.ofDocument, List.forall₂_map_left_iff] at hall
  exact hall

namespace Dve

/-! ## Pieces that are all written -/

/-- The pieces are written to the end, as this text. -/
def Writes (ps : Pieces) (text : String) : Prop := Output.ofPieces ps = ⟨text, none⟩

theorem writes_of_fault {ps : Pieces} (h : (Output.ofPieces ps).fault = none) :
    Writes ps (Output.ofPieces ps).text := by
  show Output.ofPieces ps = ⟨(Output.ofPieces ps).text, none⟩
  rw [← h]

theorem writes_texts (ss : List String) : Writes (ss.map .ok) (String.join ss) := by
  have h := Output.extend_append "" ss []
  rw [List.append_nil, String.empty_append] at h
  exact h

/-- Writing stops at the first fault, so what is written to the end are texts. -/
theorem Writes.texts {ps : Pieces} {text : String} (h : Writes ps text) :
    ∃ ss : List String, ps = ss.map .ok ∧ text = String.join ss := by
  have hok : ∀ (ps : Pieces) (before : String), (Output.extend before ps).fault = none →
      ∃ ss : List String, ps = ss.map .ok := by
    intro ps
    induction ps with
    | nil => exact fun _ _ => ⟨[], rfl⟩
    | cons piece ps ih =>
      intro before hfault
      cases piece with
      | error f => cases hfault
      | ok s =>
        obtain ⟨ss, rfl⟩ := ih _ hfault
        exact ⟨s :: ss, rfl⟩
  obtain ⟨ss, rfl⟩ := hok ps "" (by rw [← Output.ofPieces, h])
  exact ⟨ss, rfl, congrArg Output.text (h.symm.trans (writes_texts ss))⟩

theorem Writes.append {ps qs : Pieces} {a b : String} (hp : Writes ps a) (hq : Writes qs b) :
    Writes (ps ++ qs) (a ++ b) := by
  obtain ⟨ss, rfl, rfl⟩ := hp.texts
  obtain ⟨ts, rfl, rfl⟩ := hq.texts
  rw [← List.map_append, ← String.join_append]
  exact writes_texts _

theorem writes_singleton (s : String) : Writes [.ok s] s := by
  show (⟨"" ++ s, none⟩ : Output) = ⟨s, none⟩
  rw [String.empty_append]

theorem exists_writes {ps : Pieces} (h : ∀ piece ∈ ps, ∃ s, piece = .ok s) :
    ∃ text, Writes ps text :=
  ⟨_, writes_of_fault (Output.fault_extend h "")⟩

/-! ## Processes -/

/-- The text is the process of the chart, from its heading to its closing brace. -/
def IsProcess (opts : Options) (chart : PlanarChart) (text : String) : Prop :=
  Writes (processPieces opts chart) text ∧
    ∃ inner, text = "process " ++ processName opts.names chart ++ " \x7b\n" ++ inner ++ "\x7d\n\n"

theorem exists_process {opts : Options} {chart : PlanarChart}
    (h : (Output.ofPieces (processPieces opts chart)).fault = none) :
    ∃ text, IsProcess opts chart text := by
  have hends : ∃ inner, processPieces opts chart =
      [.ok ("process " ++ processName opts.names chart ++ " \x7b\n")] ++ inner ++
        [.ok "\x7d\n\n"] := by
    rw [processPieces, List.append_assoc [_], List.append_assoc [_]]
    exact ⟨_, rfl⟩
  obtain ⟨inner, hpieces⟩ := hends
  obtain ⟨ss, hss, -⟩ := (writes_of_fault h).texts
  have hinner : ∀ piece ∈ inner, ∃ s, piece = .ok s := by
    intro piece hp
    have hmem : piece ∈ ss.map .ok := by
      rw [← hss, hpieces]
      simp [hp]
    obtain ⟨s, -, rfl⟩ := List.mem_map.mp hmem
    exact ⟨s, rfl⟩
  obtain ⟨text, htext⟩ := exists_writes hinner
  refine ⟨_, ?_, text, rfl⟩
  rw [hpieces]
  exact ((writes_singleton _).append htext).append (writes_singleton _)

/-- Feeding inputs is written to the end for every interval. -/
theorem fault_feedPieces (interval : Int × Int) (alternate : Bool) (charts : List PlanarChart) :
    (Output.ofPieces (feedPieces interval alternate charts)).fault = none := by
  refine Output.fault_extend (fun piece hp => ?_) ""
  have hturn : ∀ piece ∈ (if alternate then [.ok ("byte " ++ turn ++ ";\n")] else [] : Pieces),
      ∃ s, piece = .ok s := by
    cases alternate <;> simp
  unfold feedPieces at hp
  simp only at hp
  split at hp
  · simp only [List.mem_append, List.mem_map] at hp
    rcases hp with hp | ⟨e, -, rfl⟩
    · exact hturn piece hp
    · exact ⟨_, rfl⟩
  · simp only [List.mem_append, List.mem_singleton, List.mem_map] at hp
    rcases hp with (((hp | ⟨e, -, rfl⟩) | rfl) | ⟨n, -, rfl⟩) | rfl
    · exact hturn piece hp
    all_goals exact ⟨_, rfl⟩

/-- What feeds the inputs, if they are fed. -/
def feedText (opts : Options) (charts : List PlanarChart) : String :=
  match opts.inputs with
  | none => ""
  | some interval => (Output.ofPieces (feedPieces interval opts.alternate charts)).text

end Dve

/-! ## Systems -/

/-- The text is a whole system: one process for each chart, in their order, behind what feeds the
inputs, and then the closing line. -/
def IsSystem (opts : Dve.Options) (charts : List PlanarChart) (text : String) : Prop :=
  ∃ processes : List String, List.Forall₂ (Dve.IsProcess opts) charts processes ∧
    text = Dve.feedText opts charts ++ String.join processes ++ "system async;\n\n"

/-- If every process can be written, so can the system. -/
theorem exists_system {opts : Dve.Options} {charts : List PlanarChart}
    (h : ∀ chart ∈ charts, (Dve.Output.ofPieces (Dve.processPieces opts chart)).fault = none) :
    ∃ text, Dve.Writes (systemPieces opts charts) text ∧ IsSystem opts charts text := by
  have hprocesses : ∃ processes, List.Forall₂ (Dve.IsProcess opts) charts processes ∧
      Dve.Writes (charts.flatMap (Dve.processPieces opts)) (String.join processes) := by
    induction charts with
    | nil => exact ⟨[], .nil, rfl⟩
    | cons chart charts ih =>
      obtain ⟨process, hprocess⟩ := Dve.exists_process (h chart (List.mem_cons_self ..))
      obtain ⟨processes, hall, hwrites⟩ := ih fun c hc => h c (List.mem_cons_of_mem _ hc)
      refine ⟨process :: processes, .cons hprocess hall, ?_⟩
      rw [List.flatMap_cons, String.join_cons]
      exact hprocess.1.append hwrites
  obtain ⟨processes, hall, hwrites⟩ := hprocesses
  refine ⟨_, ?_, processes, hall, rfl⟩
  refine Dve.Writes.append (.append ?_ hwrites) (Dve.writes_singleton _)
  unfold Dve.feedText
  cases opts.inputs with
  | none => rfl
  | some interval => exact Dve.writes_of_fault (Dve.fault_feedPieces interval opts.alternate charts)

/-- In every style and with every option, the processes of flattened charts are written to their
end, provided that every state has an identifier and no end has a quotation mark. -/
theorem fault_processPieces {root : Node} (hids : StatesIdentified root) (hends : EndsPlain root)
    {charts : List PlanarChart} (h : planarCharts root = .ok charts) :
    ∀ chart ∈ charts, ∀ opts,
      (Dve.Output.ofPieces (Dve.processPieces opts chart)).fault = none := by
  intro chart hmem opts
  obtain ⟨lines, hrun⟩ := runs_planarCharts h
  obtain ⟨c, hc, t, t', hflat⟩ := mem_of_runs_mapM hrun chart hmem
  obtain ⟨p, hp, rfl⟩ := List.mem_map.mp hc
  rcases (Dve.linked_of_flatten (hends p hp) hflat).declares opts with ⟨hfault, -⟩ | ⟨-, hnone, -⟩
  · exact hfault
  · exfalso
    rcases (Planar.flatten_keys hflat none).mp hnone with h | h | ⟨s, hs, -, hssid⟩
    · cases h
    · cases h
    · exact hids.ssid hp s hs hssid

theorem chartsOf_eq_ok {read : Xml.DocumentReader} {bytes : ByteArray}
    {charts : List PlanarChart} (h : chartsOf read bytes = .ok charts) :
    ∃ root, read bytes = some root ∧ planarCharts root = .ok charts := by
  unfold chartsOf parseDocument at h
  cases hread : read bytes with
  | none =>
    rw [hread] at h
    cases h
  | some root =>
    rw [hread] at h
    obtain ⟨root', hroot, h⟩ := bind_eq_ok.mp h
    obtain ⟨u, -, h⟩ := bind_eq_ok.mp h
    cases hroot
    exact ⟨root, rfl, h⟩

theorem compile_cases {read : Xml.DocumentReader} (opts : Dve.Options) {bytes : ByteArray}
    (hids : ∀ root, read bytes = some root → StatesIdentified root)
    (hends : ∀ root, read bytes = some root → EndsPlain root) :
    (∃ f, compile read opts bytes = ⟨"", some f⟩) ∨
      ∃ root charts text, read bytes = some root ∧ Flattened root charts ∧
        IsSystem opts charts text ∧ compile read opts bytes = ⟨text, none⟩ := by
  unfold compile
  cases hcharts : chartsOf read bytes with
  | error f => exact .inl ⟨f, rfl⟩
  | ok charts =>
    obtain ⟨root, hread, hplanar⟩ := chartsOf_eq_ok hcharts
    obtain ⟨text, hwrites, hsystem⟩ := exists_system fun chart hmem =>
      fault_processPieces (hids root hread) (hends root hread) hplanar chart hmem opts
    exact .inr ⟨root, charts, text, hread, flattened_of_planarCharts hplanar, hsystem, hwrites⟩

/-- However documents are read: in one in which every state has an identifier and no end of a
transition has a quotation mark, and with any options, a fault anywhere means that nothing is
written. Without one, the text is a whole system with one process for each chart element. Once the
charts are flattened no fault is left that writing could meet. -/
theorem compile_whole_or_nothing (read : Xml.DocumentReader) (opts : Dve.Options)
    {bytes : ByteArray} (hids : ∀ root, read bytes = some root → StatesIdentified root)
    (hends : ∀ root, read bytes = some root → EndsPlain root) :
    (∀ f, (compile read opts bytes).fault = some f → (compile read opts bytes).text = "") ∧
      ((compile read opts bytes).fault = none → ∃ root charts, read bytes = some root ∧
        Flattened root charts ∧ IsSystem opts charts (compile read opts bytes).text) ∧
      ∀ root charts, read bytes = some root → planarCharts root = .ok charts →
        (∀ interval alternate,
          (Dve.Output.ofPieces (Dve.feedPieces interval alternate charts)).fault = none) ∧
        ∀ chart ∈ charts, ∀ opts,
          (Dve.Output.ofPieces (Dve.processPieces opts chart)).fault = none := by
  have hcases := compile_cases opts hids hends
  refine ⟨fun f hf => ?_, fun hf => ?_, fun root charts hread hcharts =>
    ⟨fun interval alternate => Dve.fault_feedPieces interval alternate charts,
      fault_processPieces (hids root hread) (hends root hread) hcharts⟩⟩
  · rcases hcases with ⟨f', hout⟩ | ⟨root, charts, text, -, -, -, hout⟩
    · rw [hout]
    · rw [hout] at hf
      cases hf
  · rcases hcases with ⟨f', hout⟩ | ⟨root, charts, text, hread, hflat, hsys, hout⟩
    · rw [hout] at hf
      cases hf
    · rw [hout]
      exact ⟨root, charts, hread, hflat, hsys⟩

/-- A document with charts in it. -/
def documentOf (charts : List Node) : Node :=
  Chart.element "ModelInformation" []
    [Chart.element "Stateflow" []
      [Chart.element "machine" [] [Chart.element "Children" [] charts]]]

/-- A reader that knows one document. -/
def reads (root : Node) : Xml.DocumentReader := fun _ => some root

/-- Two charts, of which the second has a state without a label. -/
def sketch : Node :=
  documentOf [Chart.element "chart" [] [],
    Chart.element "chart" [] [Chart.element "state" [("SSID", "1")] []]]

theorem compile_whole_or_nothing_sketch :
    (Chart.chartPlaces sketch).length = 2 ∧
      (compile (reads sketch) ⟨.id, none, false⟩ ByteArray.empty).fault =
        some (.invalid .unlabelledState) ∧
      (compile (reads sketch) ⟨.id, none, false⟩ ByteArray.empty).text = "" := by
  obtain ⟨hids, hends, hcharts, hfault⟩ :
      StatesIdentified sketch ∧ EndsPlain sketch ∧ (Chart.chartPlaces sketch).length = 2 ∧
        (compile (reads sketch) ⟨.id, none, false⟩ ByteArray.empty).fault =
          some (.invalid .unlabelledState) := by
    decide +kernel
  refine ⟨hcharts, hfault, (compile_whole_or_nothing (reads sketch) _ ?_ ?_).1 _ hfault⟩
  · rintro root ⟨rfl⟩
    exact hids
  · rintro root ⟨rfl⟩
    exact hends

/-- A document whose chart has a transition to a state with quotation marks in its identifier is
compiled up to the declaration of states, and then the transition has no end to write. -/
theorem island_left_unfinished :
    StatesIdentified (documentOf [Dve.island.node]) ∧
      compile (reads (documentOf [Dve.island.node])) ⟨.id, none, false⟩ ByteArray.empty =
        ⟨"process process_1 \x7b\n\tstate state_1, state_start, state_error;\n" ++
          "\tinit state_start;\n", some .missingText⟩ := by
  decide +kernel

end Statechart
