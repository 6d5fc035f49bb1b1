import Mathlib.Data.List.Perm.Subperm
import Statechart.Proofs.Chart.Drawn
import Statechart.Proofs.Planar.Requests

/-!
Variables of a flattened chart. The data of all states and the variables of all labels come into one
table. A variable of a label carries the name of its owner and so has a place of its own, if only
its label is asked for; data are entered under their bare names, and data of one name in different
states take the place of each other. So every variable is kept exactly if data names are not
repeated anywhere in the chart and no label with variables is left unread (`variables_kept_iff`).
-/

namespace Statechart

open Xml (Node Place)

namespace Chart

open Label (Owner)

/-! ## Labels of a document -/

/-- Whoever can own a label. -/
def owners (chart : Chart) : List Owner :=
  chart.states.map (.state ·.item.ssid) ++ chart.transitions.map (.transition ·.item.ssid)

/-- Variables are declared by labels of the chart only. -/
theorem mem_owners {p : Place} (h : DecimalIds (ofPlace p)) {o : Owner}
    (hplain : IsPlain o.ssid) {k : Option String} (hk : k ∈ ((ofPlace p).variablesOf o).keys) :
    o ∈ (ofPlace p).owners := by
  obtain ⟨text, ht⟩ := text_of_variable hplain hk
  obtain ⟨x, hx, -⟩ := ssid_of_variable h.labels hplain hk
  rw [hx] at ht
  cases o with
  | state ssid =>
    obtain rfl : ssid = some x := hx
    obtain ⟨s, hs, hssid⟩ := state_of_label ht
    exact List.mem_append_left _ (List.mem_map.mpr ⟨s, hs, by rw [hssid]; rfl⟩)
  | transition ssid =>
    obtain rfl : ssid = some x := hx
    obtain ⟨t, ht, hssid⟩ := transition_of_label ht
    exact List.mem_append_right _ (List.mem_map.mpr ⟨t, ht, by rw [hssid]; rfl⟩)

theorem Plain.of_mem_owners {chart : Chart} (h : chart.Plain) {o : Owner}
    (ho : o ∈ chart.owners) : IsPlain o.ssid := by
  rcases List.mem_append.mp ho with ho | ho
  · obtain ⟨s, hs, rfl⟩ := List.mem_map.mp ho
    exact h.states s hs
  · obtain ⟨t, ht, rfl⟩ := List.mem_map.mp ho
    exact h.transitions t ht

/-! ## The variables of a chart -/

/-- The variables that labels declare, with their names. -/
def declarations (chart : Chart) : List (Option String × Variable) :=
  chart.owners.flatMap fun o => (chart.variablesOf o).entries

/-- The variables that a chart defines, those of data first. -/
def definitions (chart : Chart) : List Variable :=
  chart.data.filterMap (·.variable.toOption) ++ chart.declarations.map (·.2)

theorem keys_declarations (chart : Chart) :
    chart.declarations.map (·.1) = chart.owners.flatMap fun o => (chart.variablesOf o).keys := by
  rw [declarations, List.map_flatMap]
  rfl

/-- The names of variables that labels declare are all different. -/
theorem nodup_declarations {chart : Chart} (hdec : chart.DecimalLabels) (hplain : chart.Plain)
    (howners : chart.owners.Nodup) : (chart.declarations.map (·.1)).Nodup := by
  rw [keys_declarations, List.nodup_flatMap]
  refine ⟨fun o _ => (owned_variablesOf chart o).nodup, howners.imp_of_mem ?_⟩
  intro o o' ho ho' hne k hk hk'
  exact hne (owner_unique hdec (hplain.of_mem_owners ho) (hplain.of_mem_owners ho') hk hk')

/-- Whether a name could be that of a variable of a label. -/
def isReserved (x : String) : Bool :=
  "state_".toList.isPrefixOf x.toList || "trans_".toList.isPrefixOf x.toList

theorem reserved_of_variable {chart : Chart} {o : Owner} {k : Option String}
    (hk : k ∈ (chart.variablesOf o).keys) : k.any isReserved = true := by
  obtain ⟨x, rfl⟩ := (owned_variablesOf chart o).named k hk
  cases o with
  | state ssid => simp [isReserved, Owner.name, Label.stateOwner]
  | transition ssid => simp [isReserved, Owner.name, Label.transitionOwner]

end Chart

namespace Planar

open Chart (isReserved DecimalIds)
open Label (Owner Tracks)

/-! ## Keeping every variable -/

/-- Definitions are all in a table, each under a key of its own. -/
def StoredApart (vars : Variables) (definitions : List Variable) : Prop :=
  ∃ keys : List (Option String), keys.Nodup ∧
    List.Forall₂ (fun k x => vars.get? k = some x) keys definitions

theorem storedApart_of_entries {vars : Variables} {es : List (Option String × Variable)}
    (hnodup : (es.map (·.1)).Nodup) (h : ∀ e ∈ es, vars.get? e.1 = some e.2) :
    StoredApart vars (es.map (·.2)) := by
  refine ⟨es.map (·.1), hnodup, ?_⟩
  rw [List.forall₂_map_left_iff, List.forall₂_map_right_iff, List.forall₂_same]
  exact h

/-- What is stored is in the table. -/
theorem StoredApart.mem_entries {vars : Variables} {definitions : List Variable}
    (h : StoredApart vars definitions) {x : Variable} (hx : x ∈ definitions) :
    ∃ k, (k, x) ∈ vars.entries := by
  obtain ⟨keys, -, hstored⟩ := h
  obtain ⟨i, hi, rfl⟩ := List.getElem_of_mem hx
  have hlt : i < keys.length := hstored.length_eq ▸ hi
  exact ⟨keys[i], Table.mem_of_look (hstored.get hlt hi)⟩

/-- If as many definitions as a table can have keys are stored apart, they use all these keys. -/
theorem StoredApart.keys_perm {vars : Variables} {definitions : List Variable}
    (h : StoredApart vars definitions) {ks : List (Option String)}
    (hkeys : ∀ k x, vars.get? k = some x → k ∈ ks) (hlength : ks.length = definitions.length) :
    ks.Nodup ∧ ∀ k ∈ ks, ∃ x, vars.get? k = some x := by
  obtain ⟨keys, hnodup, hstored⟩ := h
  have hvalue : ∀ k ∈ keys, ∃ x, vars.get? k = some x := by
    intro k hk
    obtain ⟨i, hi, rfl⟩ := List.getElem_of_mem hk
    have hlt : i < definitions.length := hstored.length_eq ▸ hi
    exact ⟨definitions[i], hstored.get hi hlt⟩
  have hsub : keys ⊆ ks := by
    intro k hk
    obtain ⟨x, hx⟩ := hvalue k hk
    exact hkeys k x hx
  have hperm : keys.Perm ks :=
    (List.subperm_of_subset hnodup hsub).perm_of_length_le
      (Nat.le_of_eq (hlength.trans hstored.length_eq.symm))
  exact ⟨hperm.nodup_iff.mp hnodup, fun k hk => hvalue k (hperm.mem_iff.mpr hk)⟩

theorem dataVariables_eq_ok {data : List Chart.Datum} {vars : Variables}
    (h : dataVariables data = .ok vars) :
    ∃ es : List (Option String × Variable), vars = .ofList es ∧
      es.map (·.1) = data.map (·.name) ∧
      es.map (·.2) = data.filterMap (·.variable.toOption) := by
  unfold dataVariables at h
  obtain ⟨es, hes, h⟩ := bind_eq_ok.mp h
  cases h
  refine ⟨es, rfl, ?_⟩
  clear h
  induction data generalizing es with
  | nil =>
    cases hes
    exact ⟨rfl, rfl⟩
  | cons d data ih =>
    rw [List.mapM_cons] at hes
    obtain ⟨e, he, hes⟩ := bind_eq_ok.mp hes
    obtain ⟨rest, hrest, hes⟩ := bind_eq_ok.mp hes
    cases hes
    obtain ⟨x, hx, he⟩ := bind_eq_ok.mp he
    cases he
    obtain ⟨hnames, hvars⟩ := ih rest hrest
    exact ⟨by simp [hnames], by simp [hvars, hx, Except.toOption]⟩

/-- The label of every transition is asked for. -/
theorem transition_mem_requests {chart : Chart} {t : Chart.Placed Chart.Transition}
    (ht : t ∈ chart.transitions) : .transition t.item.ssid ∈ requests chart :=
  List.mem_append_right _ (List.mem_flatMap_of_mem ht (List.mem_cons_self ..))

/-- A table has the variables of data, which are `es`, and those of the labels that were asked
for. -/
structure Stores (chart : Chart) (vars : Variables) (es : List (Option String × Variable)) :
    Prop where
  names : es.map (·.1) = chart.data.map (·.name)
  values : es.map (·.2) = chart.data.filterMap (·.variable.toOption)
  unreserved : ∀ k ∈ es.map (·.1), k.any isReserved = false
  asked : ∀ o ∈ requests chart, Chart.IsPlain o.ssid
  vars : ∀ k x, vars.get? k = some x ↔ (Table.ofList es).get? k = some x ∨
    ∃ o ∈ requests chart, (chart.variablesOf o).get? k = some x

/-- Flattening keeps data and variables of labels apart, if the names of data allow it. -/
theorem stores_flatten {chart : Chart} (hdec : chart.DecimalLabels) (hplain : chart.Plain)
    (haround : PlainAround chart) (hnames : ∀ d ∈ chart.data, d.name.any isReserved = false)
    {lines lines' : Lines} {planar : PlanarChart}
    (hrun : Runs (flatten chart) lines planar lines') :
    ∃ es, Stores chart planar.vars es := by
  obtain ⟨data, c, hdata, hvars, htracks⟩ := flatten_tracks hdec hplain haround hrun
  obtain ⟨es, rfl, hkeys, hvalues⟩ := dataVariables_eq_ok hdata
  have hunreserved : ∀ k ∈ es.map (·.1), k.any isReserved = false := by
    intro k hk
    rw [hkeys] at hk
    obtain ⟨d, hd, rfl⟩ := List.mem_map.mp hk
    exact hnames d hd
  refine ⟨es, hkeys, hvalues, hunreserved, htracks.plain, fun k x => ?_⟩
  rw [hvars, Table.get?_merge _ htracks.nodup, ← htracks.vars]
  cases hc : c.vars.get? k with
  | none => simp
  | some y =>
    -- the name is that of a variable of a label, so there is no such datum
    obtain ⟨o, -, hk⟩ := (htracks.vars k y).mp hc
    have hreserved := Chart.reserved_of_variable (Table.mem_keys_of_get? hk)
    rw [Option.some_or]
    refine ⟨.inr, fun h => h.resolve_left fun hx => ?_⟩
    rw [hunreserved k (List.mem_map_of_mem (Table.mem_of_get?_ofList hx))] at hreserved
    cases hreserved

namespace Stores

variable {p : Place} {vars : Variables} {es : List (Option String × Variable)}

theorem definitions_eq (h : Stores (Chart.ofPlace p) vars es) :
    (Chart.ofPlace p).definitions = (es ++ (Chart.ofPlace p).declarations).map (·.2) := by
  rw [List.map_append, h.values]
  rfl

theorem mem_keys (h : Stores (Chart.ofPlace p) vars es) (hids : DecimalIds (Chart.ofPlace p))
    {k : Option String} {x : Variable} (hx : vars.get? k = some x) :
    k ∈ (es ++ (Chart.ofPlace p).declarations).map (·.1) := by
  rw [List.map_append, Chart.keys_declarations]
  rcases (h.vars k x).mp hx with hx | ⟨o, ho, hx⟩
  · exact List.mem_append_left _ (List.mem_map_of_mem (Table.mem_of_get?_ofList hx))
  · have hk := Table.mem_keys_of_get? hx
    exact List.mem_append_right _
      (List.mem_flatMap_of_mem (Chart.mem_owners hids (h.asked o ho) hk) hk)

/-- A variable of a label is stored only if the label is asked for. -/
theorem requested (h : Stores (Chart.ofPlace p) vars es) (hids : DecimalIds (Chart.ofPlace p))
    {o : Owner} (hplain : Chart.IsPlain o.ssid) {k : Option String}
    (hk : k ∈ ((Chart.ofPlace p).variablesOf o).keys) {x : Variable}
    (hx : vars.get? k = some x) : o ∈ requests (Chart.ofPlace p) := by
  rcases (h.vars k x).mp hx with hx | ⟨o', ho', hx⟩
  · have hname := h.unreserved k (List.mem_map_of_mem (Table.mem_of_get?_ofList hx))
    rw [Chart.reserved_of_variable hk] at hname
    cases hname
  · rwa [Chart.owner_unique hids.labels hplain (h.asked o' ho') hk (Table.mem_keys_of_get? hx)]

theorem nodup (h : Stores (Chart.ofPlace p) vars es) (hids : DecimalIds (Chart.ofPlace p))
    (hplain : (Chart.ofPlace p).Plain) (hunique : (Chart.ofPlace p).owners.Nodup)
    (hdata : (es.map (·.1)).Nodup) :
    ((es ++ (Chart.ofPlace p).declarations).map (·.1)).Nodup := by
  rw [List.map_append]
  refine List.nodup_append.mpr ⟨hdata, Chart.nodup_declarations hids.labels hplain hunique, ?_⟩
  rintro k hk k' hk' rfl
  rw [Chart.keys_declarations] at hk'
  obtain ⟨o, -, hk'⟩ := List.mem_flatMap.mp hk'
  have hname := h.unreserved k hk
  rw [Chart.reserved_of_variable hk'] at hname
  cases hname

/-- What is defined is stored, if no two data have one name and labels are asked for. -/
theorem get?_eq (h : Stores (Chart.ofPlace p) vars es) (hdata : (es.map (·.1)).Nodup)
    (hasked : ∀ o ∈ (Chart.ofPlace p).owners, ((Chart.ofPlace p).variablesOf o).keys ≠ [] →
      o ∈ requests (Chart.ofPlace p)) {e : Option String × Variable}
    (he : e ∈ es ++ (Chart.ofPlace p).declarations) : vars.get? e.1 = some e.2 := by
  refine (h.vars e.1 e.2).mpr ?_
  rcases List.mem_append.mp he with he | he
  · exact .inl ((Table.get?_ofList hdata).mpr he)
  · obtain ⟨o, ho, he⟩ := List.mem_flatMap.mp he
    have hx : ((Chart.ofPlace p).variablesOf o).get? e.1 = some e.2 :=
      Table.look_of_mem (Chart.owned_variablesOf _ o).nodup he
    exact .inr ⟨o, hasked o ho (List.ne_nil_of_mem (Table.mem_keys_of_get? hx)), hx⟩

end Stores

/-- Every variable of a chart is kept by flattening exactly if data names are not repeated anywhere
in the chart and each state whose label declares a variable is one whose label is asked for. -/
theorem variables_kept_iff {p : Place} (hids : DecimalIds (Chart.ofPlace p))
    (hends : (Chart.ofPlace p).PlainEnds) (haround : PlainAround (Chart.ofPlace p))
    (hunique : (Chart.ofPlace p).owners.Nodup)
    (hnames : ∀ d ∈ (Chart.ofPlace p).data, d.name.any isReserved = false)
    {lines lines' : Lines} {planar : PlanarChart}
    (hrun : Runs (flatten (Chart.ofPlace p)) lines planar lines') :
    StoredApart planar.vars (Chart.ofPlace p).definitions ↔
      ((Chart.ofPlace p).data.map (·.name)).Nodup ∧
        ∀ s ∈ (Chart.ofPlace p).states,
          ((Chart.ofPlace p).variablesOf (.state s.item.ssid)).keys ≠ [] →
          .state s.item.ssid ∈ requests (Chart.ofPlace p) := by
  have hplain := hids.plain hends
  obtain ⟨es, hstores⟩ := stores_flatten hids.labels hplain haround hnames hrun
  rw [hstores.definitions_eq, ← hstores.names]
  constructor
  · intro hkept
    obtain ⟨hnodup, hall⟩ := hkept.keys_perm (fun _ _ => hstores.mem_keys hids) (by simp)
    rw [List.map_append] at hnodup hall
    refine ⟨(List.nodup_append.mp hnodup).1, fun s hs hne => ?_⟩
    obtain ⟨k, hk⟩ := List.exists_mem_of_ne_nil _ hne
    have hmem : k ∈ (Chart.ofPlace p).declarations.map (·.1) := by
      rw [Chart.keys_declarations]
      exact List.mem_flatMap_of_mem (List.mem_append_left _ (List.mem_map_of_mem hs)) hk
    obtain ⟨x, hx⟩ := hall k (List.mem_append_right _ hmem)
    exact hstores.requested hids (hplain.states s hs) hk hx
  · rintro ⟨hdata, hasked⟩
    refine storedApart_of_entries (hstores.nodup hids hplain hunique hdata) fun e he =>
      hstores.get?_eq hdata (fun o ho hne => ?_) he
    rcases List.mem_append.mp ho with ho | ho
    · obtain ⟨s, hs, rfl⟩ := List.mem_map.mp ho
      exact hasked s hs hne
    · obtain ⟨t, ht, rfl⟩ := List.mem_map.mp ho
      exact transition_mem_requests ht

/-- A cabinet and a box in it that count their things in variables of one name; the labels in it
use the name once more. -/
def cabinet (inner : String) : Place :=
  Chart.drawn "cabinet" [
    .data "n" "int" "LOCAL_DATA",
    .state "1" "Box\nen: int n = 1" [
      .data inner "boolean" "LOCAL_DATA",
      .state "2" "Lid\ndu: int n = 2" [],
      .transition "11" none "2" "{int n = 3}" "1"],
    .transition "12" none "1" "" "1"]

theorem variables_kept_iff_cabinet :
    ∃ lines, Runs (flatten (Chart.ofPlace (cabinet "m"))) .initial
        (planarOf (Chart.ofPlace (cabinet "m"))) lines ∧
      (Chart.ofPlace (cabinet "m")).definitions.length = 5 ∧
      StoredApart (planarOf (Chart.ofPlace (cabinet "m"))).vars
        (Chart.ofPlace (cabinet "m")).definitions := by
  have hchart : (DecimalIds (Chart.ofPlace (cabinet "m")) ∧
        (Chart.ofPlace (cabinet "m")).PlainEnds ∧ PlainAround (Chart.ofPlace (cabinet "m")) ∧
        (Chart.ofPlace (cabinet "m")).owners.Nodup ∧
        ∀ d ∈ (Chart.ofPlace (cabinet "m")).data, d.name.any isReserved = false) ∧
      ((flatten (Chart.ofPlace (cabinet "m"))).run.run .initial).1.isOk = true := by
    decide +kernel
  have hkept : (Chart.ofPlace (cabinet "m")).definitions.length = 5 ∧
      ((Chart.ofPlace (cabinet "m")).data.map (·.name)).Nodup ∧
      ∀ s ∈ (Chart.ofPlace (cabinet "m")).states,
        ((Chart.ofPlace (cabinet "m")).variablesOf (.state s.item.ssid)).keys ≠ [] →
          .state s.item.ssid ∈ requests (Chart.ofPlace (cabinet "m")) := by
    decide +kernel
  obtain ⟨⟨hids, hends, haround, hunique, hnames⟩, hok⟩ := hchart
  obtain ⟨lines, hrun⟩ := runs_planarOf (Chart.ofPlace (cabinet "m")) hok
  refine ⟨lines, hrun, hkept.1, ?_⟩
  exact (variables_kept_iff hids hends haround hunique hnames hrun).mpr hkept.2

/-- The identifier of what a datum stands in, and its name. -/
def scopedName (q : Place) : Option String × Option String :=
  (q.enclosing.head?.bind (·.attribute? "SSID"), q.node.attribute? "name")

/-- Two data in different scopes have one name, and one of them is lost. -/
theorem cabinet_loses_datum :
    (((cabinet "n").descendants "data").map scopedName).Nodup ∧
      (∀ d ∈ (Chart.ofPlace (cabinet "n")).data, d.name.any isReserved = false) ∧
      ∃ lines, Runs (flatten (Chart.ofPlace (cabinet "n"))) .initial
          (planarOf (Chart.ofPlace (cabinet "n"))) lines ∧
        ¬ StoredApart (planarOf (Chart.ofPlace (cabinet "n"))).vars
          (Chart.ofPlace (cabinet "n")).definitions := by
  have hlost : ((flatten (Chart.ofPlace (cabinet "n"))).run.run .initial).1.isOk = true ∧
      ∀ e ∈ (planarOf (Chart.ofPlace (cabinet "n"))).vars.entries,
        e.2 ≠ ⟨.int, false, none, .inner⟩ := by
    decide +kernel
  obtain ⟨hok, hnone⟩ := hlost
  obtain ⟨lines, hrun⟩ := runs_planarOf (Chart.ofPlace (cabinet "n")) hok
  refine ⟨by decide +kernel, by decide +kernel, lines, hrun, ?_⟩
  intro hstored
  obtain ⟨k, hk⟩ := hstored.mem_entries (x := ⟨.int, false, none, .inner⟩) (by decide +kernel)
  exact hnone _ hk rfl

end Planar

end Statechart
