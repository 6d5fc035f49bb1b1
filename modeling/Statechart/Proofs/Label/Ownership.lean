import Statechart.Proofs.Chart.Shape
import Statechart.Proofs.Label.View
import Statechart.Proofs.Table

/-!
Variables of labels and whose they are. A label declares variables under its owner's name, so if
identifiers are decimal the variables of different owners have different names (`owner_unique`). A
cache that has been asked for the labels of some owners holds the variables that these declare and
no others (`Tracks`), in whatever order and however often it was asked.
-/

namespace Statechart

namespace Label

/-! ## Names after an owner -/

/-- Variables without repetition, all named after an owner. -/
structure Owned (owner : String) (vars : Variables) : Prop where
  nodup : vars.keys.Nodup
  named : ∀ k ∈ vars.keys, ∃ x, k = some (owner ++ x)

theorem Owned.empty (owner : String) : Owned owner .empty :=
  ⟨List.nodup_nil, by simp [Table.keys, Table.empty]⟩

theorem Owned.declare {owner : String} {vars : Variables} (h : Owned owner vars) (type : VarType)
    (const : Bool) (ds : List Action.Declared) :
    Owned owner (Action.declare owner vars type const ds) := by
  refine ⟨Table.nodup_insertAll _ h.nodup, fun k hk => ?_⟩
  rcases Table.mem_keys_insertAll.mp hk with hk | hk
  · obtain ⟨e, he, rfl⟩ := List.mem_map.mp hk
    obtain ⟨d, -, rfl⟩ := List.mem_map.mp he
    exact ⟨_, rfl⟩
  · exact h.named k hk

theorem Owned.elaborate {owner : String} (items : List Action.Item) {vars : Variables}
    (h : Owned owner vars) : Owned owner (Action.elaborate owner vars items).2 := by
  induction items generalizing vars with
  | nil => exact h
  | cons item items ih =>
    cases item with
    | statement e => exact ih h
    | declaration type const ds => exact ih (h.declare type const ds)

theorem Owned.readPart {text owner : String} {vars vars' : Variables} {ss : List String}
    {lines lines' : Lines} (h : Owned owner vars)
    (hrun : Runs (readPart text owner vars) lines (ss, vars') lines') : Owned owner vars' := by
  unfold Label.readPart at hrun
  obtain ⟨t, lines₁, -, hrun⟩ := runs_bind.mp hrun
  have hmap : (Action.read lines₁.action t).1.map (Action.elaborate owner vars) =
      .ok (ss, vars') := congrArg Prod.fst hrun
  cases hread : (Action.read lines₁.action t).1 with
  | error f =>
    rw [hread] at hmap
    cases hmap
  | ok items =>
    rw [hread] at hmap
    have hresult : Action.elaborate owner vars items = (ss, vars') := Except.ok.inj hmap
    have howned := h.elaborate items
    rwa [hresult] at howned

theorem Owned.readPart? {text? : Option String} {owner : String} {vars vars' : Variables}
    {ss : List String} {lines lines' : Lines} (h : Owned owner vars)
    (hrun : Runs (readPart? text? owner vars) lines (ss, vars') lines') : Owned owner vars' := by
  cases text? with
  | none =>
    obtain ⟨he, -⟩ := runs_pure.mp hrun
    rw [← (Prod.mk.inj he).2]
    exact h
  | some text => exact h.readPart hrun

theorem Owned.addSections {owner : String} (ss : List Section) {l l' : StateLabel}
    {vars vars' : Variables} {lines lines' : Lines} (h : Owned owner vars)
    (hrun : Runs (addSections owner l vars ss) lines (l', vars') lines') : Owned owner vars' := by
  induction ss generalizing l vars lines with
  | nil =>
    obtain ⟨he, -⟩ := runs_pure.mp hrun
    rw [← (Prod.mk.inj he).2]
    exact h
  | cons s ss ih =>
    obtain ⟨heading, body⟩ := s
    cases heading with
    | bind => exact absurd hrun not_runs_throw
    | on e => exact absurd hrun not_runs_throw
    | actions words =>
      obtain ⟨⟨statements, declared⟩, lines₁, hpart, hrun⟩ := runs_bind.mp hrun
      exact ih (h.readPart hpart) hrun

theorem owned_readState {text : String} {ssid : Option String} {l : StateLabel}
    {vars : Variables} {lines lines' : Lines}
    (h : Runs (readState text ssid) lines (l, vars) lines') : Owned (stateOwner ssid) vars := by
  unfold readState at h
  obtain ⟨ss, lines₁, -, h⟩ := runs_bind.mp h
  exact (Owned.empty _).addSections ss h

theorem owned_readTransition {text : String} {ssid : Option String} {l : TransitionLabel}
    {vars : Variables} {lines lines' : Lines}
    (h : Runs (readTransition text ssid) lines (l, vars) lines') :
    Owned (transitionOwner ssid) vars := by
  unfold readTransition at h
  obtain ⟨parts, lines₁, -, h⟩ := runs_bind.mp h
  dsimp only at h
  split at h
  · obtain ⟨u, lines₂, h, -⟩ := runs_bind.mp h
    exact absurd h not_runs_throw
  · have hparts : ∀ {condition : String} {lines₂ : Lines}, Runs (do
          let ca ← readPart? parts.conditionAction (transitionOwner ssid) .empty
          let ta ← readPart? parts.transitionAction (transitionOwner ssid) ca.2
          return ((⟨condition, ca.1, ta.1⟩ : TransitionLabel), ta.2)) lines₂ (l, vars) lines' →
        Owned (transitionOwner ssid) vars := by
      intro condition lines₂ h
      obtain ⟨⟨ca, declared⟩, lines₃, hca, h⟩ := runs_bind.mp h
      obtain ⟨⟨ta, declared'⟩, lines₄, hta, h⟩ := runs_bind.mp h
      obtain ⟨he, -⟩ := runs_pure.mp h
      rw [← (Prod.mk.inj he).2]
      exact ((Owned.empty _).readPart? hca).readPart? hta
    cases hcondition : parts.condition with
    | none =>
      rw [hcondition] at h
      obtain ⟨condition, lines₂, -, h⟩ := runs_bind.mp h
      exact hparts h
    | some text =>
      rw [hcondition] at h
      obtain ⟨condition, lines₂, -, h⟩ := runs_bind.mp h
      exact hparts h

end Label

/-! ## Owners -/

/-- The owner of a label. -/
inductive Label.Owner where
  | state (ssid : Option String)
  | transition (ssid : Option String)
  deriving DecidableEq

def Label.Owner.ssid : Label.Owner → Option String
  | .state ssid => ssid
  | .transition ssid => ssid

/-- What the variables of a label begin with. -/
def Label.Owner.name : Label.Owner → String
  | .state ssid => Label.stateOwner ssid
  | .transition ssid => Label.transitionOwner ssid

namespace Chart

open Label (Owner Owned)

/-- The variables that a label declares, as its text gives them. A label without a text, or with one
that cannot be read, declares none. -/
def variablesOf (chart : Chart) : Owner → Variables
  | .state ssid =>
    ((chart.stateText? ssid).bind fun text =>
      ((Label.readState text ssid).run.run .initial).1.toOption.map (·.2)).getD .empty
  | .transition ssid =>
    ((chart.transitionText? ssid).bind fun text =>
      ((Label.readTransition text ssid).run.run .initial).1.toOption.map (·.2)).getD .empty

theorem variablesOf_state (chart : Chart) {ssid : Option String} {text : String} {l : StateLabel}
    {vars : Variables} {lines lines' : Lines} (ht : chart.stateText? ssid = some text)
    (hl : Runs (Label.readState text ssid) lines (l, vars) lines') :
    chart.variablesOf (.state ssid) = vars := by
  obtain ⟨other, h⟩ := Label.readState_steady text ssid _ _ _ hl .initial
  unfold Runs at h
  simp [variablesOf, ht, h, Except.toOption]

theorem variablesOf_transition (chart : Chart) {ssid : Option String} {text : String}
    {l : TransitionLabel} {vars : Variables} {lines lines' : Lines}
    (ht : chart.transitionText? ssid = some text)
    (hl : Runs (Label.readTransition text ssid) lines (l, vars) lines') :
    chart.variablesOf (.transition ssid) = vars := by
  obtain ⟨other, h⟩ := Label.readTransition_steady _ ssid _ _ _ hl .initial
  unfold Runs at h
  simp [variablesOf, ht, h, Except.toOption]

/-- A label that can not be read declares nothing. -/
theorem variablesOf_state_of_none {chart : Chart} {ssid : Option String}
    (h : chart.stateLabel? ssid = none) : chart.variablesOf (.state ssid) = .empty := by
  unfold stateLabel? at h
  cases ht : chart.stateText? ssid with
  | none => simp [variablesOf, ht]
  | some text =>
    rw [ht, Option.bind_some, Option.map_eq_none_iff] at h
    simp [variablesOf, ht, h]

theorem variablesOf_transition_of_none {chart : Chart} {ssid : Option String}
    (h : chart.transitionLabel? ssid = none) :
    chart.variablesOf (.transition ssid) = .empty := by
  unfold transitionLabel? at h
  cases ht : chart.transitionText? ssid with
  | none => simp [variablesOf, ht]
  | some text =>
    rw [ht, Option.bind_some, Option.map_eq_none_iff] at h
    simp [variablesOf, ht, h]

theorem owned_variablesOf (chart : Chart) (o : Owner) : Owned o.name (chart.variablesOf o) := by
  cases o with
  | state ssid =>
    cases ht : chart.stateText? ssid with
    | none => simpa [variablesOf, ht] using Owned.empty _
    | some text =>
      cases hr : ((Label.readState text ssid).run.run .initial).1.toOption with
      | none => simpa [variablesOf, ht, hr] using Owned.empty _
      | some r =>
        have howned := Label.owned_readState (runs_of_toOption hr)
        simpa [variablesOf, Owner.name, ht, hr] using howned
  | transition ssid =>
    cases ht : chart.transitionText? ssid with
    | none => simpa [variablesOf, ht] using Owned.empty _
    | some text =>
      cases hr : ((Label.readTransition text ssid).run.run .initial).1.toOption with
      | none => simpa [variablesOf, ht, hr] using Owned.empty _
      | some r =>
        have howned := Label.owned_readTransition (runs_of_toOption hr)
        simpa [variablesOf, Owner.name, ht, hr] using howned

/-- The texts of labels that stand beside that of an owner. -/
def labelsBeside (chart : Chart) : Owner → List (String × String)
  | .state _ => chart.stateLabels
  | .transition _ => chart.transitionLabels

theorem readTransition_empty (ssid : Option String) :
    ((Label.readTransition "" ssid).run.run .initial).1 = .ok (⟨"", [], []⟩, .empty) := rfl

theorem mem_of_lookup {labels : List (String × String)} {key text : String}
    (h : labels.lookup key = some text) : (key, text) ∈ labels := by
  obtain ⟨before, after, rfl, -⟩ := List.lookup_eq_some_iff.mp h
  simp

/-- A label of a plain identifier that declares variables has a text there. -/
theorem text_of_variable {chart : Chart} {o : Owner} (hplain : IsPlain o.ssid) {k : Option String}
    (h : k ∈ (chart.variablesOf o).keys) :
    ∃ text, (worded o.ssid, text) ∈ chart.labelsBeside o := by
  cases o with
  | state ssid =>
    cases ht : chart.stateLabels.lookup (worded ssid) with
    | some text => exact ⟨text, mem_of_lookup ht⟩
    | none =>
      have htext : chart.stateText? ssid = none := (stateText?_plain hplain).trans ht
      rw [variablesOf, htext] at h
      cases h
  | transition ssid =>
    cases ht : chart.transitionLabels.lookup (worded ssid) with
    | some text => exact ⟨text, mem_of_lookup ht⟩
    | none =>
      have hplain : IsPlain ssid := hplain
      have htext : chart.transitionText? ssid = some "" := by
        rw [transitionText?_plain hplain, ht, Option.getD_none]
      rw [variablesOf, htext, Option.bind_some, readTransition_empty] at h
      cases h

-- Proofs go by the lemmas above and never run a reader.
attribute [irreducible] variablesOf

/-! ## Decimal identifiers -/

/-- A numeral of decimal digits. -/
def isDecimal (s : String) : Bool := !s.isEmpty && s.toList.all Char.isDigit

/-- The identifiers of states and transitions are decimal numerals. -/
structure DecimalIds (chart : Chart) : Prop where
  states : ∀ s ∈ chart.states, s.item.ssid.any isDecimal = true
  transitions : ∀ t ∈ chart.transitions, t.item.ssid.any isDecimal = true

instance (chart : Chart) : Decidable (DecimalIds chart) :=
  decidable_of_iff ((∀ s ∈ chart.states, s.item.ssid.any isDecimal = true) ∧
      ∀ t ∈ chart.transitions, t.item.ssid.any isDecimal = true)
    ⟨fun h => ⟨h.1, h.2⟩, fun h => ⟨h.states, h.transitions⟩⟩

/-- Labels stand under decimal identifiers. -/
structure DecimalLabels (chart : Chart) : Prop where
  states : ∀ e ∈ chart.stateLabels, isDecimal e.1 = true
  transitions : ∀ e ∈ chart.transitionLabels, isDecimal e.1 = true

theorem DecimalIds.labels {p : Xml.Place} (h : DecimalIds (ofPlace p)) :
    DecimalLabels (ofPlace p) := by
  constructor
  · intro e he
    obtain ⟨s, hs, hssid⟩ := state_of_label he
    simpa [hssid] using h.states s hs
  · intro e he
    obtain ⟨t, ht, hssid⟩ := transition_of_label he
    simpa [hssid] using h.transitions t ht

theorem digits_of_isDecimal {s : String} (h : isDecimal s = true) :
    ∀ c ∈ s.toList, c.isDigit = true :=
  List.all_eq_true.mp (Bool.and_eq_true_iff.mp h).2

theorem isDecimal_worded {k : Option String} (h : k.any isDecimal = true) :
    isDecimal (worded k) = true := by
  cases k with
  | none => cases h
  | some x => exact h

/-- What is written as a decimal numeral is not absent. -/
theorem some_of_isDecimal {k : Option String} (h : isDecimal (worded k) = true) :
    ∃ x, k = some x ∧ isDecimal x = true := by
  cases k with
  | none => exact absurd h (by decide)
  | some x => exact ⟨x, rfl, h⟩

/-- A decimal identifier has no quotation mark. -/
theorem isPlain_of_isDecimal {k : Option String} (h : isDecimal (worded k) = true) : IsPlain k :=
  fun hmem => absurd (digits_of_isDecimal h '"' hmem) (by decide)

/-- If identifiers are decimal and transitions refer to plain ones, all are plain. -/
theorem DecimalIds.plain {chart : Chart} (h : DecimalIds chart) (hends : chart.PlainEnds) :
    chart.Plain where
  states s hs := isPlain_of_isDecimal (isDecimal_worded (h.states s hs))
  transitions t ht := isPlain_of_isDecimal (isDecimal_worded (h.transitions t ht))
  ends := hends

/-- Digits end where an underscore stands. -/
theorem digits_unique {ds ds' rest rest' : List Char} (hd : ∀ c ∈ ds, c.isDigit = true)
    (hd' : ∀ c ∈ ds', c.isDigit = true) (h : ds ++ '_' :: rest = ds' ++ '_' :: rest') :
    ds = ds' := by
  have htake : ∀ {ds rest : List Char}, (∀ c ∈ ds, c.isDigit = true) →
      (ds ++ '_' :: rest).takeWhile Char.isDigit = ds := by
    intro ds rest hd
    rw [List.takeWhile_append_of_pos hd, List.takeWhile_cons_of_neg (by decide), List.append_nil]
  rw [← htake hd, h, htake hd']

/-- The identifier of a label that declares variables. -/
theorem ssid_of_variable {chart : Chart} (hdec : chart.DecimalLabels) {o : Owner}
    (hplain : IsPlain o.ssid) {k : Option String} (h : k ∈ (chart.variablesOf o).keys) :
    ∃ x, o.ssid = some x ∧ isDecimal x = true := by
  obtain ⟨text, ht⟩ := text_of_variable hplain h
  have hx : isDecimal (worded o.ssid) = true := by
    cases o with
    | state ssid => exact hdec.states _ ht
    | transition ssid => exact hdec.transitions _ ht
  exact some_of_isDecimal hx

/-- With decimal identifiers a variable has one owner. -/
theorem owner_unique {chart : Chart} (hdec : chart.DecimalLabels) {o o' : Owner}
    (hplain : IsPlain o.ssid) (hplain' : IsPlain o'.ssid) {k : Option String}
    (h : k ∈ (chart.variablesOf o).keys) (h' : k ∈ (chart.variablesOf o').keys) : o = o' := by
  obtain ⟨x, hx, hdx⟩ := ssid_of_variable hdec hplain h
  obtain ⟨x', hx', hdx'⟩ := ssid_of_variable hdec hplain' h'
  obtain ⟨y, rfl⟩ := (owned_variablesOf chart o).named k h
  obtain ⟨y', hy'⟩ := (owned_variablesOf chart o').named _ h'
  have hchars := congrArg String.toList (Option.some.inj hy')
  cases o with
  | state ssid =>
    cases o' with
    | state ssid' =>
      obtain rfl : ssid = some x := hx
      obtain rfl : ssid' = some x' := hx'
      have hsame : x.toList ++ '_' :: y.toList = x'.toList ++ '_' :: y'.toList := by
        simpa [Owner.name, Label.stateOwner, worded] using hchars
      have := digits_unique (digits_of_isDecimal hdx) (digits_of_isDecimal hdx') hsame
      rw [String.toList_inj.mp this]
    | transition ssid' =>
      simp [Owner.name, Label.stateOwner, Label.transitionOwner] at hchars
  | transition ssid =>
    cases o' with
    | state ssid' =>
      simp [Owner.name, Label.stateOwner, Label.transitionOwner] at hchars
    | transition ssid' =>
      obtain rfl : ssid = some x := hx
      obtain rfl : ssid' = some x' := hx'
      have hsame : x.toList ++ '_' :: y.toList = x'.toList ++ '_' :: y'.toList := by
        simpa [Owner.name, Label.transitionOwner, worded] using hchars
      have := digits_unique (digits_of_isDecimal hdx) (digits_of_isDecimal hdx') hsame
      rw [String.toList_inj.mp this]

end Chart

/-! ## What a cache was asked for -/

namespace Label

variable {chart : Chart} {asked asked' : List Owner} {c c' : Cache}

/-- A cache was asked for labels of plain identifiers. It holds labels that it was asked for, and
the variables of all of them. -/
structure Tracks (chart : Chart) (asked : List Owner) (c : Cache) : Prop where
  plain : ∀ o ∈ asked, Chart.IsPlain o.ssid
  states : ∀ ssid, (c.states.get? ssid).isSome → .state ssid ∈ asked
  transitions : ∀ ssid, (c.transitions.get? ssid).isSome → .transition ssid ∈ asked
  nodup : c.vars.keys.Nodup
  vars : ∀ k x, c.vars.get? k = some x ↔ ∃ o ∈ asked, (chart.variablesOf o).get? k = some x

/-- Order and repetition do not matter. -/
theorem Tracks.congr (h : Tracks chart asked c) (hsame : ∀ o, o ∈ asked ↔ o ∈ asked') :
    Tracks chart asked' c where
  plain o ho := h.plain o ((hsame o).mpr ho)
  states ssid hs := (hsame _).mp (h.states ssid hs)
  transitions ssid ht := (hsame _).mp (h.transitions ssid ht)
  nodup := h.nodup
  vars k x := by simp only [h.vars, hsame]

/-- Asking again for a label changes nothing. -/
theorem Tracks.again {o : Owner} (h : Tracks chart (asked ++ [o]) c) (hmem : o ∈ asked) :
    Tracks chart asked c :=
  h.congr fun o' => by simpa using fun ho' => ho' ▸ hmem

theorem tracks_fresh (chart : Chart) (lines : Lines) : Tracks chart [] (.fresh lines) := by
  refine ⟨by simp, fun ssid h => ?_, fun ssid h => ?_, List.nodup_nil, fun k x => ?_⟩
  · simp [Cache.fresh] at h
  · simp [Cache.fresh] at h
  · simp [Cache.fresh]

/-- The variables of one more owner. -/
theorem Tracks.merge (hdec : chart.DecimalLabels) (h : Tracks chart asked c) {o : Owner}
    (hplain : Chart.IsPlain o.ssid) :
    (∀ o' ∈ asked ++ [o], Chart.IsPlain o'.ssid) ∧
    (c.vars.merge (chart.variablesOf o)).keys.Nodup ∧
      ∀ k x, (c.vars.merge (chart.variablesOf o)).get? k = some x ↔
        ∃ o' ∈ asked ++ [o], (chart.variablesOf o').get? k = some x := by
  have hall : ∀ o' ∈ asked ++ [o], Chart.IsPlain o'.ssid := by
    intro o' ho'
    rcases List.mem_append.mp ho' with ho' | ho'
    · exact h.plain o' ho'
    · exact List.mem_singleton.mp ho' ▸ hplain
  refine ⟨hall, Table.nodup_insertAll _ h.nodup, fun k x => ?_⟩
  rw [Table.get?_merge _ (Chart.owned_variablesOf chart o).nodup]
  cases hown : (chart.variablesOf o).get? k with
  | none =>
    rw [Option.none_or, h.vars]
    constructor
    · rintro ⟨o', ho', hx⟩
      exact ⟨o', List.mem_append_left _ ho', hx⟩
    · rintro ⟨o', ho', hx⟩
      rcases List.mem_append.mp ho' with ho' | ho'
      · exact ⟨o', ho', hx⟩
      · rw [List.mem_singleton.mp ho', hown] at hx
        cases hx
  | some y =>
    rw [Option.some_or]
    constructor
    · rintro ⟨⟩
      exact ⟨o, by simp, hown⟩
    · -- whoever else declares the variable is the same owner
      rintro ⟨o', ho', hx⟩
      have hsame := Chart.owner_unique hdec (hall o' ho') hplain (Table.mem_keys_of_get? hx)
        (Table.mem_keys_of_get? hown)
      rwa [hsame, hown] at hx

theorem Tracks.state (hdec : chart.DecimalLabels) (h : Tracks chart asked c)
    {ssid : Option String} (hplain : Chart.IsPlain ssid) {l : StateLabel}
    (hrun : Runs (Cache.state chart ssid) c l c') :
    Tracks chart (asked ++ [.state ssid]) c' := by
  rcases Cache.runs_state_iff.mp hrun with ⟨hs, rfl⟩ | ⟨-, text, vars, lines, ht, hread, rfl⟩
  · have hmem := h.states ssid (by rw [hs]; rfl)
    exact h.congr fun o => by simpa using fun ho => ho ▸ hmem
  · obtain rfl := chart.variablesOf_state ht hread
    obtain ⟨hall, hnodup, hvars⟩ := h.merge hdec (o := .state ssid) hplain
    refine ⟨hall, fun k hk => ?_, fun k hk => ?_, hnodup, hvars⟩
    · rw [Table.get?_insert] at hk
      by_cases he : ssid = k
      · simp [he]
      · rw [if_neg he] at hk
        exact List.mem_append_left _ (h.states k hk)
    · exact List.mem_append_left _ (h.transitions k hk)

theorem Tracks.transition (hdec : chart.DecimalLabels) (h : Tracks chart asked c)
    {ssid : Option String} (hplain : Chart.IsPlain ssid) {l : TransitionLabel}
    (hrun : Runs (Cache.transition chart ssid) c l c') :
    Tracks chart (asked ++ [.transition ssid]) c' := by
  rcases Cache.runs_transition_iff.mp hrun with ⟨hs, rfl⟩ | ⟨-, text, vars, lines, ht, hread, rfl⟩
  · have hmem := h.transitions ssid (by rw [hs]; rfl)
    exact h.congr fun o => by simpa using fun ho => ho ▸ hmem
  · obtain rfl := chart.variablesOf_transition ht hread
    obtain ⟨hall, hnodup, hvars⟩ := h.merge hdec (o := .transition ssid) hplain
    refine ⟨hall, fun k hk => ?_, fun k hk => ?_, hnodup, hvars⟩
    · exact List.mem_append_left _ (h.states k hk)
    · rw [Table.get?_insert] at hk
      by_cases he : ssid = k
      · simp [he]
      · rw [if_neg he] at hk
        exact List.mem_append_left _ (h.transitions k hk)

/-- Widening a label declares nothing. -/
theorem Tracks.setState (h : Tracks chart asked c) {ssid : Option String} {l : StateLabel}
    {u : Unit} (hmem : .state ssid ∈ asked) (hrun : Runs (Cache.setState ssid l) c u c') :
    Tracks chart asked c' := by
  obtain rfl := runs_modify.mp hrun
  refine ⟨h.plain, fun k hk => ?_, h.transitions, h.nodup, h.vars⟩
  rw [Table.get?_insert] at hk
  by_cases he : ssid = k
  · exact he ▸ hmem
  · rw [if_neg he] at hk
    exact h.states k hk

theorem Tracks.setTransition (h : Tracks chart asked c) {ssid : Option String}
    {l : TransitionLabel} {u : Unit} (hmem : .transition ssid ∈ asked)
    (hrun : Runs (Cache.setTransition ssid l) c u c') : Tracks chart asked c' := by
  obtain rfl := runs_modify.mp hrun
  refine ⟨h.plain, h.states, fun k hk => ?_, h.nodup, h.vars⟩
  rw [Table.get?_insert] at hk
  by_cases he : ssid = k
  · exact he ▸ hmem
  · rw [if_neg he] at hk
    exact h.transitions k hk

end Label

end Statechart
