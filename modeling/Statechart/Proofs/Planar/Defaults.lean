import Statechart.Proofs.Chart.Drawn
import Statechart.Proofs.Planar.Survival
import Statechart.Proofs.Text.Numerals

/-!
Default transitions of a composite state. They are tried one after the other, and each excludes the
ones before it, so of the ways into a state exactly one can be gone (`one_way_in`). The order in
which they are tried is that of their numerals as texts, which need not be that of their numbers
(`tried_by_number_iff`).
-/

namespace Statechart.Planar

open Chart (State Transition Container Placed)
open Label (View Cache)
open Xml (Place)

/-! ## Ways in that can be gone -/

/-- An evaluator reads the negations that default transitions make. -/
structure Negates (ev : String → Bool) : Prop where
  never : ev never = false
  negation : ∀ c, ev ("not (" ++ c ++ ")") = !ev c

/-- The paths that can be gone. -/
def passable (ev : String → Bool) (paths : List EntryPath) : List EntryPath :=
  paths.filter (·.conditions.all ev)

theorem passable_append (ev : String → Bool) (paths others : List EntryPath) :
    passable ev (paths ++ others) = passable ev paths ++ passable ev others :=
  List.filter_append ..

theorem length_passable_singleton (ev : String → Bool) (e : EntryPath) :
    (passable ev [e]).length = (e.conditions.all ev).toNat := by
  cases h : e.conditions.all ev <;> simp [passable, h]

variable {ev : String → Bool} {chart : Chart}

/-- A default transition can be taken or it can be refused, and not both. -/
theorem Negates.taken_or_refused (h : Negates ev) (c : String) :
    ((if c == "" then [] else [c]).all ev).toNat + (ev (negate [c])).toNat = 1 := by
  rw [negate_singleton]
  by_cases hc : c = ""
  · simp [hc, negateOne, h.never]
  · cases hev : ev c <;> simp [hc, negateOne, h.negation, hev]

theorem tryDefaults_passable (hev : Negates ev)
    {inside : Option String → Except Fault (Option Entering)}
    (hinside : ∀ ssid enter, inside ssid = .ok (some enter) →
      ∀ {conditions actions paths} {c c' : Cache}, Runs (enter conditions actions) c paths c' →
      (passable ev paths).length = (conditions.all ev).toNat)
    {conditions actions : List String} (ts : List Transition) {excluded : List String}
    {paths : List EntryPath} {c c' : Cache}
    (h : Runs (tryDefaults chart inside conditions actions excluded ts) c paths c') :
    (passable ev paths).length = ((conditions ++ excluded).all ev).toNat := by
  induction ts generalizing excluded paths c with
  | nil =>
    rw [tryDefaults] at h
    obtain ⟨rfl, -⟩ := runs_pure.mp h
    exact length_passable_singleton ..
  | cons t ts iht =>
    obtain ⟨enter, l, d, below, others, c₁, c₂, c₃, henter, -, -, hb, ho, rfl⟩ :=
      runs_tryDefaults_cons.mp h
    have hbelow := hinside _ enter henter hb
    have hothers := iht ho
    -- behind the conditions so far, ways through `t` take its condition and the others refuse it
    have hsplit := hev.taken_or_refused l.condition
    have hmore : ∀ xs : List String, (conditions ++ excluded ++ xs).all ev =
        ((conditions ++ excluded).all ev && xs.all ev) := fun xs => List.all_append
    rw [passable_append, List.length_append, hbelow, hothers, ← List.append_assoc, hmore, hmore]
    cases (conditions ++ excluded).all ev with
    | false => simp
    | true => simpa using hsplit

/-- As many ways into a state can be gone as there are ways to its border: one or none. -/
theorem entryPaths_passable (hev : Negates ev) (depth : Nat) (q : Place)
    {conditions actions : List String} {paths : List EntryPath} {c c' : Cache}
    (h : Runs (entryPaths chart depth q conditions actions) c paths c') :
    (passable ev paths).length = (conditions.all ev).toNat := by
  induction depth generalizing q conditions actions paths c c' with
  | zero => exact absurd h not_runs_entryPaths_zero
  | succ depth ih =>
    rcases runs_entryPaths_succ.mp h with ⟨-, rfl, -⟩ | ⟨-, ts, -, h⟩
    · exact length_passable_singleton ..
    · have hinside : ∀ ssid enter,
          enterSubstate (entryPaths chart depth) q ssid = .ok (some enter) →
          ∀ {conditions actions paths} {c c' : Cache},
            Runs (enter conditions actions) c paths c' →
            (passable ev paths).length = (conditions.all ev).toNat := by
        intro ssid enter henter conditions actions paths c c' h
        obtain ⟨r, -, rfl⟩ := enterSubstate_eq_some.mp henter
        exact ih r h
      simpa using tryDefaults_passable hev hinside ts h

/-- Whatever the labels are, of the ways into a state exactly one can be gone if the conditions in
front of it hold, and none if one of them does not. -/
theorem one_way_in (hev : Negates ev) (depth : Nat) (q : Place)
    {conditions actions : List String} {paths : List EntryPath} {c c' : Cache}
    (h : Runs (entryPaths chart depth q conditions actions) c paths c') :
    ((∀ x ∈ conditions, ev x = true) → (passable ev paths).length = 1) ∧
      ((∃ x ∈ conditions, ev x = false) → passable ev paths = []) := by
  have hcount := entryPaths_passable hev depth q h
  constructor
  · intro hall
    rw [hcount, List.all_eq_true.mpr hall]
    rfl
  · rintro ⟨x, hx, hfalse⟩
    have hnot : conditions.all ev = false := List.all_eq_false.mpr ⟨x, hx, by simp [hfalse]⟩
    rw [hnot] at hcount
    exact List.eq_nil_of_length_eq_zero hcount

/-! ### An evaluator -/

/-- What a text negates, if it is a negation. -/
def negated? : List Char → Option (List Char)
  | 'n' :: 'o' :: 't' :: ' ' :: '(' :: rest =>
    if rest.getLast? = some ')' then some rest.dropLast else none
  | _ => none

theorem negated?_negation (c : String) :
    negated? ("not (" ++ c ++ ")").toList = some c.toList := by
  have hcs : ("not (" ++ c ++ ")").toList =
      'n' :: 'o' :: 't' :: ' ' :: '(' :: (c.toList ++ [')']) := by simp
  simp [hcs, negated?]

theorem negated?_length {cs inner : List Char} (h : negated? cs = some inner) :
    inner.length < cs.length := by
  unfold negated? at h
  split at h
  · split at h
    · cases h
      simp only [List.length_dropLast, List.length_cons]
      omega
    · cases h
  · cases h

/-- Takes negations off a text and judges what is left by `holds`. -/
def judge (holds : List Char → Bool) (cs : List Char) : Bool :=
  match _ : negated? cs with
  | some inner => !judge holds inner
  | none => holds cs
termination_by cs.length
decreasing_by exact negated?_length ‹_›

theorem judge_of_negated? {holds : List Char → Bool} {cs inner : List Char}
    (h : negated? cs = some inner) : judge holds cs = !judge holds inner := by
  rw [judge]
  split <;> simp_all

theorem judge_of_plain {holds : List Char → Bool} {cs : List Char} (h : negated? cs = none) :
    judge holds cs = holds cs := by
  rw [judge]
  split <;> simp_all

theorem negates_judge {holds : List Char → Bool} (h : holds never.toList = false) :
    Negates fun c => judge holds c.toList where
  never := (judge_of_plain (by decide)).trans h
  negation c := judge_of_negated? (negated?_negation c)

/-- A relay, with the orders of its two default transitions. -/
def relay (first second : String) : State :=
  .mk (some "2") true
    [⟨some "11", none, some "3", some first⟩, ⟨some "12", none, some "4", some second⟩]
    [.mk (some "3") false [] [], .mk (some "4") false [] []]

/-- A board with the relay on it. -/
def board (first second : String) : State :=
  .mk (some "1") true [⟨some "13", none, some "2", some "1"⟩] [relay first second]

/-- A chart of the board. -/
def circuit (first second : String) : Place :=
  Chart.drawn "circuit" [
    .state "1" "Board" [
      .state "2" "Relay" [
        .state "3" "Low" [],
        .state "4" "High" [],
        .transition "11" none "3" "[a > 0]" first,
        .transition "12" none "4" "[b > 0]" second],
      .transition "13" none "2" "" "1"],
    .transition "14" none "1" "" "1"]

/-- The board in its chart. -/
def boardAt (first second : String) : Place :=
  ((circuit first second).descendants "state").headD (circuit first second)

theorem boardAt_mem (first second : String) :
    boardAt first second ∈ (circuit first second).descendants "state" :=
  .head _

theorem ofNode_boardAt (first second : String) :
    State.ofNode (boardAt first second).node = board first second :=
  rfl

theorem one_way_in_board :
    let ev := fun c : String => judge (["p".toList, "b > 0".toList].contains ·) c.toList
    ∃ paths c, Runs (entryPaths (Chart.ofPlace (circuit "1" "2"))
          (maxDepth (Chart.ofPlace (circuit "1" "2"))) (boardAt "1" "2") ["p"] [])
        (.fresh .initial) paths c ∧
      paths.map (·.conditions) = [["p", "a > 0"], ["p", "not (a > 0)", "b > 0"],
        ["p", "not (a > 0)", "not (b > 0)"], ["p", "false"]] ∧
      (passable ev paths).length = 1 := by
  intro ev
  have hpaths : ((entryPaths (Chart.ofPlace (circuit "1" "2"))
      (maxDepth (Chart.ofPlace (circuit "1" "2"))) (boardAt "1" "2") ["p"] []).run.run
      (.fresh .initial)).1.toOption = some [⟨some "3", ["p", "a > 0"], []⟩,
        ⟨some "4", ["p", "not (a > 0)", "b > 0"], []⟩,
        ⟨some "error", ["p", "not (a > 0)", "not (b > 0)"], []⟩,
        ⟨some "error", ["p", "false"], []⟩] := by decide +kernel
  have hrun := runs_of_toOption hpaths
  have hp : ev "p" = true := (judge_of_plain (by decide)).trans (by decide)
  have hev : Negates ev := negates_judge (by decide)
  have hone := (one_way_in hev _ _ hrun).1 (by simpa using hp)
  exact ⟨_, _, hrun, rfl, hone⟩

/-! ## The order of default transitions -/

/-- The number that the order of a transition spells. -/
def number (t : Transition) : Int := (orderOf t).toOption.getD 0

/-- The text of the order of a transition. -/
def numeral (t : Transition) : String := t.order.getD ""

/-- Transitions whose orders spell numbers, no two of them the same. -/
structure Numbered (ts : List Transition) : Prop where
  spelled : ∀ t ∈ ts, (orderOf t).isOk = true
  apart : ts.Pairwise fun t u => number t ≠ number u

theorem insertByOrder_perm (t : String × Transition) (ts : List (String × Transition)) :
    (insertByOrder t ts).Perm (t :: ts) := by
  induction ts with
  | nil => exact .refl _
  | cons u us ih =>
    rw [insertByOrder]
    split
    · exact (ih.cons u).trans (.swap t u us)
    · exact .refl _

theorem insertByOrder_pairwise (t : String × Transition) {ts : List (String × Transition)}
    (h : ts.Pairwise fun u v => u.1 ≤ v.1) :
    (insertByOrder t ts).Pairwise fun u v => u.1 ≤ v.1 := by
  induction ts with
  | nil => exact List.pairwise_singleton ..
  | cons u us ih =>
    obtain ⟨hu, hus⟩ := List.pairwise_cons.mp h
    rw [insertByOrder]
    split
    · next hlt =>
      refine List.pairwise_cons.mpr ⟨fun v hv => ?_, ih hus⟩
      rcases mem_insertByOrder hv with rfl | hv
      · exact String.not_lt.mp (String.lt_asymm hlt)
      · exact hu v hv
    · next hge =>
      have hle : t.1 ≤ u.1 := String.not_lt.mp hge
      refine List.pairwise_cons.mpr ⟨fun v hv => ?_, h⟩
      rcases List.mem_cons.mp hv with rfl | hv
      · exact hle
      · exact String.le_trans hle (hu v hv)

theorem foldr_insertByOrder (ts : List (String × Transition)) :
    (ts.foldr insertByOrder []).Perm ts ∧
      (ts.foldr insertByOrder []).Pairwise fun u v => u.1 ≤ v.1 := by
  induction ts with
  | nil => exact ⟨.refl _, .nil⟩
  | cons t ts ih =>
    rw [List.foldr_cons]
    exact ⟨(insertByOrder_perm t _).trans (ih.1.cons t), insertByOrder_pairwise t ih.2⟩

/-- Sorting puts transitions in the order of their numerals, as texts. -/
theorem sortByOrder_sorted {ts us : List Transition} (h : sortByOrder ts = .ok us) :
    us.Perm ts ∧ us.Pairwise fun t u => numeral t ≤ numeral u := by
  unfold sortByOrder at h
  split at h
  · cases h
    exact ⟨.refl _, .nil⟩
  · cases h
    exact ⟨.refl _, List.pairwise_singleton ..⟩
  · obtain ⟨keyed, hkeyed, h⟩ := bind_eq_ok.mp h
    cases h
    obtain rfl : keyed = ts.map fun t => (numeral t, t) := by
      refine eq_map_of_mapM_eq_ok (fun t k hk => ?_) hkeyed
      cases ho : t.order with
      | none =>
        simp only [ho] at hk
        cases hk
      | some o =>
        simp only [ho] at hk
        cases hk
        simp [numeral, ho]
    obtain ⟨hperm, hsorted⟩ := foldr_insertByOrder (ts.map fun t => (numeral t, t))
    have hsnd := hperm.map (·.2)
    rw [List.map_map, show (·.2) ∘ (fun t => (numeral t, t)) = id from rfl, List.map_id] at hsnd
    refine ⟨hsnd, List.pairwise_map.mpr (hsorted.imp_of_mem ?_)⟩
    intro u v hu hv hle
    obtain ⟨t, -, rfl⟩ := List.mem_map.mp (hperm.mem_iff.mp hu)
    obtain ⟨t', -, rfl⟩ := List.mem_map.mp (hperm.mem_iff.mp hv)
    exact hle

/-- Transitions can be sorted if there is only one or each has an order text. -/
theorem sortByOrder_ok_iff {ts : List Transition} :
    (∃ us, sortByOrder ts = .ok us) ↔ ts.length ≤ 1 ∨ ∀ t ∈ ts, t.order.isSome = true := by
  constructor
  · rintro ⟨us, h⟩
    unfold sortByOrder at h
    split at h
    · exact .inl (by simp)
    · exact .inl (by simp)
    · obtain ⟨keyed, hkeyed, -⟩ := bind_eq_ok.mp h
      refine .inr fun t ht => ?_
      obtain ⟨k, hk⟩ := exists_ok_of_mapM hkeyed t ht
      cases ho : t.order with
      | none =>
        simp only [ho] at hk
        cases hk
      | some o => rfl
  · intro h
    unfold sortByOrder
    split
    · exact ⟨_, rfl⟩
    · exact ⟨_, rfl⟩
    · next hnil hone =>
      have hall : ∀ t ∈ ts, t.order.isSome = true := by
        refine h.resolve_left fun hlength => ?_
        rcases ts with _ | ⟨t, _ | ⟨u, ts⟩⟩
        · exact hnil rfl
        · exact hone t rfl
        · simp at hlength
      rw [mapM_eq_map (g := fun t => (numeral t, t)) fun t ht => ?_]
      · exact ⟨_, rfl⟩
      · obtain ⟨o, ho⟩ := Option.isSome_iff_exists.mp (hall t ht)
        simp [numeral, ho]

/-- If order texts are different, the order in which transitions are listed does not matter. -/
theorem sortByOrder_perm {ts ts' : List Transition} (h : ts.Perm ts')
    (hnodup : (ts.map (·.order)).Nodup) :
    (sortByOrder ts).toOption = (sortByOrder ts').toOption := by
  have hok : (∃ us, sortByOrder ts = .ok us) ↔ ∃ us, sortByOrder ts' = .ok us := by
    rw [sortByOrder_ok_iff, sortByOrder_ok_iff, h.length_eq]
    simp only [h.mem_iff]
  cases hs : sortByOrder ts with
  | error f =>
    cases hs' : sortByOrder ts' with
    | error f' => rfl
    | ok us' =>
      obtain ⟨us, hus⟩ := hok.mpr ⟨us', hs'⟩
      rw [hs] at hus
      cases hus
  | ok us =>
    obtain ⟨us', hs'⟩ := hok.mp ⟨us, hs⟩
    obtain ⟨hperm, hsorted⟩ := sortByOrder_sorted hs
    obtain ⟨hperm', hsorted'⟩ := sortByOrder_sorted hs'
    rw [hs']
    refine congrArg some (List.Perm.eq_of_pairwise (fun t u ht hu htu hut => ?_) hsorted hsorted'
      (hperm.trans (h.trans hperm'.symm)))
    have ht : t ∈ ts := hperm.mem_iff.mp ht
    have hu : u ∈ ts := h.mem_iff.mpr (hperm'.mem_iff.mp hu)
    have hsame : numeral t = numeral u := String.le_antisymm htu hut
    rcases sortByOrder_ok_iff.mp ⟨us, hs⟩ with hone | hall
    · rcases ts with _ | ⟨x, _ | ⟨y, ts⟩⟩
      · cases ht
      · rw [List.mem_singleton.mp ht, List.mem_singleton.mp hu]
      · simp at hone
    · refine List.inj_on_of_nodup_map hnodup ht hu ?_
      obtain ⟨o, ho⟩ := Option.isSome_iff_exists.mp (hall t ht)
      obtain ⟨o', ho'⟩ := Option.isSome_iff_exists.mp (hall u hu)
      simpa [numeral, ho, ho'] using hsame

theorem readInt_numeral {t : Transition} (h : (orderOf t).isOk = true) :
    Text.readInt (numeral t) = some (number t) := by
  unfold number
  unfold orderOf at h ⊢
  cases ho : t.order with
  | none =>
    simp only [ho] at h
    cases h
  | some s =>
    simp only [ho] at h ⊢
    cases hr : Text.readInt s with
    | none =>
      simp only [hr] at h
      cases h
    | some m => simp [numeral, ho, hr, Except.toOption]

/-- Sorting puts transitions with numbers of their own in a strict order. -/
theorem Numbered.sorted {ts us : List Transition} (hn : Numbered ts)
    (h : sortByOrder ts = .ok us) : us.Perm ts ∧ us.Pairwise fun t u => numeral t < numeral u := by
  obtain ⟨hperm, hsorted⟩ := sortByOrder_sorted h
  have happart : us.Pairwise fun t u => number t ≠ number u :=
    hn.apart.perm hperm.symm fun hne => hne.symm
  refine ⟨hperm, (hsorted.and happart).imp_of_mem ?_⟩
  intro t u ht hu ⟨hle, hne⟩
  have hnt := readInt_numeral (hn.spelled t (hperm.mem_iff.mp ht))
  have hnu := readInt_numeral (hn.spelled u (hperm.mem_iff.mp hu))
  -- one numeral has one number
  refine String.not_le.mp fun hge => hne ?_
  rw [String.le_antisymm hle hge, hnu] at hnt
  exact (Option.some.inj hnt).symm

/-- What comes before a place in a strict order is what is smaller. -/
theorem filter_smaller {ts before after : List Transition} {d : Transition}
    (h : ts.Pairwise fun t u => numeral t < numeral u) (hts : ts = before ++ d :: after) :
    ts.filter (fun t => numeral t < numeral d) = before := by
  subst hts
  obtain ⟨-, hrest, hbefore⟩ := List.pairwise_append.mp h
  have hafter := (List.pairwise_cons.mp hrest).1
  rw [List.filter_append, List.filter_eq_self.mpr, List.filter_eq_nil_iff.mpr, List.append_nil]
  · intro t ht
    rcases List.mem_cons.mp ht with rfl | ht
    · simp
    · simpa using String.lt_asymm (hafter t ht)
  · intro t ht
    simpa using hbefore t ht d (List.mem_cons_self ..)

/-! ## Choices on a way -/

/-- `Takes s choices u before d`: the choices of a way into `s` refuse the default transitions
`before` of the state `u` in it and take `d` there. -/
inductive Takes : State → List Choice → State → List Transition → Transition → Prop
  | outermost {s : State} {before : List Transition} {d : Transition} {rest : List Choice} :
    Takes s (⟨s.ssid, before, some d⟩ :: rest) s before d
  | inside {s inner u : State} {refused before : List Transition} {t d : Transition}
      {rest : List Choice}
      (found : s.substates.find? (·.ssid == some (worded t.destination)) = some inner)
      (takes : Takes inner rest u before d) :
    Takes s (⟨s.ssid, refused, some t⟩ :: rest) u before d

/-- What the ways on are, if default transitions are tried in the order of a list. -/
theorem mem_waysVia {ss : List State} {ssid : Option String} {ts refused : List Transition}
    {ws : List Way} (h : waysVia (waysOf ss) ssid refused ts = some ws) {w : Way} :
    w ∈ ws ↔ w = ⟨some "error", [⟨ssid, refused ++ ts, none⟩]⟩ ∨
      ∃ before t after s below, ts = before ++ t :: after ∧
        ss.find? (·.ssid == some (worded t.destination)) = some s ∧ ways s = some below ∧
        ∃ v ∈ below, w = ⟨v.target, ⟨ssid, refused ++ before, some t⟩ :: v.choices⟩ := by
  induction ts generalizing refused ws with
  | nil =>
    rw [waysVia, Option.some.injEq] at h
    subst h
    simp
  | cons t ts ih =>
    obtain ⟨s, below, others, hs, hb, ho, rfl⟩ := waysVia_cons.mp h
    rw [List.mem_append, ih ho, List.mem_map]
    constructor
    · rintro (⟨v, hv, rfl⟩ | rfl | ⟨before, u, after, s', below', rfl, hs', hb', v, hv, rfl⟩)
      · exact .inr ⟨[], t, ts, s, below, rfl, hs, hb, v, hv, by simp⟩
      · exact .inl (by simp)
      · exact .inr ⟨t :: before, u, after, s', below', rfl, hs', hb', v, hv, by simp⟩
    · rintro (rfl | ⟨before, u, after, s', below', hts, hs', hb', v, hv, rfl⟩)
      · exact .inr (.inl (by simp))
      · cases before with
        | nil =>
          cases hts
          cases hs.symm.trans hs'
          cases hb.symm.trans hb'
          exact .inl ⟨v, hv, by simp⟩
        | cons t' before =>
          cases hts
          exact .inr (.inr ⟨before, u, after, s', below', rfl, hs', hb', v, hv, by simp⟩)

/-- Every default transition that is tried leads into a state that can be entered. -/
theorem waysVia_takes {ss : List State} {ssid : Option String} {ts refused : List Transition}
    {ws : List Way} (h : waysVia (waysOf ss) ssid refused ts = some ws) {t : Transition}
    (ht : t ∈ ts) : ∃ s below, ss.find? (·.ssid == some (worded t.destination)) = some s ∧
      ways s = some below ∧ ∃ v, v ∈ below := by
  induction ts generalizing refused ws with
  | nil => cases ht
  | cons u ts ih =>
    obtain ⟨s, below, others, hs, hb, ho, rfl⟩ := waysVia_cons.mp h
    rcases List.mem_cons.mp ht with rfl | ht
    · exact ⟨s, below, hs, hb, List.exists_mem_of_ne_nil _ (ways_ne_nil s hb)⟩
    · exact ih ho ht

theorem ways_composite {s : State} (hs : s.isComposite = true) {ws : List Way}
    (h : ways s = some ws) :
    ∃ ts, sortByOrder s.defaults = .ok ts ∧
      waysVia (waysOf s.substates) s.ssid [] ts = some ws := by
  obtain ⟨ssid, composite, defaults, substates⟩ := s
  obtain rfl : composite = true := hs
  rw [ways, if_pos rfl] at h
  obtain ⟨ts, hts, h⟩ := Option.bind_eq_some_iff.mp h
  refine ⟨ts, ?_, h⟩
  cases hd : sortByOrder defaults with
  | error f =>
    rw [hd] at hts
    cases hts
  | ok us =>
    rw [hd] at hts
    cases hts
    exact hd

/-- A way with a choice on it leads into a composite state. -/
theorem isComposite_of_choices {s : State} {ws : List Way} (h : ways s = some ws) {w : Way}
    (hw : w ∈ ws) (hne : w.choices ≠ []) : s.isComposite = true := by
  refine Bool.of_not_eq_false fun hleaf => hne ?_
  rw [ways_of_leaf hleaf, Option.some.injEq] at h
  subst h
  rw [List.mem_singleton.mp hw]

/-- A composite state tries its default transitions in their order. -/
theorem ways_takes {s : State} (hs : s.isComposite = true) {ws : List Way}
    (h : ways s = some ws) :
    ∃ ts, sortByOrder s.defaults = .ok ts ∧
      ∀ before d after, ts = before ++ d :: after → ∃ w ∈ ws, Takes s w.choices s before d := by
  obtain ⟨ts, hts, h⟩ := ways_composite hs h
  refine ⟨ts, hts, fun before d after hsplit => ?_⟩
  obtain ⟨inner, below, hfound, hb, v, hv⟩ := waysVia_takes h (t := d) (by simp [hsplit])
  have hmem := (mem_waysVia h).mpr
    (.inr ⟨before, d, after, inner, below, hsplit, hfound, hb, v, hv, rfl⟩)
  exact ⟨_, hmem, .outermost⟩

/-- What a way takes in a state stands in the sorted list of its default transitions behind what
it refuses, and for every such place there is a way. -/
theorem Takes.sorted {s u : State} {choices : List Choice} {before : List Transition}
    {d : Transition} (ht : Takes s choices u before d) {ws : List Way} (h : ways s = some ws)
    {w : Way} (hw : w ∈ ws) (hchoices : w.choices = choices) :
    ∃ ts after, sortByOrder u.defaults = .ok ts ∧ ts = before ++ d :: after ∧
      ∀ before' d' after', ts = before' ++ d' :: after' →
        ∃ w' ∈ ws, Takes s w'.choices u before' d' := by
  -- the induction follows the way inwards, up to the state where `d` is taken
  induction ht generalizing ws w with
  | @outermost s before d rest =>
    have hs := isComposite_of_choices h hw (by simp [hchoices])
    obtain ⟨ts, hts, hall⟩ := ways_takes hs h
    obtain ⟨us, hus, h⟩ := ways_composite hs h
    cases hts.symm.trans hus
    rcases (mem_waysVia h).mp hw with
      rfl | ⟨before', t, after, inner, below, hsplit, -, -, v, -, rfl⟩
    · cases hchoices
    · cases hchoices
      exact ⟨ts, after, hts, hsplit, hall⟩
  | @inside s inner u refused before t d rest found takes ih =>
    have hs := isComposite_of_choices h hw (by simp [hchoices])
    obtain ⟨ts, hts, h⟩ := ways_composite hs h
    rcases (mem_waysVia h).mp hw with
      rfl | ⟨refused', t', after, inner', below, hsplit, hfound, hb, v, hv, rfl⟩
    · cases hchoices
    · cases hchoices
      cases hfound.symm.trans found
      obtain ⟨us, after', hus, hmid, hall⟩ := ih hb hv rfl
      refine ⟨us, after', hus, hmid, fun before' d' rest' hsplit' => ?_⟩
      obtain ⟨w', hw', htakes⟩ := hall before' d' rest' hsplit'
      have hmem := (mem_waysVia h).mpr
        (.inr ⟨_, _, after, _, below, hsplit, hfound, hb, w', hw', rfl⟩)
      exact ⟨_, hmem, .inside found htakes⟩

/-- The conditions of a way hold those of each choice on it. -/
theorem Takes.conditions {s u : State} {choices : List Choice} {before : List Transition}
    {d : Transition} (h : Takes s choices u before d) (v : View) :
    ∃ front rest, choices.flatMap (·.conditions v) =
      front ++ (before.map (refusal v) ++ conditionOf v d) ++ rest := by
  induction h with
  | @outermost s before d rest =>
    exact ⟨[], rest.flatMap (·.conditions v), by simp [Choice.conditions]⟩
  | @inside s inner u refused before t d rest found takes ih =>
    obtain ⟨front, behind, heq⟩ := ih
    exact ⟨Choice.conditions v ⟨s.ssid, refused, some t⟩ ++ front, behind, by simp [heq]⟩

/-- Some way into `s` takes a default transition of `u`. -/
def Reaches (s : State) (ws : List Way) (u : State) : Prop :=
  ∃ w ∈ ws, ∃ before d, Takes s w.choices u before d

/-- The ways into `s` try the default transitions of `u` by number: together with one of them
just those with smaller numbers are refused. -/
def TriedByNumber (s : State) (ws : List Way) (u : State) : Prop :=
  ∀ w ∈ ws, ∀ before d, Takes s w.choices u before d →
    before.Perm (u.defaults.filter fun t => number t < number d)

/-- Together with a default transition those with smaller numerals are refused. -/
theorem Takes.refused {s u : State} (hn : Numbered u.defaults) {ws : List Way}
    (h : ways s = some ws) {w : Way} (hw : w ∈ ws) {before : List Transition} {d : Transition}
    (ht : Takes s w.choices u before d) :
    d ∈ u.defaults ∧ before.Perm (u.defaults.filter fun t => numeral t < numeral d) ∧
      ∀ d' ∈ u.defaults, ∃ w' ∈ ws, ∃ before', Takes s w'.choices u before' d' := by
  obtain ⟨ts, after, hts, hsplit, hall⟩ := ht.sorted h hw rfl
  obtain ⟨hperm, hsorted⟩ := hn.sorted hts
  refine ⟨hperm.mem_iff.mp (by simp [hsplit]), ?_, fun d' hd' => ?_⟩
  · rw [← filter_smaller hsorted hsplit]
    exact hperm.filter _
  · obtain ⟨before', after', hsplit'⟩ := List.append_of_mem (hperm.mem_iff.mpr hd')
    obtain ⟨w', hw', htakes⟩ := hall before' d' after' hsplit'
    exact ⟨w', hw', before', htakes⟩

/-- Default transitions are tried by number exactly where their numerals compare as their
numbers do. -/
theorem triedByNumber_iff {s u : State} (hn : Numbered u.defaults) {ws : List Way}
    (h : ways s = some ws) (hreaches : Reaches s ws u) :
    TriedByNumber s ws u ↔
      ∀ t ∈ u.defaults, ∀ d ∈ u.defaults, numeral t < numeral d ↔ number t < number d := by
  constructor
  · intro htried t ht d hd
    obtain ⟨w, hw, before, d', htakes⟩ := hreaches
    obtain ⟨w', hw', before', htakes'⟩ := (htakes.refused hn h hw).2.2 d hd
    obtain ⟨-, hrefused, -⟩ := htakes'.refused hn h hw'
    have hsame := hrefused.symm.trans (htried w' hw' before' d htakes')
    simpa [ht] using hsame.mem_iff (a := t)
  · intro hagree w hw before d htakes
    obtain ⟨hd, hrefused, -⟩ := htakes.refused hn h hw
    rw [List.filter_congr fun t ht => decide_eq_decide.mpr (hagree t ht d hd).symm]
    exact hrefused

/-- Numerals of one length without signs compare as their numbers do. -/
theorem numeral_lt_iff {ts : List Transition} (hn : Numbered ts) {n : Nat}
    (hplain : ∀ t ∈ ts, (numeral t).toList.all Char.isDigit = true ∧ (numeral t).length = n) :
    ∀ t ∈ ts, ∀ d ∈ ts, numeral t < numeral d ↔ number t < number d := by
  intro t ht d hd
  obtain ⟨hdigits, hlength⟩ := hplain t ht
  obtain ⟨hdigits', hlength'⟩ := hplain d hd
  refine Text.readInt_lt_iff (List.all_eq_true.mp hdigits) (List.all_eq_true.mp hdigits') ?_
    (readInt_numeral (hn.spelled t ht)) (readInt_numeral (hn.spelled d hd))
  rw [String.length_toList, String.length_toList, hlength, hlength']

/-- Whatever state `s` of a chart is entered, a state `u` in it that is reached takes each of its
default transitions on some way, together with the negated conditions of the ones that are refused
there. These are the ones with smaller numbers just if numerals compare as numbers in `u`, as they
do if they are digits and have one length. -/
theorem tried_by_number_iff (hends : chart.PlainEnds) {q : Place}
    (hq : q ∈ chart.place.descendants "state") {s u : State} (hs : s = State.ofNode q.node)
    (hn : Numbered u.defaults) (depth : Nat) {conditions actions : List String}
    {paths : List EntryPath} {c c' : Cache} (hc : c.Kept chart)
    (hrun : Runs (entryPaths chart depth q conditions actions) c paths c') :
    ∃ ws, ways s = some ws ∧ paths = ws.map (Way.path (c.view chart) conditions actions) ∧
      (s.isComposite = true → s.defaults ≠ [] → Reaches s ws s) ∧
      (∀ w ∈ ws, ∀ before d, Takes s w.choices u before d →
        ∃ front rest, (w.path (c.view chart) conditions actions).conditions =
          conditions ++ front ++ (before.map (refusal (c.view chart)) ++
            conditionOf (c.view chart) d) ++ rest) ∧
      (Reaches s ws u →
        (∀ d ∈ u.defaults, ∃ w ∈ ws, ∃ before, Takes s w.choices u before d) ∧
          (TriedByNumber s ws u ↔
            ∀ t ∈ u.defaults, ∀ d ∈ u.defaults, numeral t < numeral d ↔ number t < number d)) ∧
      ∀ n, (∀ t ∈ u.defaults, (numeral t).toList.all Char.isDigit = true ∧
        (numeral t).length = n) → TriedByNumber s ws u := by
  obtain ⟨ws, hws, hpaths, -, -⟩ := runs_entryPaths hends depth hq hc hrun
  rw [← hs] at hws
  refine ⟨ws, hws, hpaths, fun hs hne => ?_, fun w hw before d htakes => ?_, fun hreaches => ?_,
    fun n hplain w hw before d htakes => ?_⟩
  · obtain ⟨ts, hts, hall⟩ := ways_takes hs hws
    obtain ⟨d, hd⟩ := List.exists_mem_of_ne_nil _ hne
    obtain ⟨before, after, hsplit⟩ :=
      List.append_of_mem ((sortByOrder_sorted hts).1.mem_iff.mpr hd)
    obtain ⟨w, hw, htakes⟩ := hall before d after hsplit
    exact ⟨w, hw, before, d, htakes⟩
  · obtain ⟨front, rest, heq⟩ := htakes.conditions (c.view chart)
    exact ⟨front, rest, by simp [Way.path, Way.conditions, heq]⟩
  · refine ⟨?_, triedByNumber_iff hn hws hreaches⟩
    obtain ⟨w, hw, before, d, htakes⟩ := hreaches
    exact (htakes.refused hn hws hw).2.2
  · have hreaches : Reaches s ws u := ⟨w, hw, before, d, htakes⟩
    have htried := (triedByNumber_iff hn hws hreaches).mpr (numeral_lt_iff hn hplain)
    exact htried w hw before d htakes

theorem tried_by_number_iff_relay :
    ∃ ws, ways (board "1" "2") = some ws ∧ Numbered (relay "1" "2").defaults ∧
      TriedByNumber (board "1" "2") ws (relay "1" "2") := by
  have hn : Numbered (relay "1" "2").defaults := ⟨by decide, by decide⟩
  have hends : (Chart.ofPlace (circuit "1" "2")).PlainEnds := by decide +kernel
  have hok : ((entryPaths (Chart.ofPlace (circuit "1" "2"))
      (maxDepth (Chart.ofPlace (circuit "1" "2"))) (boardAt "1" "2") [] []).run.run
      (.fresh .initial)).1.toOption = some [⟨some "3", ["a > 0"], []⟩,
        ⟨some "4", ["not (a > 0)", "b > 0"], []⟩,
        ⟨some "error", ["not (a > 0)", "not (b > 0)"], []⟩,
        ⟨some "error", ["false"], []⟩] := by decide +kernel
  obtain ⟨ws, hws, -, -, -, -, hplain⟩ :=
    tried_by_number_iff hends (boardAt_mem "1" "2") (ofNode_boardAt "1" "2").symm hn _
      (Cache.kept_fresh _ _) (runs_of_toOption hok)
  exact ⟨ws, hws, hn, hplain 1 (by decide)⟩

/-- A relay whose default transitions have the orders 9 and 10 tries the one with order 10 first:
on the way through it nothing is refused, and on the way through the other it is. -/
theorem ten_before_nine :
    Numbered (relay "9" "10").defaults ∧
      (∃ ws, ways (board "9" "10") = some ws ∧
        ¬ TriedByNumber (board "9" "10") ws (relay "9" "10")) ∧
      ((planarOf (Chart.ofPlace (circuit "9" "10"))).transitions.map fun t =>
        (t.target, t.conditions)) = [(some "4", ["b > 0"]), (some "3", ["not (b > 0)", "a > 0"]),
          (some "error", ["not (b > 0)", "not (a > 0)"]), (some "error", ["false"]),
          (some "error", [])] := by
  refine ⟨⟨by decide, by decide⟩, ⟨_, rfl, fun h => ?_⟩, by decide +kernel⟩
  have hrefused := h _ (List.mem_cons_self ..) [] ⟨some "12", none, some "4", some "10"⟩
    (.inside rfl .outermost)
  exact absurd hrefused.length_eq (by decide)

end Statechart.Planar
