import Statechart.Proofs.Dve.Guards
import Statechart.Proofs.Planar.Defaults

/-!
Conditions of default transitions in guards. A planar transition tests the conditions of all
default transitions on its way at once, before any action is run, while in the hierarchy a
default transition is tried when its state has been entered. What has been done then is known for
each choice on the way, and a condition that is tested for the choice is sure to hold there
exactly if nothing of it writes a variable that the condition reads
(`hoisted_conditions_hold_iff`). An entry action that writes one makes the guard and the choice
differ (`gate_not_hoistable`).
-/

namespace Statechart

/-! ## Conditions that outlast actions -/

namespace Meaning

/-- A condition holds after actions wherever all conditions in `guard` held before them, whatever
the texts mean, as long as they use the variables that they are said to use. -/
def Outlasts (writes reads : String → List String) (guard actions : List String) (c : String) :
    Prop :=
  ∀ (σ V : Type) (m : Meaning σ) (value : σ → String → V), m.Framed value writes reads →
    ∀ s, (∀ d ∈ guard, m.holds d s = true) → m.holds c (m.run actions s) = true

/-- Texts of which those that write `y` set it, while `c` holds only until then. -/
def setting (writes : String → List String) (y c : String) : Meaning (String → Bool) where
  holds d s := d != c || !s y
  act a s := if y ∈ writes a then fun x => x == y || s x else s

variable {writes reads : String → List String} {y c : String}

theorem setting_framed (hy : y ∈ reads c) : (setting writes y c).Framed id writes reads where
  act a s x hx := by
    by_cases hw : y ∈ writes a
    · have hne : x ≠ y := fun h => hx (h ▸ hw)
      simp [setting, hw, hne]
    · simp [setting, hw]
  holds d s s' hsame := by
    by_cases hd : d = c
    · have hvalue : s y = s' y := hsame y (hd ▸ hy)
      simp [setting, hvalue]
    · have hother : (d != c) = true := by simpa using hd
      simp [setting, hother]

/-- What is set stays set. -/
theorem setting_run (actions : List String) {s : String → Bool}
    (h : s y = true ∨ ∃ a ∈ actions, y ∈ writes a) :
    (setting writes y c).run actions s y = true := by
  induction actions generalizing s with
  | nil => simpa [run] using h
  | cons a actions ih =>
    refine ih ?_
    by_cases hw : y ∈ writes a
    · exact .inl (by simp [setting, hw])
    · refine h.imp (fun hs => by simpa [setting, hw] using hs) ?_
      rintro ⟨b, hb, hwrites⟩
      rcases List.mem_cons.mp hb with rfl | hb
      · exact absurd hwrites hw
      · exact ⟨b, hb, hwrites⟩

theorem outlasts_iff {guard actions : List String} (hc : c ∈ guard) :
    Outlasts writes reads guard actions c ↔ ∀ a ∈ actions, ∀ y ∈ reads c, y ∉ writes a := by
  constructor
  · intro h a ha y hy hw
    have hafter := h _ _ (setting writes y c) id (setting_framed hy) (fun _ => false)
      (fun d _ => by simp [setting])
    have hset : (setting writes y c).run actions (fun _ => false) y = true :=
      setting_run actions (.inr ⟨a, ha, hw⟩)
    simp only [setting, bne_self_eq_false, Bool.false_or, Bool.not_eq_true'] at hafter hset
    rw [hset] at hafter
    cases hafter
  · intro hapart σ V m value hframed s hguard
    rw [hframed.holds_run hapart]
    exact hguard c hc

end Meaning

namespace Planar

open Chart (State Transition Container Placed Hierarchical Identified)
open Label (View)

/-! ## What comes before a choice -/

/-- The actions of choices that have been made. -/
def done (v : View) (xs : List Choice) : List String := xs.flatMap (·.actions v)

/-- The transition by which one comes to the next choice, if `t` leads to the first. -/
def leading (t : Transition) : List Choice → Transition
  | [] => t
  | x :: xs => leading (x.taken.getD t) xs

/-- On a way into the destination of `t`, each choice but the last takes a transition, and the next
one is made in the state that it leads to. -/
theorem choice_state (s : State) {ws : List Way} (h : ways s = some ws) {w : Way} (hw : w ∈ ws)
    {t : Transition} (ht : s.ssid = some (worded t.destination)) {before after : List Choice}
    {x : Choice} (hsplit : w.choices = before ++ x :: after) :
    x.state = some (worded (leading t before).destination) ∧
      ∀ y ∈ before, y.taken.isSome = true := by
  induction s using State.induction generalizing ws w t before with
  | mk ssid composite defaults substates ih =>
    have hcomposite : (State.mk ssid composite defaults substates).isComposite = true :=
      isComposite_of_choices h hw (by simp [hsplit])
    obtain ⟨ts, -, hvia⟩ := ways_composite hcomposite h
    rcases (mem_waysVia hvia).mp hw with
      rfl | ⟨refused, u, rest, inner, below, -, hfound, hbelow, b, hb, rfl⟩
    · cases before with
      | nil =>
        cases hsplit
        exact ⟨ht, by simp⟩
      | cons y before => simp at hsplit
    · cases before with
      | nil =>
        cases hsplit
        exact ⟨ht, by simp⟩
      | cons y before =>
        obtain ⟨rfl, hrest⟩ := List.cons.inj hsplit
        have hinner : inner.ssid = some (worded u.destination) := by
          simpa using List.find?_some hfound
        obtain ⟨hstate, htaken⟩ :=
          ih inner (List.mem_of_find?_eq_some hfound) hbelow hb hinner hrest
        exact ⟨hstate, List.forall_mem_cons.mpr ⟨rfl, htaken⟩⟩

/-- The choices that have been made end with the entry of the state where the next one is. -/
theorem done_entry (v : View) (t : Transition) {before : List Choice} (hne : before ≠ [])
    (htaken : ∀ y ∈ before, y.taken.isSome = true) :
    (v.state (leading t before).destination).entry <:+ done v before := by
  induction before generalizing t with
  | nil => exact absurd rfl hne
  | cons y before ih =>
    obtain ⟨hy, htaken⟩ := List.forall_mem_cons.mp htaken
    obtain ⟨u, hu⟩ := Option.isSome_iff_exists.mp hy
    rw [leading, hu, Option.getD_some, done, List.flatMap_cons]
    cases before with
    | nil =>
      rw [leading, Choice.actions, hu]
      simp only [Option.toList_some, List.flatMap_singleton, List.flatMap_nil, List.append_nil]
      exact List.suffix_append ..
    | cons z before => exact (ih u (by simp) htaken).trans (List.suffix_append ..)

/-! ## Hoisted conditions -/

/-- What the planar transition from `leaf` does until the choices `before` have been made: during
actions, condition actions, exit actions, transition actions and entry actions on the way to the
destination, and then what is done by these choices. -/
def preceding (v : View) (t : Transition) (parent : Option String) (d : Departure)
    (goal : Placed State) (leaf : Option String × List String) (before : List Choice) :
    List String :=
  d.lead v t (entries v (entered parent t.destination goal.around)) leaf ++ done v before

/-- A planar transition goes from a leaf where a transition departs along a way into its
destination. At each choice on the way, which is made in the state that was entered last, a part of
the actions has been done. A condition that is tested for the choice outlasts this part exactly if
nothing in it writes a variable that the condition reads. -/
def SoundlyHoisted (chart : Chart) (e : PlanarTransition) : Prop :=
  ∃ t ∈ chart.transitions, ∃ parent d goal ws, ∃ leaf ∈ d.leaves, ∃ w ∈ ws,
    t.around.head? = some parent ∧ Departs chart (View.original chart) t.item parent d ∧
    stateOf chart t.item.destination = some goal ∧ ways goal.item = some ws ∧
    e.ssid = t.item.ssid ∧ e.source = leaf.1 ∧ e.target = w.target ∧
    e.conditions = conditionOf (View.original chart) t.item ++ w.conditions (View.original chart) ∧
    ∀ before x after, w.choices = before ++ x :: after →
      let part := preceding (View.original chart) t.item parent.ssid d goal leaf before
      e.actions = part ++ done (View.original chart) (x :: after) ∧
      x.state = some (worded (leading t.item before).destination) ∧
      ((t.item.destination ≠ parent.ssid ∨ before ≠ []) →
        ((View.original chart).state (leading t.item before).destination).entry <:+ part) ∧
      ∀ c ∈ x.conditions (View.original chart), ∀ writes reads : String → List String,
        Meaning.Outlasts writes reads e.conditions part c ↔
          ∀ a ∈ part, ∀ y ∈ reads c, y ∉ writes a

theorem Becomes.soundlyHoisted {chart : Chart} {t : Placed Transition}
    (ht : t ∈ chart.transitions) {block : List PlanarTransition}
    (hb : Becomes chart (View.original chart) t block) :
    ∀ e ∈ block, SoundlyHoisted chart e := by
  intro e he
  cases hb with
  | nested => cases he
  | @made parent d goal ws order proper stands departs arrives enters =>
    obtain ⟨leaf, hleaf, he⟩ := List.mem_flatMap.mp he
    obtain ⟨w, hw, rfl⟩ := List.mem_map.mp he
    refine ⟨t, ht, parent, d, goal, ws, leaf, hleaf, w, hw, stands, departs, arrives, enters, rfl,
      rfl, rfl, rfl, ?_⟩
    intro before x after hsplit
    obtain ⟨hstate, htaken⟩ := choice_state goal.item enters hw (stateOf_ssid arrives) hsplit
    refine ⟨?_, hstate, fun hentered => ?_, fun c hc writes reads => Meaning.outlasts_iff ?_⟩
    · rw [Departure.made, Way.actions, hsplit, List.flatMap_append, preceding, List.append_assoc]
      rfl
    · by_cases hne : before = []
      · subst hne
        have houter := hentered.resolve_right (by simp)
        have hself : entries (View.original chart) [t.item.destination] =
            ((View.original chart).state t.item.destination).entry := by simp [entries]
        rw [preceding, entered, if_neg (by simpa using houter), Departure.lead, entries_append,
          hself, done, List.flatMap_nil, List.append_nil, ← List.append_assoc]
        exact List.suffix_append ..
      · exact (done_entry _ t.item hne htaken).trans (List.suffix_append ..)
    · -- the conditions of the choice are among those of the way
      refine List.mem_append_right _ (List.mem_flatMap_of_mem ?_ hc)
      rw [hsplit]
      exact List.mem_append_right _ (List.mem_cons_self ..)

/-- Testing the conditions of default transitions ahead of everything is sound exactly as far as
nothing that is done before a default transition is tried writes a variable of its condition. -/
theorem hoisted_conditions_hold_iff {p : Xml.Place} (htree : Chart.TreeShaped p)
    (hids : Identified (Chart.ofPlace p) (Chart.baseOf p)) (hplain : (Chart.ofPlace p).Plain)
    {lines lines' : Lines} {planar : PlanarChart}
    (hrun : Runs (flatten (Chart.ofPlace p)) lines planar lines') :
    ∀ e ∈ planar.transitions, e = startFails ∨ SoundlyHoisted (Chart.ofPlace p) e := by
  obtain ⟨⟨blocks, hblocks, hts⟩, -⟩ := runs_flatten htree.hierarchical hids hplain.ends hrun
  intro e he
  rw [hts] at he
  rcases List.mem_append.mp he with he | he
  · obtain ⟨t, ht, block, hb, he⟩ := mem_of_forall₂ hblocks he
    exact .inr (hb.soundlyHoisted ht e he)
  · exact .inl (List.mem_singleton.mp he)

/-- If there is one choice on the way, and nothing is done by it, all actions come before it. -/
theorem SoundlyHoisted.outlasts_iff {chart : Chart} {e : PlanarTransition}
    (h : SoundlyHoisted chart e) {c : String}
    (hsingle : ∀ t ∈ chart.transitions, t.item.ssid = e.ssid →
      ∀ goal ∈ (stateOf chart t.item.destination).toList, ∀ w ∈ (ways goal.item).getD [],
        w.target = e.target → w.choices.map (Choice.conditions (View.original chart)) = [[c]] ∧
          w.actions (View.original chart) = [])
    (writes reads : String → List String) :
    Meaning.Outlasts writes reads e.conditions e.actions c ↔
      ∀ a ∈ e.actions, ∀ y ∈ reads c, y ∉ writes a := by
  obtain ⟨t, ht, parent, d, goal, ws, leaf, -, w, hw, -, -, harrives, henters, hssid, -, htarget,
    -, hall⟩ := h
  obtain ⟨hchoices, hdone⟩ := hsingle t ht hssid.symm goal (by simp [harrives]) w
    (by simpa [henters] using hw) htarget.symm
  obtain ⟨x, hx, hconditions⟩ := List.map_eq_singleton_iff.mp hchoices
  rw [Way.actions, hx] at hdone
  obtain ⟨hpart, -, -, houtlasts⟩ := hall [] x [] hx
  rw [done, hdone, List.append_nil] at hpart
  rw [hpart]
  exact houtlasts c (by simp [hconditions]) writes reads

/-- A gate that opens when it is entered. Whether it may be passed depends on `guard`. -/
def gate (guard : String) : Xml.Place :=
  Chart.drawn "gate" [
    .state "1" "Gate\nen: a = 1" [
      .state "2" "Open" [],
      .transition "11" none "2" guard "1"],
    .transition "12" none "1" "" "1"]

/-- Stores of numbers, where the texts of the gate that is passed with `b` positive mean what they
say. -/
def passMeaning : Meaning (String → Int) where
  holds c s := (c == "b > 0" && decide (0 < s "b")) || (c == "not (b > 0)" && decide (s "b" ≤ 0))
  act a s := if a == "a = 1" then fun x => if x == "a" then 1 else s x else s

def passWrites (a : String) : List String := if a == "a = 1" then ["a"] else []

def passReads (c : String) : List String := if c == "b > 0" || c == "not (b > 0)" then ["b"] else []

theorem passMeaning_framed : passMeaning.Framed id passWrites passReads where
  act a s x hx := by
    by_cases ha : a = "a = 1"
    · have hne : x ≠ "a" := by simpa [passWrites, ha] using hx
      simp [passMeaning, ha, hne]
    · simp [passMeaning, ha]
  holds c s s' hsame := by
    by_cases hc : c = "b > 0" ∨ c = "not (b > 0)"
    · have hvalue : s "b" = s' "b" := hsame "b" (by simp [passReads, hc])
      simp [passMeaning, hvalue]
    · obtain ⟨hone, htwo⟩ := not_or.mp hc
      have hone : (c == "b > 0") = false := beq_eq_false_iff_ne.mpr hone
      have htwo : (c == "not (b > 0)") = false := beq_eq_false_iff_ne.mpr htwo
      simp [passMeaning, hone, htwo]

/-- The action that opens the gate leaves alone what has to be positive to pass it. -/
theorem hoisted_conditions_hold_iff_gate :
    ∃ lines, Runs (flatten (Chart.ofPlace (gate "[b > 0]"))) .initial
        (planarOf (Chart.ofPlace (gate "[b > 0]"))) lines ∧
      ∃ e ∈ (planarOf (Chart.ofPlace (gate "[b > 0]"))).transitions,
        e.conditions = ["b > 0"] ∧ e.actions = ["a = 1"] ∧
        SoundlyHoisted (Chart.ofPlace (gate "[b > 0]")) e ∧
        ∀ s : String → Int, passMeaning.holds "b > 0" s = true →
          passMeaning.holds "b > 0" (passMeaning.run ["a = 1"] s) = true := by
  have hids : Identified (Chart.ofPlace (gate "[b > 0]")) (Chart.baseOf (gate "[b > 0]")) ∧
      (Chart.ofPlace (gate "[b > 0]")).Plain := by
    decide +kernel
  have hsome : ((flatten (Chart.ofPlace (gate "[b > 0]"))).run.run .initial).1.isOk = true ∧
      ∃ e ∈ (planarOf (Chart.ofPlace (gate "[b > 0]"))).transitions,
        e.conditions = ["b > 0"] ∧ e.actions = ["a = 1"] ∧ e ≠ startFails ∧
        ∀ t ∈ (Chart.ofPlace (gate "[b > 0]")).transitions, t.item.ssid = e.ssid →
          ∀ goal ∈ (stateOf (Chart.ofPlace (gate "[b > 0]")) t.item.destination).toList,
            ∀ w ∈ (ways goal.item).getD [], w.target = e.target →
              w.choices.map (Choice.conditions
                (View.original (Chart.ofPlace (gate "[b > 0]")))) = [["b > 0"]] ∧
              w.actions (View.original (Chart.ofPlace (gate "[b > 0]"))) = [] := by
    decide +kernel
  obtain ⟨hok, e, he, hconditions, hactions, hne, hsingle⟩ := hsome
  obtain ⟨lines, hrun⟩ := runs_planarOf (Chart.ofPlace (gate "[b > 0]")) hok
  have hsound := (hoisted_conditions_hold_iff (Chart.treeShaped_drawn _ _) hids.1 hids.2 hrun e
    he).resolve_left hne
  refine ⟨lines, hrun, e, he, hconditions, hactions, hsound, fun s hs => ?_⟩
  have hiff := hsound.outlasts_iff hsingle passWrites passReads
  rw [hconditions, hactions] at hiff
  exact hiff.mpr (by decide +kernel) _ _ passMeaning id passMeaning_framed s (by simpa using hs)

/-- A store that holds whether `a` is positive. -/
def gateMeaning : Meaning Bool where
  holds c s := ((c == "a > 0" || c == "not (not (a > 0))") && s) || (c == "not (a > 0)" && !s)
  act a s := a == "a = 1" || s

/-- If the gate may be passed only with `a` positive, the guard finds `a` not positive before the
gate is entered, and entering it makes `a` positive: at the first choice on the way the refused
condition holds. -/
theorem gate_not_hoistable :
    (∀ s, Dve.Evaluates (gateMeaning.holds · s)
      (planarOf (Chart.ofPlace (gate "[a > 0]"))).transitions) ∧
    ∃ e ∈ (planarOf (Chart.ofPlace (gate "[a > 0]"))).transitions,
      ∃ goal ∈ (Chart.ofPlace (gate "[a > 0]")).states, ∃ w ∈ (ways goal.item).getD [],
        e.conditions = w.conditions (View.original (Chart.ofPlace (gate "[a > 0]"))) ∧
        e.actions = ["a = 1"] ++ w.actions (View.original (Chart.ofPlace (gate "[a > 0]"))) ∧
        (∀ c ∈ e.conditions, gateMeaning.holds c false = true) ∧
        ∃ x ∈ w.choices.take 1,
          ∃ c ∈ x.conditions (View.original (Chart.ofPlace (gate "[a > 0]"))),
            gateMeaning.holds c (gateMeaning.run ["a = 1"] false) = false := by
  decide +kernel

end Planar

end Statechart
