import Statechart.Proofs.Dve.Alternation
import Statechart.Proofs.Text.Places

/-!
The order of steps. A chart waits until the turn is 0 and leaves it at 1, the feeding process
waits until it is not 0 and leaves it at 0, so whichever process moves when it can, the steps at
even positions of a run are those of charts and the others are feeding (`steps_alternate`). The
name of the turn is not kept free for it. The feeding process writes its inputs after it hands the
turn over, so an input of that name takes it back and is fed again. A chart with another variable
of that name goes by its own variable, and another chart can move right after it
(`turn_taken_out_of_order`).
-/

namespace Statechart.Dve

/-! ## Texts that mention the turn -/

/-- A text cut at each character that no word has. -/
def tokens (cs : List Char) : List (List Char) := cs.splitOnP (!Text.isWord ·)

/-- The turn is a word of the text. -/
def Mentions (text : String) : Prop := turn.toList ∈ tokens text.toList

instance (text : String) : Decidable (Mentions text) := inferInstanceAs (Decidable (_ ∈ _))

theorem tokens_append_cons {c : Char} (hc : Text.isWord c = false) (xs ys : List Char) :
    tokens (xs ++ c :: ys) = tokens xs ++ tokens ys :=
  List.splitOnP_append_cons xs ys (by simp [hc])

/-- A token of a longer text is one of the text behind its first character, or starts with it. -/
theorem mem_tokens_cons {c : Char} (hc : Text.isWord c = true) {t cs : List Char}
    (ht : t ∈ tokens (c :: cs)) : t.head? = some c ∨ t ∈ tokens cs := by
  rw [tokens, List.splitOnP_cons_eq_if_modifyHead, if_neg (by simp [hc])] at ht
  unfold tokens
  cases hsplit : cs.splitOnP (!Text.isWord ·) with
  | nil => simp [hsplit] at ht
  | cons u us =>
    rw [hsplit, List.modifyHead_cons, List.mem_cons] at ht
    rcases ht with rfl | ht
    · exact .inl rfl
    · exact .inr (List.mem_cons_of_mem _ ht)

theorem turn_mem_of_other {c : Char} (hc : Text.isWord c = false) {cs : List Char}
    (h : turn.toList ∈ tokens (c :: cs)) : turn.toList ∈ tokens cs := by
  have hsplit := tokens_append_cons hc [] cs
  rw [List.nil_append] at hsplit
  rw [hsplit, List.mem_append] at h
  exact h.resolve_left (by decide +kernel)

/-- The turn does not start with a digit, so no number adds it, even with a word right behind. -/
theorem turn_mem_of_digits {ds cs : List Char} (hds : ∀ d ∈ ds, d.isDigit = true)
    (h : turn.toList ∈ tokens (ds ++ cs)) : turn.toList ∈ tokens cs := by
  induction ds with
  | nil => exact h
  | cons d ds ih =>
    have hd := hds d (List.mem_cons_self ..)
    rcases mem_tokens_cons (Text.isWord_of_isDigit hd) h with hhead | h
    · have hs : turn.toList.head? = some 's' := by decide +kernel
      rw [hs, Option.some.injEq] at hhead
      rw [← hhead] at hd
      exact absurd hd (by decide)
    · exact ih (fun d' hd' => hds d' (List.mem_cons_of_mem _ hd')) h

theorem turn_mem_of_int (value : Int) {cs : List Char}
    (h : turn.toList ∈ tokens ((toString value).toList ++ cs)) : turn.toList ∈ tokens cs := by
  rw [Int.toString_eq_repr] at h
  cases value with
  | ofNat n => exact turn_mem_of_digits (fun _ => Text.isDigit_of_mem_repr) h
  | negSucc n =>
    rw [Int.repr, String.toList_append] at h
    exact turn_mem_of_digits (fun _ => Text.isDigit_of_mem_repr) (turn_mem_of_other (by decide) h)

/-- Assignments mention the turn only if they assign it. -/
theorem mentions_assignments {last : Option String} {names : List (Option String)}
    {values : List Int} (h : Mentions (assignments last names values)) :
    ∃ name ∈ names, Mentions (worded name) := by
  unfold Mentions assignments at h
  rw [String.toList_join] at h
  induction names generalizing values with
  | nil => exact absurd h (by simp; decide +kernel)
  | cons name names ih =>
    cases values with
    | nil => exact absurd h (by simp; decide +kernel)
    | cons value values =>
      have hsign : " = ".toList = [' ', '=', ' '] := rfl
      have hcomma : ", ".toList = [',', ' '] := rfl
      simp only [List.zip_cons_cons, List.map_cons, List.flatMap_cons, String.toList_append,
        List.append_assoc, hsign, List.cons_append, List.nil_append] at h
      rw [tokens_append_cons (by decide), List.mem_append] at h
      rcases h with hname | h
      · exact ⟨name, List.mem_cons_self .., hname⟩
      · -- past the sign and the value, with or without a comma, the next assignments begin
        have hvalue := turn_mem_of_other (by decide) (turn_mem_of_other (by decide) h)
        have hbehind := turn_mem_of_int value hvalue
        obtain ⟨other, hother, hmention⟩ := @ih values (by
          split at hbehind
          · exact hbehind
          · rw [hcomma] at hbehind
            exact turn_mem_of_other (by decide) (turn_mem_of_other (by decide) hbehind))
        exact ⟨other, List.mem_cons_of_mem _ hother, hmention⟩

/-! ## Steps -/

namespace System

variable {σ : Type} (S : System σ)

/-- How the variables of a chart are declared: inputs are fed, and so they are not its own. -/
def options : Options := ⟨.id, some S.interval, true⟩

/-- The process of a chart declares nothing that mentions the turn. -/
def Undeclared (chart : PlanarChart) : Prop :=
  ∀ e ∈ chart.vars.entries, ¬ Mentions (declaration S.options e.1 e.2)

instance (chart : PlanarChart) : Decidable (S.Undeclared chart) :=
  inferInstanceAs (Decidable (∀ e ∈ chart.vars.entries, _))

/-- Texts mean what they say about the turn, as far as its scope goes: it is the common one in the
feeding process, and in those of charts that do not declare it themselves. A text of the feeding
process that does not mention the turn does not change it. -/
structure Scoped : Prop where
  initially : S.turnOf S.initial = 0
  shares : ∀ (i : Nat) (chart : PlanarChart), S.charts[i]? = some chart → S.Undeclared chart →
    S.Shares i
  feedWaits : ∀ s, S.feeding.holds turn s = (S.turnOf s != 0)
  feedHands : ∀ s, S.turnOf (S.feeding.act (turn ++ " = 0") s) = 0
  frames : ∀ text, ¬ Mentions text → ∀ s, S.turnOf (S.feeding.act text s) = S.turnOf s

/-- The turn is neither an input nor declared in a process. -/
structure Apart : Prop where
  inputs : ∀ input ∈ inputsOf S.charts, ¬ Mentions (worded input.1)
  undeclared : ∀ chart ∈ S.charts, S.Undeclared chart

variable {S} {style : NameStyle} {k k' : Config σ} {m : Mover} {ms : List Mover}

/-- What is fed after the turn is handed over leaves it as it is. -/
theorem Scoped.assigns (h : S.Scoped) (hapart : S.Apart) :
    ∀ e ∈ feeds S.interval S.charts, ∀ a ∈ e.effect.tail, ∀ s,
      S.turnOf (S.feeding.act a s) = S.turnOf s := by
  intro e he a ha
  obtain ⟨-, last, values, heffect⟩ := mem_feeds he
  rw [heffect, List.tail_cons, List.mem_singleton] at ha
  subst ha
  refine h.frames _ fun hmention => ?_
  obtain ⟨name, hname, hmention⟩ := mentions_assignments hmention
  have hinput : ∃ input ∈ inputsOf S.charts, input.1 = name := by
    rcases List.mem_append.mp hname with hname | hname
    all_goals
      obtain ⟨input, hinput, rfl⟩ := List.mem_map.mp hname
      exact ⟨input, List.mem_of_mem_filter hinput, rfl⟩
  obtain ⟨input, hinput, rfl⟩ := hinput
  exact hapart.inputs input hinput hmention

theorem Scoped.common (h : S.Scoped) (hapart : S.Apart) : S.Common where
  initially := h.initially
  shares i chart hchart :=
    h.shares i chart hchart (hapart.undeclared chart (List.mem_of_getElem? hchart))
  feedWaits := h.feedWaits
  feedHands := h.feedHands
  assigns := h.assigns hapart

/-- The turn tells the parity of the number of steps so far. -/
theorem Trail.parity (h : S.Common) (hrun : S.Trail style ms k) :
    S.turnOf k.store = 0 ↔ ms.length % 2 = 0 := by
  induction hrun with
  | init => simp [h.initially]
  | @step ms m k k' hrun hmove ih =>
    rw [List.length_append, List.length_singleton]
    rcases hmove.turn h with ⟨-, hbefore, hafter⟩ | ⟨-, hbefore, hafter⟩
    · have heven := ih.mp hbefore
      rw [hafter]
      omega
    · have hodd := mt ih.mpr hbefore
      rw [hafter]
      omega

end System

/-- Whatever the interleaving, the steps at even positions of a run are those of charts and the
others feed inputs, if no variable has the name of the turn. So the first is one of a chart, and no
two of charts and no two that feed are next to each other. -/
theorem steps_alternate {σ : Type} (S : System σ) (style : NameStyle) (hscoped : S.Scoped)
    (hapart : S.Apart) {ms : List Mover} {k : Config σ} (hrun : S.Trail style ms k) (n : Nat)
    (m : Mover) (hm : ms[n]? = some m) : m.isChart = true ↔ n % 2 = 0 := by
  have hcommon := hscoped.common hapart
  induction hrun with
  | init => cases hm
  | @step ms m' k k' hrun hmove ih =>
    by_cases hn : n < ms.length
    · rw [List.getElem?_append_left hn] at hm
      exact ih hm
    · -- the last step: the turn says whose it is
      obtain ⟨hlt, -⟩ := List.getElem?_eq_some_iff.mp hm
      rw [List.length_append, List.length_singleton] at hlt
      have hlast : n = ms.length := by omega
      subst hlast
      rw [List.getElem?_concat_length, Option.some.injEq] at hm
      subst hm
      rw [← hrun.parity hcommon]
      rcases hmove.turn hcommon with ⟨hchart, hbefore, -⟩ | ⟨hfeeds, hbefore, -⟩
      · exact iff_of_true hchart hbefore
      · exact iff_of_false (by simp [hfeeds]) hbefore

/-! ## Charts that are fed -/

theorem turnMeaning_frames {text : String} (h : ¬ Mentions text) (s : Int) :
    turnMeaning.act text s = s := by
  have hset : Mentions (turn ++ " = 1") ∧ Mentions (turn ++ " = 0") := by decide +kernel
  have hone : text ≠ turn ++ " = 1" := fun heq => h (heq ▸ hset.1)
  have hzero : text ≠ turn ++ " = 0" := fun heq => h (heq ▸ hset.2)
  simp [turnMeaning, hone, hzero]

theorem resting_scoped (items : List Chart.Item) : (resting items).Scoped where
  initially := rfl
  shares _ _ _ _ := ⟨turnMeaning_waits, turnMeaning_hands⟩
  feedWaits := turnMeaning_feedWaits
  feedHands := turnMeaning_feedHands
  frames _ := turnMeaning_frames

/-- What is fed comes after the turn is handed over. -/
theorem resting_fed {items : List Chart.Item} {style : NameStyle} {places : List (Option String)}
    (text : String)
    (he : (⟨some "start", some "start", [turn], [turn ++ " = 0", text]⟩ : Edge) ∈
      feeds (0, 1) [Planar.planarOf (rest items)]) :
    (resting items).Move style ⟨places, 1⟩ .feeding ⟨places, turnMeaning.act text 0⟩ := by
  have hafter : turnMeaning.run [turn ++ " = 0", text] 1 = turnMeaning.act text 0 :=
    congrArg (turnMeaning.act text) (turnMeaning_feedHands 1)
  rw [← hafter]
  refine System.Move.feed ⟨some "start", some "start", [turn], [turn ++ " = 0", text]⟩ he ?_
  rw [Edge.enabled, List.all_cons, List.all_nil, Bool.and_true]
  exact turnMeaning_feedWaits 1

/-- A chart that goes round is fed after each of its steps. -/
theorem steps_alternate_round :
    let S := resting [.transition "12" (some "1") "1" "" "1", .data "x" "int" "INPUT_DATA"]
    let ms : List Mover := [.chart 0, .feeding, .chart 0, .feeding]
    (S.Scoped ∧ S.Apart ∧ S.Trail .short ms ⟨[some "1"], 0⟩) ∧
      ∀ n m, ms[n]? = some m → (m.isChart = true ↔ n % 2 = 0) := by
  intro S ms
  have hscoped : S.Scoped := resting_scoped _
  have hchart : ((∀ input ∈ inputsOf S.charts, ¬ Mentions (worded input.1)) ∧
        ∀ chart ∈ S.charts, S.Undeclared chart) ∧
      (⟨some "start", some "1", ["not " ++ turn], [turn ++ " = 1"]⟩ : Edge) ∈
        written true (Planar.planarOf (rest [.transition "12" (some "1") "1" "" "1",
          .data "x" "int" "INPUT_DATA"])) ∧
      (⟨some "1", some "1", ["not " ++ turn], [turn ++ " = 1"]⟩ : Edge) ∈
        written true (Planar.planarOf (rest [.transition "12" (some "1") "1" "" "1",
          .data "x" "int" "INPUT_DATA"])) ∧
      (⟨some "start", some "start", [turn], [turn ++ " = 0", "x = 1"]⟩ : Edge) ∈
        feeds (0, 1) [Planar.planarOf (rest [.transition "12" (some "1") "1" "" "1",
          .data "x" "int" "INPUT_DATA"])] := by
    decide +kernel
  obtain ⟨hfree, hstart, hagain, hassigns⟩ := hchart
  have hapart : S.Apart := ⟨hfree.1, hfree.2⟩
  have hrun : S.Trail .short ms ⟨[some "1"], 0⟩ := by
    have hkept : turnMeaning.act "x = 1" 0 = 0 := turnMeaning_frames (by decide +kernel) 0
    have hfed : S.Move .short ⟨[some "1"], 1⟩ .feeding ⟨[some "1"], turnMeaning.act "x = 1" 0⟩ :=
      resting_fed "x = 1" hassigns
    rw [hkept] at hfed
    have hfirst : S.Move .short ⟨[some "start"], 0⟩ (.chart 0) ⟨[some "1"], 1⟩ :=
      resting_moves _ _ hstart
    have hround : S.Move .short ⟨[some "1"], 0⟩ (.chart 0) ⟨[some "1"], 1⟩ :=
      resting_moves _ _ hagain
    exact (((System.Trail.init.step hfirst).step hfed).step hround).step hfed
  exact ⟨⟨hscoped, hapart, hrun⟩, steps_alternate S .short hscoped hapart hrun⟩

/-- The texts on the edges of a chart do not mention the turn. -/
def Silent (chart : PlanarChart) : Prop :=
  (∀ t ∈ chart.transitions, ∀ text ∈ t.conditions ++ t.actions, ¬ Mentions text) ∧
    ∀ s ∈ chart.states.entries, ∀ text ∈ s.2.label.during, ¬ Mentions text

instance (chart : PlanarChart) : Decidable (Silent chart) := inferInstanceAs (Decidable (_ ∧ _))

/-- A chart with a variable of its own that has the name of the turn. -/
def secluded : Chart := rest [.data turn "boolean" "LOCAL_DATA"]

/-- A chart with an input. -/
def attended : Chart :=
  Chart.ofPlace (Chart.drawnAs "2" "attended"
    [.state "1" "Rest" [], .transition "11" none "1" "" "1", .data "x" "int" "INPUT_DATA"])

/-- The two beside each other. The store has the turn as the first one sees it, and the turn that
is common to the rest. -/
def secluding : System (Int × Int) where
  charts := [Planar.planarOf secluded, Planar.planarOf attended]
  interval := (0, 1)
  meaning i :=
    if i = 0 then ⟨fun c s => turnMeaning.holds c s.1, fun a s => (turnMeaning.act a s.1, s.2)⟩
    else ⟨fun c s => turnMeaning.holds c s.2, fun a s => (s.1, turnMeaning.act a s.2)⟩
  feeding := ⟨fun c s => turnMeaning.holds c s.2, fun a s => (s.1, turnMeaning.act a s.2)⟩
  turnOf := Prod.snd
  initial := (0, 0)

theorem secluding_scoped : secluding.Scoped where
  initially := rfl
  shares i chart hchart hundeclared := by
    cases i with
    | zero =>
      have hfirst : Planar.planarOf secluded = chart := Option.some.inj hchart
      rw [← hfirst] at hundeclared
      exact absurd hundeclared (by decide +kernel)
    | succ i => exact ⟨fun s => turnMeaning_waits s.2, fun s => turnMeaning_hands s.2⟩
  feedWaits s := turnMeaning_feedWaits s.2
  feedHands s := turnMeaning_feedHands s.2
  frames _ h s := turnMeaning_frames h s.2

/-- With the turn as an input, a chart that does not mention it is fed twice in a row. With the turn
as another variable of a chart, the next chart moves right after it. -/
theorem turn_taken_out_of_order :
    ((∀ chart ∈ (resting [.data turn "boolean" "INPUT_DATA"]).charts, Silent chart ∧
        ∃ source lines, Runs (Planar.flatten source) .initial chart lines) ∧
      (resting [.data turn "boolean" "INPUT_DATA"]).Scoped ∧
      ∃ k, (resting [.data turn "boolean" "INPUT_DATA"]).Trail .id
        [.chart 0, .feeding, .feeding] k) ∧
    (∀ chart ∈ secluding.charts, Silent chart ∧
        ∃ source lines, Runs (Planar.flatten source) .initial chart lines) ∧
      (∀ input ∈ inputsOf secluding.charts, ¬ Mentions (worded input.1)) ∧
      secluding.Scoped ∧ ∃ k, secluding.Trail .id [.chart 0, .chart 1] k := by
  have hfedTurn : Silent (Planar.planarOf (rest [.data turn "boolean" "INPUT_DATA"])) ∧
      (⟨some "start", some "1", ["not " ++ turn], [turn ++ " = 1"]⟩ : Edge) ∈
        written true (Planar.planarOf (rest [.data turn "boolean" "INPUT_DATA"])) ∧
      (⟨some "start", some "start", [turn], [turn ++ " = 0", turn ++ " = 1"]⟩ : Edge) ∈
        feeds (0, 1) [Planar.planarOf (rest [.data turn "boolean" "INPUT_DATA"])] ∧
      ((Planar.flatten (rest [.data turn "boolean" "INPUT_DATA"])).run.run .initial).1.isOk =
        true := by
    decide +kernel
  have hownTurn : (∀ source ∈ [secluded, attended], Silent (Planar.planarOf source) ∧
        (⟨some "start", some "1", ["not " ++ turn], [turn ++ " = 1"]⟩ : Edge) ∈
          written true (Planar.planarOf source) ∧
        ((Planar.flatten source).run.run .initial).1.isOk = true) ∧
      ∀ input ∈ inputsOf secluding.charts, ¬ Mentions (worded input.1) := by
    decide +kernel
  obtain ⟨hsilent, hstart, hassigns, hok⟩ := hfedTurn
  obtain ⟨hsources, hinputs⟩ := hownTurn
  refine ⟨⟨?_, resting_scoped _, ⟨[some "1"], 1⟩, ?_⟩, ?_, hinputs, secluding_scoped,
    ⟨[some "1", some "1"], (1, 1)⟩, ?_⟩
  · intro chart hchart
    rw [List.mem_singleton.mp hchart]
    exact ⟨hsilent, _, Planar.runs_planarOf _ hok⟩
  · let S := resting [.data turn "boolean" "INPUT_DATA"]
    have hfirst : S.Move .id ⟨[some "start"], 0⟩ (.chart 0) ⟨[some "1"], 1⟩ :=
      resting_moves _ _ hstart
    have hfed : S.Move .id ⟨[some "1"], 1⟩ .feeding
        ⟨[some "1"], turnMeaning.act (turn ++ " = 1") 0⟩ := resting_fed _ hassigns
    rw [turnMeaning_hands] at hfed
    exact ((System.Trail.init.step hfirst).step hfed).step hfed
  · intro chart hchart
    obtain ⟨source, hsource, hplanar⟩ : ∃ source ∈ [secluded, attended],
        Planar.planarOf source = chart := List.mem_map.mp hchart
    obtain ⟨hquiet, -, hok⟩ := hsources source hsource
    rw [← hplanar]
    exact ⟨hquiet, source, Planar.runs_planarOf source hok⟩
  · have hedges : ∀ source ∈ [secluded, attended],
        (⟨some "start", some "1", ["not " ++ turn], [turn ++ " = 1"]⟩ : Edge) ∈
          written true (Planar.planarOf source) :=
      fun source hsource => (hsources source hsource).2.1
    have hfirst : secluding.Move .id ⟨[some "start", some "start"], (0, 0)⟩ (.chart 0)
        ⟨[some "1", some "start"], (turnMeaning.act (turn ++ " = 1") 0, 0)⟩ :=
      .chart 0 _ _ _ rfl (hedges secluded (by simp)) rfl rfl
        (by simp [Edge.enabled, secluding])
    have hsecond : secluding.Move .id ⟨[some "1", some "start"], (1, 0)⟩ (.chart 1)
        ⟨[some "1", some "1"], (1, turnMeaning.act (turn ++ " = 1") 0)⟩ :=
      .chart 1 _ _ _ rfl (hedges attended (by simp)) rfl rfl
        (by simp [Edge.enabled, secluding])
    rw [turnMeaning_hands] at hfirst hsecond
    exact (System.Trail.init.step hfirst).step hsecond

end Statechart.Dve
