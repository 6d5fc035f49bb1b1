import Statechart.Proofs.Label.Outcomes

/-!
Blank action parts. A part of a label that is blank, between braces, behind a slash or behind the
colon of a heading, is meant as no action (`Meant`), just as an absent part. But a semicolon is
added to every part that is there, behind the last character that is no blank, and a blank part has
none. So a label whose parts all mean something says what they mean if no part is blank, and is
refused for its first blank part otherwise (`blank_parts_refused`).
-/

namespace Statechart.Label

/-! ## Parts -/

theorem withSemicolon_of_blank {text : String} (h : Text.isBlankText text = true) :
    withSemicolon text = .error .blankAction := by
  unfold withSemicolon
  rw [Text.trim_eq_nil.mpr (List.all_eq_true.mp h)]
  rfl

/-- What a part of a label is meant to say and declare: nothing if it is blank, else what its
statements do. -/
inductive Meant (owner : String) (vars : Variables) (text : String) : List String × Variables → Prop
  | blank (h : Text.isBlankText text = true) : Meant owner vars text ([], vars)
  | statements {closed : String} {line : Nat} {r : List String × Variables}
      (hclosed : withSemicolon text = .ok closed)
      (hparse : (Action.parse line closed owner vars).1 = .ok r) : Meant owner vars text r

/-- A part that may be absent, and then says nothing. -/
inductive Meant? (owner : String) (vars : Variables) :
    Option String → List String × Variables → Prop
  | absent : Meant? owner vars none ([], vars)
  | part {text : String} {r : List String × Variables} (h : Meant owner vars text r) :
      Meant? owner vars (some text) r

/-- The sections of a state label, one after another, from what has been said and declared. -/
inductive MeantAll (owner : String) :
    StateLabel → Variables → List Section → StateLabel × Variables → Prop
  | nil {l : StateLabel} {vars : Variables} : MeantAll owner l vars [] (l, vars)
  | cons {l : StateLabel} {vars : Variables} {words : List ActionWord} {body : String}
      {p : List String × Variables} {rest : List Section} {r : StateLabel × Variables}
      (hpart : Meant owner vars body p)
      (hrest : MeantAll owner (addStatements l words p.1) p.2 rest r) :
      MeantAll owner l vars (⟨.actions words, body⟩ :: rest) r

/-- The condition of a transition label, empty if there is none. -/
inductive MeantCondition : Option String → String → Prop
  | absent : MeantCondition none ""
  | condition {text r : String} {line : Nat} (h : (Condition.parse line text).1 = .ok r) :
      MeantCondition (some text) (Text.trimmed r)

/-- A part that means something says it, unless it is blank. -/
theorem Meant.readPart {owner text : String} {vars : Variables} {r : List String × Variables}
    (h : Meant owner vars text r) (lines : Lines) :
    ∃ lines', (readPart text owner vars).run.run lines =
      (if Text.isBlankText text then .error .blankAction else .ok r, lines') := by
  cases h with
  | blank h =>
    refine ⟨lines, ?_⟩
    rw [if_pos h, Label.readPart, run_bind, withSemicolon_of_blank h]
    rfl
  | @statements closed line r hclosed hparse =>
    have hnot : ¬ Text.isBlankText text = true := by
      intro hblank
      rw [withSemicolon_of_blank hblank] at hclosed
      cases hclosed
    rw [if_neg hnot]
    exact (gives_readPart line).mpr ⟨closed, hclosed, hparse⟩ lines

theorem Meant?.readPart? {owner : String} {text? : Option String} {vars : Variables}
    {r : List String × Variables} (h : Meant? owner vars text? r) (lines : Lines) :
    ∃ lines', (readPart? text? owner vars).run.run lines =
      (if text?.any Text.isBlankText then .error .blankAction else .ok r, lines') := by
  cases h with
  | absent => exact ⟨lines, rfl⟩
  | part h => exact h.readPart lines

theorem MeantCondition.gives {text? : Option String} {r : String} (h : MeantCondition text? r) :
    Gives (readCondition? text?) r := by
  cases h with
  | absent => exact gives_pure.mpr rfl
  | @condition text r line h =>
    exact (gives_map (readCondition_steady text)).mpr ⟨r, (gives_readCondition line).mpr h, rfl⟩

/-! ## Labels -/

theorem run_bind_of_runs {α β : Type} {x : Reading α} {f : α → Reading β} {lines lines' : Lines}
    {a : α} (h : Runs x lines a lines') :
    (x >>= f).run.run lines = (f a).run.run lines' := by
  unfold Runs at h
  rw [run_bind, h]

/-- Sections that mean something say it, unless one of them is blank. -/
theorem MeantAll.addSections {owner : String} {l : StateLabel} {vars : Variables}
    {ss : List Section} {r : StateLabel × Variables} (h : MeantAll owner l vars ss r)
    (lines : Lines) :
    ((addSections owner l vars ss).run.run lines).1 =
      if ss.any (Text.isBlankText ·.body) then .error .blankAction else .ok r := by
  induction h generalizing lines with
  | nil => rfl
  | @cons l vars words body p rest r hpart hrest ih =>
    obtain ⟨lines', hpart⟩ := hpart.readPart lines
    rw [Label.addSections, run_bind, hpart, List.any_cons]
    cases Text.isBlankText body with
    | true => rfl
    | false => exact ih lines'

/-- Parts that mean something say it, unless one of them is blank. -/
theorem readActions_of_meant {owner : String} {event c ca ta : Option String} {condition : String}
    {p r : List String × Variables} (hc : MeantCondition c condition)
    (hca : Meant? owner .empty ca p) (hta : Meant? owner p.2 ta r) (lines : Lines) :
    ((readActions ⟨event, c, ca, ta⟩ owner).run.run lines).1 =
      if ca.any Text.isBlankText || ta.any Text.isBlankText then .error .blankAction
      else .ok (⟨condition, p.1, r.1⟩, r.2) := by
  obtain ⟨lines₁, hc⟩ := hc.gives lines
  obtain ⟨lines₂, hca⟩ := hca.readPart? lines₁
  obtain ⟨lines₃, hta⟩ := hta.readPart? lines₂
  rw [readActions, run_bind_of_runs hc, run_bind]
  dsimp only
  rw [hca]
  cases ca.any Text.isBlankText with
  | true => rfl
  | false =>
    rw [if_neg Bool.false_ne_true, Bool.false_or]
    dsimp only
    rw [run_bind, hta]
    cases ta.any Text.isBlankText <;> rfl

/-- A transition label without an event, and a state label whose headings are words for entry,
during and exit actions, say what their parts mean exactly if no part is blank; a blank part makes
the reading fail. -/
theorem blank_parts_refused (label : String) (ssid : Option String) (lines : Lines) (line : Nat) :
    (∀ (c ca ta : Option String) (condition : String) (p r : List String × Variables),
      (Parts.read line (Text.trimmed label)).1 = .ok ⟨none, c, ca, ta⟩ →
      MeantCondition c condition →
      Meant? (transitionOwner ssid) .empty ca p →
      Meant? (transitionOwner ssid) p.2 ta r →
      ((readTransition label ssid).run.run lines).1 =
        if ca.any Text.isBlankText || ta.any Text.isBlankText then .error .blankAction
        else .ok (⟨condition, p.1, r.1⟩, r.2)) ∧
    (∀ (ss : List Section) (r : StateLabel × Variables),
      (Section.read line (bodyOf label)).1 = .ok ss →
      MeantAll (stateOwner ssid) ⟨Text.trimmed (stateName label), [], [], []⟩ .empty ss r →
      ((readState label ssid).run.run lines).1 =
        if ss.any (Text.isBlankText ·.body) then .error .blankAction else .ok r) := by
  constructor
  · intro c ca ta condition p r hread hc hca hta
    obtain ⟨lines', hread⟩ := (gives_readParts line).mpr hread lines
    rw [readTransition_eq, run_bind_of_runs hread]
    exact readActions_of_meant hc hca hta lines'
  · intro ss r hread hss
    obtain ⟨lines', hread⟩ := (gives_readSections line).mpr hread lines
    rw [readState, run_bind_of_runs hread]
    exact hss.addSections lines'

/-- Labels without a blank part, one of which declares a variable. -/
theorem blank_parts_refused_turn :
    (Parts.read 1 (Text.trimmed "[x > 0]\x7bint a\x7d/a++ ")).1 =
        .ok ⟨none, some "x > 0", some "int a", some "a++"⟩ ∧
      ((readTransition "[x > 0]\x7bint a\x7d/a++ " (some "7")).run.run .initial).1 =
        .ok (⟨"x > 0", [], ["trans_7_a = trans_7_a + 1"]⟩,
          ⟨[(some "trans_7_a", ⟨.int, false, none, .label⟩)]⟩) ∧
      (Section.read 1 (bodyOf "Turn\nen: a = 1\nen, du: b++")).1 =
        .ok [⟨.actions [.en], " a = 1\n"⟩, ⟨.actions [.en, .du], " b++"⟩] ∧
      ((readState "Turn\nen: a = 1\nen, du: b++" (some "7")).run.run .initial).1 =
        .ok (⟨"Turn", ["a = 1", "b = b + 1"], ["b = b + 1"], []⟩, .empty) := by
  have hparts : (Parts.read 1 (Text.trimmed "[x > 0]\x7bint a\x7d/a++ ")).1 =
      .ok ⟨none, some "x > 0", some "int a", some "a++"⟩ := by decide +kernel
  have hsections : (Section.read 1 (bodyOf "Turn\nen: a = 1\nen, du: b++")).1 =
      .ok [⟨.actions [.en], " a = 1\n"⟩, ⟨.actions [.en, .du], " b++"⟩] := by decide +kernel
  have hcondition : (Condition.parse 1 "x > 0").1 = .ok "x > 0" := by decide +kernel
  have hca : (Action.parse 1 "int a;" "trans_7_" .empty).1 =
      .ok ([], ⟨[(some "trans_7_a", ⟨.int, false, none, .label⟩)]⟩) := by decide +kernel
  have hta : (Action.parse 1 "a++;" "trans_7_"
      ⟨[(some "trans_7_a", ⟨.int, false, none, .label⟩)]⟩).1 =
      .ok (["trans_7_a = trans_7_a + 1"],
        ⟨[(some "trans_7_a", ⟨.int, false, none, .label⟩)]⟩) := by decide +kernel
  have hentry : (Action.parse 1 " a = 1\n;" "state_7_" .empty).1 = .ok (["a = 1"], .empty) := by
    decide +kernel
  have hboth : (Action.parse 1 " b++;" "state_7_" .empty).1 = .ok (["b = b + 1"], .empty) := by
    decide +kernel
  refine ⟨hparts, ?_, hsections, ?_⟩
  · exact (blank_parts_refused _ (some "7") .initial 1).1 _ _ _ _ _ _ hparts
      (.condition hcondition) (.part (.statements rfl hca)) (.part (.statements rfl hta))
  · exact (blank_parts_refused _ (some "7") .initial 1).2 _ _ hsections
      (.cons (.statements rfl hentry) (.cons (.statements rfl hboth) .nil))

/-- A label with nothing between its braces and one with nothing behind its first heading fail,
though all parts mean something. -/
theorem blank_braces_fail :
    ((Parts.read 1 (Text.trimmed "[x > 0]\x7b \x7d/a = 1")).1 =
        .ok ⟨none, some "x > 0", some " ", some "a = 1"⟩ ∧
      MeantCondition (some "x > 0") "x > 0" ∧
      Meant? "trans_7_" .empty (some " ") ([], .empty) ∧
      Meant? "trans_7_" .empty (some "a = 1") (["a = 1"], .empty) ∧
      ((readTransition "[x > 0]\x7b \x7d/a = 1" (some "7")).run.run .initial).1 =
        .error .blankAction) ∧
    ((Section.read 1 (bodyOf "Turn\nen: \ndu: a = 1")).1 =
        .ok [⟨.actions [.en], " \n"⟩, ⟨.actions [.du], " a = 1"⟩] ∧
      MeantAll "state_7_" ⟨"Turn", [], [], []⟩ .empty
        [⟨.actions [.en], " \n"⟩, ⟨.actions [.du], " a = 1"⟩]
        (⟨"Turn", [], ["a = 1"], []⟩, .empty) ∧
      ((readState "Turn\nen: \ndu: a = 1" (some "7")).run.run .initial).1 =
        .error .blankAction) := by
  have hcondition : MeantCondition (some "x > 0") (Text.trimmed "x > 0") :=
    @MeantCondition.condition "x > 0" "x > 0" 1 (by decide +kernel)
  have htrimmed : Text.trimmed "x > 0" = "x > 0" := by decide +kernel
  rw [htrimmed] at hcondition
  have hta : (Action.parse 1 "a = 1;" "trans_7_" .empty).1 = .ok (["a = 1"], .empty) := by
    decide +kernel
  have hduring : (Action.parse 1 " a = 1;" "state_7_" .empty).1 = .ok (["a = 1"], .empty) := by
    decide +kernel
  refine ⟨⟨by decide +kernel, hcondition, .part (.blank rfl),
    .part (.statements rfl hta), by decide +kernel⟩, by decide +kernel, ?_, by decide +kernel⟩
  exact .cons (.blank rfl) (.cons (.statements rfl hduring) .nil)

end Statechart.Label
