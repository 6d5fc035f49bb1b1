import Statechart.Proofs.Action.Sequencing
import Statechart.Proofs.Label.CommentedParts

/-!
Comments behind labels. A label that ends in an action part may be followed by a comment, but only
the reading of actions knows comments. A semicolon is put behind the part after the comment has
become its text, and goes into the comment; so the part has to be complete as it stands. In a state
label, moreover, no word of the comment may be a keyword. If so the comment changes nothing, and
otherwise the label is refused (`comment_passed_over_iff`).
-/

namespace Statechart.Label

def withComment (label w : String) : String := label ++ (" // " ++ w)

/-- The blanks at the end of a label. -/
def ending (label : String) : String := String.ofList (label.toList.rtakeWhile Text.isBlank)

theorem isBlank_of_mem_ending (label : String) :
    ∀ c ∈ (ending label).toList, Text.isBlank c = true := by
  intro c hc
  rw [ending, String.toList_ofList] at hc
  exact List.mem_rtakeWhile_imp hc

/-! ## Blank ends -/

theorem toList_withComment (label w : String) :
    (withComment label w).toList = label.toList ++ ([' ', '/', '/'] ++ ' ' :: w.toList) := by
  simp [withComment]

theorem getLast?_comment (w : String) :
    ∀ c ∈ (comment w).toList.getLast?, Text.isBlank c = false := by
  intro c hc
  rw [toList_comment, List.getLast?_append] at hc
  rcases Option.or_eq_some_iff.mp hc with hc | ⟨-, hc⟩
  · exact Text.getLast?_rdropWhile _ c hc
  · cases hc
    rfl

/-- What stands behind the blanks in front of the comment ends with the comment. -/
theorem trim_commented {cs : List Char} (h : Text.trim cs ≠ []) (w : String) :
    Text.trim (cs ++ ([' ', '/', '/'] ++ ' ' :: w.toList)) =
      Text.trim cs ++ (cs.rtakeWhile Text.isBlank ++ (comment w).toList) := by
  have hend : (cs ++ ([' ', '/', '/'] ++ ' ' :: w.toList)).rdropWhile Text.isBlank =
      cs ++ (comment w).toList := by
    rw [toList_comment, ← List.append_assoc, ← List.append_assoc]
    exact Text.rdropWhile_append (by simp; decide) _
  rw [← Text.trim_rdropWhile, hend]
  exact Text.trim_append h (by simp [toList_comment]) (getLast?_comment w)

theorem trimmed_withComment {label : String} (h : Text.trim label.toList ≠ []) (w : String) :
    Text.trimmed (withComment label w) = Text.trimmed label ++ (ending label ++ comment w) := by
  rw [← String.toList_inj]
  simp only [Text.trimmed, ending, String.toList_ofList, String.toList_append, toList_withComment]
  exact trim_commented h w

/-! ## Names and bodies -/

section

variable {label : String} (h : bodyChars label ≠ []) (w : String)

include h

theorem nameChars_withComment :
    nameChars (withComment label w).toList = nameChars label.toList := by
  obtain ⟨name, sep, hname, hsep, hlabel⟩ := exists_name (behindName_ne_nil h)
  rw [toList_withComment, hlabel, List.append_assoc, List.cons_append, nameChars_append hname hsep,
    nameChars_append hname hsep]

theorem behindName_withComment : behindName (withComment label w).toList =
    behindName label.toList ++ ([' ', '/', '/'] ++ ' ' :: w.toList) := by
  obtain ⟨name, sep, hname, hsep, hlabel⟩ := exists_name (behindName_ne_nil h)
  have hlength : (nameChars label.toList).length + 1 ≤ label.toList.length := by
    rw [hlabel, nameChars_append hname hsep, List.length_append, List.length_cons]
    omega
  rw [behindName, nameChars_withComment h, toList_withComment]
  exact List.drop_append_of_le_length hlength

theorem bodyChars_withComment :
    bodyChars (withComment label w) =
      bodyChars label ++ ((ending label).toList ++ (comment w).toList) := by
  obtain ⟨name, sep, hname, hsep, hlabel⟩ := exists_name (behindName_ne_nil h)
  have hending : (ending label).toList = (behindName label.toList).rtakeWhile Text.isBlank := by
    have hbehind := Text.rtakeWhile_append
      (show Text.trim (behindName label.toList) ≠ [] from h) (name ++ [sep])
    rw [← List.append_cons, ← hlabel] at hbehind
    rw [ending, String.toList_ofList, hbehind]
  rw [bodyChars, behindName_withComment h, trim_commented h, hending]
  rfl

theorem seeming_withComment :
    Seeming (bodyChars (withComment label w)) ↔ Seeming (bodyChars label) := by
  obtain ⟨b, rest, hb, hblank⟩ := Section.isBlank_head_comment (isBlank_of_mem_ending label) w
  rw [bodyChars_withComment h, hb]
  constructor
  · rintro ⟨s, hs, hprefix⟩
    have hwords : ∀ s ∈ headingStarts, s.toList.all (! Text.isBlank ·) = true := by decide
    refine ⟨s, hs, Text.prefix_of_prefix_append_cons (fun hmem => ?_) _ _ hprefix⟩
    have hnot := List.all_eq_true.mp (hwords s hs) b hmem
    rw [hblank] at hnot
    cases hnot
  · rintro ⟨s, hs, hprefix⟩
    exact ⟨s, hs, hprefix.trans (List.prefix_append ..)⟩

theorem bodyOf_withComment :
    bodyOf (withComment label w) = bodyOf label ++ (ending label ++ comment w) := by
  have hbody : String.ofList (bodyChars (withComment label w)) =
      String.ofList (bodyChars label) ++ (ending label ++ comment w) := by
    rw [bodyChars_withComment h, String.ofList_append, String.ofList_append, String.ofList_toList,
      String.ofList_toList]
  by_cases hseeming : Seeming (bodyChars label)
  · rw [bodyOf_of_seeming ((seeming_withComment h w).mpr hseeming), bodyOf_of_seeming hseeming,
      hbody]
  · have hne : bodyChars (withComment label w) ≠ [] := by
      simp [bodyChars_withComment h, h]
    rw [bodyOf_of_not_seeming hne fun hs => hseeming ((seeming_withComment h w).mp hs),
      bodyOf_of_not_seeming h hseeming, hbody, String.append_assoc]

omit w in
/-- A label body ends where its blanks do. -/
theorem getLast?_bodyOf : ∀ c ∈ (bodyOf label).toList.getLast?, Text.isBlank c = false := by
  have hlast : ∀ c ∈ (bodyChars label).getLast?, Text.isBlank c = false := by
    rw [bodyChars, Text.trim_eq]
    exact Text.getLast?_rdropWhile _
  by_cases hseeming : Seeming (bodyChars label)
  · rwa [bodyOf_of_seeming hseeming, String.toList_ofList]
  · rwa [bodyOf_of_not_seeming h hseeming, String.toList_append,
      String.toList_ofList (l := bodyChars label), List.getLast?_append_of_ne_nil _ h]

end

/-! ## Action texts -/

theorem withSemicolon_eq_ok {text closed : String} (h : withSemicolon text = .ok closed) :
    Text.trim text.toList ≠ [] ∧ (closed = text ∨ closed = text ++ ";") := by
  unfold withSemicolon at h
  split at h
  · cases h
  · next c hc =>
    refine ⟨fun hnil => ?_, ?_⟩
    · rw [hnil] at hc
      cases hc
    · cases h
      split
      · exact .inl rfl
      · exact .inr rfl

theorem withSemicolon_commented {x : String} (hx : Text.trim x.toList ≠ []) {e w : String}
    (hw : Wordy w) :
    withSemicolon (x ++ (e ++ comment w)) = .ok (x ++ (e ++ (comment w ++ ";"))) := by
  have hne : (comment w).toList ≠ [] := by simp [toList_comment]
  have hxe : Text.trim (x.toList ++ e.toList) ≠ [] := fun hnil =>
    hx (Text.trim_eq_nil.mpr fun c hc =>
      Text.trim_eq_nil.mp hnil c (List.mem_append_left _ hc))
  obtain ⟨c, hc⟩ : ∃ c, (comment w).toList.getLast? = some c :=
    ⟨_, List.getLast?_eq_some_getLast hne⟩
  have hlast : (Text.trim (x ++ (e ++ comment w)).toList).getLast? = some c := by
    rw [String.toList_append, String.toList_append, ← List.append_assoc,
      Text.trim_append hxe hne (getLast?_comment w), ← List.append_assoc,
      List.getLast?_append_of_ne_nil _ hne, hc]
  have hcomment : ∀ d ∈ (comment w).toList, d ≠ ';' := by
    rw [toList_comment]
    refine List.forall_mem_append.mpr ⟨by simp, ?_⟩
    rintro d hd rfl
    rcases Section.mem_comment hw _ hd with hword | hblank
    · cases hword
    · cases hblank
  rw [withSemicolon, hlast]
  have hsemicolon : ¬ (c == ';') = true := by
    simpa using hcomment c (List.mem_of_getLast? hc)
  simp only [if_neg hsemicolon, String.append_assoc]

theorem isComment_comment {w : String} (hw : Wordy w) :
    Action.IsComment (comment w ++ ";").toList := by
  rw [String.toList_append, toList_comment]
  have hwords : ∀ c ∈ (' ' :: w.toList).rdropWhile Text.isBlank ++ [';'], c ≠ '\n' ∧ c ≠ '*' := by
    refine List.forall_mem_append.mpr ⟨fun c hc => ?_, by simp⟩
    rcases Section.mem_comment hw c hc with hword | rfl
    · constructor
      · rintro rfl
        cases hword
      · rintro rfl
        cases hword
    · decide
  exact .line (fun h => (hwords _ h).1 rfl) (fun h => (hwords _ h).2 rfl)

/-- The text is a sequence of statements as it stands, each of which is ended. -/
def IsComplete (text : String) : Prop := ∃ items, (Action.read 1 text).1 = .ok items

/-- A comment behind an action text is passed over just if the text in front of it is complete. -/
theorem gives_readPart_commented {x e w owner : String} (he : Action.IsGap e.toList) (hw : Wordy w)
    {vars : Variables} {r : List String × Variables} (h : Gives (readPart x owner vars) r)
    {r' : List String × Variables} :
    Gives (readPart (x ++ (e ++ comment w)) owner vars) r' ↔ IsComplete (x ++ e) ∧ r' = r := by
  obtain ⟨closed, hclosed, hparse⟩ := (gives_readPart 1).mp h
  obtain ⟨items, hread, rfl⟩ := Action.parse_eq_ok.mp hparse
  obtain ⟨hx, hclosed⟩ := withSemicolon_eq_ok hclosed
  have hne : x ≠ "" := by
    rintro rfl
    exact hx rfl
  have hcommented {items' : List Action.Item} :=
    @Action.read_comment x closed e _ hne hclosed 1 items hread he (isComment_comment hw) 1 1 items'
  rw [gives_readPart 1, withSemicolon_commented hx hw]
  constructor
  · rintro ⟨closed', hclosed', hparse'⟩
    cases hclosed'
    obtain ⟨items', hread', rfl⟩ := Action.parse_eq_ok.mp hparse'
    obtain ⟨rfl, hcomplete⟩ := hcommented.mp hread'
    exact ⟨hcomplete, rfl⟩
  · rintro ⟨hcomplete, rfl⟩
    exact ⟨_, rfl, Action.parse_eq_ok.mpr ⟨items, hcommented.mpr ⟨rfl, hcomplete⟩, rfl⟩⟩

/-! ## State labels -/

theorem gives_addSections_append {owner : String} {ss : List Section} {s : Section} {l : StateLabel}
    {vars : Variables} {r : StateLabel × Variables} :
    Gives (addSections owner l vars (ss ++ [s])) r ↔
      ∃ p, Gives (addSections owner l vars ss) p ∧ Gives (addSections owner p.1 p.2 [s]) r := by
  induction ss generalizing l vars with
  | nil =>
    constructor
    · exact fun h => ⟨(l, vars), gives_pure.mpr rfl, h⟩
    · rintro ⟨p, hp, h⟩
      cases gives_pure.mp hp
      exact h
  | cons first ss ih =>
    obtain ⟨heading, body⟩ := first
    cases heading with
    | bind | on event =>
      refine iff_of_false not_gives_throw ?_
      rintro ⟨p, hp, -⟩
      exact not_gives_throw hp
    | actions words =>
      rw [List.cons_append, gives_addSections_cons]
      simp only [ih, gives_addSections_cons]
      constructor
      · rintro ⟨q, hq, p, hp, h⟩
        exact ⟨p, ⟨q, hq, hp⟩, h⟩
      · rintro ⟨p, ⟨q, hq, hp⟩, h⟩
        exact ⟨q, hq, p, hp, h⟩

theorem gives_addSections_single {owner body : String} {words : List ActionWord} {l : StateLabel}
    {vars : Variables} {r : StateLabel × Variables} :
    Gives (addSections owner l vars [⟨.actions words, body⟩]) r ↔
      ∃ q, Gives (readPart body owner vars) q ∧ (addStatements l words q.1, q.2) = r :=
  gives_addSections_cons.trans (exists_congr fun _ => and_congr_right fun _ => gives_pure)

theorem gives_addSections_commented {owner e w : String} (he : Action.IsGap e.toList) (hw : Wordy w)
    {ss : List Section} {last : Section} {l : StateLabel} {vars : Variables}
    {r : StateLabel × Variables} (h : Gives (addSections owner l vars (ss ++ [last])) r)
    {r' : StateLabel × Variables} :
    Gives (addSections owner l vars (ss ++ [⟨last.heading, last.body ++ (e ++ comment w)⟩])) r' ↔
      IsComplete (last.body ++ e) ∧ r' = r := by
  obtain ⟨p, hp, h⟩ := gives_addSections_append.mp h
  obtain ⟨heading, body⟩ := last
  cases heading with
  | bind | on event => exact absurd h not_gives_throw
  | actions words =>
    obtain ⟨q, hq, rfl⟩ := gives_addSections_single.mp h
    rw [gives_addSections_append]
    constructor
    · rintro ⟨p', hp', h'⟩
      obtain rfl := hp.unique hp'
      obtain ⟨q', hq', rfl⟩ := gives_addSections_single.mp h'
      obtain ⟨hcomplete, rfl⟩ := (gives_readPart_commented he hw hq).mp hq'
      exact ⟨hcomplete, rfl⟩
    · rintro ⟨hcomplete, rfl⟩
      refine ⟨p, hp, gives_addSections_single.mpr ⟨q, ?_, rfl⟩⟩
      exact (gives_readPart_commented he hw hq).mpr ⟨hcomplete, rfl⟩

theorem bodyChars_ne_nil {label : String} {line : Nat} {ss : List Section} {last : Section}
    (h : (Section.read line (bodyOf label)).1 = .ok (ss ++ [last])) : bodyChars label ≠ [] := by
  intro hnil
  have hempty : String.ofList (bodyChars label) = "" := by rw [hnil, String.ofList_nil]
  have hbody : bodyOf label = "" :=
    (if_pos (Bool.or_eq_true_iff.mpr (.inl (beq_iff_eq.mpr hempty)))).trans hempty
  rw [hbody] at h
  exact List.append_ne_nil_of_right_ne_nil ss (by simp) (Except.ok.inj h).symm

theorem gives_readState_commented {label w : String} (hw : Wordy w) {ssid : Option String}
    {r : StateLabel × Variables} (h : Gives (readState label ssid) r) {line : Nat}
    {ss : List Section} {last : Section}
    (hread : (Section.read line (bodyOf label)).1 = .ok (ss ++ [last]))
    {r' : StateLabel × Variables} :
    Gives (readState (withComment label w) ssid) r' ↔
      (Action.IsGap (ending label).toList ∧ IsComplete (last.body ++ ending label) ∧
        ∀ s ∈ Text.words w, Keyword.ofSpelling? s = none) ∧ r' = r := by
  have hbody := bodyChars_ne_nil hread
  obtain ⟨ss', hss', h⟩ := gives_readState.mp h
  obtain rfl := Except.ok.inj (((gives_readSections line).mp hss').symm.trans hread)
  have hcommented {ss'' : List Section} := @Section.read_commented _ (getLast?_bodyOf hbody) _
    (isBlank_of_mem_ending label) w hw ss last line hread line ss''
  rw [gives_readState, bodyOf_withComment hbody, stateName, nameChars_withComment hbody,
    ← stateName]
  constructor
  · rintro ⟨ss'', hss'', h''⟩
    obtain ⟨hgap, hwords, rfl⟩ := hcommented.mp ((gives_readSections line).mp hss'')
    obtain ⟨hcomplete, rfl⟩ := (gives_addSections_commented hgap hw h).mp h''
    exact ⟨⟨hgap, hcomplete, hwords⟩, rfl⟩
  · rintro ⟨⟨hgap, hcomplete, hwords⟩, rfl⟩
    refine ⟨_, (gives_readSections line).mpr (hcommented.mpr ⟨hgap, hwords, rfl⟩), ?_⟩
    exact (gives_addSections_commented hgap hw h).mpr ⟨hcomplete, rfl⟩

/-! ## Transition labels -/

theorem gives_readTransition_commented {label w : String} (hw : Wordy w) {ssid : Option String}
    {r : TransitionLabel × Variables} (h : Gives (readTransition label ssid) r) {line : Nat}
    {parts : Parts} (hread : (Parts.read line (Text.trimmed label)).1 = .ok parts) {x : String}
    (hx : parts.transitionAction = some x) {r' : TransitionLabel × Variables} :
    Gives (readTransition (withComment label w) ssid) r' ↔
      (Action.IsGap (ending label).toList ∧ IsComplete (x ++ ending label)) ∧ r' = r := by
  have hlabel : Text.trim label.toList ≠ [] := by
    intro hnil
    rw [Text.trimmed, hnil, String.ofList_nil] at hread
    cases (Except.ok.inj hread : Parts.mk none none none none = parts)
    cases hx
  obtain ⟨parts', hparts', hevent, h⟩ := gives_readTransition.mp h
  obtain rfl := Except.ok.inj (((gives_readParts line).mp hparts').symm.trans hread)
  have hcommented {p : Parts} := @Parts.read_commented _ _ (isBlank_of_mem_ending label) w hw _ _ hx
    line hread line p
  obtain ⟨⟨condition, ca, ta⟩, vars⟩ := r
  obtain ⟨⟨condition', ca', ta'⟩, vars'⟩ := r'
  obtain ⟨hcondition, declared, hca, hta⟩ := gives_readActions.mp h
  rw [hx] at hta
  rw [gives_readTransition, trimmed_withComment hlabel]
  constructor
  · rintro ⟨p, hp, -, h'⟩
    obtain ⟨hgap, rfl⟩ := hcommented.mp ((gives_readParts line).mp hp)
    obtain ⟨hcondition', declared', hca', hta'⟩ := gives_readActions.mp h'
    obtain rfl : condition = condition' := hcondition.unique hcondition'
    obtain ⟨rfl, rfl⟩ : ca = ca' ∧ declared = declared' := Prod.mk.inj (hca.unique hca')
    obtain ⟨hcomplete, he⟩ := (gives_readPart_commented hgap hw hta).mp hta'
    obtain ⟨rfl, rfl⟩ : ta' = ta ∧ vars' = vars := Prod.mk.inj he
    exact ⟨⟨hgap, hcomplete⟩, rfl⟩
  · rintro ⟨⟨hgap, hcomplete⟩, he⟩
    cases he
    refine ⟨_, (gives_readParts line).mpr (hcommented.mpr ⟨hgap, rfl⟩), hevent, ?_⟩
    refine gives_readActions.mpr ⟨hcondition, declared, hca, ?_⟩
    exact (gives_readPart_commented hgap hw hta).mpr ⟨hcomplete, rfl⟩

/-! ## Labels with comments -/

/-- A comment behind a label that ends in an action part changes nothing if the blanks at the end of
the label may stand in actions, the last part is complete as it stands, and, behind a state label,
no word of the comment is a keyword. Otherwise the label is refused with the comment. -/
theorem comment_passed_over_iff {label w : String} (hw : Wordy w) (ssid : Option String)
    (lines lines' : Lines) (line : Nat) :
    (∀ r ss last, stateOutcome label ssid lines = some r →
      (Section.read line (bodyOf label)).1 = .ok (ss ++ [last]) →
        ∀ r', stateOutcome (withComment label w) ssid lines' = some r' ↔
          (Action.IsGap (ending label).toList ∧ IsComplete (last.body ++ ending label) ∧
            ∀ s ∈ Text.words w, Keyword.ofSpelling? s = none) ∧ r' = r) ∧
    (∀ r parts x, transitionOutcome label ssid lines = some r →
      (Parts.read line (Text.trimmed label)).1 = .ok parts → parts.transitionAction = some x →
        ∀ r', transitionOutcome (withComment label w) ssid lines' = some r' ↔
          (Action.IsGap (ending label).toList ∧ IsComplete (x ++ ending label)) ∧ r' = r) := by
  constructor
  · intro r ss last h hread r'
    rw [stateOutcome_eq_some] at h ⊢
    exact gives_readState_commented hw h hread
  · intro r parts x h hread hx r'
    rw [transitionOutcome_eq_some] at h ⊢
    exact gives_readTransition_commented hw h hread hx

theorem comment_passed_over_iff_now :
    stateOutcome (withComment "S\nen: a = 1;\ndu: b++; " "now") none .initial =
        some (⟨"S", ["a = 1"], ["b = b + 1"], []⟩, .empty) ∧
      transitionOutcome (withComment "[a > 0]/a = 0;" "switch on") none .initial =
        some (⟨"a > 0", [], ["a = 0"]⟩, .empty) := by
  have hnow : Wordy "now" := by simp [Wordy]
  have hswitch : Wordy "switch on" := by simp [Wordy]
  have hstate : stateOutcome "S\nen: a = 1;\ndu: b++; " none .initial =
      some (⟨"S", ["a = 1"], ["b = b + 1"], []⟩, .empty) := by decide +kernel
  have hsections : (Section.read 1 (bodyOf "S\nen: a = 1;\ndu: b++; ")).1 =
      .ok ([⟨.actions [.en], " a = 1;\n"⟩] ++ [⟨.actions [.du], " b++;"⟩]) := by decide +kernel
  have hduring : (Action.parse 1 " b++; " "" .empty).1 = .ok (["b = b + 1"], .empty) := by
    decide +kernel
  have hblank : ending "S\nen: a = 1;\ndu: b++; " = " " := by decide +kernel
  have hnone : ending "[a > 0]/a = 0;" = "" := by decide +kernel
  have hwords : ∀ s ∈ Text.words "now", Keyword.ofSpelling? s = none := by decide +kernel
  have htransition : transitionOutcome "[a > 0]/a = 0;" none .initial =
      some (⟨"a > 0", [], ["a = 0"]⟩, .empty) := by decide +kernel
  have hparts : (Parts.read 1 (Text.trimmed "[a > 0]/a = 0;")).1 =
      .ok ⟨none, some "a > 0", none, some "a = 0;"⟩ := by decide +kernel
  have haction : (Action.parse 1 "a = 0;" "" .empty).1 = .ok (["a = 0"], .empty) := by
    decide +kernel
  constructor
  · obtain ⟨items, hcomplete, -⟩ := Action.parse_eq_ok.mp hduring
    exact ((comment_passed_over_iff hnow none .initial .initial 1).1 _ _ _ hstate hsections _).mpr
      ⟨⟨by simp [Action.IsGap, hblank, Symbol.isSpace], ⟨items, hcomplete⟩, hwords⟩, rfl⟩
  · obtain ⟨items, hcomplete, -⟩ := Action.parse_eq_ok.mp haction
    exact ((comment_passed_over_iff hswitch none .initial .initial 1).2 _ _ _ htransition hparts rfl
      _).mpr ⟨⟨by simp [Action.IsGap, hnone], ⟨items, hcomplete⟩⟩, rfl⟩

/-- The semicolon that is put behind the last part is put into the comment, and a keyword begins a
heading in it. -/
theorem comment_refused :
    transitionOutcome "/a = 1" none .initial = some (⟨"", [], ["a = 1"]⟩, .empty) ∧
      transitionOutcome (withComment "/a = 1" "now") none .initial = none ∧
      stateOutcome "S\nen: a = 1;" none .initial = some (⟨"S", ["a = 1"], [], []⟩, .empty) ∧
      stateOutcome (withComment "S\nen: a = 1;" "switch on") none .initial = none := by
  decide +kernel

end Statechart.Label
