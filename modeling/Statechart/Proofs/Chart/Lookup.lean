import Statechart.Chart.Outline

/-!
Elements that are looked up by an identifier. The identifier stands between quotation marks in a
path expression, so if it has none itself, the look-up finds the first element of the name that has
the identifier (`place?_plain`, `substate?_plain`, `label?_plain`).
-/

namespace Statechart.Xml.Path

/-! ## Reading a path -/

theorem takeWhile_quoted {c : Char} {text : List Char} (h : c ∉ text) (rest : List Char) :
    (text ++ c :: rest).takeWhile (· != c) = text := by
  rw [List.takeWhile_append_of_pos, List.takeWhile_cons_of_neg (by simp), List.append_nil]
  intro d hd
  simpa using ne_of_mem_of_not_mem hd h

theorem tokensFrom_length (skipped rest : List Char) :
    tokensFrom skipped.length (skipped ++ rest) = tokensFrom 0 rest := by
  induction skipped with
  | nil => rfl
  | cons c cs ih => exact ih

/-- A text in quotation marks that has none in it is one token. -/
theorem tokensFrom_quoted {text : List Char} (h : '"' ∉ text) (rest : List Char) :
    tokensFrom 0 ('"' :: (text ++ '"' :: rest)) = .quoted '"' text :: tokensFrom 0 rest := by
  have htoken : tokenAt ('"' :: (text ++ '"' :: rest)) =
      some (.quoted '"' text, text.length + 2) := by
    have hin : (text ++ '"' :: rest).contains '"' = true := by simp
    unfold tokenAt
    refine (if_pos (by rw [hin]; rfl)).trans ?_
    rw [takeWhile_quoted h]
  have hskip := tokensFrom_length (text ++ ['"']) rest
  rw [List.length_append, List.append_assoc] at hskip
  rw [tokensFrom, htoken]
  exact congrArg _ hskip

/-! ## Going along a path -/

/-- The elements of a name that is in no name space. -/
def bare (tag : String) : Tag := ⟨some none, some tag⟩

/-- The test for the value of an attribute. -/
def valued (key value : String) : Step := .having (.attributeIs (some ⟨none, key⟩) true value)

theorem onwards_ok (ps : List Place) (s : Step) :
    onwards (ps.map .ok) s = ps.flatMap s.go := by
  simp [onwards, List.flatMap_map]

theorem first_ok (ps : List Place) : first (ps.map .ok) = .ok ps.head? := by
  cases ps <;> rfl

theorem fits_bare (tag : String) (n : Node) : (bare tag).fits n = n.hasTag tag := by
  cases n with
  | element name as cs =>
    obtain ⟨space, base⟩ := name
    rw [Bool.eq_iff_iff]
    simp only [Tag.fits, bare, Node.hasTag, Option.all_some, Bool.and_eq_true, beq_iff_eq,
      Name.mk.injEq]
    exact and_congr eq_comm eq_comm
  | text s => rfl
  | other => rfl

theorem onwards_self (ps : List Place) : onwards (ps.map .ok) .self = ps.map .ok := by
  rw [onwards_ok]
  exact List.map_eq_flatMap.symm

theorem onwards_below (ps : List Place) (tag : String) :
    onwards (ps.map .ok) (.below (some (bare tag))) =
      (ps.flatMap (·.descendants tag)).map .ok := by
  rw [onwards_ok, List.map_flatMap]
  simp only [Step.go, Place.descendants, fits_bare]

theorem onwards_child (ps : List Place) (tag : String) :
    onwards (ps.map .ok) (.child (some (bare tag))) = (ps.flatMap (·.tagged tag)).map .ok := by
  have hchild (p : Place) : (elements p).filter ((bare tag).fits ·.node) = p.tagged tag := by
    have helement (n : Node) : (n.hasTag tag && n.isElement) = n.hasTag tag := by
      cases n <;> simp [Node.hasTag, Node.isElement]
    simp [elements, Place.tagged, Node.tagged, List.filter_map, Function.comp_def, fits_bare,
      helement]
  rw [onwards_ok, List.map_flatMap]
  simp only [Step.go, hchild]

theorem onwards_valued (ps : List Place) (key value : String) :
    onwards (ps.map .ok) (valued key value) =
      (ps.filter (·.node.attribute? key == some value)).map .ok := by
  rw [onwards_ok]
  induction ps with
  | nil => rfl
  | cons p ps ih =>
    rw [List.flatMap_cons, ih, List.filter_cons]
    cases h : p.node.attribute? key == some value <;>
      simp [valued, Step.go, Test.passes, Node.attribute?] at h ⊢ <;> simp [h]

theorem add_within (steps : List Step) (seen : List Token) {t : Token}
    (hname : t.isPrefixed = false) (hblank : t ≠ .blank) (hend : t ≠ .rightBracket) :
    Draft.add ⟨steps, .test seen⟩ t = .ok ⟨steps, .test (seen ++ [t])⟩ := by
  cases t <;> simp_all [Draft.add]

theorem add_end (steps : List Step) {seen : List Token} {test : Test}
    (h : testOf seen = .ok test) :
    Draft.add ⟨steps, .test seen⟩ .rightBracket = .ok ⟨steps ++ [.having test], .any⟩ := by
  simp only [Draft.add, Token.isPrefixed, h]
  rfl

/-- The tokens of a test for the value of an attribute add just this test. -/
theorem foldlM_valued (steps : List Step) {key : String} (value : String)
    (hkey : attributeOf key.toList = some ⟨none, key⟩)
    (hname : (Token.name key.toList).isPrefixed = false) (rest : List Token) :
    (.leftBracket :: .atSign :: .name key.toList :: .equal :: .quoted '"' value.toList ::
        .rightBracket :: rest).foldlM Draft.add ⟨steps, .any⟩ =
      rest.foldlM Draft.add ⟨steps ++ [valued key value], .any⟩ := by
  have hopen : Draft.add ⟨steps, .any⟩ .leftBracket = .ok ⟨steps, .test []⟩ := rfl
  have htest : testOf [.atSign, .name key.toList, .equal, .quoted '"' value.toList] =
      .ok (.attributeIs (some ⟨none, key⟩) true value) := by
    rw [testOf, hkey, String.ofList_toList]
  have hat := add_within steps [] (t := .atSign) rfl Token.noConfusion Token.noConfusion
  have hkey := add_within steps [.atSign] hname Token.noConfusion Token.noConfusion
  have hequal := add_within steps [.atSign, .name key.toList] (t := .equal) rfl
    Token.noConfusion Token.noConfusion
  have hvalue := add_within steps [.atSign, .name key.toList, .equal]
    (t := .quoted '"' value.toList) rfl Token.noConfusion Token.noConfusion
  simp only [List.nil_append, List.cons_append] at hat hkey hequal hvalue
  simp only [List.foldlM_cons, hopen, hat, hkey, hequal, hvalue, add_end steps htest, bind,
    Except.bind]
  rfl

theorem stepsOf_eq {text : List Char} {s : Step} {steps : List Step}
    (h : (tokens text).foldlM Draft.add ⟨[], .step⟩ = .ok ⟨s :: steps, .any⟩) :
    stepsOf text = .ok (s :: steps) := by
  rw [stepsOf, h]
  rfl

theorem find_eq {p : Place} {path : List Char} {steps : List Step} (ps : List Place)
    (hpath : stepsOf path = .ok steps) (h : steps.foldl onwards ([p].map .ok) = ps.map .ok) :
    p.find path = .ok ps.head? := by
  rw [Place.find, hpath, ← first_ok, ← h]
  rfl

end Statechart.Xml.Path

namespace Statechart.Chart

open Xml Xml.Path

/-- An identifier without a quotation mark. -/
def IsPlain (ssid : Option String) : Prop := '"' ∉ (worded ssid).toList

instance (ssid : Option String) : Decidable (IsPlain ssid) := inferInstanceAs (Decidable (¬ _))

theorem tokensFrom_withId {ssid : Option String} (h : IsPlain ssid) (rest : List Char) :
    tokensFrom 0 (withId ssid ++ rest) =
      [.leftBracket, .atSign, .name "SSID".toList, .equal, .quoted '"' (worded ssid).toList,
        .rightBracket] ++ tokensFrom 0 rest := by
  have hcut : withId ssid ++ rest =
      "[@SSID=\"".toList ++ ((worded ssid).toList ++ ("\"]".toList ++ rest)) :=
    (List.append_assoc ..).trans (List.append_assoc ..)
  have hhead (cs : List Char) : tokensFrom 0 ("[@SSID=\"".toList ++ cs) =
      [.leftBracket, .atSign, .name "SSID".toList, .equal] ++ tokensFrom 0 ('"' :: cs) := rfl
  rw [hcut, hhead]
  exact congrArg _ (tokensFrom_quoted h (']' :: rest))

theorem tokens_pathTo {tag : String} (htag : tag = "state" ∨ tag = "transition")
    {ssid : Option String} (h : IsPlain ssid) (rest : List Char) :
    tokens (pathTo tag ssid ++ rest) =
      [.dot, .slashes, .name tag.toList, .leftBracket, .atSign, .name "SSID".toList, .equal,
        .quoted '"' (worded ssid).toList, .rightBracket] ++ tokensFrom 0 rest := by
  have hhead : tokens (pathTo tag ssid ++ rest) =
      [.dot, .slashes, .name tag.toList] ++ tokensFrom 0 (withId ssid ++ rest) := by
    rcases htag with rfl | rfl <;> rfl
  rw [hhead, tokensFrom_withId h]
  rfl

/-- The steps of a path to elements anywhere that have an identifier. -/
theorem foldlM_pathTo {tag : String} (htag : tag = "state" ∨ tag = "transition")
    {ssid : Option String} (h : IsPlain ssid) (rest : List Char) :
    (tokens (pathTo tag ssid ++ rest)).foldlM Draft.add ⟨[], .step⟩ =
      (tokensFrom 0 rest).foldlM Draft.add
        ⟨[.self, .below (some (bare tag)), valued "SSID" (worded ssid)], .any⟩ := by
  have hhead (ts : List Xml.Path.Token) : (.dot :: .slashes :: .name tag.toList :: ts).foldlM
      Draft.add ⟨[], .step⟩ = ts.foldlM Draft.add ⟨[.self, .below (some (bare tag))], .any⟩ := by
    rcases htag with rfl | rfl <;> rfl
  rw [tokens_pathTo htag h]
  exact (hhead _).trans (foldlM_valued _ _ rfl rfl _)

/-- The steps of a path to states among the children that have an identifier. -/
theorem foldlM_substate {ssid : Option String} (h : IsPlain ssid) :
    (tokens ("Children/state".toList ++ withId ssid)).foldlM Draft.add ⟨[], .step⟩ =
      .ok ⟨[.child (some (bare "Children")), .child (some (bare "state")),
        valued "SSID" (worded ssid)], .any⟩ := by
  have htokens : tokens ("Children/state".toList ++ withId ssid) =
      [.name "Children".toList, .slash, .name "state".toList] ++ tokensFrom 0 (withId ssid) := rfl
  have hid := tokensFrom_withId h []
  rw [List.append_nil] at hid
  have hhead (ts : List Xml.Path.Token) :
      (.name "Children".toList :: .slash :: .name "state".toList :: ts).foldlM
        Draft.add ⟨[], .step⟩ =
      ts.foldlM Draft.add ⟨[.child (some (bare "Children")), .child (some (bare "state"))], .any⟩ :=
    rfl
  rw [htokens, hid]
  exact (hhead _).trans (foldlM_valued _ _ rfl rfl _)

/-! ## Look-ups -/

variable {c : Chart} {ssid : Option String}

/-- Whether the element at a place has an identifier. -/
def hasId (ssid : Option String) (p : Place) : Bool :=
  p.node.attribute? "SSID" == some (worded ssid)

/-- Transitions lead from and to plain identifiers. -/
def PlainEnds (c : Chart) : Prop :=
  ∀ t ∈ c.transitions, IsPlain t.item.source ∧ IsPlain t.item.destination

/-- All identifiers that a chart gives or refers to are plain. -/
structure Plain (c : Chart) : Prop where
  states : ∀ s ∈ c.states, IsPlain s.item.ssid
  transitions : ∀ t ∈ c.transitions, IsPlain t.item.ssid
  ends : c.PlainEnds

instance (c : Chart) : Decidable c.PlainEnds :=
  inferInstanceAs (Decidable (∀ t ∈ c.transitions,
    IsPlain t.item.source ∧ IsPlain t.item.destination))

instance (c : Chart) : Decidable c.Plain :=
  decidable_of_iff ((∀ s ∈ c.states, IsPlain s.item.ssid) ∧
      (∀ t ∈ c.transitions, IsPlain t.item.ssid) ∧ c.PlainEnds)
    ⟨fun h => ⟨h.1, h.2.1, h.2.2⟩, fun h => ⟨h.states, h.transitions, h.ends⟩⟩

/-- The first state with the identifier is found. -/
theorem place?_plain (h : IsPlain ssid) :
    c.place? ssid = .ok ((c.place.descendants "state").find? (hasId ssid)) := by
  have hsteps := foldlM_pathTo (.inl rfl) h []
  rw [List.append_nil] at hsteps
  rw [place?, find_eq ((c.place.descendants "state").filter (hasId ssid)) (stepsOf_eq hsteps),
    List.head?_filter]
  simp only [List.foldl_cons, List.foldl_nil, onwards_self, onwards_below, onwards_valued,
    List.flatMap_cons, List.flatMap_nil, List.append_nil]
  rfl

/-- The first state with the identifier among the states directly in a state is found. -/
theorem substate?_plain {p : Place} (h : IsPlain ssid) :
    substate? p ssid = .ok ((p.path ["Children", "state"]).find? (hasId ssid)) := by
  rw [substate?, find_eq ((p.path ["Children", "state"]).filter (hasId ssid))
    (stepsOf_eq (foldlM_substate h)), List.head?_filter]
  simp only [List.foldl_cons, List.foldl_nil, onwards_child, onwards_valued, Place.path,
    List.flatMap_cons, List.flatMap_nil, List.append_nil, List.flatMap_singleton']
  rfl

/-- The label texts of elements by identifier. -/
def labelsOf (ps : List Place) : List (String × String) :=
  ps.filterMap fun p => do
    let ssid ← p.node.attribute? "SSID"
    let label ← p.node.property? "labelString"
    return (ssid, label)

def stateLabels (c : Chart) : List (String × String) := labelsOf (c.place.descendants "state")

def transitionLabels (c : Chart) : List (String × String) :=
  labelsOf (c.place.descendants "transition")

theorem lookup_labelsOf (ps : List Place) (ssid : Option String) :
    (labelsOf ps).lookup (worded ssid) =
      (ps.filter (hasId ssid)).findSome? (·.node.property? "labelString") := by
  induction ps with
  | nil => rfl
  | cons p ps ih =>
    have hhas : hasId ssid p = (p.node.attribute? "SSID" == some (worded ssid)) := rfl
    cases hlabel : p.node.property? "labelString" with
    | none =>
      have hlabels : labelsOf (p :: ps) = labelsOf ps := by
        cases hid : p.node.attribute? "SSID" <;> simp [labelsOf, hid, hlabel]
      rw [hlabels, ih]
      cases h : hasId ssid p <;> simp [h, hlabel]
    | some text =>
      cases hid : p.node.attribute? "SSID" with
      | none =>
        have hlabels : labelsOf (p :: ps) = labelsOf ps := by simp [labelsOf, hid]
        rw [hid] at hhas
        rw [hlabels, ih, List.filter_cons_of_neg (by simp [hhas])]
      | some k =>
        have hlabels : labelsOf (p :: ps) = (k, text) :: labelsOf ps := by
          simp [labelsOf, hid, hlabel]
        rw [hlabels, List.lookup_cons, ih]
        rw [hid] at hhas
        by_cases hk : worded ssid = k
        · simp [hhas, hk, hlabel]
        · simp [hhas, beq_eq_false_iff_ne.mpr hk, Ne.symm hk]

/-- The text of the first property `labelString` of elements with the identifier is found. -/
theorem label?_plain {tag : String} (htag : tag = "state" ∨ tag = "transition") (h : IsPlain ssid) :
    c.label? tag ssid = .ok ((labelsOf (c.place.descendants tag)).lookup (worded ssid)) := by
  have htail : (tokensFrom 0 "/P[@Name=\"labelString\"]".toList).foldlM Draft.add
      ⟨[.self, .below (some (bare tag)), valued "SSID" (worded ssid)], .any⟩ =
      .ok ⟨[.self, .below (some (bare tag)), valued "SSID" (worded ssid), .child (some (bare "P")),
        valued "Name" "labelString"], .any⟩ := rfl
  have hsteps := stepsOf_eq ((foldlM_pathTo htag h _).trans htail)
  have hproperty (q : Place) : (((q.tagged "P").filter
      (·.node.attribute? "Name" == some "labelString")).head?).map (·.node.leadingText) =
        q.node.property? "labelString" := by
    rw [Place.tagged, List.filter_map, List.head?_map, Option.map_map]
    rfl
  rw [label?, find_eq ((((c.place.descendants tag).filter (hasId ssid)).flatMap
    (·.tagged "P")).filter (·.node.attribute? "Name" == some "labelString")) hsteps,
    List.filter_flatMap,
    List.head?_flatMap, lookup_labelsOf]
  · simp only [← hproperty]
    exact congrArg Except.ok List.map_findSome?
  · simp only [List.foldl_cons, List.foldl_nil, onwards_self, onwards_below, onwards_valued,
      onwards_child, List.flatMap_cons, List.flatMap_nil, List.append_nil]
    rfl

end Statechart.Chart
