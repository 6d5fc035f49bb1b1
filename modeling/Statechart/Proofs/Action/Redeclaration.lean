import Statechart.Proofs.Action.Sequencing
import Statechart.Proofs.Table

/-!
Variables that are declared again. A declaration enters its variables under the owner's name, and it
writes the names in it as those in front of it are known. A name that is known already is therefore
written with the owner in front, and the variable is entered under a name that has the owner twice
(`mem_known`). So the names of the variables are those that are declared, with the owner in front,
just if each name that this brings up is declared as well (`stored_once_iff`).
-/

namespace Statechart.Action

/-! ## Declared names -/

/-- The identifier in a declarator. -/
def Declarator.identifier : Declarator → String
  | .name s => s
  | .group d | .sized d _ _ _ | .unsized d _ _ => d.identifier

/-- A declarator that is its identifier. -/
def Declarator.isPlain : Declarator → Bool
  | .name _ => true
  | _ => false

def Item.declared : Item → List Declared
  | .statement _ => []
  | .declaration _ _ ds => ds

/-- The identifiers that an item declares. -/
def Item.identifiers (i : Item) : List String := i.declared.map (·.declarator.identifier)

/-- The identifiers that items declare, as often as they do. -/
def declaredBy (items : List Item) : List String := items.flatMap Item.identifiers

/-- A name as it is written where some names are known. -/
def written (owner : String) (known : List String) (s : String) : String :=
  if s ∈ known then owner ++ s else s

theorem Declarator.render_of_isPlain {d : Declarator} (h : d.isPlain = true)
    (name : String → String) : d.render name = name d.identifier := by
  cases d with
  | name s => rfl
  | _ => cases h

/-! ## Texts in turn -/

/-- The items of texts that are read one after the other. -/
def readAll : Nat → List String → Except Fault (List Item)
  | _, [] => return []
  | line, text :: texts => do
    let (r, line) := read line text
    let is ← r
    let rest ← readAll line texts
    return is ++ rest

/-- The statements of texts that are read one after the other, each with the variables that those
in front of it leave. -/
def parseAll (owner : String) :
    Nat → Variables → List String → Except Fault (List String × Variables)
  | _, vars, [] => return ([], vars)
  | line, vars, text :: texts => do
    let (r, line) := parse line text owner vars
    let (ss, vars) ← r
    let (rest, vars) ← parseAll owner line vars texts
    return (ss ++ rest, vars)

theorem parseAll_eq (owner : String) (texts : List String) (line : Nat) (vars : Variables) :
    parseAll owner line vars texts = (readAll line texts).map (elaborate owner vars) := by
  induction texts generalizing line vars with
  | nil => rfl
  | cons text texts ih =>
    simp only [parseAll, readAll, parse]
    rcases read line text with ⟨f | is, line'⟩
    · rfl
    · simp only [Except.map, bind, Except.bind, ih]
      rcases readAll line' texts with f | rest
      · rfl
      · simp only [pure, Except.pure, elaborate_append]

/-! ## Names that are known -/

/-- The names that are known behind items, the owner left out. -/
def knownAfter (owner : String) : List String → List Item → List String
  | known, [] => known
  | known, i :: is => knownAfter owner (known ++ i.identifiers.map (written owner known)) is

/-- The names that items declare although they are known. -/
def again (owner : String) : List String → List Item → List String
  | _, [] => []
  | known, i :: is =>
    i.identifiers.filter (· ∈ known) ++
      again owner (known ++ i.identifiers.map (written owner known)) is

/-- The names that are known are those that are declared and, for a name that is declared again, the
one with the owner in front. -/
theorem mem_known {owner : String} {items : List Item} {known : List String} {x : String} :
    x ∈ knownAfter owner known items ↔
      x ∈ known ∨ x ∈ declaredBy items ∨ ∃ v ∈ again owner known items, x = owner ++ v := by
  induction items generalizing known with
  | nil => simp [knownAfter, declaredBy, again]
  | cons i is ih =>
    have hdeclared : declaredBy (i :: is) = i.identifiers ++ declaredBy is := rfl
    have hentered : x ∈ known ++ i.identifiers.map (written owner known) ↔
        x ∈ known ∨ x ∈ i.identifiers ∨ ∃ v ∈ i.identifiers.filter (· ∈ known), x = owner ++ v := by
      simp only [List.mem_append, List.mem_map, List.mem_filter, decide_eq_true_eq]
      constructor
      · rintro (hx | ⟨v, hv, rfl⟩)
        · exact .inl hx
        · by_cases hknown : v ∈ known
          · exact .inr (.inr ⟨v, ⟨hv, hknown⟩, if_pos hknown⟩)
          · rw [written, if_neg hknown]
            exact .inr (.inl hv)
      · rintro (hx | hx | ⟨v, ⟨hv, hknown⟩, rfl⟩)
        · exact .inl hx
        · by_cases hknown : x ∈ known
          · exact .inl hknown
          · exact .inr ⟨x, hx, if_neg hknown⟩
        · exact .inr ⟨v, hv, if_pos hknown⟩
    rw [knownAfter, ih, hentered, again, hdeclared]
    simp only [List.mem_append, or_and_right, exists_or, or_assoc, or_left_comm]

/-- No name is declared again just if no two items declare the same name, and none declares one
that is known in front of them. -/
theorem again_eq_nil {owner : String} {items : List Item} {known : List String} :
    again owner known items = [] ↔
      (∀ i ∈ items, List.Disjoint known i.identifiers) ∧
        (items.map Item.identifiers).Pairwise List.Disjoint := by
  induction items generalizing known with
  | nil => simp [again]
  | cons i is ih =>
    rw [again, List.append_eq_nil_iff, List.map_cons, List.pairwise_cons, List.forall_mem_cons]
    have hfirst : i.identifiers.filter (· ∈ known) = [] ↔ List.Disjoint known i.identifiers := by
      simp only [List.filter_eq_nil_iff, decide_eq_true_eq]
      exact ⟨fun h v hknown hv => h v hv hknown, fun h v hv hknown => h hknown hv⟩
    rw [hfirst, and_assoc, and_congr_right_iff]
    intro hdisjoint
    have hentered : i.identifiers.map (written owner known) = i.identifiers := by
      refine List.map_congr_left (fun v hv => if_neg fun hknown => hdisjoint hknown hv) |>.trans ?_
      exact List.map_id' _
    rw [hentered, ih, ← and_assoc]
    refine and_congr_left' ?_
    simp only [List.disjoint_append_left, List.forall_mem_map, forall_and]

/-! ## Variables -/

/-- The variables are those of the names that are known. -/
def Holds (owner : String) (known : List String) (vars : Variables) : Prop :=
  ∀ k, k ∈ vars.keys ↔ ∃ v ∈ known, k = some (owner ++ v)

theorem holds_empty (owner : String) : Holds owner [] .empty := by
  intro k
  simp [Table.keys, Table.empty]

theorem Holds.contains {owner : String} {known : List String} {vars : Variables}
    (h : Holds owner known vars) (s : String) :
    vars.contains (some (owner ++ s)) = true ↔ s ∈ known := by
  rw [Table.contains, Table.isSome_get?, h]
  simp

theorem Holds.rename {owner : String} {known : List String} {vars : Variables}
    (h : Holds owner known vars) : rename owner vars = written owner known := by
  funext s
  simp only [Action.rename, written, h.contains]

theorem Holds.declare {owner : String} {known : List String} {vars : Variables}
    (h : Holds owner known vars) (type : VarType) (const : Bool) {ds : List Declared}
    (hplain : ∀ d ∈ ds, d.declarator.isPlain = true) :
    Holds owner
      (known ++ (Item.declaration type const ds).identifiers.map (written owner known))
      (declare owner vars type const ds) := by
  intro k
  rw [Action.declare, Table.mem_keys_insertAll, h, h.rename, List.map_map]
  have hnames : ∀ d ∈ ds, d.declarator.render (written owner known) =
      written owner known d.declarator.identifier :=
    fun d hd => d.declarator.render_of_isPlain (hplain d hd) _
  simp only [List.mem_append, List.mem_map, Item.identifiers, Item.declared, Function.comp]
  constructor
  · rintro (⟨d, hd, rfl⟩ | ⟨v, hv, rfl⟩)
    · rw [hnames d hd]
      exact ⟨_, .inr ⟨_, ⟨d, hd, rfl⟩, rfl⟩, rfl⟩
    · exact ⟨v, .inl hv, rfl⟩
  · rintro ⟨v, hv | ⟨_, ⟨d, hd, rfl⟩, rfl⟩, rfl⟩
    · exact .inr ⟨v, hv, rfl⟩
    · exact .inl ⟨d, hd, by rw [hnames d hd]⟩

theorem Holds.elaborate {owner : String} {items : List Item}
    (hplain : ∀ i ∈ items, ∀ d ∈ i.declared, d.declarator.isPlain = true) {known : List String}
    {vars : Variables} (h : Holds owner known vars) :
    Holds owner (knownAfter owner known items) (elaborate owner vars items).2 := by
  induction items generalizing known vars with
  | nil => exact h
  | cons i is ih =>
    obtain ⟨hfirst, hrest⟩ := List.forall_mem_cons.mp hplain
    cases i with
    | statement e =>
      refine ih hrest ?_
      simpa [Item.identifiers, Item.declared] using h
    | declaration type const ds => exact ih hrest (h.declare type const hfirst)

theorem nodup_elaborate (owner : String) (items : List Item) {vars : Variables}
    (h : vars.keys.Nodup) : (elaborate owner vars items).2.keys.Nodup := by
  induction items generalizing vars with
  | nil => exact h
  | cons i is ih =>
    cases i with
    | statement e => exact ih h
    | declaration type const ds => exact ih (Table.nodup_insertAll _ h)

/-- Texts that declare plain identifiers, read one after the other, enter a variable for each
identifier that they declare, and one more for each that they declare again, with the owner twice in
its name. So the variables are those of the declared identifiers alone just if every name that comes
up in this way is declared too; and no identifier is declared again just if no two declarations
declare the same. -/
theorem stored_once_iff {line : Nat} {texts : List String} {items : List Item}
    (hread : readAll line texts = .ok items)
    (hplain : ∀ i ∈ items, ∀ d ∈ i.declared, d.declarator.isPlain = true) (owner : String) :
    ∃ ss vars, parseAll owner line .empty texts = .ok (ss, vars) ∧ vars.keys.Nodup ∧
      (∀ k, k ∈ vars.keys ↔
        (∃ v ∈ declaredBy items, k = some (owner ++ v)) ∨
          ∃ v ∈ again owner [] items, k = some (owner ++ (owner ++ v))) ∧
      ((∀ k, k ∈ vars.keys ↔ ∃ v ∈ declaredBy items, k = some (owner ++ v)) ↔
        ∀ v ∈ again owner [] items, owner ++ v ∈ declaredBy items) ∧
      (again owner [] items = [] ↔ (items.map Item.identifiers).Pairwise List.Disjoint) := by
  have hholds := (holds_empty owner).elaborate hplain
  have hkeys : ∀ k, k ∈ (elaborate owner .empty items).2.keys ↔
      (∃ v ∈ declaredBy items, k = some (owner ++ v)) ∨
        ∃ v ∈ again owner [] items, k = some (owner ++ (owner ++ v)) := by
    intro k
    rw [hholds]
    simp only [mem_known, List.not_mem_nil, false_or, or_and_right, exists_or]
    refine or_congr_right ⟨?_, ?_⟩
    · rintro ⟨_, ⟨v, hv, rfl⟩, rfl⟩
      exact ⟨v, hv, rfl⟩
    · rintro ⟨v, hv, rfl⟩
      exact ⟨_, ⟨v, hv, rfl⟩, rfl⟩
  have hnodup : (elaborate owner .empty items).2.keys.Nodup :=
    nodup_elaborate owner items (show (Table.empty : Variables).keys.Nodup from List.nodup_nil)
  refine ⟨_, _, by rw [parseAll_eq, hread]; rfl, hnodup, hkeys,
    ⟨fun h v hv => ?_, fun h k => ?_⟩, by simp [again_eq_nil]⟩
  · obtain ⟨u, hu, he⟩ := (h _).mp ((hkeys _).mpr (.inr ⟨v, hv, rfl⟩))
    have hname : owner ++ v = u := by simpa using he
    rw [hname]
    exact hu
  · refine (hkeys k).trans ⟨?_, .inl⟩
    rintro (hk | ⟨v, hv, rfl⟩)
    · exact hk
    · exact ⟨_, h v hv, rfl⟩

/-- Two sections, of which the second uses a variable of the first and declares another one. -/
theorem stored_once_iff_sections :
    ∃ items ss vars,
      readAll 1 ["int a = 1, b;", "const bool c = a\n\x7b b = c;\n\x7d"] = .ok items ∧
        items.map Item.identifiers = [["a", "b"], ["c"], []] ∧
        parseAll "state_1_" 1 .empty ["int a = 1, b;", "const bool c = a\n\x7b b = c;\n\x7d"] =
          .ok (ss, vars) ∧
        ∀ k, k ∈ vars.keys ↔ ∃ v ∈ declaredBy items, k = some ("state_1_" ++ v) := by
  have hitems : (readAll 1 ["int a = 1, b;", "const bool c = a\n\x7b b = c;\n\x7d"]).map
      (fun is => (is.map Item.identifiers, is.all fun i => i.declared.all (·.declarator.isPlain))) =
      .ok ([["a", "b"], ["c"], []], true) := by
    decide +kernel
  cases hread : readAll 1 ["int a = 1, b;", "const bool c = a\n\x7b b = c;\n\x7d"] with
  | error f =>
    rw [hread] at hitems
    cases hitems
  | ok items =>
    rw [hread] at hitems
    obtain ⟨hnames, hplain⟩ := Prod.mk.inj (Except.ok.inj hitems)
    obtain ⟨ss, vars, hparse, -, -, hiff, hagain⟩ :=
      stored_once_iff hread (by simpa using hplain) "state_1_"
    have hnone : again "state_1_" [] items = [] := hagain.mpr (by simp [hnames])
    exact ⟨items, ss, vars, rfl, hnames, hparse, hiff.mpr (by simp [hnone])⟩

/-- The second section declares the variable of the first once more. There is one identifier, and
there are two variables. -/
theorem redeclared_stored_twice :
    (readAll 1 ["int a; a = 1;", "int a; a = 2;"]).map declaredBy = .ok ["a", "a"] ∧
      parseAll "state_1_" 1 .empty ["int a; a = 1;", "int a; a = 2;"] =
        .ok (["state_1_a = 1", "state_1_a = 2"],
          ⟨[(some "state_1_a", ⟨.int, false, none, .label⟩),
            (some "state_1_state_1_a", ⟨.int, false, none, .label⟩)]⟩) := by
  decide +kernel

end Statechart.Action
