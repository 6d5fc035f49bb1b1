import Statechart.Proofs.Chart.Shape

/-!
Charts as they are drawn: states in states, with transitions and data among them. The document
of a drawing has the shape of a tree, whatever is drawn (`treeShaped_drawn`).
-/

namespace Statechart.Chart

open Xml (Node Place)

inductive Item where
  | state (ssid label : String) (items : List Item)
  /-- A default transition has no source. -/
  | transition (ssid : String) (source : Option String) (destination label order : String)
  | data (name type scope : String)

/-! ## Documents -/

def element (tag : String) (attributes : List (String × String)) (children : List Node) : Node :=
  .element ⟨none, tag⟩ (attributes.map fun a => (⟨none, a.1⟩, a.2)) children

def property (name value : String) : Node := element "P" [("Name", name)] [.text value]

/-- The list of children of a state or chart; without children there is none. -/
def childList (children : List Node) : List Node :=
  if children.isEmpty then [] else [element "Children" [] children]

mutual

def Item.node : Item → Node
  | .state ssid label items =>
    element "state" [("SSID", ssid)]
      (property "labelString" label :: property "type" "OR_STATE" :: childList (nodesOf items))
  | .transition ssid source destination label order =>
    element "transition" [("SSID", ssid)]
      [property "labelString" label, property "executionOrder" order,
        element "src" [] (source.map (property "SSID")).toList,
        element "dst" [] [property "SSID" destination]]
  | .data name type scope =>
    element "data" [("name", name)] [property "dataType" type, property "scope" scope]

def nodesOf : List Item → List Node
  | [] => []
  | i :: is => i.node :: nodesOf is

end

/-- A chart with an identifier and nothing around it. -/
def drawnAs (id name : String) (items : List Item) : Place :=
  ⟨element "chart" [("id", id)] (property "name" name :: childList (nodesOf items)), []⟩

def drawn (name : String) (items : List Item) : Place := drawnAs "1" name items

/-! ## Their shape -/

theorem Item.induction {P : Item → Prop}
    (state : ∀ ssid label items, (∀ i ∈ items, P i) → P (.state ssid label items))
    (transition : ∀ ssid source destination label order,
      P (.transition ssid source destination label order))
    (data : ∀ name type scope, P (.data name type scope)) (i : Item) : P i := by
  refine Item.rec (motive_1 := P) (motive_2 := fun is => ∀ i ∈ is, P i)
    state transition data ?_ ?_ i
  · intro i hi
    cases hi
  · intro j js hj hjs i hi
    rcases List.mem_cons.mp hi with rfl | hi
    · exact hj
    · exact hjs i hi

theorem mem_nodesOf {n : Node} {is : List Item} (h : n ∈ nodesOf is) : ∃ i ∈ is, n = i.node := by
  induction is with
  | nil => cases h
  | cons i is ih =>
    rcases List.mem_cons.mp h with rfl | h
    · exact ⟨i, List.mem_cons_self .., rfl⟩
    · obtain ⟨j, hj, rfl⟩ := ih h
      exact ⟨j, List.mem_cons_of_mem _ hj, rfl⟩

theorem allSeated_flatMap {depth : Nat} {above ns : List Node}
    (h : ∀ n ∈ ns, AllSeated depth (placesFrom above n)) :
    AllSeated depth (ns.flatMap (placesFrom above)) := by
  intro q hq
  obtain ⟨n, hn, hq⟩ := List.mem_flatMap.mp hq
  exact h n hn q hq

/-- An element that is neither a state nor a transition need not be seated itself. -/
theorem allSeated_element {depth : Nat} {above : List Node} {tag : String}
    {attributes : List (String × String)} {children : List Node}
    (htag : tag ≠ "state" ∧ tag ≠ "transition")
    (h : ∀ n ∈ children,
      AllSeated depth (placesFrom (element tag attributes children :: above) n)) :
    AllSeated depth (placesFrom above (element tag attributes children)) := by
  intro q hq ht
  rcases mem_placesFrom.mp hq with ⟨-, rfl⟩ | hq
  · simp [element, Node.hasTag, htag] at ht
  · rw [inside_eq_flatMap] at hq
    exact allSeated_flatMap h q hq ht

theorem allSeated_property (depth : Nat) (above : List Node) (name value : String) :
    AllSeated depth (placesFrom above (property name value)) := by
  refine allSeated_element (by decide) fun n hn q hq => ?_
  rw [List.mem_singleton.mp hn] at hq
  cases hq

theorem allSeated_childList {depth : Nat} {owner : Node} {above : List Node} {is : List Item}
    (howner : owner.hasTag "state" = true ∨ above.length = depth)
    (his : ∀ i ∈ is, ∀ above, AllSeated depth (i.node.inside above)) :
    ∀ n ∈ childList (nodesOf is), AllSeated depth (placesFrom (owner :: above) n) := by
  intro n hn
  unfold childList at hn
  split at hn
  · cases hn
  · rw [List.mem_singleton.mp hn]
    refine allSeated_element (by decide) fun n hn q hq ht => ?_
    obtain ⟨i, hi, rfl⟩ := mem_nodesOf hn
    rcases mem_placesFrom.mp hq with ⟨-, rfl⟩ | hq
    · simpa [isSeated, isList, element, Node.hasTag] using howner
    · exact his i hi _ q hq ht

theorem allSeated_item (depth : Nat) (i : Item) (above : List Node) :
    AllSeated depth (i.node.inside above) := by
  induction i using Item.induction generalizing above with
  | state ssid label items ih =>
    rw [inside_eq_flatMap]
    refine allSeated_flatMap fun n hn => ?_
    rcases List.mem_cons.mp hn with rfl | hn
    · exact allSeated_property _ _ _ _
    rcases List.mem_cons.mp hn with rfl | hn
    · exact allSeated_property _ _ _ _
    · exact allSeated_childList (.inl (by simp [Item.node, element, Node.hasTag])) ih n hn
  | transition ssid source destination label order =>
    rw [inside_eq_flatMap]
    refine allSeated_flatMap fun n hn => ?_
    simp only [Item.node, element, Node.children, List.mem_cons, List.not_mem_nil, or_false] at hn
    rcases hn with rfl | rfl | rfl | rfl
    · exact allSeated_property _ _ _ _
    · exact allSeated_property _ _ _ _
    · refine allSeated_element (by decide) fun n hn => ?_
      obtain ⟨source, -, rfl⟩ := Option.map_eq_some_iff.mp (Option.mem_toList.mp hn)
      exact allSeated_property _ _ _ _
    · refine allSeated_element (by decide) fun n hn => ?_
      rw [List.mem_singleton.mp hn]
      exact allSeated_property _ _ _ _
  | data name type scope =>
    rw [inside_eq_flatMap]
    refine allSeated_flatMap fun n hn => ?_
    simp only [Item.node, element, Node.children, List.mem_cons, List.not_mem_nil, or_false] at hn
    rcases hn with rfl | rfl
    · exact allSeated_property _ _ _ _
    · exact allSeated_property _ _ _ _

/-- The document of a drawing has the shape of a tree. -/
theorem treeShaped_drawn (name : String) (items : List Item) : TreeShaped (drawn name items) := by
  have hlist : ∀ n ∈ childList (nodesOf items),
      AllSeated 0 (placesFrom [(drawn name items).node] n) :=
    allSeated_childList (.inr rfl) fun i _ => allSeated_item 0 i
  have hall : AllSeated 0 ((drawn name items).node.inside []) := by
    rw [inside_eq_flatMap]
    refine allSeated_flatMap fun n hn => ?_
    rcases List.mem_cons.mp hn with rfl | hn
    · exact allSeated_property _ _ _ _
    · exact hlist n hn
  refine ⟨by simp [drawn, drawnAs, element, Node.hasTag], fun q hq => ?_, fun q hq => ?_⟩
  · obtain ⟨hq, ht⟩ := List.mem_filter.mp hq
    exact hall q hq (.inl ht)
  · obtain ⟨hq, ht⟩ := List.mem_filter.mp hq
    exact hall q hq (.inr ht)

end Statechart.Chart
