/-!
Documents as trees. Comments and instructions are kept as nodes that say nothing, because text
in front of them counts as separate. A place is a node with the nodes above it.
-/

namespace Statechart.Xml

/-- A name with the name space it belongs to, if any. -/
structure Name where
  space : Option String
  base : String
  deriving Repr, DecidableEq

inductive Node where
  | element (name : Name) (attributes : List (Name × String)) (children : List Node)
  | text (s : String)
  | other
  deriving Repr

namespace Node

def children : Node → List Node
  | element _ _ cs => cs
  | _ => []

/-- Whether the node is an element of this name without a name space. -/
def hasTag (tag : String) : Node → Bool
  | element n _ _ => n == ⟨none, tag⟩
  | _ => false

def isElement : Node → Bool
  | element _ _ _ => true
  | _ => false

/-- The value of an attribute. -/
def value? (name : Name) : Node → Option String
  | element _ as _ => (as.find? (·.1 == name)).map (·.2)
  | _ => none

/-- The value of an attribute of this name without a name space. -/
def attribute? (key : String) (n : Node) : Option String := n.value? ⟨none, key⟩

/-- The text in front of everything else in an element. -/
def leadingText : Node → String
  | element _ _ (text s :: _) => s
  | _ => ""

/-- The child elements of a name. -/
def tagged (tag : String) (n : Node) : List Node := n.children.filter (·.hasTag tag)

/-- The elements at the end of a path of names. -/
def path : List String → Node → List Node
  | [], n => [n]
  | t :: ts, n => (n.tagged t).flatMap (path ts)

/-- The properties of a name: child elements `P` that carry it. -/
def properties (name : String) (n : Node) : List Node :=
  (n.tagged "P").filter (·.attribute? "Name" == some name)

/-- The text of the first property of a name. -/
def property? (name : String) (n : Node) : Option String :=
  ((n.properties name).head?).map leadingText

/-- The text of the first property of a name among those of the children with a tag. -/
def propertyIn? (tag name : String) (n : Node) : Option String :=
  (((n.tagged tag).flatMap (properties name)).head?).map leadingText

end Node

/-- A node and the elements around it, innermost first. -/
structure Place where
  node : Node
  above : List Node
  deriving Repr

mutual

/-- The elements below a node, in document order; `above` holds what is around the node. -/
def Node.inside (above : List Node) : Node → List Place
  | .element name attributes children =>
    placesIn (.element name attributes children :: above) children
  | .text _ => []
  | .other => []

/-- The elements among nodes and below them, in document order. -/
def placesIn (above : List Node) : List Node → List Place
  | [] => []
  | n :: ns => (if n.isElement then [⟨n, above⟩] else []) ++ n.inside above ++ placesIn above ns

end

namespace Place

/-- The elements of a name anywhere below a place. -/
def descendants (tag : String) (p : Place) : List Place :=
  (p.node.inside p.above).filter (·.node.hasTag tag)

/-- The child elements of a name. -/
def tagged (tag : String) (p : Place) : List Place :=
  (p.node.tagged tag).map (⟨·, p.node :: p.above⟩)

/-- The elements at the end of a path of names. -/
def path : List String → Place → List Place
  | [], p => [p]
  | t :: ts, p => (p.tagged t).flatMap (path ts)

/-- Every second element outwards, which leaves out the lists that children stand in. -/
def everySecond : List Node → List Node
  | _ :: n :: rest => n :: everySecond rest
  | _ => []

def enclosing (p : Place) : List Node := everySecond p.above

end Place

/-- The root element of the document that bytes hold, if they hold one. -/
abbrev DocumentReader := ByteArray → Option Node

end Statechart.Xml
