import Statechart.Fault
import Statechart.Text.Numeral
import Statechart.Xml.Basic

/-!
Path expressions, by which elements are looked up. An expression is cut into tokens, the tokens
make steps, and each step goes on from every element that the steps before it lead to. What is
looked up is the first element in the end (`Place.find`).
-/

namespace Statechart.Xml.Path

/-! ## Tokens -/

inductive Token where
  | slash
  | slashes
  | dot
  | dots
  | star
  | colon
  | colons
  | leftBracket
  | rightBracket
  | leftParen
  | rightParen
  | parens
  | atSign
  | equal
  | unequal
  | quoted (mark : Char) (text : List Char)
  | name (text : List Char)
  | blank
  deriving Repr, DecidableEq

def Token.spelling : Token → List Char
  | slash => ['/']
  | slashes => ['/', '/']
  | dot => ['.']
  | dots => ['.', '.']
  | star => ['*']
  | colon => [':']
  | colons => [':', ':']
  | leftBracket => ['[']
  | rightBracket => [']']
  | leftParen => ['(']
  | rightParen => [')']
  | parens => ['(', ')']
  | atSign => ['@']
  | equal => ['=']
  | unequal => ['!', '=']
  | quoted mark text => mark :: text ++ [mark]
  | name text => text
  | blank => []

/-- The characters that may be anywhere in a name. -/
def isNamePart (c : Char) : Bool := !(['/', '[', ']', '(', ')', '@', '!', '='].contains c) &&
  !Text.isBlank c

/-- The name at the front of a text, perhaps with a name space in braces, which may hold
anything. -/
def nameAt (cs : List Char) : List Char :=
  let spaced := match cs with
    | '\x7b' :: rest =>
      let space := rest.takeWhile (· != '\x7d')
      let base := (rest.drop (space.length + 1)).takeWhile isNamePart
      if space.isEmpty || base.isEmpty then [] else '\x7b' :: space ++ '\x7d' :: base
    | _ => []
  if spaced.isEmpty then cs.takeWhile isNamePart else spaced

/-- The token at the front of a text and its length. An exclamation mark alone is none. -/
def tokenAt (cs : List Char) : Option (Token × Nat) :=
  match cs with
  | '/' :: '/' :: _ => some (.slashes, 2)
  | '/' :: _ => some (.slash, 1)
  | '.' :: '.' :: _ => some (.dots, 2)
  | '.' :: _ => some (.dot, 1)
  | '*' :: _ => some (.star, 1)
  | ':' :: ':' :: _ => some (.colons, 2)
  | ':' :: _ => some (.colon, 1)
  | '[' :: _ => some (.leftBracket, 1)
  | ']' :: _ => some (.rightBracket, 1)
  | '(' :: ')' :: _ => some (.parens, 2)
  | '(' :: _ => some (.leftParen, 1)
  | ')' :: _ => some (.rightParen, 1)
  | '@' :: _ => some (.atSign, 1)
  | '=' :: _ => some (.equal, 1)
  | '!' :: '=' :: _ => some (.unequal, 2)
  | '!' :: _ => none
  | [] => none
  | c :: rest =>
    if (c == '"' || c == '\'') && rest.contains c then
      let text := rest.takeWhile (· != c)
      some (.quoted c text, text.length + 2)
    else if Text.isBlank c then some (.blank, (rest.takeWhile Text.isBlank).length + 1)
    else some (.name (nameAt cs), (nameAt cs).length)

/-- The tokens of a text. The first `skip` characters belong to a token that was already taken. -/
def tokensFrom : Nat → List Char → List Token
  | _, [] => []
  | skip + 1, _ :: cs => tokensFrom skip cs
  | 0, c :: cs =>
    match tokenAt (c :: cs) with
    | some (t, size) => t :: tokensFrom (size - 1) cs
    | none => tokensFrom 0 cs

def tokens (text : List Char) : List Token := tokensFrom 0 text

/-! ## Steps -/

/-- The elements that a name in an expression means. A part that is absent may be anything. -/
structure Tag where
  space : Option (Option String)
  base : Option String
  deriving Repr, DecidableEq

/-- The name space in braces, if there is one, and the rest of a name. -/
def splitName : List Char → Option (Option String × List Char)
  | [] => none
  | '\x7b' :: cs =>
    match cs.dropWhile (· != '\x7d') with
    | [] | [_] => none
    | _ :: base =>
      let space := cs.takeWhile (· != '\x7d')
      some (if space.isEmpty then none else some (String.ofList space), base)
  | cs => some (none, cs)

/-- What a name of elements means; none has a name that is empty or has an open brace. -/
def Tag.ofText (text : List Char) : Option Tag :=
  (splitName text).map fun (space, base) =>
    ⟨if space == some "*" then none else some space,
     if base == ['*'] then none else some (String.ofList base)⟩

/-- The attribute that a name means. -/
def attributeOf (text : List Char) : Option Name :=
  (splitName text).map fun (space, base) => ⟨space, String.ofList base⟩

def Tag.fits (t : Tag) : Node → Bool
  | .element n _ _ => t.space.all (· == n.space) && t.base.all (· == n.base)
  | _ => false

/-- What an element may be asked for. Names are as in `Tag.ofText` and `attributeOf`, and `same`
is unset if the values have to differ. -/
inductive Test where
  | attribute (name : Option Name)
  | attributeIs (name : Option Name) (same : Bool) (value : String)
  | child (tag : Option Tag)
  | childIs (tag : Option Tag) (same : Bool) (value : String)
  | textIs (same : Bool) (value : String)
  /-- The place among the siblings of its name, from the front or, below 0, from the end. -/
  | position (index : Int)
  deriving Repr, DecidableEq

inductive Step where
  | child (tag : Option Tag)
  | children
  | self
  | parent
  | below (tag : Option Tag)
  | having (test : Test)
  deriving Repr, DecidableEq

/-- Digits, perhaps behind a sign. -/
def isNumeral (cs : List Char) : Bool :=
  let digits := match cs with
    | '-' :: rest => rest
    | cs => cs
  !digits.isEmpty && digits.all fun c => (Text.digitValue? c).isSome

/-- The test that tokens between brackets spell. -/
def testOf : List Token → Except Fault Test
  | [.atSign, .name k] => .ok (.attribute (attributeOf k))
  | [.atSign, .name k, .equal, .quoted _ v] =>
    .ok (.attributeIs (attributeOf k) true (String.ofList v))
  | [.atSign, .name k, .unequal, .quoted _ v] =>
    .ok (.attributeIs (attributeOf k) false (String.ofList v))
  | [.name n] =>
    if !isNumeral n then .ok (.child (Tag.ofText n))
    else
      match Text.readInt (String.ofList n) with
      | some i => if 1 ≤ i then .ok (.position (i - 1)) else .error .badPath
      | none => .error .notANumber
  | [.dot, .equal, .quoted _ v] => .ok (.textIs true (String.ofList v))
  | [.dot, .unequal, .quoted _ v] => .ok (.textIs false (String.ofList v))
  | [.name n, .equal, .quoted _ v] =>
    if isNumeral n then .error .badPath else .ok (.childIs (Tag.ofText n) true (String.ofList v))
  | [.name n, .unequal, .quoted _ v] =>
    if isNumeral n then .error .badPath else .ok (.childIs (Tag.ofText n) false (String.ofList v))
  | [.name n, .parens] | [.name n, .leftParen, .rightParen] =>
    if n == "last".toList then .ok (.position (-1)) else .error .badPath
  | [.name n, .parens, .name k] =>
    match n == "last".toList, Text.readInt (String.ofList k) with
    | true, some i => .ok (.position (i - 1))
    | _, _ => .error .badPath
  | _ => .error .badPath

/-- What has to come next. -/
inductive Mode where
  | step
  /-- A name, after two slashes. -/
  | tag
  /-- The rest of a test that starts with these tokens. -/
  | test (seen : List Token)
  /-- A slash or a step, or the end. -/
  | any
  deriving Repr

structure Draft where
  steps : List Step
  mode : Mode
  deriving Repr

/-- A name with a colon needs a declaration for what is in front of it, and there are none. -/
def Token.isPrefixed : Token → Bool
  | name text => text.head? != some '\x7b' && text.contains ':'
  | _ => false

/-- A step starts with the token. -/
def Draft.start (d : Draft) : Token → Except Fault Draft
  | .name n => .ok ⟨d.steps ++ [.child (Tag.ofText n)], .any⟩
  | .blank => .ok ⟨d.steps ++ [.child none], .any⟩
  | .star => .ok ⟨d.steps ++ [.children], .any⟩
  | .dot => .ok ⟨d.steps ++ [.self], .any⟩
  | .dots => .ok ⟨d.steps ++ [.parent], .any⟩
  | .slashes => .ok ⟨d.steps, .tag⟩
  | .leftBracket => .ok ⟨d.steps, .test []⟩
  | t => .error (.strayMark (String.ofList t.spelling))

def Draft.add (d : Draft) (t : Token) : Except Fault Draft :=
  if t.isPrefixed then .error .badPath
  else
    match d.mode, t with
    | .step, t => d.start t
    | .any, .slash => .ok ⟨d.steps, .step⟩
    | .any, t => d.start t
    | .tag, .name n => .ok ⟨d.steps ++ [.below (Tag.ofText n)], .any⟩
    | .tag, .blank => .ok ⟨d.steps ++ [.below none], .any⟩
    | .tag, .star => .ok ⟨d.steps ++ [.below (some ⟨none, none⟩)], .any⟩
    | .tag, _ => .error .badPath
    | .test seen, .rightBracket => do return ⟨d.steps ++ [.having (← testOf seen)], .any⟩
    | .test _, .blank => .ok d
    | .test seen, t => .ok ⟨d.steps, .test (seen ++ [t])⟩

/-- The steps of an expression. A slash at its end is passed over. -/
def stepsOf (text : List Char) : Except Fault (List Step) := do
  let d ← (tokens text).foldlM Draft.add ⟨[], .step⟩
  match d.steps, d.mode with
  | _, .tag | _, .test _ | [], _ => throw .badPath
  | steps, _ => return steps

/-! ## Going along steps -/

/-- The child elements of a place. -/
def elements (p : Place) : List Place :=
  (p.node.children.filter (·.isElement)).map (⟨·, p.node :: p.above⟩)

mutual

/-- All text in a node. -/
def textIn : Node → List Char
  | .element _ _ children => textAmong children
  | .text s => s.toList
  | .other => []

def textAmong : List Node → List Char
  | [] => []
  | n :: ns => textIn n ++ textAmong ns

end

mutual

/-- Nodes are alike if they have the same names, attributes and contents. -/
def alike : Node → Node → Bool
  | .element n as ns, .element n' as' ns' => n == n' && as == as' && allAlike ns ns'
  | .text s, .text s' => s == s'
  | .other, .other => true
  | _, _ => false

def allAlike : List Node → List Node → Bool
  | [], [] => true
  | n :: ns, n' :: ns' => alike n n' && allAlike ns ns'
  | _, _ => false

end

def sameName : Node → Node → Bool
  | .element n _ _, .element n' _ _ => n == n'
  | _, _ => false

/-- Whether a node is in a position among the children of `parent` that have its name. Children
that are alike are not told apart. -/
def isAt (index : Int) (parent n : Node) : Bool :=
  let siblings := parent.children.filter (sameName n)
  let place := if index < 0 then siblings.length + index else index
  0 ≤ place && (siblings[place.toNat]?).any (alike n)

/-- Whether a place passes a test. -/
def Test.passes (p : Place) : Test → Except Fault Bool
  | .attribute none | .attributeIs none _ _ | .child none | .childIs none _ _ =>
    .error .impossibleName
  | .attribute (some n) => .ok (p.node.value? n).isSome
  | .attributeIs (some n) true v => .ok (p.node.value? n == some v)
  | .attributeIs (some n) false v => .ok ((p.node.value? n).any (· != v))
  | .child (some t) => .ok (p.node.children.any t.fits)
  | .childIs (some t) same v => .ok <| p.node.children.any fun n =>
      t.fits n && (String.ofList (textIn n) == v) == same
  | .textIs same v => .ok ((String.ofList (textIn p.node) == v) == same)
  | .position index => .ok (p.above.head?.any (isAt index · p.node))

/-- The places that a step leads to, in order. A fault comes where it is met. -/
def Step.go (p : Place) : Step → List (Except Fault Place)
  | .child none | .below none => [.error .impossibleName]
  | .child (some t) => ((elements p).filter (t.fits ·.node)).map .ok
  | .children => (elements p).map .ok
  | .self => [.ok p]
  | .parent =>
    match p.above with
    | [] => []
    | n :: above => [.ok ⟨n, above⟩]
  | .below (some t) => ((p.node.inside p.above).filter (t.fits ·.node)).map .ok
  | .having test =>
    match test.passes p with
    | .ok passes => if passes then [.ok p] else []
    | .error f => [.error f]

/-- A step from each of the places that were found. -/
def onwards (found : List (Except Fault Place)) (s : Step) : List (Except Fault Place) :=
  found.flatMap fun r =>
    match r with
    | .ok p => s.go p
    | .error f => [.error f]

/-- The first place; faults behind it are not met. -/
def first : List (Except Fault Place) → Except Fault (Option Place)
  | [] => .ok none
  | .ok p :: _ => .ok (some p)
  | .error f :: _ => .error f

end Path

/-- The first element that a path expression leads to from a place. -/
def Place.find (p : Place) (path : List Char) : Except Fault (Option Place) := do
  Path.first ((← Path.stepsOf path).foldl Path.onwards [.ok p])

end Statechart.Xml
