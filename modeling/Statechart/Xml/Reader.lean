import Statechart.Text.Search
import Statechart.Xml.Basic
import Statechart.Xml.Character

/-!
Reading a document character by character. The mode says what the next character belongs to;
open elements are a stack, innermost first, and text is pending until markup comes. Whatever
is not well formed makes the reading end without an answer. Lists that grow while reading have
their last member first.
-/

namespace Statechart.Xml

/-- An open element. Name spaces are bound from the innermost binding outwards. -/
structure Open where
  tag : List Char
  name : Name
  attributes : List (Name × String)
  spaces : List (String × String)
  children : List Node
  deriving Repr

/-- A start tag in the course of reading. -/
structure Tag where
  name : List Char
  attributes : List (List Char × String)
  deriving Repr

/-- Where a reference stands: in text, or in the value of an attribute. -/
inductive Site where
  | content
  | value (tag : Tag) (name : List Char) (quote : Char) (value : List Char)
  deriving Repr

inductive Mode where
  /-- Text, which ends in so many closing brackets. -/
  | content (brackets : Nat)
  | reference (site : Site) (seen : List Char)
  /-- After the mark that starts a tag. -/
  | less
  /-- After an exclamation mark; `seen` decides what it is. -/
  | bang (seen : List Char)
  | comment (dashes : Nat)
  | cdata (brackets : Nat)
  /-- Before the name in a document type, with a blank in front of it or not. -/
  | doctypeHead (blank : Bool)
  | doctype (quote : Option Char) (brackets : Nat)
  | target (name : List Char)
  /-- The end of an instruction has to come. -/
  | targetEnd
  | instruction (question : Bool)
  | tagName (name : List Char)
  | tag (tag : Tag) (spaced : Bool)
  | attributeName (tag : Tag) (name : List Char)
  | equals (tag : Tag) (name : List Char)
  | quote (tag : Tag) (name : List Char)
  | value (tag : Tag) (name : List Char) (quote : Char) (value : List Char)
  /-- After the slash of an empty element. -/
  | slash (tag : Tag)
  | endName (name : List Char)
  | endSpace (name : List Char)
  deriving Repr

structure State where
  mode : Mode
  stack : List Open
  text : List Char
  root : Option Node
  deriving Repr

/-! ## Names -/

def xmlSpace : String := "http://www.w3.org/XML/1998/namespace"

def xmlnsSpace : String := "http://www.w3.org/2000/xmlns/"

/-- The two parts of a name with at most one colon. -/
def splitName (cs : List Char) : Option (Option String × String) :=
  let head := cs.takeWhile (· != ':')
  match cs.dropWhile (· != ':') with
  | [] => if isSimpleName head then some (none, String.ofList head) else none
  | _ :: rest =>
    if isSimpleName head && isSimpleName rest then
      some (some (String.ofList head), String.ofList rest)
    else none

/-- The bindings of a tag, or nothing if one is not allowed. -/
def bindings : List (List Char × String) → Option (List (String × String))
  | [] => some []
  | (n, uri) :: rest => do
    let (lead, base) ← splitName n
    let more ← bindings rest
    match lead, base with
    | none, "xmlns" =>
      if uri == xmlSpace || uri == xmlnsSpace then none else some (("", uri) :: more)
    | some "xmlns", "xml" => if uri == xmlSpace then some more else none
    | some "xmlns", "xmlns" => none
    | some "xmlns", p =>
      if uri == "" || uri == xmlSpace || uri == xmlnsSpace then none else some ((p, uri) :: more)
    | _, _ => some more

/-- The name space that a lead is bound to. -/
def spaceOf? (spaces : List (String × String)) (lead : String) : Option String :=
  if lead == "xml" then some xmlSpace else (spaces.find? (·.1 == lead)).map (·.2)

/-- The name of an element. The empty lead may be bound, and bound to nothing. -/
def elementName (spaces : List (String × String)) (cs : List Char) : Option Name := do
  match ← splitName cs with
  | (none, base) => return ⟨(spaceOf? spaces "").filter (· != ""), base⟩
  | (some lead, base) => return ⟨some (← spaceOf? spaces lead), base⟩

/-- The attributes of a tag other than bindings. -/
def attributeNames (spaces : List (String × String)) :
    List (List Char × String) → Option (List (Name × String))
  | [] => some []
  | (n, v) :: rest => do
    let more ← attributeNames spaces rest
    match ← splitName n with
    | (none, "xmlns") | (some "xmlns", _) => return more
    | (none, base) => return (⟨none, base⟩, v) :: more
    | (some lead, base) => return (⟨some (← spaceOf? spaces lead), base⟩, v) :: more

def distinct {α : Type} [BEq α] : List α → Bool
  | [] => true
  | a :: as => !as.contains a && distinct as

/-- How many elements may be open when another one starts. -/
def maxDepth : Nat := 256

/-- The element that a tag opens, inside the elements of the stack. -/
def openElement (stack : List Open) (t : Tag) : Option Open := do
  let attributes := t.attributes.reverse
  let new ← bindings attributes
  let spaces := new ++ (stack.head?.map (·.spaces)).getD []
  let name ← elementName spaces t.name.reverse
  let named ← attributeNames spaces attributes
  guard (stack.length ≤ maxDepth && distinct (attributes.map (·.1)) && distinct (named.map (·.1)))
  return ⟨t.name.reverse, name, named, spaces, []⟩

/-! ## Text and references -/

def digitValue? (c : Char) : Option Nat :=
  if c.isDigit then some (c.toNat - '0'.toNat)
  else if 'a' ≤ c && c ≤ 'f' then some (c.toNat - 'a'.toNat + 10)
  else if 'A' ≤ c && c ≤ 'F' then some (c.toNat - 'A'.toNat + 10)
  else none

/-- The number that digits of a base spell. -/
def number? (base : Nat) (cs : List Char) : Option Nat :=
  if cs.isEmpty then none
  else
    cs.foldlM (fun n c => do
      let d ← digitValue? c
      if d < base then some (n * base + d) else none) 0

/-- The character that the text between ampersand and semicolon stands for. -/
def referent? : List Char → Option Char
  | ['l', 't'] => some '<'
  | ['g', 't'] => some '>'
  | ['a', 'm', 'p'] => some '&'
  | ['q', 'u', 'o', 't'] => some '"'
  | ['a', 'p', 'o', 's'] => some '\''
  | '#' :: 'x' :: cs => (number? 16 cs).bind ofCode?
  | '#' :: cs => (number? 10 cs).bind ofCode?
  | _ => none
where
  ofCode? (n : Nat) : Option Char := if isAllowed n then some (Char.ofNat n) else none

/-- Puts pending text among the children of the innermost element. -/
def State.flush (s : State) : State :=
  match s.text, s.stack with
  | _ :: _, o :: rest =>
    { s with
      stack := { o with children := .text (String.ofList s.text.reverse) :: o.children } :: rest,
      text := [] }
  | _, _ => s

/-- Puts a node where the reading stands. At the top only one element may stand. -/
def State.add (s : State) (n : Node) : Option State :=
  match s.stack with
  | o :: rest => some { s with stack := { o with children := n :: o.children } :: rest }
  | [] =>
    if !n.isElement then some s
    else if s.root.isSome then none
    else some { s with root := some n }

/-- Closes the innermost element. -/
def State.close (s : State) : Option State := do
  let s := s.flush
  match s.stack with
  | o :: rest =>
    State.add { s with stack := rest } (.element o.name o.attributes o.children.reverse)
  | [] => none

/-- Opens an element, or puts it as an empty one. -/
def State.start (s : State) (t : Tag) (empty : Bool) : Option State := do
  let o ← openElement s.stack t
  if s.stack.isEmpty && s.root.isSome then none
  else
    let s := { s with stack := o :: s.stack, mode := .content 0 }
    if empty then s.close else some s

/-- Takes a character into the text. Outside the root only blanks may stand. -/
def State.take (s : State) (c : Char) : Option State :=
  if s.stack.isEmpty then if isBlank c then some s else none
  else some { s with text := c :: s.text }

/-- White space in a value counts as spaces. -/
def spaced (c : Char) : Char := if isBlank c then ' ' else c

/-- Whether the name of an instruction is allowed. -/
def isTarget (name : List Char) : Bool :=
  isSimpleName name && name.map Char.toLower != ['x', 'm', 'l']

/-! ## Steps -/

/-- A character of text. -/
def stepContent (s : State) (brackets : Nat) (c : Char) : Option State :=
  match c with
  | '<' => some { s with mode := .less }
  | '&' => if s.stack.isEmpty then none else some { s with mode := .reference .content [] }
  | ']' => { s with mode := .content (brackets + 1) }.take c
  | '>' => if 2 ≤ brackets then none else { s with mode := .content 0 }.take c
  | c => { s with mode := .content 0 }.take c

/-- The end of a reference. -/
def stepReference (s : State) (site : Site) (seen : List Char) (c : Char) : Option State :=
  if c != ';' then some { s with mode := .reference site (c :: seen) }
  else do
    let r ← referent? seen.reverse
    match site with
    | .content => return { s with mode := .content 0, text := r :: s.text }
    | .value t n q v => return { s with mode := .value t n q (r :: v) }

/-- The character after the mark that starts a tag. -/
def stepLess (s : State) (c : Char) : Option State :=
  if c == '/' then some { s with mode := .endName [] }
  else if c == '!' then some { s with mode := .bang [] }
  else if c == '?' then some { s with mode := .target [] }
  else if isNameStart c then some { s with mode := .tagName [c] }
  else none

/-- What starts with an exclamation mark is told apart by what follows. -/
def stepBang (s : State) (seen : List Char) (c : Char) : Option State :=
  let seen := seen ++ [c]
  if seen == "--".toList then some { s.flush with mode := .comment 0 }
  else if seen == "[CDATA[".toList then
    if s.stack.isEmpty then none else some { s with mode := .cdata 0 }
  else if seen == "DOCTYPE".toList then
    if s.stack.isEmpty && s.root.isNone then some { s with mode := .doctypeHead false } else none
  else if seen.isPrefixOf "--".toList || seen.isPrefixOf "[CDATA[".toList ||
      seen.isPrefixOf "DOCTYPE".toList then some { s with mode := .bang seen }
  else none

def stepComment (s : State) (dashes : Nat) (c : Char) : Option State :=
  match dashes, c with
  | 2, '>' => { s with mode := .content 0 }.add .other
  | 2, _ => none
  | n, '-' => some { s with mode := .comment (n + 1) }
  | _, _ => some { s with mode := .comment 0 }

def stepCdata (s : State) (brackets : Nat) (c : Char) : Option State :=
  match c with
  | '>' =>
    if 2 ≤ brackets then some { s with mode := .content 0, text := s.text.drop 2 }
    else some { s with mode := .cdata 0, text := c :: s.text }
  | ']' => some { s with mode := .cdata (brackets + 1), text := c :: s.text }
  | c => some { s with mode := .cdata 0, text := c :: s.text }

/-- A document type is passed over. -/
def stepDoctype (s : State) (quote : Option Char) (brackets : Nat) (c : Char) : Option State :=
  match quote with
  | some q => some { s with mode := .doctype (if c == q then none else some q) brackets }
  | none =>
    if c == '"' || c == '\'' then some { s with mode := .doctype (some c) brackets }
    else if c == '[' then some { s with mode := .doctype none (brackets + 1) }
    else if c == ']' then some { s with mode := .doctype none (brackets - 1) }
    else if c == '>' && brackets == 0 then some { s with mode := .content 0 }
    else some { s with mode := .doctype none brackets }

/-- A character of the name of an instruction. -/
def stepTarget (s : State) (name : List Char) (c : Char) : Option State :=
  if isNamePart c then some { s with mode := .target (c :: name) }
  else if !isTarget name.reverse then none
  else if isBlank c then some { s.flush with mode := .instruction false }
  else if c == '?' then some { s.flush with mode := .targetEnd }
  else none

/-- A start tag goes on after its name or after an attribute. -/
def stepTag (s : State) (t : Tag) (blank : Bool) (c : Char) : Option State :=
  if isBlank c then some { s with mode := .tag t true }
  else if c == '>' then s.flush.start t false
  else if c == '/' then some { s with mode := .slash t }
  else if blank && isNameStart c then some { s with mode := .attributeName t [c] }
  else none

def stepAttributeName (s : State) (t : Tag) (name : List Char) (c : Char) : Option State :=
  if isNamePart c || c == ':' then some { s with mode := .attributeName t (c :: name) }
  else if c == '=' then some { s with mode := .quote t name }
  else if isBlank c then some { s with mode := .equals t name }
  else none

def stepValue (s : State) (t : Tag) (name : List Char) (q : Char) (value : List Char)
    (c : Char) : Option State :=
  if c == q then
    let t := { t with attributes := (name.reverse, String.ofList value.reverse) :: t.attributes }
    some { s with mode := .tag t false }
  else if c == '<' then none
  else if c == '&' then some { s with mode := .reference (.value t name q value) [] }
  else some { s with mode := .value t name q (spaced c :: value) }

/-- The end of an end tag, which has to name the innermost element. -/
def State.endTag (s : State) (name : List Char) : Option State :=
  match s.stack with
  | o :: _ => if o.tag == name.reverse then { s with mode := .content 0 }.close else none
  | [] => none

/-- Reads one character. -/
def State.step (s : State) (c : Char) : Option State :=
  match s.mode with
  | .content n => stepContent s n c
  | .reference site seen => stepReference s site seen c
  | .less => stepLess s c
  | .bang seen => stepBang s seen c
  | .comment n => stepComment s n c
  | .cdata n => stepCdata s n c
  | .doctypeHead blank =>
    if isBlank c then some { s with mode := .doctypeHead true }
    else if blank && isNameStart c then some { s with mode := .doctype none 0 }
    else none
  | .doctype q n => stepDoctype s q n c
  | .target name => stepTarget s name c
  | .targetEnd => if c == '>' then { s with mode := .content 0 }.add .other else none
  | .instruction question =>
    if question && c == '>' then { s with mode := .content 0 }.add .other
    else some { s with mode := .instruction (c == '?') }
  | .tagName name =>
    if isNamePart c || c == ':' then some { s with mode := .tagName (c :: name) }
    else stepTag s ⟨name, []⟩ false c
  | .tag t blank => stepTag s t blank c
  | .attributeName t name => stepAttributeName s t name c
  | .equals t name =>
    if c == '=' then some { s with mode := .quote t name }
    else if isBlank c then some s
    else none
  | .quote t name =>
    if c == '"' || c == '\'' then some { s with mode := .value t name c [] }
    else if isBlank c then some s
    else none
  | .value t name q value => stepValue s t name q value c
  | .slash t => if c == '>' then s.flush.start t true else none
  | .endName name =>
    if isNamePart c || c == ':' then some { s with mode := .endName (c :: name) }
    else if c == '>' then s.endTag name
    else if isBlank c then some { s with mode := .endSpace name }
    else none
  | .endSpace name =>
    if c == '>' then s.endTag name
    else if isBlank c then some s
    else none

def State.initial : State := ⟨.content 0, [], [], none⟩

/-- The root element, if the document is complete. -/
def State.finish (s : State) : Option Node :=
  match s.mode, s.stack with
  | .content _, [] => s.root
  | _, _ => none

/-- The root element of a document without a declaration. -/
def readBody (cs : List Char) : Option Node := do
  guard (cs.all fun c => isAllowed c.toNat)
  ((← (Text.unifyLines cs).foldlM State.step State.initial)).finish

end Statechart.Xml
