import Statechart.Text.Blank
import Statechart.Text.Word
import Statechart.Token.Basic

/-!
The parts of a transition label: event, condition in brackets, condition action in braces and
transition action after a slash, each of which may be absent. Brackets and braces inside a
part have to be nested, and a part keeps every character between its own ends.
-/

namespace Statechart.Label

structure Parts where
  event : Option String
  condition : Option String
  conditionAction : Option String
  transitionAction : Option String
  deriving Repr, DecidableEq

namespace Parts

/-- What opens and closes in pairs. -/
inductive Pair where
  | bracket
  | brace
  deriving Repr, DecidableEq

/-- The tokens of a transition label. -/
inductive Mark where
  | word
  | newline
  | space
  | other
  | opening (p : Pair)
  | closing (p : Pair)
  | slash
  deriving Repr, DecidableEq

/-- The name of a mark as a kind of token. -/
def Mark.label : Mark → String
  | word => "AL_NUM"
  | newline => "NEWLINE"
  | space => "WHITESPACE"
  | other => "OTHER"
  | opening .bracket => "OPEN_BRACKET"
  | closing .bracket => "CLOSE_BRACKET"
  | opening .brace => "\x7b"
  | closing .brace => "\x7d"
  | slash => "/"

/-- Blanks within a line. -/
def isSpace (c : Char) : Bool := c == ' ' || c == '\t' || c == '\r' || c == '\x0c' || c == '\x0b'

def isDelimiter (c : Char) : Bool :=
  c == '[' || c == ']' || c == '\x7b' || c == '\x7d' || c == '/'

def isOther (c : Char) : Bool := !(Text.isBlank c || Text.isWord c || isDelimiter c)

def lexer : Lexer Mark where
  skipped _ := false
  rules :=
    [⟨.run (· == '\n') (· == '\n'), fun _ => some .newline, true⟩,
     ⟨.run isOther isOther, fun _ => some .other, false⟩,
     ⟨.run isSpace isSpace, fun _ => some .space, false⟩,
     ⟨.run Text.isWord Text.isWord, fun _ => some .word, false⟩,
     ⟨.spelled [['[']], fun _ => some (.opening .bracket), false⟩,
     ⟨.spelled [[']']], fun _ => some (.closing .bracket), false⟩]
  literal?
    | '\x7b' => some (.opening .brace)
    | '\x7d' => some (.closing .brace)
    | '/' => some .slash
    | _ => none

/-- The text of a part so far and the pairs that are open in it, innermost first. -/
structure Nested where
  text : String
  pairs : List Pair
  deriving Repr, DecidableEq

/-- The answer of a part to a token: it takes it, it ends there, or neither can be. -/
inductive Growth where
  | more (n : Nested)
  | closed (p : Pair)
  | stuck
  deriving Repr, DecidableEq

def Nested.grow (n : Nested) (k : Mark) (text : String) : Growth :=
  match k, n.pairs with
  | .opening p, ps => .more ⟨n.text ++ text, p :: ps⟩
  | .closing p, [] => .closed p
  | .closing p, q :: ps => if p = q then .more ⟨n.text ++ text, ps⟩ else .stuck
  | _, ps => .more ⟨n.text ++ text, ps⟩

/-- Where the reading of a transition label stands. -/
inductive Position where
  | outset
  | afterEvent
  | condition (n : Nested)
  | afterCondition
  | conditionAction (n : Nested)
  | afterAction
  | transitionAction (n : Nested)
  /-- After the condition comes text without braces, of which nothing has been read beyond
  its first token. -/
  | bareStart
  | bare (n : Nested)
  deriving Repr, DecidableEq

structure State where
  parts : Parts
  position : Position
  deriving Repr, DecidableEq

def blankNested : Nested := ⟨"", []⟩

/-- A braced or slashed part starts; `none` if the token starts neither. -/
def startAction? : Mark → Option Position
  | .opening .brace => some (.conditionAction blankNested)
  | .slash => some (.transitionAction blankNested)
  | _ => none

/-- A part in brackets, braces or after a slash starts; `none` if the token starts none. -/
def startPart? : Mark → Option Position
  | .opening .bracket => some (.condition blankNested)
  | k => startAction? k

/-- The state after a token; `none` if it cannot stand there. -/
def State.next (s : State) (k : Mark) (text : String) : Except Fault (Option State) :=
  let go (p : Position) : Option State := some ⟨s.parts, p⟩
  match s.position with
  | .outset =>
    .ok <| match k with
      | .space | .newline => some s
      | .word => some ⟨{ s.parts with event := some text }, .afterEvent⟩
      | _ => (startPart? k).bind go
  | .afterEvent =>
    .ok <| match k with
      | .space | .newline => some s
      | _ => (startPart? k).bind go
  | .condition n =>
    .ok <| match n.grow k text with
      | .more n => go (.condition n)
      | .closed .bracket => some ⟨{ s.parts with condition := some n.text }, .afterCondition⟩
      | _ => none
  | .afterCondition =>
    .ok <| match k with
      | .space | .newline => some s
      | .word | .other => go .bareStart
      | _ => (startAction? k).bind go
  | .conditionAction n =>
    .ok <| match n.grow k text with
      | .more n => go (.conditionAction n)
      | .closed .brace => some ⟨{ s.parts with conditionAction := some n.text }, .afterAction⟩
      | _ => none
  | .afterAction =>
    .ok <| match k with
      | .space | .newline => some s
      | .slash => go (.transitionAction blankNested)
      | _ => none
  | .transitionAction n =>
    .ok <| match n.grow k text with
      | .more n => go (.transitionAction n)
      | _ => none
  | .bareStart =>
    .ok <| match blankNested.grow k text with
      | .more n => go (.bare n)
      | _ => none
  | .bare n =>
    match n.grow k text with
    | .more n => .ok (go (.bare n))
    | .closed _ => .error (.unsupported .bareConditionAction)
    | .stuck => .ok none

def step (s : State) (t : Token Mark) : Except Fault State := do
  match ← s.next t.kind t.text with
  | some s => return s
  | none => throw (.unexpected t.line t.kind.label)

def finish (s : State) : Except Fault Parts :=
  match s.position with
  | .outset | .afterEvent | .afterCondition | .afterAction => .ok s.parts
  | .transitionAction ⟨text, []⟩ => .ok { s.parts with transitionAction := some text }
  | .bareStart | .bare ⟨_, []⟩ => .error (.unsupported .bareConditionAction)
  | _ => .error .unfinished

def reader : Reader Mark State Parts := ⟨⟨⟨none, none, none, none⟩, .outset⟩, step, finish⟩

/-- The parts of a transition label whose first line has the given number. -/
def read (line : Nat) (text : String) : Except Fault Parts × Nat :=
  reader.run (lexer.scan line text.toList)

end Parts

end Statechart.Label
