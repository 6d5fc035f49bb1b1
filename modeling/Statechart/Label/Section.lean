import Statechart.Text.Blank
import Statechart.Text.Word
import Statechart.Token.Basic

/-!
The body of a state label: sections, each a heading closed by a colon and then action text up
to the next heading. Reading keeps the action text of a section character by character.
-/

namespace Statechart.Label

/-- The words that head entry, during and exit actions. -/
inductive ActionWord where
  | en | du | ex | entry | during | exit
  deriving Repr, DecidableEq

inductive Temporal where
  | after | upon | before | every
  deriving Repr, DecidableEq

inductive Keyword where
  | action (word : ActionWord)
  | bind
  | on
  | temporal (word : Temporal)
  deriving Repr, DecidableEq

def ActionWord.spelling : ActionWord → String
  | en => "en"
  | du => "du"
  | ex => "ex"
  | entry => "entry"
  | during => "during"
  | exit => "exit"

def Temporal.spelling : Temporal → String
  | after => "after"
  | upon => "at"
  | before => "before"
  | every => "every"

namespace Keyword

def all : List Keyword :=
  [action .en, action .du, action .ex, action .entry, action .during, action .exit, bind, on,
   temporal .after, temporal .upon, temporal .before, temporal .every]

def spelling : Keyword → String
  | action w => w.spelling
  | bind => "bind"
  | on => "on"
  | temporal w => w.spelling

def ofSpelling? (s : String) : Option Keyword := all.find? (·.spelling == s)

/-- The name of the word as a kind of token. -/
def label : Keyword → String
  | action .en => "EN"
  | action .du => "DU"
  | action .ex => "EX"
  | action .entry => "ENTRY"
  | action .during => "DURING"
  | action .exit => "EXIT"
  | bind => "BIND"
  | on => "ON"
  | temporal .after => "AFTER"
  | temporal .upon => "AT"
  | temporal .before => "BEFORE"
  | temporal .every => "EVERY"

end Keyword

/-- The event of an `on` heading: a word, or a temporal operator on one. -/
inductive Event where
  | named (event : String)
  | temporal (word : Temporal) (count event : String)
  deriving Repr, DecidableEq

inductive Heading where
  | actions (words : List ActionWord)
  | bind
  | on (event : Event)
  deriving Repr, DecidableEq

structure Section where
  heading : Heading
  body : String
  deriving Repr, DecidableEq

namespace Section

/-- The tokens of a label body. -/
inductive Mark where
  | word
  | keyword (k : Keyword)
  | newline
  | space
  | other
  | comma | semicolon | colon | leftParen | rightParen
  deriving Repr, DecidableEq

/-- The name of a mark as a kind of token. -/
def Mark.label : Mark → String
  | word => "AL_NUM"
  | keyword k => k.label
  | newline => "NEWLINE"
  | space => "WHITESPACE"
  | other => "OTHER"
  | comma => ","
  | semicolon => ";"
  | colon => ":"
  | leftParen => "("
  | rightParen => ")"

def Mark.ofChar? : Char → Option Mark
  | ',' => some comma
  | ';' => some semicolon
  | ':' => some colon
  | '(' => some leftParen
  | ')' => some rightParen
  | _ => none

/-- Blanks within a line. -/
def isSpace (c : Char) : Bool := c == ' ' || c == '\t' || c == '\r' || c == '\x0c' || c == '\x0b'

def isOther (c : Char) : Bool := !(Text.isBlank c || Text.isWord c || (Mark.ofChar? c).isSome)

def wordMark (s : String) : Mark :=
  match Keyword.ofSpelling? s with
  | some k => .keyword k
  | none => .word

def lexer : Lexer Mark where
  skipped _ := false
  rules :=
    [⟨.run Text.isWord Text.isWord, fun s => some (wordMark s), false⟩,
     ⟨.run (· == '\n') (· == '\n'), fun _ => some .newline, true⟩,
     ⟨.run isOther isOther, fun _ => some .other, false⟩,
     ⟨.run isSpace isSpace, fun _ => some .space, false⟩]
  literal? := Mark.ofChar?

/-- Where the reading of a label body stands. -/
inductive Position where
  /-- Before the first heading. -/
  | outset
  /-- After words of a heading, which may go on or end. -/
  | afterWord (words : List ActionWord)
  /-- After a separator in a heading: another word has to come. -/
  | nextWord (words : List ActionWord)
  /-- The colon of a complete heading has to come. -/
  | close (h : Heading)
  /-- The event of an `on` heading has to come. -/
  | event
  | temporal (w : Temporal)
  | temporalCount (w : Temporal)
  | temporalComma (w : Temporal) (count : String)
  | temporalEvent (w : Temporal) (count : String)
  | temporalClose (w : Temporal) (count event : String)
  /-- Directly after the colon of a heading. -/
  | start (h : Heading)
  | body (h : Heading) (text : String)
  deriving Repr, DecidableEq

structure State where
  sections : List Section
  position : Position
  deriving Repr, DecidableEq

/-- A keyword that starts a heading. -/
def Position.ofKeyword? : Keyword → Option Position
  | .action w => some (.afterWord [w])
  | .bind => some (.close .bind)
  | .on => some .event
  | .temporal _ => none

/-- The position after a token, outside of bodies; `none` if it cannot stand there. White
space may stand between most tokens of a heading. -/
def Position.next (p : Position) (k : Mark) (text : String) : Option Position :=
  match p, k with
  | .temporal w, .leftParen => some (.temporalCount w)
  | .temporal _, _ => none
  | .start _, .keyword _ => none
  | .start h, _ => some (.body h text)
  | p, .space | p, .newline => some p
  | .outset, .keyword k => Position.ofKeyword? k
  | .afterWord ws, .comma | .afterWord ws, .semicolon => some (.nextWord ws)
  | .afterWord ws, .colon => some (.start (.actions ws))
  | .nextWord ws, .keyword (.action w) => some (.afterWord (ws ++ [w]))
  | .close h, .colon => some (.start h)
  | .event, .word => some (.close (.on (.named text)))
  | .event, .keyword (.temporal w) => some (.temporal w)
  | .temporalCount w, .word => some (.temporalComma w text)
  | .temporalComma w n, .comma => some (.temporalEvent w n)
  | .temporalEvent w n, .word => some (.temporalClose w n text)
  | .temporalClose w n e, .rightParen => some (.close (.on (.temporal w n e)))
  | _, _ => none

/-- The state after a token; `none` if it cannot stand there. -/
def State.next (s : State) (k : Mark) (text : String) : Option State :=
  match s.position, k with
  | .body h body, .keyword k =>
    (Position.ofKeyword? k).map fun p => ⟨s.sections ++ [⟨h, body⟩], p⟩
  | .body h body, _ => some ⟨s.sections, .body h (body ++ text)⟩
  | p, k => (p.next k text).map (⟨s.sections, ·⟩)

def step (s : State) (t : Token Mark) : Except Fault State :=
  match s.next t.kind t.text with
  | some s => .ok s
  | none => .error (.unexpected t.line t.kind.label)

def finish (s : State) : Except Fault (List Section) :=
  match s.position with
  | .outset => .ok s.sections
  | .body h body => .ok (s.sections ++ [⟨h, body⟩])
  | _ => .error .unfinished

def reader : Reader Mark State (List Section) := ⟨⟨[], .outset⟩, step, finish⟩

/-- The sections of a label body whose first line has the given number. -/
def read (line : Nat) (text : String) : Except Fault (List Section) × Nat :=
  reader.run (lexer.scan line text.toList)

end Section

end Statechart.Label
