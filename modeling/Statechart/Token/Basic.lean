import Statechart.Fault

/-!
Tokens and how texts are cut into them. A lexer is a list of rules, and at each place the
first rule that matches wins, not the longest match. `Lexer.scan` cuts a whole text at once:
what it could not cut is kept in the tail, because a reader may fail before it gets there.
-/

namespace Statechart

structure Token (κ : Type) where
  kind : κ
  text : String
  /-- The line counter in front of the token. -/
  line : Nat
  /-- The number of characters in front of the token. -/
  offset : Nat
  /-- The line counter behind the token. -/
  next : Nat
  deriving Repr, DecidableEq

/-- What follows the last token: the end of the text, or text that no rule matches. -/
inductive Tail where
  | complete (line : Nat)
  | unknown (rest : List Char) (line : Nat)
  deriving Repr, DecidableEq

structure Scan (κ : Type) where
  tokens : List (Token κ)
  tail : Tail
  deriving Repr, DecidableEq

/-- Puts a token in front. -/
def Scan.cons {κ : Type} (t : Token κ) (s : Scan κ) : Scan κ := ⟨t :: s.tokens, s.tail⟩

/-- The shapes that rules look for at the front of a text. -/
inductive Pattern where
  /-- A run of characters, the first of its own class. -/
  | run (first rest : Char → Bool)
  /-- One of several spellings, the first that fits. -/
  | spelled (options : List (List Char))
  /-- A comment to the end of the line, or one between its two marks. -/
  | comment

namespace Pattern

/-- The length of a comment's text up to and with its closing mark. -/
def closing? : List Char → Option Nat
  | '*' :: '/' :: _ => some 2
  | _ :: cs => (closing? cs).map (· + 1)
  | [] => none

/-- How many characters the pattern takes at the front; none if it does not match. -/
def size : Pattern → List Char → Nat
  | run _ _, [] => 0
  | run first rest, c :: cs => if first c then 1 + (cs.takeWhile rest).length else 0
  | spelled options, cs => ((options.find? (·.isPrefixOf cs)).map List.length).getD 0
  | comment, '/' :: '/' :: cs => 2 + (cs.takeWhile (· != '\n')).length
  | comment, '/' :: '*' :: cs => ((closing? cs).map (· + 2)).getD 0
  | comment, _ => 0

end Pattern

/-- A pattern with the kind of token that a match becomes, if it is kept. -/
structure Rule (κ : Type) where
  pattern : Pattern
  kind? : String → Option κ
  /-- Whether the characters of a match are line ends to count. -/
  countsLines : Bool := false

structure Lexer (κ : Type) where
  /-- Single characters that are passed over between tokens. -/
  skipped : Char → Bool
  rules : List (Rule κ)
  /-- Single characters that are tokens where no rule matches. -/
  literal? : Char → Option κ

namespace Lexer

variable {κ : Type}

/-- A match at the front of a text: what it becomes, its text, the line ends that it counts. -/
structure Match (κ : Type) where
  kind? : Option κ
  text : List Char
  lines : Nat

/-- The first rule that matches, else a literal character. -/
def match? (lx : Lexer κ) (cs : List Char) : Option (Match κ) :=
  let byRule := lx.rules.findSome? fun r =>
    match r.pattern.size cs with
    | 0 => none
    | n => some ⟨r.kind? (String.ofList (cs.take n)), cs.take n, if r.countsLines then n else 0⟩
  byRule.or <| match cs with
    | [] => none
    | c :: _ => (lx.literal? c).map fun k => ⟨some k, [c], 0⟩

/-- Cuts a text. The first `skip` characters belong to a match that was already taken. -/
def scanFrom (lx : Lexer κ) : Nat → Nat → Nat → List Char → Scan κ
  | _, line, _, [] => ⟨[], .complete line⟩
  | skip + 1, line, offset, _ :: cs => lx.scanFrom skip line (offset + 1) cs
  | 0, line, offset, c :: cs =>
    if lx.skipped c then lx.scanFrom 0 line (offset + 1) cs
    else
      match lx.match? (c :: cs) with
      | none => ⟨[], .unknown (c :: cs) line⟩
      | some m =>
        let rest := lx.scanFrom (m.text.length - 1) (line + m.lines) (offset + 1) cs
        match m.kind? with
        | none => rest
        | some k => rest.cons ⟨k, String.ofList m.text, line, offset, line + m.lines⟩

/-- Cuts a text whose first line has the given number. -/
def scan (lx : Lexer κ) (line : Nat) (text : List Char) : Scan κ := lx.scanFrom 0 line 0 text

end Lexer

/-- Reads tokens one at a time. A step may fail at the token it is given. -/
structure Reader (κ σ α : Type) where
  start : σ
  step : σ → Token κ → Except Fault σ
  finish : σ → Except Fault α

namespace Reader

variable {κ σ α : Type}

/-- Reads tokens from a state on. The second part of the answer is the line counter where the
reading ended. -/
def runFrom (r : Reader κ σ α) : σ → List (Token κ) → Tail → Except Fault α × Nat
  | s, [], .complete line => (r.finish s, line)
  | _, [], .unknown rest line => (.error (.unknownText (String.ofList rest)), line)
  | s, t :: ts, tail =>
    match r.step s t with
    | .error f => (.error f, t.next)
    | .ok s' => r.runFrom s' ts tail

def run (r : Reader κ σ α) (scan : Scan κ) : Except Fault α × Nat :=
  r.runFrom r.start scan.tokens scan.tail

end Reader

end Statechart
