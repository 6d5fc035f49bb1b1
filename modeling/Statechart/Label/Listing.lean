import Statechart.Label.Basic

/-!
The tokens of a text in any of the four languages, for looking at them. Listing moves the line
counter of the language like reading does.
-/

namespace Statechart.Label

inductive Language where
  | action
  | condition
  | state
  | transition
  deriving Repr, DecidableEq

/-- A token with the name of its kind. -/
structure Listed where
  kind : String
  text : String
  line : Nat
  offset : Nat
  deriving Repr, DecidableEq

/-- The tokens of a scan and the line counter at its end. -/
def listed {κ : Type} (label : κ → String) (s : Scan κ) : Except Fault (List Listed) × Nat :=
  match s.tail with
  | .unknown rest line => (.error (.unknownText (String.ofList rest)), line)
  | .complete line => (.ok (s.tokens.map fun t => ⟨label t.kind, t.text, t.line, t.offset⟩), line)

def listTokens (language : Language) (text : String) : Reading (List Listed) := fun lines =>
  let cs := text.toList
  match language with
  | .action =>
    let (r, n) := listed Symbol.label (Action.scan lines.action cs)
    (r, { lines with action := n })
  | .condition =>
    let (r, n) := listed Symbol.label (Condition.lexer.scan lines.condition cs)
    (r, { lines with condition := n })
  | .state =>
    let (r, n) := listed Section.Mark.label (Section.lexer.scan lines.state cs)
    (r, { lines with state := n })
  | .transition =>
    let (r, n) := listed Parts.Mark.label (Parts.lexer.scan lines.transition cs)
    (r, { lines with transition := n })

end Statechart.Label
