/-!
Lines of a text and places of one text in another.
-/

namespace Statechart.Text

/-- Line ends of all kinds become one character. -/
def unifyLines (cs : List Char) : List Char :=
  (cs.foldl (fun (acc : List Char × Bool) c =>
    if c == '\r' then ('\n' :: acc.1, true)
    else if c == '\n' && acc.2 then (acc.1, false)
    else (c :: acc.1, false)) ([], false)).1.reverse

/-- The lines of a text, each with its end, where `line` is the one being read, last character
first. -/
def linesFrom (line : List Char) : List Char → List (List Char)
  | [] => if line.isEmpty then [] else [line.reverse]
  | '\n' :: cs => ('\n' :: line).reverse :: linesFrom [] cs
  | c :: cs => linesFrom (c :: line) cs

/-- The lines of a text, each with its end. -/
def lines (cs : List Char) : List (List Char) := linesFrom [] cs

/-- What stands in front of the first place of `part`. -/
def before? (part : List Char) : List Char → Option (List Char)
  | [] => if part.isEmpty then some [] else none
  | c :: cs => if part.isPrefixOf (c :: cs) then some [] else (before? part cs).map (c :: ·)

/-- What stands in front of the last place of `part`. -/
def beforeLast? (part : List Char) : List Char → Option (List Char)
  | [] => if part.isEmpty then some [] else none
  | c :: cs =>
    match beforeLast? part cs with
    | some s => some (c :: s)
    | none => if part.isPrefixOf (c :: cs) then some [] else none

end Statechart.Text
