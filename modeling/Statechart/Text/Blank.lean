/-!
Blank characters: white space of every script and the separators among the control
characters. Trimming and splitting at blanks go by this class.
-/

namespace Statechart.Text

/-- White space of any script. The controls 28 to 31 separate, so they are blank too. -/
def isBlank (c : Char) : Bool :=
  let n := c.toNat
  (9 ≤ n && n ≤ 13) || (28 ≤ n && n ≤ 32) || n == 133 || n == 160 || n == 5760 ||
    (8192 ≤ n && n ≤ 8202) || n == 8232 || n == 8233 || n == 8239 || n == 8287 || n == 12288

/-- The list without the ends that satisfy `p`. -/
def trimBy (p : Char → Bool) (cs : List Char) : List Char :=
  ((cs.dropWhile p).reverse.dropWhile p).reverse

/-- The list without its blank ends. -/
def trim (cs : List Char) : List Char := trimBy isBlank cs

/-- A string without its blank ends. -/
def trimmed (s : String) : String := String.ofList (trim s.toList)

/-- Whether a string holds nothing but blanks. -/
def isBlankText (s : String) : Bool := s.toList.all isBlank

/-- The maximal runs of characters that are not blank, where `run` is the one being read,
last character first. -/
def wordsFrom (run : List Char) : List Char → List String
  | [] => if run.isEmpty then [] else [String.ofList run.reverse]
  | c :: cs =>
    if isBlank c then
      if run.isEmpty then wordsFrom [] cs else String.ofList run.reverse :: wordsFrom [] cs
    else wordsFrom (c :: run) cs

/-- The maximal runs of characters that are not blank. -/
def words (s : String) : List String := wordsFrom [] s.toList

@[simp] theorem trim_nil : trim [] = [] := rfl

end Statechart.Text
