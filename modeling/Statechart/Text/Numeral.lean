import Statechart.Text.Blank

/-!
Whole numerals: a sign and decimal digits of any script, with single underscores allowed
between digits and blanks allowed around. Main function: `readInt`.
-/

namespace Statechart.Text

/-- The code points of the digit zero; the nine others follow each of them. -/
def digitZeros : List Nat :=
  [48, 1632, 1776, 1984, 2406, 2534, 2662, 2790, 2918, 3046, 3174, 3302, 3430, 3558, 3664, 3792,
   3872, 4160, 4240, 6112, 6160, 6470, 6608, 6784, 6800, 6992, 7088, 7232, 7248, 42528, 43216,
   43264, 43472, 43504, 43600, 44016, 65296, 66720, 68912, 69734, 69872, 69942, 70096, 70384,
   70736, 70864, 71248, 71360, 71472, 71904, 72016, 72784, 73040, 73120, 92768, 92864, 93008,
   120782, 120792, 120802, 120812, 120822, 123200, 123632, 125264, 130032]

/-- The value of a decimal digit of any script. -/
def digitValue? (c : Char) : Option Nat :=
  (digitZeros.find? fun z => z ≤ c.toNat && c.toNat ≤ z + 9).map (c.toNat - ·)

/-- The value of digits that follow a digit, where `acc` is the value read so far. An
underscore has to stand between two digits. -/
def digitsFrom (acc : Nat) : List Char → Option Nat
  | [] => some acc
  | ['_'] => none
  | '_' :: d :: cs => (digitValue? d).bind fun v => digitsFrom (acc * 10 + v) cs
  | c :: cs => (digitValue? c).bind fun v => digitsFrom (acc * 10 + v) cs

/-- The value of a run of digits, which is not empty. -/
def digits? : List Char → Option Nat
  | [] => none
  | c :: cs => (digitValue? c).bind fun v => digitsFrom v cs

/-- What may stand around a numeral: blanks that are not separating controls. -/
def isMargin (c : Char) : Bool := isBlank c && !(28 ≤ c.toNat && c.toNat ≤ 31)

/-- A longer numeral is refused. -/
def maxDigits : Nat := 4300

/-- The integer that a text spells, if it spells one. -/
def readInt (s : String) : Option Int :=
  let cs := trimBy isMargin s.toList
  if maxDigits < (cs.filter fun c => (digitValue? c).isSome).length then none
  else
    match cs with
    | '-' :: ds => (digits? ds).map fun n => - (n : Int)
    | '+' :: ds => (digits? ds).map Int.ofNat
    | ds => (digits? ds).map Int.ofNat

end Statechart.Text
