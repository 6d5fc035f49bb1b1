/-!
The characters of documents and of the names in them.
-/

namespace Statechart.Xml

def inRanges (ranges : List (Nat × Nat)) (n : Nat) : Bool :=
  ranges.any fun r => r.1 ≤ n && n ≤ r.2

/-- The characters that a document may hold. -/
def isAllowed (n : Nat) : Bool :=
  n == 9 || n == 10 || n == 13 || inRanges [(0x20, 0xD7FF), (0xE000, 0xFFFD), (0x10000, 0x10FFFF)] n

def isBlank (c : Char) : Bool := c == ' ' || c == '\t' || c == '\n' || c == '\r'

/-- Characters beyond the first 128 that may start a name. -/
def nameStartRanges : List (Nat × Nat) :=
  [(0xC0, 0xD6), (0xD8, 0xF6), (0xF8, 0x2FF), (0x370, 0x37D), (0x37F, 0x1FFF), (0x200C, 0x200D),
   (0x2070, 0x218F), (0x2C00, 0x2FEF), (0x3001, 0xD7FF), (0xF900, 0xFDCF), (0xFDF0, 0xFFFD),
   (0x10000, 0xEFFFF)]

/-- A colon is not among them: it divides a name. -/
def isNameStart (c : Char) : Bool :=
  c.isAlpha || c == '_' || (c.toNat ≥ 128 && inRanges nameStartRanges c.toNat)

def isNamePart (c : Char) : Bool :=
  isNameStart c || c.isDigit || c == '-' || c == '.' || c.toNat == 0xB7 ||
    inRanges [(0x300, 0x36F), (0x203F, 0x2040)] c.toNat

/-- A name without a colon. -/
def isSimpleName : List Char → Bool
  | [] => false
  | c :: cs => isNameStart c && cs.all isNamePart

end Statechart.Xml
