import Statechart.Expr.Operator
import Statechart.Token.Basic

/-!
The tokens of conditions and actions. Both languages share one alphabet, and conditions use
a part of it.
-/

namespace Statechart

/-- The words that make up the type of a declaration. -/
inductive TypeWord where
  | const | bool | char | int | long | short | signed | unsigned
  | int8 | int16 | int32 | uint8 | uint16 | uint32
  deriving Repr, DecidableEq

namespace TypeWord

def all : List TypeWord :=
  [const, bool, char, int, long, short, signed, unsigned, int8, int16, int32, uint8, uint16,
   uint32]

def spelling : TypeWord → String
  | const => "const"
  | bool => "bool"
  | char => "char"
  | int => "int"
  | long => "long"
  | short => "short"
  | signed => "signed"
  | unsigned => "unsigned"
  | int8 => "int8"
  | int16 => "int16"
  | int32 => "int32"
  | uint8 => "uint8"
  | uint16 => "uint16"
  | uint32 => "uint32"

/-- The name of the word as a kind of token. -/
def label : TypeWord → String
  | const => "CONST"
  | bool => "BOOL"
  | char => "CHAR"
  | int => "INT"
  | long => "LONG"
  | short => "SHORT"
  | signed => "SIGNED"
  | unsigned => "UNSIGNED"
  | int8 => "INT8"
  | int16 => "INT16"
  | int32 => "INT32"
  | uint8 => "UINT8"
  | uint16 => "UINT16"
  | uint32 => "UINT32"

def ofSpelling? (s : String) : Option TypeWord := all.find? (·.spelling == s)

end TypeWord

inductive Symbol where
  | identifier
  | number
  | newline
  | typeWord (word : TypeWord)
  | leftBracket | rightBracket
  | leftBrace | rightBrace
  | leftParen | rightParen
  | binary (op : BinaryOp)
  | not
  | complement
  | assign (op : AssignOp)
  /-- An equals sign at the very front of a text. -/
  | leadingEquals
  | step (op : StepOp)
  | comma | semicolon | colon | question | atSign
  deriving Repr, DecidableEq

namespace Symbol

def binaryLabel : BinaryOp → String
  | .or => "OR_OP"
  | .and => "AND_OP"
  | .eq => "EQ_OP"
  | .ne => "NE_OP"
  | .le => "LE_OP"
  | .ge => "GE_OP"
  | .shiftLeft => "LEFT_OP"
  | .shiftRight => "RIGHT_OP"
  | op => op.spelling

def updateLabel : UpdateOp → String
  | .mul => "MUL_ASSIGN"
  | .div => "DIV_ASSIGN"
  | .mod => "MOD_ASSIGN"
  | .add => "ADD_ASSIGN"
  | .sub => "SUB_ASSIGN"
  | .shiftLeft => "LEFT_ASSIGN"
  | .shiftRight => "RIGHT_ASSIGN"
  | .bitAnd => "AND_ASSIGN"
  | .bitOr => "OR_ASSIGN"

/-- The name of a symbol as a kind of token. -/
def label : Symbol → String
  | identifier => "IDENTIFIER"
  | number => "NUMBER"
  | newline => "NEWLINE"
  | typeWord w => w.label
  | leftBracket => "LBRACKET"
  | rightBracket => "RBRACKET"
  | leftBrace => "LBRACE"
  | rightBrace => "RBRACE"
  | leftParen => "("
  | rightParen => ")"
  | binary op => binaryLabel op
  | not => "!"
  | complement => "~"
  | assign .store => "="
  | assign .colonStore => "COLON_ASSIGN"
  | assign (.update op) => updateLabel op
  | leadingEquals => "XOR_ASSIGN"
  | step .up => "INC_OP"
  | step .down => "DEC_OP"
  | comma => ","
  | semicolon => ";"
  | colon => ":"
  | question => "?"
  | atSign => "@"

/-- Blanks that may stand between the tokens of one line. -/
def isSpace (c : Char) : Bool := c == ' ' || c == '\t' || c == '\r' || c == '\x0c' || c == '\x0b'

def isNameStart (c : Char) : Bool := c.isAlpha || c == '_'

def isNamePart (c : Char) : Bool := c.isAlphanum || c == '_'

/-- Tokens of a single character in both languages. -/
def ofChar? : Char → Option Symbol
  | ';' => some semicolon
  | ',' => some comma
  | ':' => some colon
  | '=' => some (assign .store)
  | '(' => some leftParen
  | ')' => some rightParen
  | '&' => some (binary .bitAnd)
  | '!' => some not
  | '~' => some complement
  | '-' => some (binary .sub)
  | '+' => some (binary .add)
  | '*' => some (binary .mul)
  | '/' => some (binary .div)
  | '%' => some (binary .mod)
  | '<' => some (binary .lt)
  | '>' => some (binary .gt)
  | '^' => some (binary .bitXor)
  | '|' => some (binary .bitOr)
  | '?' => some question
  | _ => none

/-! ## Rules that both languages have -/

def spelledRule (options : List String) (k : Symbol) : Rule Symbol :=
  ⟨.spelled (options.map String.toList), fun _ => some k, false⟩

def commentRule : Rule Symbol := ⟨.comment, fun _ => none, false⟩

def nameRule (kind : String → Symbol) : Rule Symbol :=
  ⟨.run isNameStart isNamePart, fun s => some (kind s), false⟩

def numberRule : Rule Symbol := ⟨.run Char.isDigit Char.isDigit, fun _ => some number, false⟩

def leftBracketRule : Rule Symbol := spelledRule ["[", "<:"] leftBracket

def rightBracketRule : Rule Symbol := spelledRule ["]", ":>"] rightBracket

end Symbol

end Statechart
