import Statechart.Action.Basic
import Statechart.Expr.Reader

/-!
Reading action texts token by token. The position says what is being read, and the items read
so far are kept beside it together with the number of open blocks. Declarations have a reader
of their own, `Drafting`, which starts after the type words.
-/

namespace Statechart.Action

/-- The kind of token that a word is. -/
def wordKind (s : String) : Symbol :=
  match TypeWord.ofSpelling? s with
  | some w => .typeWord w
  | none => .identifier

def lexer : Lexer Symbol where
  skipped := Symbol.isSpace
  rules :=
    [Symbol.nameRule wordKind,
     ⟨.spelled [['\n']], fun _ => some .newline, true⟩,
     Symbol.commentRule,
     Symbol.leftBracketRule,
     Symbol.rightBracketRule,
     Symbol.spelledRule ["\x7b", "<%"] .leftBrace,
     Symbol.spelledRule ["\x7d", "%>"] .rightBrace,
     Symbol.numberRule,
     Symbol.spelledRule ["++"] (.step .up),
     Symbol.spelledRule ["||"] (.binary .or),
     Symbol.spelledRule [">>="] (.assign (.update .shiftRight)),
     Symbol.spelledRule ["<<="] (.assign (.update .shiftLeft)),
     Symbol.spelledRule ["+="] (.assign (.update .add)),
     Symbol.spelledRule ["*="] (.assign (.update .mul)),
     Symbol.spelledRule ["|="] (.assign (.update .bitOr)),
     Symbol.spelledRule [":="] (.assign .colonStore),
     Symbol.spelledRule ["-="] (.assign (.update .sub)),
     Symbol.spelledRule ["/="] (.assign (.update .div)),
     Symbol.spelledRule ["%="] (.assign (.update .mod)),
     Symbol.spelledRule ["&="] (.assign (.update .bitAnd)),
     Symbol.spelledRule [">>"] (.binary .shiftRight),
     Symbol.spelledRule ["<<"] (.binary .shiftLeft),
     Symbol.spelledRule ["--"] (.step .down),
     Symbol.spelledRule ["&&"] (.binary .and),
     Symbol.spelledRule ["<="] (.binary .le),
     Symbol.spelledRule [">="] (.binary .ge),
     Symbol.spelledRule ["=="] (.binary .eq),
     Symbol.spelledRule ["!="] (.binary .ne)]
  literal? c := if c == '@' then some .atSign else Symbol.ofChar? c

/-- The tokens of an action text. An equals sign at its very front is a token of its own. -/
def scan (line : Nat) (text : List Char) : Scan Symbol :=
  match text with
  | '=' :: cs => (lexer.scanFrom 0 line 1 cs).cons ⟨.leadingEquals, "=", line, 0, line⟩
  | cs => lexer.scan line cs

/-- A declaration in the course of reading: its type words, last one first, and the
declarators that are complete. -/
structure Draft where
  words : List TypeWord
  declared : List Declared
  deriving Repr

/-- An open brace of an initializer and the initializers in it that are complete. -/
structure Level where
  opening : String
  items : List Initializer
  deriving Repr

/-- Where the reading of a declaration stands, after its type words. -/
inductive Drafting where
  /-- A declarator has to come, inside `groups` parentheses. -/
  | declarator (draft : Draft) (groups : Nat)
  /-- A declarator has been read, inside `groups` parentheses. -/
  | declared (draft : Draft) (groups : Nat) (d : Declarator)
  /-- The size of a dimension, or its closing bracket, has to come. -/
  | dimension (draft : Draft) (groups : Nat) (d : Declarator) (opening : String)
  | size (draft : Draft) (groups : Nat) (d : Declarator) (opening : String) (e : Expr.Position)
  /-- An initializer has to come. After a comma inside braces `again` is set. -/
  | initializer (draft : Draft) (d : Declarator) (levels : List Level) (again : Bool)
  | value (draft : Draft) (d : Declarator) (levels : List Level) (e : Expr.Position)
  /-- An initializer has been read. -/
  | initialized (draft : Draft) (d : Declarator) (levels : List Level) (i : Initializer)
  deriving Repr

/-- The answer to a token of a declaration. -/
inductive Turn where
  | more (p : Drafting)
  | done (draft : Draft)
  | stuck
  deriving Repr

/-- The token `k` comes after a declarator with its initializer. -/
def settle (draft : Draft) (d : Declared) (k : Symbol) : Turn :=
  let draft := { draft with declared := draft.declared ++ [d] }
  match k with
  | .comma => .more (.declarator draft 0)
  | .semicolon | .newline => .done draft
  | _ => .stuck

/-- The token `k` comes after an initializer. -/
def settleInit (draft : Draft) (d : Declarator) (levels : List Level) (i : Initializer)
    (k : Symbol) (text : String) : Turn :=
  match levels, k with
  | l :: ls, .comma => .more (.initializer draft d (⟨l.opening, l.items ++ [i]⟩ :: ls) true)
  | l :: ls, .rightBrace =>
    .more (.initialized draft d ls (.braces l.opening (l.items ++ [i]) text))
  | _ :: _, _ => .stuck
  | [], _ => settle draft ⟨d, some i⟩ k

/-- Reads one token of a declaration. -/
def Drafting.step (p : Drafting) (k : Symbol) (text : String) : Except Fault Turn :=
  match p with
  | .declarator draft groups =>
    .ok <| match k with
      | .identifier => .more (.declared draft groups (.name text))
      | .leftParen => .more (.declarator draft (groups + 1))
      | _ => .stuck
  | .declared draft groups d =>
    .ok <| match k, groups with
      | .leftBracket, _ => .more (.dimension draft groups d text)
      | .rightParen, g + 1 => .more (.declared draft g (.group d))
      | .assign .store, 0 => .more (.initializer draft d [] false)
      | k, 0 => settle draft ⟨d, none⟩ k
      | _, _ => .stuck
  | .dimension draft groups d o =>
    if k = .rightBracket then .ok (.more (.declared draft groups (.unsized d o text)))
    else
      match Expr.startOperand [] k text with
      | .more e => .ok (.more (.size draft groups d o e))
      | _ => .ok .stuck
  | .size draft groups d o e => do
    match ← e.step .action false k text, k with
    | .more e, _ => return .more (.size draft groups d o e)
    | .done e, .rightBracket => return .more (.declared draft groups (.sized d o e text))
    | _, _ => return .stuck
  | .initializer draft d levels again =>
    if k = .leftBrace then .ok (.more (.initializer draft d (⟨text, []⟩ :: levels) false))
    else if k = .rightBrace && again then .error .danglingComma
    else
      match Expr.startOperand [] k text with
      | .more e => .ok (.more (.value draft d levels e))
      | _ => .ok .stuck
  | .value draft d levels e => do
    match ← e.step .action false k text with
    | .more e => return .more (.value draft d levels e)
    | .done e => return settleInit draft d levels (.value e) k text
    | .stuck => return .stuck
  | .initialized draft d levels i => .ok (settleInit draft d levels i k text)

/-! ## Items -/

inductive Position where
  /-- An item has to come, or the end of the block. -/
  | boundary
  | statement (e : Expr.Position)
  /-- At least one type word has been read, and nothing else of the declaration. -/
  | words (ws : List TypeWord)
  | declaring (p : Drafting)
  /-- A declaration is complete. It is judged when it is clear that an item may follow. -/
  | complete (draft : Draft)
  deriving Repr

structure State where
  /-- The number of open blocks. -/
  depth : Nat
  items : List Item
  position : Position
  deriving Repr

/-- Whether an item can start with the token, or a block end with it. -/
def mayFollowItem : Symbol → Bool
  | .identifier | .number | .newline | .typeWord _ | .leftBrace | .rightBrace | .leftParen
  | .binary .add | .binary .sub | .not | .complement | .step _ | .semicolon => true
  | _ => false

/-- Judges a complete declaration and keeps it. -/
def State.close (s : State) (draft : Draft) : Except Fault State := do
  let (type, const) ← resolve draft.words
  return ⟨s.depth, s.items ++ [.declaration type const draft.declared], .boundary⟩

/-- The token `k` comes between items; `none` if it cannot stand there. -/
def State.startItem (s : State) (k : Symbol) (text : String) : Option State :=
  match k with
  | .semicolon | .newline => some ⟨s.depth, s.items, .boundary⟩
  | .leftBrace => some ⟨s.depth + 1, s.items, .boundary⟩
  | .rightBrace => if s.depth = 0 then none else some ⟨s.depth - 1, s.items, .boundary⟩
  | .typeWord w => some ⟨s.depth, s.items, .words [w]⟩
  | _ =>
    match Expr.startOperand [] k text with
    | .more e => some ⟨s.depth, s.items, .statement e⟩
    | _ => none

/-- One more token; `none` if it cannot stand here. -/
def State.advance (s : State) (k : Symbol) (text : String) : Except Fault (Option State) :=
  match s.position with
  | .boundary => .ok (s.startItem k text)
  | .complete draft =>
    if mayFollowItem k then do
      let s ← s.close draft
      return s.startItem k text
    else .ok none
  | .statement e => do
    match ← e.step .action true k text, k with
    | .more e, _ => return some ⟨s.depth, s.items, .statement e⟩
    | .done e, .semicolon | .done e, .newline =>
      return some ⟨s.depth, s.items ++ [.statement e], .boundary⟩
    | _, _ => return none
  | .words ws =>
    .ok <| match k with
      | .typeWord w => some ⟨s.depth, s.items, .words (w :: ws)⟩
      | .semicolon | .newline => some ⟨s.depth, s.items, .boundary⟩
      | .identifier => some ⟨s.depth, s.items, .declaring (.declared ⟨ws, []⟩ 0 (.name text))⟩
      | .leftParen => some ⟨s.depth, s.items, .declaring (.declarator ⟨ws, []⟩ 1)⟩
      | _ => none
  | .declaring p => do
    match ← p.step k text with
    | .more p => return some ⟨s.depth, s.items, .declaring p⟩
    | .done draft => return some ⟨s.depth, s.items, .complete draft⟩
    | .stuck => return none

def step (s : State) (t : Token Symbol) : Except Fault State := do
  match ← s.advance t.kind t.text with
  | some s => return s
  | none => throw (.unexpected t.line t.kind.label)

/-- The text may end between items, outside all blocks. -/
def finish (s : State) : Except Fault (List Item) := do
  let s ← match s.position with
    | .boundary => pure s
    | .complete draft => s.close draft
    | _ => throw .unfinished
  if s.depth = 0 then return s.items else throw .unfinished

def reader : Reader Symbol State (List Item) := ⟨⟨0, [], .boundary⟩, step, finish⟩

/-- The items of an action text whose first line has the given number. -/
def read (line : Nat) (text : String) : Except Fault (List Item) × Nat :=
  reader.run (scan line text.toList)

/-- The statements of an action text in the words of the output, and the variables after it. -/
def parse (line : Nat) (text owner : String) (vars : Variables) :
    Except Fault (List String × Variables) × Nat :=
  let (r, line) := read line text
  (r.map (elaborate owner vars), line)

end Statechart.Action
