import Statechart.Command.Files
import Statechart.Dve.Process
import Statechart.Text.Numeral

/-!
Command lines. Arguments are first told apart by their looks and then taken from left to right.
Files are opened as their names are met, so a command line that fails later can leave an empty
output file behind.
-/

namespace Statechart.Command

/-! ## Options -/

inductive Flag where
  | help
  | names
  | feed
  | interval
  | alternate
  deriving Repr, DecidableEq

namespace Flag

def all : List Flag := [help, names, feed, interval, alternate]

def letter : Flag → Char
  | help => 'h'
  | names => 'n'
  | feed => 'f'
  | interval => 'i'
  | alternate => 'a'

def word : Flag → String
  | help => "help"
  | names => "state-names"
  | feed => "feed-inputs"
  | interval => "input-values"
  | alternate => "force-alternation"

def takesValue : Flag → Bool
  | names | interval => true
  | help | feed | alternate => false

def ofLetter? (c : Char) : Option Flag := all.find? (·.letter == c)

/-- The flags whose word starts with `cs`. -/
def abbreviated (cs : List Char) : List Flag := all.filter fun f => cs.isPrefixOf f.word.toList

/-- The flags that `cs` can stand for: the one with exactly this word, else all that it
abbreviates. -/
def ofWord (cs : List Char) : List Flag :=
  match all.find? fun f => f.word.toList == cs with
  | some f => [f]
  | none => abbreviated cs

end Flag

/-! ## Telling arguments apart -/

/-- What is written into the same argument after an option. -/
structure Attached where
  /-- Whether an equals sign stands between. -/
  marked : Bool
  text : List Char
  deriving Repr, DecidableEq

inductive Role where
  | operand
  /-- Everything after it is an operand. -/
  | divider
  | option (flag : Flag) (isLong : Bool) (attached : Option Attached)
  | unknownOption
  deriving Repr, DecidableEq

structure Argument where
  text : String
  role : Role
  deriving Repr, DecidableEq

/-- Decimal digits, at least one, and possibly a line end. -/
def areDigits (cs : List Char) : Bool :=
  let ds := if cs.getLast? == some '\n' then cs.dropLast else cs
  !ds.isEmpty && ds.all fun c => (Text.digitValue? c).isSome

/-- Whether the text after a dash makes it a number: digits, or digits behind a point with
digits or nothing in front of it. -/
def isNumber (cs : List Char) : Bool :=
  areDigits cs ||
    let whole := cs.takeWhile (· != '.')
    let isWhole := whole.all fun c => (Text.digitValue? c).isSome
    isWhole && areDigits ((cs.drop whole.length).drop 1)

/-- The text in front of the first equals sign and what it marks off. -/
def splitMark (cs : List Char) : List Char × Option Attached :=
  let front := cs.takeWhile (· != '=')
  (front, match cs.drop front.length with
    | [] => none
    | _ :: rest => some ⟨true, rest⟩)

/-- The role of an argument that looks like an option and names none. -/
def fallbackRole (cs : List Char) : Role :=
  if isNumber cs || cs.contains ' ' then .operand else .unknownOption

/-- The role of an argument in front of a divider, where none is given to a word that
abbreviates several options. -/
def roleOf? (s : String) : Option Role :=
  match s.toList with
  | ['-', '-'] => some .divider
  | '-' :: '-' :: cs =>
    let (word, attached) := splitMark cs
    match Flag.ofWord word with
    | [] => some (fallbackRole ('-' :: cs))
    | [f] => some (.option f true attached)
    | _ => none
  | ['-'] => some .operand
  | '-' :: c :: cs =>
    match Flag.ofLetter? c, cs with
    | none, _ => some (fallbackRole (c :: cs))
    | some f, [] => some (.option f false none)
    | some f, '=' :: rest => some (.option f false (some ⟨true, rest⟩))
    | some f, rest => some (.option f false (some ⟨false, rest⟩))
  | _ => some .operand

/-- Arguments with their roles. -/
def tellApart : List String → Option (List Argument)
  | [] => some []
  | s :: ss => do
    let role ← roleOf? s
    if role = .divider then return ⟨s, role⟩ :: ss.map (⟨·, .operand⟩)
    else return ⟨s, role⟩ :: (← tellApart ss)

/-! ## What an option argument asks for -/

/-- The settings in one option argument. -/
structure Request where
  settings : List (Flag × Option String)
  /-- An option that waits for the next argument as its value. -/
  waiting : Option Flag
  /-- Whether the argument ends with letters that are no options. -/
  stray : Bool
  deriving Repr, DecidableEq

def Request.cons (f : Flag) (r : Request) : Request :=
  { r with settings := (f, none) :: r.settings }

/-- An option with nothing attached. -/
def bare (f : Flag) : Request :=
  if f.takesValue then ⟨[], some f, false⟩ else ⟨[(f, none)], none, false⟩

/-- The request of a letter and the text attached to it: a value, or further letters. -/
def spread (f : Flag) (marked : Bool) : List Char → Option Request
  | [] => if f.takesValue then some ⟨[(f, some "")], none, false⟩ else none
  | c :: cs =>
    if f.takesValue then some ⟨[(f, some (String.ofList (c :: cs)))], none, false⟩
    else if marked || c == '-' then none
    else
      match Flag.ofLetter? c, cs with
      | none, _ => some ⟨[(f, none)], none, true⟩
      | some g, [] => some ((bare g).cons f)
      | some g, '=' :: rest => (spread g true rest).map (.cons f)
      | some g, d :: rest => (spread g false (d :: rest)).map (.cons f)

/-- The request of an option argument, if it makes one. -/
def requestOf (f : Flag) (isLong : Bool) : Option Attached → Option Request
  | none => some (bare f)
  | some ⟨marked, cs⟩ =>
    if isLong && !f.takesValue then none else spread f marked cs

/-! ## Taking arguments -/

/-- Where text comes from or goes. -/
inductive Channel where
  | standard
  | file (path : Path)
  deriving Repr, DecidableEq

/-- An input with the name that it goes by. -/
structure Source where
  name : String
  channel : Channel
  deriving Repr, DecidableEq

structure Settings where
  input : Option Source
  output : Option Channel
  names : Dve.NameStyle
  feed : Bool
  interval : Option String
  alternate : Bool
  deriving Repr, DecidableEq

namespace Settings

def initial : Settings := ⟨none, none, .id, false, none, false⟩

end Settings

/-- Reading a command line ends early with an exit code. -/
structure Exit where
  code : Nat
  deriving Repr, DecidableEq

/-- The command line is wrong. -/
def misuse : Exit := ⟨2⟩

structure Progress where
  files : Files
  settings : Settings
  /-- Whether some argument had no meaning. -/
  leftOver : Bool

abbrev Taking := ExceptT Exit (StateM Progress)

def nameStyle? : String → Option Dve.NameStyle
  | "id" => some .id
  | "hierarchical" => some .hierarchical
  | "name" => some .short
  | _ => none

def modifySettings (f : Settings → Settings) : Taking Unit :=
  modify fun p => { p with settings := f p.settings }

/-- Notes an argument without meaning. -/
def leave : Taking Unit := modify fun p => { p with leftOver := true }

/-- What a flag with its value changes. -/
def setFlag : Flag × Option String → Taking Unit
  | (.help, _) => throw ⟨0⟩
  | (.names, value) =>
    match value.bind nameStyle? with
    | some style => modifySettings ({ · with names := style })
    | none => throw misuse
  | (.feed, _) => modifySettings ({ · with feed := true })
  | (.interval, value) => modifySettings ({ · with interval := value })
  | (.alternate, _) => modifySettings ({ · with alternate := true })

/-- What a single dash stands for as an input. -/
def standardName : String := "<stdin>"

def takeInput (name : String) : Taking Unit := do
  if name == "-" then
    modifySettings ({ · with input := some ⟨standardName, .standard⟩ })
  else
    match (← get).files.openToRead name with
    | .error _ => throw misuse
    | .ok path => modifySettings ({ · with input := some ⟨name, .file path⟩ })

def takeOutput (name : String) : Taking Unit := do
  if name == "-" then modifySettings ({ · with output := some .standard })
  else
    match (← get).files.openToWrite name with
    | .error _ => throw misuse
    | .ok (path, files) =>
      modify fun p => { p with files := files }
      modifySettings ({ · with output := some (.file path) })

/-- The operand of a group of arguments. The first pair of dashes in it does not count. -/
def operandIn (group : List Argument) : Option String :=
  ((group.map (·.text)).erase "--").head?

/-- The dividers at the head of arguments. -/
def dividers (args : List Argument) : List Argument := args.takeWhile (·.role == .divider)

/-- The operand at the head of arguments. -/
def operand (args : List Argument) : List Argument := (args.take 1).filter (·.role == .operand)

/-- The group that holds the input: an operand with the dividers around it. -/
def inputGroup (args : List Argument) : List Argument :=
  let front := dividers args
  let name := operand (args.drop front.length)
  if name.isEmpty then []
  else front ++ name ++ dividers (args.drop (front.length + 1))

/-- The group that holds the output, which may have no operand. -/
def outputGroup (args : List Argument) : List Argument :=
  let front := dividers args
  let name := operand (args.drop front.length)
  front ++ name ++ dividers (args.drop (front.length + name.length))

/-- Takes arguments from left to right, after passing over `skip` of them. The first operand is
the input; the output is settled with it and so has to follow at once. -/
def take (skip : Nat) : List Argument → Taking Unit
  | [] => pure ()
  | a :: rest =>
    match skip with
    | k + 1 => take k rest
    | 0 =>
      match a.role with
      | .unknownOption => do
        leave
        take 0 rest
      | .option f isLong attached =>
        match requestOf f isLong attached with
        | none => throw misuse
        | some r =>
          match r.waiting, rest with
          | none, _ => do
            if r.stray then leave
            r.settings.forM setFlag
            take 0 rest
          | some g, value :: _ => do
            if value.role != .operand then throw misuse
            r.settings.forM setFlag
            setFlag (g, some value.text)
            take 1 rest
          | some _, [] => throw misuse
      | .operand | .divider => do
        let input := inputGroup (a :: rest)
        if (← get).settings.input.isSome || input.isEmpty then
          leave
          take 0 rest
        else
          let output := outputGroup ((a :: rest).drop input.length)
          (operandIn input).forM takeInput
          (operandIn output).forM takeOutput
          take (input.length + output.length - 1) rest

/-- Reads a command line. It has to name an input and to hold nothing without meaning. -/
def takeAll (args : List String) : Taking Source := do
  match tellApart args with
  | none => throw misuse
  | some roles =>
    take 0 roles
    let p ← get
    match p.settings.input, p.leftOver with
    | some source, false => return source
    | _, _ => throw misuse

end Statechart.Command
