import Statechart.Archive.Zip
import Statechart.Table

/-!
Files as a command meets them: what a path leads to, and what opening it does. Paths are taken
from the working directory.
-/

namespace Statechart.Command

/-- The names on the way from the working directory. -/
abbrev Path := List String

/-- What a file holds: bytes, or the members of an archive in their order. -/
inductive Content where
  | bytes (data : ByteArray)
  | archive (members : List Archive.Member)
  deriving BEq

inductive Entry where
  | file (content : Content)
  | directory
  deriving BEq

abbrev Files := Table Path Entry

/-- Why a path cannot be opened. -/
inductive OpenFault where
  | notFound
  | notDirectory
  | isDirectory
  deriving Repr, DecidableEq

namespace OpenFault

def number : OpenFault → Nat
  | notFound => 2
  | notDirectory => 20
  | isDirectory => 21

def reason : OpenFault → String
  | notFound => "No such file or directory"
  | notDirectory => "Not a directory"
  | isDirectory => "Is a directory"

end OpenFault

/-! ## Quoting -/

/-- The hexadecimal digits of a code point, at least `width` of them. -/
def hex (width n : Nat) : List Char :=
  let ds := Nat.toDigits 16 n
  List.replicate (width - ds.length) '0' ++ ds

/-- A character between quotation marks `mark`. -/
def quotedChar (mark c : Char) : List Char :=
  if c == mark || c == '\\' then ['\\', c]
  else if c == '\n' then ['\\', 'n']
  else if c == '\r' then ['\\', 'r']
  else if c == '\t' then ['\\', 't']
  else if c.toNat < 32 || (127 ≤ c.toNat && c.toNat ≤ 160) || c.toNat == 173 then
    '\\' :: 'x' :: hex 2 c.toNat
  else [c]

/-- A text between single quotation marks, or between double ones if it has only single ones. -/
def quoted (s : String) : String :=
  let cs := s.toList
  let mark := if cs.contains '\'' && !cs.contains '"' then '"' else '\''
  String.ofList (mark :: cs.flatMap (quotedChar mark) ++ [mark])

/-- The wording of a path that cannot be opened. -/
def OpenFault.message (f : OpenFault) (name : String) : String :=
  "[Errno " ++ toString f.number ++ "] " ++ f.reason ++ ": " ++ quoted name

/-! ## Paths -/

namespace Files

/-- A directory is the working directory or one above it, an entry, or what lies above an
entry. -/
def isDirectory (fs : Files) (p : Path) : Bool :=
  p.all (· == "..") || p == ["/"] || fs.get? p == some .directory ||
    fs.keys.any fun q => p.isPrefixOf q && p != q

def isFile (fs : Files) (p : Path) : Bool :=
  match fs.get? p with
  | some (.file _) => true
  | _ => false

/-- One name further from the directory `p`. -/
def enter (p : Path) : String → Path
  | "" | "." => p
  | ".." => if p.getLast?.getD ".." == ".." then p ++ [".."] else p.dropLast
  | name => p ++ [name]

/-- Where names lead from a directory, all but the last being directories. -/
def follow (fs : Files) (p : Path) : List String → Except OpenFault Path
  | [] => .ok p
  | name :: names =>
    let q := enter p name
    if names.isEmpty || fs.isDirectory q then follow fs q names
    else if fs.isFile q then .error .notDirectory
    else .error .notFound

/-- Where a name starts, and the names from there on. -/
def origin (name : String) : Path × List String :=
  let names := (name.toList.splitOn '/').map String.ofList
  match name.toList with
  | '/' :: _ => (["/"], names)
  | _ => ([], names)

/-- Where a name leads. One that ends with a slash leads to a directory. -/
def resolve (fs : Files) (name : String) : Except OpenFault Path :=
  if name.isEmpty then .error .notFound
  else
    let (p, names) := origin name
    follow fs p names

/-- The path of a file that is there. -/
def openToRead (fs : Files) (name : String) : Except OpenFault Path := do
  let p ← fs.resolve name
  if fs.isDirectory p then throw .isDirectory
  else if fs.isFile p then return p
  else throw .notFound

/-- The path of a file, which is empty from then on, and the files with it. -/
def openToWrite (fs : Files) (name : String) : Except OpenFault (Path × Files) := do
  let p ← fs.resolve name
  if fs.isDirectory p || name.toList.getLast? == some '/' then throw .isDirectory
  else return (p, fs.insert p (.file (.bytes ByteArray.empty)))

/-- What a file holds. -/
def content (fs : Files) (p : Path) : Content :=
  match fs.get? p with
  | some (.file c) => c
  | _ => .bytes ByteArray.empty

/-- Appends text to a file. -/
def write (fs : Files) (p : Path) (text : String) : Files :=
  match fs.content p with
  | .bytes data => fs.insert p (.file (.bytes (data ++ text.toUTF8)))
  | .archive _ => fs.insert p (.file (.bytes text.toUTF8))

/-- The files of `after` that `fs` does not have or has with another content, sorted by path. -/
def changes (fs after : Files) : List (String × Content) :=
  let changed := after.entries.filterMap fun
    | (p, .file c) => if fs.get? p == some (.file c) then none else some ("/".intercalate p, c)
    | (_, .directory) => none
  changed.mergeSort fun a b => decide (a.1 ≤ b.1)

/-- The path that a name spells, whether or not something is there. -/
def pathOf (name : String) : Path :=
  let (p, names) := origin name
  names.foldl enter p

end Files

end Statechart.Command
