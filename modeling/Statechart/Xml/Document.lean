import Statechart.Xml.Reader

/-!
Documents as bytes: their encoding and their declaration. `read` is a reader of the
well-formed ones.
-/

namespace Statechart.Xml

inductive Encoding where
  | utf8
  | ascii
  | latin1
  | utf16 (bigEndian : Bool)
  deriving Repr, DecidableEq

/-- Pairs of bytes as numbers. -/
def units (bigEndian : Bool) : List UInt8 → Option (List Nat)
  | [] => some []
  | [_] => none
  | a :: b :: rest =>
    (units bigEndian rest).map
      ((if bigEndian then a.toNat * 256 + b.toNat else b.toNat * 256 + a.toNat) :: ·)

/-- Characters from numbers of two bytes, of which two may make up one character. -/
def ofUnits : List Nat → Option (List Char)
  | [] => some []
  | [u] => if 0xD800 ≤ u && u ≤ 0xDFFF then none else some [Char.ofNat u]
  | u :: v :: rest =>
    if 0xD800 ≤ u && u ≤ 0xDBFF then
      if 0xDC00 ≤ v && v ≤ 0xDFFF then
        (ofUnits rest).map (Char.ofNat ((u - 0xD800) * 1024 + (v - 0xDC00) + 0x10000) :: ·)
      else none
    else if 0xDC00 ≤ u && u ≤ 0xDFFF then none
    else (ofUnits (v :: rest)).map (Char.ofNat u :: ·)

def Encoding.decode (e : Encoding) (bytes : ByteArray) : Option (List Char) :=
  match e with
  | .utf8 => (String.fromUTF8? bytes).map String.toList
  | .ascii =>
    if bytes.toList.all (· < 128) then some (bytes.toList.map fun b => Char.ofNat b.toNat)
    else none
  | .latin1 => some (bytes.toList.map fun b => Char.ofNat b.toNat)
  | .utf16 big => (units big bytes.toList).bind ofUnits

/-- Families of encodings of which only the characters that they share with the plainest one
are read. -/
def asciiFamilies : List String :=
  ["iso-8859-", "iso_8859-", "windows-", "cp125", "koi8-", "gb", "big5", "euc-", "shift_jis"]

/-- The encoding that a name in a declaration stands for. -/
def Encoding.ofName? (name : String) : Option Encoding :=
  match name.toLower with
  | "utf-8" | "utf8" => some .utf8
  | "us-ascii" | "ascii" => some .ascii
  | "iso-8859-1" | "iso-latin-1" | "latin1" | "iso_8859-1" => some .latin1
  | other =>
    if asciiFamilies.any fun f => f.toList.isPrefixOf other.toList then some .ascii else none

/-- The encoding that the first bytes show, and the bytes without their mark. -/
def detect (bytes : ByteArray) : Encoding × ByteArray :=
  match (bytes.extract 0 4).toList with
  | 0xEF :: 0xBB :: 0xBF :: _ => (.utf8, bytes.extract 3 bytes.size)
  | 0xFE :: 0xFF :: _ => (.utf16 true, bytes.extract 2 bytes.size)
  | 0xFF :: 0xFE :: _ => (.utf16 false, bytes.extract 2 bytes.size)
  | 0x00 :: 0x3C :: 0x00 :: _ => (.utf16 true, bytes)
  | 0x3C :: 0x00 :: _ => (.utf16 false, bytes)
  | _ => (.utf8, bytes)

/-! ## Declarations -/

/-- A name, an equals sign and a quoted value, after at least one blank. -/
def field? (name : List Char) (cs : List Char) : Option (List Char × List Char) := do
  guard (cs.head?.any isBlank)
  let cs := cs.dropWhile isBlank
  guard (name.isPrefixOf cs)
  match (cs.drop name.length).dropWhile isBlank with
  | '=' :: cs =>
    match cs.dropWhile isBlank with
    | q :: cs =>
      guard (q == '"' || q == '\'')
      let value := cs.takeWhile (· != q)
      guard (value.length < cs.length)
      return (value, cs.drop (value.length + 1))
    | [] => none
  | _ => none

/-- Versions 1 with any digits. -/
def isVersion : List Char → Bool
  | '1' :: '.' :: ds => ds.all Char.isDigit
  | _ => false

def isEncodingName : List Char → Bool
  | [] => false
  | c :: cs => c.isAlpha && cs.all fun c => c.isAlphanum || c == '.' || c == '_' || c == '-'

/-- What stands between the mark of a declaration and its end: the encoding that it names. -/
def declared? (cs : List Char) : Option (Option String) := do
  let (version, cs) ← field? "version".toList cs
  guard (isVersion version)
  let (encoding, cs) := match field? "encoding".toList cs with
    | some (e, rest) => (some e, rest)
    | none => (none, cs)
  guard (encoding.all isEncodingName)
  let cs ← match field? "standalone".toList cs with
    | some (v, rest) => if v == "yes".toList || v == "no".toList then some rest else none
    | none => some cs
  guard ((cs.dropWhile isBlank).isEmpty)
  return encoding.map String.ofList

/-- The text in front of the first end of an instruction, and the text behind it. -/
def splitInstruction (cs : List Char) : Option (List Char × List Char) :=
  go [] cs
where
  go (seen : List Char) : List Char → Option (List Char × List Char)
    | '?' :: '>' :: rest => some (seen.reverse, rest)
    | c :: rest => go (c :: seen) rest
    | [] => none

/-- The text behind a declaration and the encoding named in it. -/
def body? (cs : List Char) : Option (Option String × List Char) :=
  let mark := "<?xml".toList
  if mark.isPrefixOf cs && (cs.drop mark.length).head?.any isBlank then do
    let (inner, rest) ← splitInstruction (cs.drop mark.length)
    return (← declared? inner, rest)
  else some (none, cs)

/-- A reader of documents: the root element of a well-formed document in one of these encodings.
References to entities that the document itself defines are not resolved, so documents with them
are refused. -/
def read (bytes : ByteArray) : Option Node := do
  let (encoding, bytes) := detect bytes
  match encoding with
  | .utf8 =>
    let first := (bytes.extract 0 (min bytes.size 200)).toList.map fun b => Char.ofNat b.toNat
    match (body? first).bind (·.1) with
    | none => do
      let (_, cs) ← body? (← Encoding.utf8.decode bytes)
      readBody cs
    | some name => do
      let (_, cs) ← body? (← (← Encoding.ofName? name).decode bytes)
      readBody cs
  | encoding => do
    let (_, cs) ← body? (← encoding.decode bytes)
    readBody cs

end Statechart.Xml
