import Statechart.Archive.Inflate

/-!
Archives with a directory at their end. Main function: `members?`.
-/

namespace Statechart.Archive

structure Member where
  name : String
  data : ByteArray
  deriving BEq

/-- The number that `n` bytes at an offset spell, the lowest byte first. -/
def numberAt (data : ByteArray) (offset n : Nat) : Nat :=
  (List.range n).foldr (fun i acc => 256 * acc + ((data[offset + i]?).getD 0).toNat) 0

/-- Whether a record of a kind stands at an offset. -/
def hasRecord (data : ByteArray) (first second : Nat) (offset : Nat) : Bool :=
  offset + 4 ≤ data.size && numberAt data offset 2 == 0x4b50 &&
    numberAt data (offset + 2) 1 == first && numberAt data (offset + 3) 1 == second

/-- The size of the record that ends an archive, without the remark behind it. -/
def endSize : Nat := 22

/-- Where the record that ends an archive starts; a remark of at most 65535 bytes may follow. -/
def endRecord? (data : ByteArray) : Option Nat :=
  ((List.range (min (data.size + 1 - endSize) 65536)).map fun i => data.size - endSize - i).find?
    (hasRecord data 5 6)

def slice (data : ByteArray) (offset size : Nat) : ByteArray := data.extract offset (offset + size)

/-- The content of a member whose own record stands at `offset`. -/
def contentAt (data : ByteArray) (offset method size : Nat) : Option ByteArray :=
  if !hasRecord data 3 4 offset then none
  else
    let start := offset + 30 + numberAt data (offset + 26) 2 + numberAt data (offset + 28) 2
    let packed := slice data start size
    match method with
    | 0 => some packed
    | 8 => inflate packed.toList
    | _ => none

/-- Reads `count` entries of the directory. -/
def readDirectory (data : ByteArray) : Nat → Nat → Option (List Member)
  | 0, _ => some []
  | count + 1, offset =>
    if !hasRecord data 1 2 offset then none
    else do
      let number := numberAt data
      let nameSize := number (offset + 28) 2
      let name ← String.fromUTF8? (slice data (offset + 46) nameSize)
      let content ← contentAt data (number (offset + 42) 4) (number (offset + 10) 2)
        (number (offset + 20) 4)
      let next := offset + 46 + nameSize + number (offset + 30) 2 + number (offset + 32) 2
      return ⟨name, content⟩ :: (← readDirectory data count next)

/-- The members of an archive, if the bytes are one. -/
def members? (data : ByteArray) : Option (List Member) := do
  let e ← endRecord? data
  readDirectory data (numberAt data (e + 10) 2) (numberAt data (e + 16) 4)

end Statechart.Archive
