/-!
Deflated data: runs of literal bytes and of copies of earlier bytes, spelled with prefix codes.
Main function: `inflate`.
-/

namespace Statechart.Archive

/-! ## Bits -/

/-- The bits of bytes, the lowest bit of a byte first. -/
def bitsOf (bytes : List UInt8) : List Bool :=
  bytes.flatMap fun b => (List.range 8).map fun i => b.toNat.testBit i

/-- The number that `n` bits spell, the lowest first, and the bits behind them. -/
def readBits : Nat → List Bool → Option (Nat × List Bool)
  | 0, bits => some (0, bits)
  | _ + 1, [] => none
  | n + 1, b :: bits => do
    let (high, rest) ← readBits n bits
    return (2 * high + b.toNat, rest)

/-- The bits from the next whole byte on. -/
def alignToByte (bits : List Bool) : List Bool := bits.drop (bits.length % 8)

/-! ## Prefix codes -/

inductive Code where
  | hole
  | leaf (symbol : Nat)
  | fork (zero one : Code)
  deriving Repr, DecidableEq

namespace Code

/-- Puts a symbol at the end of a way of bits. -/
def insert (symbol : Nat) : List Bool → Code → Code
  | [], _ => leaf symbol
  | b :: bits, code =>
    let (zero, one) := match code with
      | fork zero one => (zero, one)
      | _ => (hole, hole)
    if b then fork zero (insert symbol bits one) else fork (insert symbol bits zero) one

/-- The symbol whose way the bits start with. -/
def decode : Code → List Bool → Option (Nat × List Bool)
  | leaf symbol, bits => some (symbol, bits)
  | hole, _ | fork _ _, [] => none
  | fork zero one, b :: bits => decode (if b then one else zero) bits

/-- The `n` bits of a number, the highest first. -/
def way (n value : Nat) : List Bool := (List.range n).reverse.map value.testBit

/-- The code in which shorter ways come first, and of ways of one length those of smaller
symbols. A symbol of length 0 is not in it. -/
def ofLengths (lengths : List Nat) : Code :=
  let symbols := lengths.zipIdx
  ((List.range 15).foldl (fun (acc : Code × Nat) i =>
    (symbols.filter (·.1 == i + 1)).foldl
      (fun acc e => (insert e.2 (way (i + 1) acc.2) acc.1, acc.2 + 1)) (acc.1, 2 * acc.2))
    (hole, 0)).1

end Code

/-! ## Symbols -/

/-- Where each range of copy lengths begins, and how many bits pick one of it. -/
def lengthRanges : List (Nat × Nat) :=
  [(3, 0), (4, 0), (5, 0), (6, 0), (7, 0), (8, 0), (9, 0), (10, 0), (11, 1), (13, 1), (15, 1),
   (17, 1), (19, 2), (23, 2), (27, 2), (31, 2), (35, 3), (43, 3), (51, 3), (59, 3), (67, 4),
   (83, 4), (99, 4), (115, 4), (131, 5), (163, 5), (195, 5), (227, 5), (258, 0)]

/-- Where each range of distances begins, and how many bits pick one of it. -/
def distanceRanges : List (Nat × Nat) :=
  [(1, 0), (2, 0), (3, 0), (4, 0), (5, 1), (7, 1), (9, 2), (13, 2), (17, 3), (25, 3), (33, 4),
   (49, 4), (65, 5), (97, 5), (129, 6), (193, 6), (257, 7), (385, 7), (513, 8), (769, 8),
   (1025, 9), (1537, 9), (2049, 10), (3073, 10), (4097, 11), (6145, 11), (8193, 12), (12289, 12),
   (16385, 13), (24577, 13)]

/-- A number of the range with an index. -/
def readRange (ranges : List (Nat × Nat)) (index : Nat) (bits : List Bool) :
    Option (Nat × List Bool) := do
  let (base, extra) ← ranges[index]?
  let (n, rest) ← readBits extra bits
  return (base + n, rest)

/-- Appends bytes that already stand `distance` back. -/
def copyBack (distance : Nat) : Nat → ByteArray → Option ByteArray
  | 0, out => some out
  | n + 1, out =>
    if distance = 0 || out.size < distance then none
    else copyBack distance n (out.push (out.get! (out.size - distance)))

/-- Reads symbols up to the one that ends a block. Each takes a bit or more, so the number of
bits is fuel enough. -/
def readSymbols (literals distances : Code) :
    Nat → List Bool → ByteArray → Option (List Bool × ByteArray)
  | 0, _, _ => none
  | fuel + 1, bits, out => do
    let (symbol, bits) ← literals.decode bits
    if symbol < 256 then readSymbols literals distances fuel bits (out.push symbol.toUInt8)
    else if symbol = 256 then return (bits, out)
    else
      let (length, bits) ← readRange lengthRanges (symbol - 257) bits
      let (index, bits) ← distances.decode bits
      let (distance, bits) ← readRange distanceRanges index bits
      let out ← copyBack distance length out
      readSymbols literals distances fuel bits out

/-! ## Blocks -/

/-- The codes of a block that does not bring its own. -/
def fixedCodes : Code × Code :=
  (.ofLengths (List.replicate 144 8 ++ List.replicate 112 9 ++ List.replicate 24 7 ++
    List.replicate 8 8), .ofLengths (List.replicate 30 5))

/-- The order in which the lengths of the code for lengths are given. -/
def lengthOrder : List Nat := [16, 17, 18, 0, 8, 7, 9, 6, 10, 5, 11, 4, 12, 3, 13, 2, 14, 1, 15]

/-- Reads `n` numbers of three bits. -/
def readTriples : Nat → List Bool → Option (List Nat × List Bool)
  | 0, bits => some ([], bits)
  | n + 1, bits => do
    let (x, bits) ← readBits 3 bits
    let (xs, bits) ← readTriples n bits
    return (x :: xs, bits)

/-- Reads lengths until there are `total` of them. Three symbols stand for repetitions. -/
def readLengths (code : Code) (total : Nat) :
    Nat → List Bool → List Nat → Option (List Nat × List Bool)
  | 0, _, _ => none
  | fuel + 1, bits, lengths =>
    if total ≤ lengths.length then some (lengths, bits)
    else do
      let (symbol, bits) ← code.decode bits
      let repeated (value base extra : Nat) := do
        let (n, bits) ← readBits extra bits
        readLengths code total fuel bits (lengths ++ List.replicate (base + n) value)
      match symbol with
      | 16 => repeated (lengths.getLast?.getD 0) 3 2
      | 17 => repeated 0 3 3
      | 18 => repeated 0 11 7
      | n => readLengths code total fuel bits (lengths ++ [n])

/-- Reads the codes that a block brings. -/
def readCodes (bits : List Bool) : Option ((Code × Code) × List Bool) := do
  let (literals, bits) ← readBits 5 bits
  let (distances, bits) ← readBits 5 bits
  let (count, bits) ← readBits 4 bits
  let (triples, bits) ← readTriples (count + 4) bits
  let byOrder := lengthOrder.zip triples
  let code := Code.ofLengths ((List.range 19).map fun i => (byOrder.lookup i).getD 0)
  let first := literals + 257
  let total := first + distances + 1
  let (lengths, bits) ← readLengths code total (total + 1) bits []
  return ((.ofLengths (lengths.take first), .ofLengths ((lengths.take total).drop first)), bits)

/-- Reads bytes that are given as they are. -/
def readStored : Nat → List Bool → ByteArray → Option (List Bool × ByteArray)
  | 0, bits, out => some (bits, out)
  | n + 1, bits, out => do
    let (b, bits) ← readBits 8 bits
    readStored n bits (out.push b.toUInt8)

/-- Reads blocks up to the last one. -/
def readBlocks : Nat → List Bool → ByteArray → Option ByteArray
  | 0, _, _ => none
  | fuel + 1, bits, out => do
    let (isLast, bits) ← readBits 1 bits
    let (kind, bits) ← readBits 2 bits
    let (bits, out) ← match kind with
      | 0 => do
        let (size, bits) ← readBits 16 (alignToByte bits)
        readStored size (bits.drop 16) out
      | 1 => readSymbols fixedCodes.1 fixedCodes.2 (bits.length + 1) bits out
      | 2 => do
        let (codes, bits) ← readCodes bits
        readSymbols codes.1 codes.2 (bits.length + 1) bits out
      | _ => none
    if isLast = 1 then return out else readBlocks fuel bits out

/-- The bytes that deflated data stand for. -/
def inflate (bytes : List UInt8) : Option ByteArray :=
  let bits := bitsOf bytes
  readBlocks (bits.length + 1) bits ByteArray.empty

end Statechart.Archive
