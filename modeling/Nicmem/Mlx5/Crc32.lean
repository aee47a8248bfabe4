/-
The hash of a steering entry: `dr_crc32.c` and `dr_ste_calc_hash_index`.

The driver finds the place of a steering entry in a hash table with the CRC-32 of the bytes
of its tag the table looks at.  The CRC is computed eight bytes at a time from eight tables
of 256 words, which `dr_crc32_init_table` fills.  A word is read from memory with its lowest
byte first, as on the machines of the experiments.
-/
import Nicmem.C.Array
import Mathlib.Data.BitVec

namespace Nicmem

open C

/-! ### The tables -/

/-- `DR_STE_CRC_POLY`. -/
def drSteCrcPoly : BitVec 32 := 0xEDB88320

/-- `dr_ste_crc_tab32`. -/
abbrev CrcTables := List (List (BitVec 32))

/-- `tbl[i][j]`. -/
def CrcTables.entry (tbl : CrcTables) (i j : Nat) : Option (BitVec 32) := do
  let row ← tbl[i]?
  row[j]?

def drCrc32CalcLookupEntry (tbl : CrcTables) (i j : Nat) : Option CrcTables := do
  let prev ← tbl.entry (i - 1) j
  let first ← tbl.entry 0 (prev &&& 0xff#32).toNat
  updateAt tbl i fun row => store row j ((prev >>> 8) ^^^ first)

/-- The inner loop, for the rest of the eight bits. -/
def crcBits : Nat → BitVec 32 → BitVec 32
  | 0, crc => crc
  | j + 1, crc => crcBits j (if crc &&& 1#32 ≠ 0 then (crc >>> 1) ^^^ drSteCrcPoly else crc >>> 1)

def drCrc32InitTable (tbl : CrcTables) : Option CrcTables := do
  let tbl ← (List.range 256).foldlM (fun tbl i =>
    updateAt tbl 0 fun row => store row i (crcBits 8 (BitVec.ofNat 32 i))) tbl
  (List.range 256).foldlM (fun tbl j =>
    [1, 2, 3, 4, 5, 6, 7].foldlM (fun tbl i => drCrc32CalcLookupEntry tbl i j) tbl) tbl

/-- The tables before they are filled. -/
def drSteCrcTab32 : CrcTables := List.replicate 8 (List.replicate 256 0)

/-! ### The checksum -/

/-- A word in memory. -/
def loadWord (b₀ b₁ b₂ b₃ : BitVec 8) : BitVec 32 := b₃ ++ (b₂ ++ (b₁ ++ b₀))

/-- One round of the first loop. -/
def slice8Round (tbl : CrcTables) (crc first second : BitVec 32) : Option (BitVec 32) := do
  let one := first ^^^ crc
  let two := second
  let t₀ ← tbl.entry 0 ((two >>> 24) &&& 0xff#32).toNat
  let t₁ ← tbl.entry 1 ((two >>> 16) &&& 0xff#32).toNat
  let t₂ ← tbl.entry 2 ((two >>> 8) &&& 0xff#32).toNat
  let t₃ ← tbl.entry 3 (two &&& 0xff#32).toNat
  let t₄ ← tbl.entry 4 ((one >>> 24) &&& 0xff#32).toNat
  let t₅ ← tbl.entry 5 ((one >>> 16) &&& 0xff#32).toNat
  let t₆ ← tbl.entry 6 ((one >>> 8) &&& 0xff#32).toNat
  let t₇ ← tbl.entry 7 (one &&& 0xff#32).toNat
  some (t₀ ^^^ t₁ ^^^ t₂ ^^^ t₃ ^^^ t₄ ^^^ t₅ ^^^ t₆ ^^^ t₇)

/-- One round of the second loop. -/
def byteRound (tbl : CrcTables) (crc : BitVec 32) (byte : BitVec 8) : Option (BitVec 32) := do
  let t ← tbl.entry 0 ((crc &&& 0xff#32) ^^^ byte.setWidth 32).toNat
  some ((crc >>> 8) ^^^ t)

/-- Both loops. -/
def slice8Loop (tbl : CrcTables) : BitVec 32 → List (BitVec 8) → Option (BitVec 32)
  | crc, b₀ :: b₁ :: b₂ :: b₃ :: b₄ :: b₅ :: b₆ :: b₇ :: rest => do
      let crc ← slice8Round tbl crc (loadWord b₀ b₁ b₂ b₃) (loadWord b₄ b₅ b₆ b₇)
      slice8Loop tbl crc rest
  | crc, rest => rest.foldlM (byteRound tbl) crc

/-- The bytes of a word in the other order. -/
def swapBytes (crc : BitVec 32) : BitVec 32 :=
  ((crc >>> 24) &&& 0xff#32) ||| ((crc <<< 8) &&& 0xff0000#32) ||| ((crc >>> 8) &&& 0xff00#32) |||
    ((crc <<< 24) &&& 0xff000000#32)

/-- `none` is a null pointer. -/
def drCrc32Slice8Calc (tbl : CrcTables) : Option (List (BitVec 8)) → Option (BitVec 32)
  | none => some 0
  | some input => (slice8Loop tbl 0 input).map swapBytes

/-! ### The hash index -/

/-- `DR_STE_SIZE_TAG`, which is also `DR_STE_SIZE_MASK`. -/
def drSteSizeTag : Nat := 16

/-- `num_of_entries` of the chunk, and `byte_mask`. -/
structure SteHtbl where
  numOfEntries : Nat
  byteMask : BitVec 16
  deriving DecidableEq, Repr

/-- The tag with the bytes the table does not look at cleared; `bit` is the bit of the next
byte. -/
def maskTag (byteMask : BitVec 16) : BitVec 16 → List (BitVec 8) → List (BitVec 8)
  | _, [] => []
  | bit, byte :: tag =>
      (if byteMask &&& bit ≠ 0 then byte else 0) :: maskTag byteMask (bit >>> 1) tag

def drSteCalcHashIndex (tbl : CrcTables) (htbl : SteHtbl) (tag : List (BitVec 8)) : Option Nat :=
  if htbl.numOfEntries = 1 ∨ htbl.byteMask = 0 then some 0
  else do
    let crc32 ← drCrc32Slice8Calc tbl
      (some (maskTag htbl.byteMask (1#16 <<< (drSteSizeTag - 1)) tag))
    some (crc32.toNat % htbl.numOfEntries)

/-- The bytes of a mask that are looked at: those whose bits are all set. -/
def drSteConvBitToByteMask (bitMask : List (BitVec 8)) : BitVec 16 :=
  bitMask.foldl (fun (byteMask : BitVec 16) m => if m = 0xff#8 then (byteMask <<< 1) ||| 1#16
    else byteMask <<< 1) 0

end Nicmem
