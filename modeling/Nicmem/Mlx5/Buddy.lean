/-
The buddy allocator of the steering memory: `dr_buddy.c`.

For every order there is a bitmap of the free blocks of that order, a second bitmap with
one bit for every word of the first, and the number of free blocks.  Orders and segments
are numbers: `max_order` is at most 22, the largest `enum dr_icm_chunk_size`, so that no
shift and no counter of the source leaves its type.  An access outside an array and a
failed `assert` have no result; the allocations of `dr_buddy_init` succeed.
-/
import Nicmem.C.Array
import Nicmem.Ccan.Bitmap
import Nicmem.Machine

namespace Nicmem

open C

/-- The fields of `struct dr_icm_buddy_mem` the allocator works on. -/
structure DrIcmBuddyMem where
  bits : List Bitmap
  numFree : List Nat
  setBit : List Bitmap
  maxOrder : Nat
  deriving DecidableEq, Repr

/-- `BITS_TO_LONGS`. -/
def bitsToLongs (n : Nat) : Nat := (n + 64 - 1) / 64

def drFindFirstBit (setAddr addr : Bitmap) (size : Nat) : Option Nat :=
  let setSize := (size - 1) / 64 + 1
  (bitmapFfs setAddr 0 setSize).bind fun setIdx => bitmapFfs addr (setIdx * 64) size

/-- The bitmaps of all orders, cleared, and then the one block of the maximum order. -/
def drBuddyInit (maxOrder : Nat) : Option DrIcmBuddyMem := do
  let orders := List.range (maxOrder + 1)
  let bits := orders.map fun i => bitmapAlloc0 (2 ^ (maxOrder - i))
  let setBit := orders.map fun i => bitmapAlloc0 (bitsToLongs (2 ^ (maxOrder - i)))
  let numFree := List.replicate (maxOrder + 1) 0
  let bits ← updateAt bits maxOrder (bitmapSetBit · 0)
  let setBit ← updateAt setBit maxOrder (bitmapSetBit · 0)
  let numFree ← updateAt numFree maxOrder fun _ => some 1
  some { bits, numFree, setBit, maxOrder }

/-- `dr_buddy_get_seg_borders`: the low and the high border. -/
def drBuddyGetSegBorders (seg : Nat) : Nat × Nat := (seg / 64 * 64, (seg / 64 + 1) * 64)

def drBuddyUpdateUpperBitmap (buddy : DrIcmBuddyMem) (seg order : Nat) :
    Option DrIcmBuddyMem := do
  let (l, h) := drBuddyGetSegBorders seg
  let bits ← buddy.bits[order]?
  let m ← bitmapFfs bits l h
  if m = h then
    let setBit ← updateAt buddy.setBit order (bitmapClearBit · (seg / 64))
    some { buddy with setBit }
  else
    some buddy

/-- The block is marked as free: its bit, the bit of its word and the counter. -/
def drBuddyMark (buddy : DrIcmBuddyMem) (seg order : Nat) : Option DrIcmBuddyMem := do
  let bits ← updateAt buddy.bits order (bitmapSetBit · seg)
  let setBit ← updateAt buddy.setBit order (bitmapSetBit · (seg / 64))
  let numFree ← updateAt buddy.numFree order fun n => some (n + 1)
  some { buddy with bits, setBit, numFree }

/-- The block is taken out of the free ones. -/
def drBuddyUnmark (buddy : DrIcmBuddyMem) (seg order : Nat) : Option DrIcmBuddyMem := do
  let bits ← updateAt buddy.bits order (bitmapClearBit · seg)
  let buddy ← drBuddyUpdateUpperBitmap { buddy with bits } seg order
  let numFree ← updateAt buddy.numFree order fun n => some (n - 1)
  some { buddy with numFree }

/-! ### dr_buddy_alloc_mem -/

/-- The search over the orders from `o` on, of which `orders` are left: an order with a
free block and the first of its free blocks. -/
def drBuddyFind (buddy : DrIcmBuddyMem) : (orders o : Nat) → Option (Option (Nat × Nat))
  | 0, _ => some none
  | orders + 1, o => do
      let numFree ← buddy.numFree[o]?
      if numFree ≠ 0 then
        let m := 2 ^ (buddy.maxOrder - o)
        let setBit ← buddy.setBit[o]?
        let bits ← buddy.bits[o]?
        let seg ← drFindFirstBit setBit bits m
        if m ≤ seg then none else some (some (seg, o))
      else
        drBuddyFind buddy orders (o + 1)

/-- The loop that halves a block of order `order + splits` down to `order`. -/
def drBuddySplit (order : Nat) :
    (splits : Nat) → DrIcmBuddyMem → (seg : Nat) → Option (DrIcmBuddyMem × Nat)
  | 0, buddy, seg => some (buddy, seg)
  | splits + 1, buddy, seg => do
      let seg := seg <<< 1
      let buddy ← drBuddyMark buddy (seg ^^^ 1) (order + splits)
      drBuddySplit order splits buddy seg

/-- The segment, or `-1`, and the allocator after the call. -/
def drBuddyAllocMem (buddy : DrIcmBuddyMem) (order : Nat) : Option (Int × DrIcmBuddyMem) := do
  let found ← drBuddyFind buddy (buddy.maxOrder + 1 - order) order
  match found with
  | none => some (-1, buddy)
  | some (seg, o) =>
      let buddy ← drBuddyUnmark buddy seg o
      let (buddy, seg) ← drBuddySplit order (o - order) buddy seg
      some ((seg <<< order : Nat), buddy)

/-! ### dr_buddy_free_mem -/

/-- The loop that joins a block with its free buddies.  There are bitmaps for `orders`
orders from `order` on, and the source does not look whether there is another. -/
def drBuddyMerge : (orders : Nat) → DrIcmBuddyMem → (seg order : Nat) → Option DrIcmBuddyMem
  | 0, _, _, _ => none
  | orders + 1, buddy, seg, order => do
      let bits ← buddy.bits[order]?
      let free ← bitmapTestBit bits (seg ^^^ 1)
      if free then
        let buddy ← drBuddyUnmark buddy (seg ^^^ 1) order
        drBuddyMerge orders buddy (seg >>> 1) (order + 1)
      else
        drBuddyMark buddy seg order

def drBuddyFreeMem (buddy : DrIcmBuddyMem) (seg order : Nat) : Option DrIcmBuddyMem :=
  drBuddyMerge (buddy.maxOrder + 1 - order) buddy (seg >>> order) order

/-! ### The clients of an allocator -/

/-- An allocator and the blocks its clients hold, each with its segment and its order. -/
structure BuddyUse where
  buddy : DrIcmBuddyMem
  live : List (Nat × Nat)
  deriving DecidableEq, Repr

inductive BuddyOp where
  | alloc (order : Nat)
  | free (seg order : Nat)
  deriving DecidableEq, Repr

/-- One call of a client, which frees only what it holds. -/
def BuddyUse.step (u : BuddyUse) : BuddyOp → Option (BuddyUse × Int)
  | .alloc order =>
      (drBuddyAllocMem u.buddy order).map fun r =>
        ({ buddy := r.2, live := if r.1 = -1 then u.live else (r.1.toNat, order) :: u.live }, r.1)
  | .free seg order =>
      if (seg, order) ∈ u.live then
        (drBuddyFreeMem u.buddy seg order).map fun buddy =>
          ({ buddy, live := u.live.erase (seg, order) }, 0)
      else
        some (u, 0)

/-- The calls of the clients, from `dr_buddy_init` on. -/
def buddyRun (maxOrder : Nat) (ops : List BuddyOp) : Option (BuddyUse × List Int) :=
  (drBuddyInit maxOrder).bind fun buddy => Machine.run BuddyUse.step { buddy, live := [] } ops

end Nicmem
