/-
Bitmaps: `ccan/bitmap.h` and `ccan/bitmap.c`.

A bitmap is the array of its 64-bit words.  Bit `n` is in word `n / 64`, and inside a
word the bits are counted from the most significant one, so that the first set bit of
a word is found by counting its leading zeros.  A word outside the array is not read or
written: such an access, and a failed `assert`, have no result.
-/
import Mathlib.Data.BitVec

namespace Nicmem

/-- `bitmap *`: the words of the array. -/
abbrev Bitmap := List (BitVec 64)

/-- `BITMAP_NWORDS`. -/
def bitmapNwords (n : Nat) : Nat := (n + 64 - 1) / 64

/-- `BITMAP_WORD`. -/
def bitmapWord (bmap : Bitmap) (n : Nat) : Option (BitVec 64) := bmap[n / 64]?

/-- `BITMAP_WORDBIT`. -/
def bitmapWordbit (n : Nat) : BitVec 64 := 1#64 <<< (64 - n % 64 - 1)

def bitmapSetBit (bmap : Bitmap) (n : Nat) : Option Bitmap :=
  (bitmapWord bmap n).map fun w => bmap.set (n / 64) (w ||| bitmapWordbit n)

def bitmapClearBit (bmap : Bitmap) (n : Nat) : Option Bitmap :=
  (bitmapWord bmap n).map fun w => bmap.set (n / 64) (w &&& ~~~(bitmapWordbit n))

def bitmapTestBit (bmap : Bitmap) (n : Nat) : Option Bool :=
  (bitmapWord bmap n).map fun w => w &&& bitmapWordbit n != 0

/-- `bitmap_alloc0`. -/
def bitmapAlloc0 (nbits : Nat) : Bitmap := List.replicate (bitmapNwords nbits) 0

/-! ### bitmap_ffs -/

/-- `BIT_ALIGN_DOWN`. -/
def bitAlignDown (n : Nat) : Nat := n / 64 * 64

/-- `BIT_ALIGN_UP`. -/
def bitAlignUp (n : Nat) : Nat := bitAlignDown (n + 64 - 1)

/-- The loop of `bitmap_clz`, which moves `mask` down until it meets a bit of `w`. -/
def bitmapClzLoop (w : BitVec 64) : (fuel : Nat) → (mask : BitVec 64) → (lz : Nat) → Nat
  | 0, _, lz => lz
  | fuel + 1, mask, lz =>
      if w &&& mask = 0 then bitmapClzLoop w fuel (mask >>> 1) (lz + 1) else lz

def bitmapClz (w : BitVec 64) : Nat := bitmapClzLoop w 64 (1#64 <<< (64 - 1)) 0

/-- The loop of `bitmap_ffs` over the whole words from bit `an` up to bit `am`, of which
there are `words`; `none` inside is a loop that ends without a set bit. -/
def bitmapFfsWords (bmap : Bitmap) : (words an : Nat) → Option (Option Nat)
  | 0, _ => some none
  | words + 1, an =>
      (bitmapWord bmap an).bind fun w =>
        if w ≠ 0 then some (some (an + bitmapClz w)) else bitmapFfsWords bmap words (an + 64)

/-- The last step of `bitmap_ffs`: the bits of the word of `m` before `m`. -/
def bitmapFfsTail (bmap : Bitmap) (m : Nat) : Option Nat :=
  let am := bitAlignDown m
  let tailmask := ~~~(BitVec.allOnes 64 >>> (m % 64))
  if m > am then
    (bitmapWord bmap m).map fun w =>
      let w := w &&& tailmask
      if w ≠ 0 then am + bitmapClz w else m
  else
    some m

/-- `bitmap_ffs` after its first word: the whole words from `an` on, then the last. -/
def bitmapFfsRest (bmap : Bitmap) (an m : Nat) : Option Nat :=
  let am := bitAlignDown m
  (bitmapFfsWords bmap ((am - an) / 64) an).bind fun found =>
    match found with
    | some i => some i
    | none => bitmapFfsTail bmap m

def bitmapFfs (bmap : Bitmap) (n m : Nat) : Option Nat :=
  let an := bitAlignUp n
  let am := bitAlignDown m
  let headmask := BitVec.allOnes 64 >>> (n % 64)
  let tailmask := ~~~(BitVec.allOnes 64 >>> (m % 64))
  if m < n then
    none
  else if am < an then
    (bitmapWord bmap n).map fun w =>
      let w := w &&& (headmask &&& tailmask)
      if w ≠ 0 then am + bitmapClz w else m
  else if an > n then
    (bitmapWord bmap n).bind fun w =>
      let w := w &&& headmask
      if w ≠ 0 then some (bitAlignDown n + bitmapClz w) else bitmapFfsRest bmap an m
  else
    bitmapFfsRest bmap an m

end Nicmem
