/-
Byte buffers and the integer conversions of C on a 64-bit machine.

A buffer is the list of its bytes.  An access outside a buffer is undefined
behaviour, and a computation that reaches one has no result (`none`).  An `int` has
32 bits and a `size_t` has 64; both are numbers here, and every conversion of the
source is a call of `toInt` or `toSize`.
-/
import Mathlib.Data.List.Basic
import Mathlib.Tactic.Ring

namespace C

/-! ### Integer conversions -/

/-- Conversion to `int`. -/
def toInt (x : Int) : Int := x.bmod (2 ^ 32)

/-- Conversion to `size_t`, or to any other unsigned 64-bit type. -/
def toSize (x : Int) : Nat := (x % 2 ^ 64).toNat

theorem toInt_natCast {n : Nat} (h : n < 2 ^ 31) : toInt n = n := by
  rw [toInt, Int.bmod_def]
  omega

theorem toSize_natCast {n : Nat} (h : n < 2 ^ 64) : toSize n = n := by
  rw [toSize]
  omega

/-! ### Buffers -/

abbrev Bytes := List UInt8

/-- The `n` bytes from position `pos` on. -/
def slice (b : Bytes) (pos n : Nat) : Bytes := (b.drop pos).take n

/-- `b` with `bytes` written from position `pos` on. -/
def overwrite (b : Bytes) (pos : Nat) (bytes : Bytes) : Bytes :=
  b.take pos ++ bytes ++ b.drop (pos + bytes.length)

/-- `memcpy(dst + dstPos, src + srcPos, n)` between two buffers. -/
def memcpy (dst : Bytes) (dstPos : Nat) (src : Bytes) (srcPos n : Nat) : Option Bytes :=
  if dstPos + n ≤ dst.length ∧ srcPos + n ≤ src.length then
    some (overwrite dst dstPos (slice src srcPos n))
  else
    none

theorem length_slice {b : Bytes} {pos n : Nat} (h : pos + n ≤ b.length) :
    (slice b pos n).length = n := by
  rw [slice, List.length_take, List.length_drop]
  omega

theorem slice_append (b : Bytes) (pos n m : Nat) :
    slice b pos n ++ slice b (pos + n) m = slice b pos (n + m) := by
  simp only [slice]
  rw [List.take_add, List.drop_drop]

theorem length_overwrite {b bytes : Bytes} {pos : Nat} (h : pos + bytes.length ≤ b.length) :
    (overwrite b pos bytes).length = b.length := by
  simp only [overwrite, List.length_append, List.length_take, List.length_drop]
  omega

@[simp] theorem overwrite_nil (b : Bytes) (pos : Nat) : overwrite b pos [] = b := by
  simp [overwrite]

/-- Two adjacent writes are one. -/
theorem overwrite_append {b x y : Bytes} {pos : Nat} (h : pos ≤ b.length) :
    overwrite (overwrite b pos x) (pos + x.length) y = overwrite b pos (x ++ y) := by
  have hfront : (b.take pos ++ x).length = pos + x.length := by
    rw [List.length_append, List.length_take, Nat.min_eq_left h]
  have htake : (overwrite b pos x).take (pos + x.length) = b.take pos ++ x := by
    rw [overwrite, ← hfront, List.take_left]
  have hdrop : (overwrite b pos x).drop (pos + x.length + y.length)
      = b.drop (pos + (x ++ y).length) := by
    rw [overwrite, ← List.drop_drop, ← hfront, List.drop_left, hfront, List.drop_drop,
      List.length_append, Nat.add_assoc]
  rw [overwrite, htake, hdrop, overwrite, List.append_assoc (b.take pos)]

theorem getElem?_slice (b : Bytes) (pos n i : Nat) :
    (slice b pos n)[i]? = if i < n then b[pos + i]? else none := by
  rw [slice, List.getElem?_take, List.getElem?_drop]

/-- The bytes after a write: the written ones in its range, the old ones elsewhere. -/
theorem getElem?_overwrite {b bytes : Bytes} {pos : Nat} (h : pos + bytes.length ≤ b.length)
    (i : Nat) : (overwrite b pos bytes)[i]? =
      if pos ≤ i ∧ i < pos + bytes.length then bytes[i - pos]? else b[i]? := by
  have hfront : (b.take pos ++ bytes).length = pos + bytes.length := by
    rw [List.length_append, List.length_take, Nat.min_eq_left (by omega)]
  rw [overwrite]
  rcases Nat.lt_or_ge i (pos + bytes.length) with hlt | hge
  · rw [List.getElem?_append_left (by omega)]
    rcases Nat.lt_or_ge i pos with hbefore | hin
    · rw [List.getElem?_append_left (by rw [List.length_take]; omega), List.getElem?_take,
        if_pos hbefore, if_neg (by omega)]
    · rw [List.getElem?_append_right (by rw [List.length_take]; omega), List.length_take,
        Nat.min_eq_left (by omega), if_pos ⟨hin, hlt⟩]
  · rw [List.getElem?_append_right (by omega), hfront, List.getElem?_drop, if_neg (by omega)]
    congr 1
    omega

/-- What is written is read back. -/
theorem slice_overwrite {b bytes : Bytes} {pos : Nat} (h : pos + bytes.length ≤ b.length) :
    slice (overwrite b pos bytes) pos bytes.length = bytes := by
  refine List.ext_getElem? fun i => ?_
  rw [getElem?_slice, getElem?_overwrite h]
  split
  · rw [if_pos (by omega), Nat.add_sub_cancel_left]
  · rw [List.getElem?_eq_none (by omega)]

theorem memcpy_of_le {dst src : Bytes} {dstPos srcPos n : Nat}
    (hdst : dstPos + n ≤ dst.length) (hsrc : srcPos + n ≤ src.length) :
    memcpy dst dstPos src srcPos n = some (overwrite dst dstPos (slice src srcPos n)) :=
  if_pos ⟨hdst, hsrc⟩

theorem memcpy_of_not_le {dst src : Bytes} {dstPos srcPos n : Nat}
    (h : dst.length < dstPos + n ∨ src.length < srcPos + n) :
    memcpy dst dstPos src srcPos n = none :=
  if_neg (by omega)

end C
