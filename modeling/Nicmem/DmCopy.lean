/-
The device-memory copy benchmark: `dm_copy.c` and the part of the mlx5 provider it
calls.

The buffers are lists of bytes (`C.Memory`), a pointer into one is a position in it,
and a copy that leaves its buffer has no result.  The clock reads around every copy do
not touch the buffers, and what is computed from them is modelled on its own: the
intervals they measure are given, and the sum of `run_test` runs over them.
-/
import Nicmem.C.Memory

namespace Nicmem

open C

/-! ### mlx5_access_dm -/

/-- What a call of the provider returns. -/
inductive Status where
  | success
  | EFAULT
  | EINVAL
  deriving DecidableEq, Repr

/-- The loop of `mlx5_access_dm`: `words` words of four bytes, one after the other. -/
def copyWords (dst : Bytes) (dstPos : Nat) (src : Bytes) (srcPos : Nat) :
    (words : Nat) → Option Bytes
  | 0 => some dst
  | words + 1 =>
      (memcpy dst dstPos src srcPos 4).bind fun dst =>
        copyWords dst (dstPos + 4) src (srcPos + 4) words

/-- `mlx5_access_dm`: the status, the device memory and the host memory after the call.
`host` is the buffer `host_addr` points into.  The bound is checked on a 64-bit sum. -/
def mlx5AccessDm (dm : Bytes) (dmOffset : Nat) (host : Bytes) (hostAddr length : Nat)
    (read : Bool) : Option (Status × Bytes × Bytes) :=
  if (dmOffset + length) % 2 ^ 64 > dm.length then
    some (.EFAULT, dm, host)
  else if length % 4 ≠ 0 ∨ dmOffset % 4 ≠ 0 then
    some (.EINVAL, dm, host)
  else if read then
    (copyWords host hostAddr dm (dmOffset / 4 * 4) (length / 4)).map fun host =>
      (.success, dm, host)
  else
    (copyWords dm (dmOffset / 4 * 4) host hostAddr (length / 4)).map fun dm =>
      (.success, dm, host)

def mlx5MemcpyToDm (dm : Bytes) (dmOffset : Nat) (host : Bytes) (hostAddr length : Nat) :
    Option (Status × Bytes × Bytes) :=
  mlx5AccessDm dm dmOffset host hostAddr length false

def mlx5MemcpyFromDm (host : Bytes) (hostAddr : Nat) (dm : Bytes) (dmOffset length : Nat) :
    Option (Status × Bytes × Bytes) :=
  mlx5AccessDm dm dmOffset host hostAddr length true

/-! ### The copy functions of the benchmark -/

/-- The memory of a run: the device memory, the destination buffer that stands for it
when no device memory is used, and the source buffer of the current size. -/
structure Buffers where
  dm : Bytes
  dstbuf : Bytes
  srcbuf : Bytes
  deriving DecidableEq, Repr

/-- A copy function, called with `srcbuf + offset` and a size. -/
abbrev Copier := Buffers → (offset : Nat) → (size : Int) → Option Buffers

def memcpyDm1 : Copier := fun b offset size =>
  (memcpy b.dm 0 b.srcbuf offset (toSize size)).map fun dm => { b with dm := dm }

def memcpyDm1Reverse : Copier := fun b offset size =>
  (memcpy b.srcbuf offset b.dm 0 (toSize size)).map fun srcbuf => { b with srcbuf := srcbuf }

/-- The status of the call is dropped. -/
def memcpyDm2 : Copier := fun b offset size =>
  (mlx5MemcpyToDm b.dm 0 b.srcbuf offset (toSize size)).map fun r =>
    { b with dm := r.2.1, srcbuf := r.2.2 }

/-- The status of the call is dropped. -/
def memcpyDm2Reverse : Copier := fun b offset size =>
  (mlx5MemcpyFromDm b.srcbuf offset b.dm 0 (toSize size)).map fun r =>
    { b with dm := r.2.1, srcbuf := r.2.2 }

def memcpyDm3 : Copier := fun b offset size =>
  (memcpy b.dstbuf 0 b.srcbuf offset (toSize size)).map fun dstbuf =>
    { b with dstbuf := dstbuf }

def memcpyDm3Reverse : Copier := fun b offset size =>
  (memcpy b.srcbuf offset b.dstbuf 0 (toSize size)).map fun srcbuf =>
    { b with srcbuf := srcbuf }

/-- The copy function `run_test` picks from the options `-r`, `-j` and `-k`. -/
def myMemcpy (useReverse useDm useDmcpy : Bool) : Copier :=
  if !useReverse then
    if useDm && useDmcpy then memcpyDm1
    else if useDm then memcpyDm2
    else memcpyDm3
  else
    if useDm && useDmcpy then memcpyDm1Reverse
    else if useDm then memcpyDm2Reverse
    else memcpyDm3Reverse

/-! ### The chunk loop of run_test -/

/-- The size of the next chunk: `size - offset` is computed in 64 bits and stored in an
`int`. -/
def chunk (dstsize size : Int) (offset : Nat) : Int :=
  let remaining := toInt (toSize (size - offset))
  if dstsize > remaining then remaining else dstsize

/-- The inner loop of `run_test` from `offset` on, for at most `fuel` rounds. -/
def copyLoop (copier : Copier) (dstsize size : Int) :
    (fuel offset : Nat) → Buffers → Option Buffers
  | 0, offset, b => if offset < toSize size then none else some b
  | fuel + 1, offset, b =>
      if offset < toSize size then
        let copy := chunk dstsize size offset
        (copier b offset copy).bind
          (copyLoop copier dstsize size fuel ((offset + toSize copy) % 2 ^ 64))
      else
        some b

/-- The chunks the inner loop issues from `offset` on, as offset and size. -/
def chunks (dstsize size : Int) : (fuel offset : Nat) → Option (List (Nat × Int))
  | 0, offset => if offset < toSize size then none else some []
  | fuel + 1, offset =>
      if offset < toSize size then
        let copy := chunk dstsize size offset
        (chunks dstsize size fuel ((offset + toSize copy) % 2 ^ 64)).map ((offset, copy) :: ·)
      else
        some []

/-! ### The cycles of run_test -/

/-- `calibrate`: the mean of the intervals its rounds measure, which are 100000. -/
def calibrate (intervals : List UInt64) : UInt64 := intervals.foldl (· + ·) 0 / 100000

/-- One iteration: `sum += end - start - calib` after every chunk. -/
def addIntervals (calib sum : UInt64) (intervals : List UInt64) : UInt64 :=
  intervals.foldl (fun sum interval => sum + (interval - calib)) sum

/-- The iterations of one source size, given the intervals of each: `sum` and `count`. -/
def iterate (calib : UInt64) (intervals : Nat → List UInt64) (iters : Int) : UInt64 × Int :=
  (List.range iters.toNat).foldl
    (fun st it => (addIntervals calib st.1 (intervals it), st.2 + 1)) (0, 0)

/-- `sum / count`, in 64 bits; a division by zero has no result. -/
def averageCycles (sum : UInt64) (count : Int) : Option UInt64 :=
  if toSize count = 0 then none else some (sum / UInt64.ofNat (toSize count))

/-- The number of iterations `main` stores for `-n`: an `unsigned long` in an `int`. -/
def itersOf (n : BitVec 64) : Int := toInt n.toNat

/-! ### The option -s -/

/-- The check `main` makes on the `unsigned int` it reads for `-s`. -/
def sizeAccepted (size : BitVec 32) : Bool := size &&& (size - 1) == 0

/-- What `pp_init_ctx` gets: its parameter is an `int`. -/
def dstsizeOf (size : BitVec 32) : Int := toInt size.toNat

end Nicmem
