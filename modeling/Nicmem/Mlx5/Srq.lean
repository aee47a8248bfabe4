/-
The shared receive queue: `srq.c`, and the device at its other end.

The buffer holds `max` work queue elements.  Each has the index of the next one and a list
of data segments.  The driver keeps the elements nobody uses in a chain from `head` to
`tail`: a receive request is written to the element at `head`, and an element that was
completed is put behind `tail`.  The element at `tail` is never used, so that the chain is
never empty.  Some elements may form a second chain, the wait queue: an element in which
the device met a page fault rests there while its request is posted again.

The device follows the links from element 0 on, as far as the counter in the doorbell
record tells it to, and completes the elements it took in any order.

Indices and counters are numbers; a link has 16 bits and so has the counter.  An access
outside the buffer has no result, and neither has an `int` product that overflows.  The
lengths and keys of segments are those of the requests, whose types have the same widths.
-/
import Nicmem.C.Array
import Nicmem.Machine
import Mathlib.Data.Nat.Size

namespace Nicmem

open C

/-! ### The queue -/

/-- `roundup_pow_of_two`; `ilog64` is the number of bits. -/
def roundupPowOfTwo (n : Nat) : Nat := if n = 1 then 1 else 1 <<< Nat.size (n - 1)

/-- All queues of the driver have a power of two of entries. -/
def alignQueueSize (req : Nat) : Nat := roundupPowOfTwo req

/-- `struct mlx5_wqe_data_seg`, and a `struct ibv_sge`. -/
structure WqeDataSeg where
  byteCount : Nat
  lkey : Nat
  addr : Nat
  deriving DecidableEq, Repr

/-- `MLX5_INVALID_LKEY`. -/
def invalidLkey : Nat := 0x100

/-- The segment that ends a list shorter than the element. -/
def lastSeg : WqeDataSeg := { byteCount := 0, lkey := invalidLkey, addr := 0 }

/-- An element: its `struct mlx5_wqe_srq_next_seg` and the data segments. -/
structure SrqWqe where
  nextWqeIndex : Nat
  scat : List WqeDataSeg
  deriving DecidableEq, Repr

structure Mlx5Srq where
  wqes : List SrqWqe
  wrid : List Nat
  max : Nat
  maxGs : Nat
  head : Nat
  tail : Nat
  waitqHead : Int
  waitqTail : Int
  counter : Nat
  db : Nat
  deriving DecidableEq, Repr

/-- `next->next_wqe_index = htobe16(ind)` for the element `i`. -/
def Mlx5Srq.setNext (srq : Mlx5Srq) (i ind : Nat) : Option Mlx5Srq :=
  (updateAt srq.wqes i fun wqe => some { wqe with nextWqeIndex := ind % 2 ^ 16 }).map
    fun wqes => { srq with wqes }

def mlx5FreeSrqWqe (srq : Mlx5Srq) (ind : Nat) : Option Mlx5Srq :=
  (srq.setNext srq.tail ind).map fun srq => { srq with tail := ind }

/-! ### Page faults -/

def srqPutInWaitq (srq : Mlx5Srq) (ind : Nat) : Option Mlx5Srq :=
  (srq.setNext srq.waitqTail.toNat ind).map fun srq => { srq with waitqTail := ind }

def srqGetFromWaitq (srq : Mlx5Srq) : Option Mlx5Srq := do
  let waitqHead := srq.waitqHead.toNat
  let srq ← srq.setNext srq.tail waitqHead
  let srq := { srq with tail := waitqHead }
  let wqe ← srq.wqes[waitqHead]?
  some { srq with waitqHead := wqe.nextWqeIndex }

def srqHasWaitq (srq : Mlx5Srq) : Bool := srq.waitqHead ≥ 0

/-- The queue, and whether the element was put in the wait queue. -/
def srqCooldownWqe (srq : Mlx5Srq) (ind : Nat) : Option (Mlx5Srq × Bool) :=
  if srqHasWaitq srq then do
    let srq ← srqPutInWaitq srq ind
    let srq ← srqGetFromWaitq srq
    some (srq, true)
  else
    some (srq, false)

/-- The loop of `srq_repost` over at most `n` segments. -/
def copyScat : (n : Nat) → (src dst : List WqeDataSeg) → Option (List WqeDataSeg)
  | 0, _, dst => some dst
  | n + 1, s :: src, _ :: dst =>
      if s.lkey = invalidLkey then some (s :: dst) else (copyScat n src dst).map (s :: ·)
  | _ + 1, _, _ => none

def srqRepost (srq : Mlx5Srq) (ind : Nat) : Option Mlx5Srq := do
  let id ← srq.wrid[ind]?
  let wrid ← store srq.wrid srq.head id
  let src ← srq.wqes[ind]?
  let dst ← srq.wqes[srq.head]?
  let scat ← copyScat srq.maxGs src.scat dst.scat
  let wqes ← store srq.wqes srq.head { dst with scat }
  let counter := (srq.counter + 1) % 2 ^ 16
  some { srq with wrid, wqes, head := dst.nextWqeIndex, counter, db := counter }

def mlx5CompleteOdpFault (srq : Mlx5Srq) (ind : Nat) : Option Mlx5Srq := do
  let (srq, cooled) ← srqCooldownWqe srq ind
  let srq ← if cooled then some srq else mlx5FreeSrqWqe srq ind
  srqRepost srq ind

/-! ### Posting -/

/-- `struct ibv_recv_wr`; `num_sge` is the length of the list. -/
structure RecvWr where
  wrId : Nat
  sgList : List WqeDataSeg
  deriving DecidableEq, Repr

inductive Errno where
  | EINVAL
  | ENOMEM
  deriving DecidableEq, Repr

/-- The segments of a request over those of an element with room for `maxGs`. -/
def writeScat : (maxGs : Nat) → (sgList scat : List WqeDataSeg) → Option (List WqeDataSeg)
  | 0, [], scat => some scat
  | _ + 1, [], _ :: scat => some (lastSeg :: scat)
  | maxGs + 1, s :: sgList, _ :: scat => (writeScat maxGs sgList scat).map (s :: ·)
  | _, _, _ => none

/-- One request, written to the element at `head`. -/
def postWqe (srq : Mlx5Srq) (wr : RecvWr) : Option Mlx5Srq := do
  let wrid ← store srq.wrid srq.head wr.wrId
  let next ← srq.wqes[srq.head]?
  let scat ← writeScat srq.maxGs wr.sgList next.scat
  let wqes ← store srq.wqes srq.head { next with scat }
  some { srq with wrid, wqes, head := next.nextWqeIndex }

/-- The loop over the requests: the queue, how many were written, and the error that
ended it. -/
def postLoop : Mlx5Srq → List RecvWr → Option (Mlx5Srq × Nat × Option Errno)
  | srq, [] => some (srq, 0, none)
  | srq, wr :: wrs =>
      if wr.sgList.length > srq.maxGs then some (srq, 0, some .EINVAL)
      else if srq.head = srq.tail then some (srq, 0, some .ENOMEM)
      else do
        let srq ← postWqe srq wr
        let (srq, nreq, err) ← postLoop srq wrs
        some (srq, nreq + 1, err)

/-- `mlx5_post_srq_recv`; `bad_wr` is the request after the first `nreq`. -/
def mlx5PostSrqRecv (srq : Mlx5Srq) (wrs : List RecvWr) :
    Option (Mlx5Srq × Nat × Option Errno) := do
  let (srq, nreq, err) ← postLoop srq wrs
  if nreq = 0 then
    some (srq, nreq, err)
  else
    let counter := (srq.counter + nreq) % 2 ^ 16
    some ({ srq with counter, db := counter }, nreq, err)

/-! ### The buffer -/

/-- The loop of `set_srq_buf_ll` from `start` over `n` elements. -/
def setSrqBufLl : (n start : Nat) → Mlx5Srq → Option Mlx5Srq
  | 0, _, srq => some srq
  | n + 1, i, srq => (srq.setNext i (i + 1)).bind (setSrqBufLl n (i + 1))

/-- The limits of the context.  A queue of the device has at most `2 ^ 16` elements, the
number a link can tell apart, and a descriptor has at most 16 kilobytes with its link. -/
structure SrqCaps where
  maxSrqRecvWr : Nat
  maxRecvWr : Nat
  maxRqDescSz : Nat
  max_lt : maxSrqRecvWr < 2 ^ 16
  desc_le : maxRqDescSz + 16 ≤ 2 ^ 14

/-- What the two allocations give: the old contents of the buffer, zeroes unless the
application brings its own allocator, and whether there is memory for `wrid`. -/
structure SrqMemory where
  next : Nat → Nat
  seg : Nat → Nat → WqeDataSeg
  oldWrid : Nat → Nat

/-- `mlx5_alloc_srq_buf` for a queue with `maxGs` segments in an element.  The inner `none`
is an error return. -/
def mlx5AllocSrqBuf (caps : SrqCaps) (memory : Option SrqMemory) (origMaxWr maxGs : Nat) :
    Option (Option Mlx5Srq) :=
  let haveWq := !(decide (origMaxWr * 2 + 1 > caps.maxSrqRecvWr))
  let maxWr := if haveWq then origMaxWr * 2 + 1 else origMaxWr + 1
  let size := roundupPowOfTwo (max 32 (16 + maxGs * 16))
  if size > caps.maxRecvWr then
    some none
  else if alignQueueSize maxWr * size ≥ 2 ^ 31 then
    none
  else
    match memory with
    | none => some none
    | some memory =>
        let maxGs := (size - 16) / 16
        let max := alignQueueSize maxWr
        let tail := alignQueueSize (origMaxWr + 1) - 1
        let srq : Mlx5Srq :=
          { wqes := (List.range max).map fun i =>
              ⟨memory.next i, (List.range maxGs).map (memory.seg i)⟩
            wrid := (List.range max).map memory.oldWrid
            max, maxGs, head := 0, tail
            waitqHead := if haveWq then tail + 1 else -1
            waitqTail := if haveWq then max - 1 else -1
            counter := 0, db := 0 }
        (setSrqBufLl tail 0 srq).bind fun srq =>
          (if haveWq then setSrqBufLl (max - 1 - (tail + 1)) (tail + 1) srq else some srq).map some

/-- The checks of `mlx5_create_srq` and the buffer.  The doorbell record, the command and
the table entry that follow either all succeed or leave no queue. -/
def mlx5CreateSrq (caps : SrqCaps) (memory : Option SrqMemory) (maxWr maxSge : Nat) :
    Option (Option Mlx5Srq) :=
  if maxWr > caps.maxSrqRecvWr then some none
  else if maxSge > caps.maxRqDescSz / 16 then some none
  else mlx5AllocSrqBuf caps memory maxWr maxSge

/-! ### The device -/

/-- The queue and the device: the next element it takes, the number it took, and the
elements it works on. -/
structure SrqSystem where
  srq : Mlx5Srq
  hwHead : Nat
  hwCounter : Nat
  inflight : List Nat
  deriving DecidableEq, Repr

/-- The segments the device uses: those before the first invalid key. -/
def scatterOf (scat : List WqeDataSeg) : List WqeDataSeg := scat.takeWhile (·.lkey ≠ invalidLkey)

inductive SrqOp where
  /-- the application posts requests -/
  | post (wrs : List RecvWr)
  /-- the device takes an element -/
  | fetch
  /-- the driver handles a completion of an element -/
  | complete (ind : Nat)
  /-- the driver handles a page fault of an element -/
  | fault (ind : Nat)
  deriving DecidableEq, Repr

inductive SrqOut where
  | posted (nreq : Nat) (err : Option Errno)
  | fetched (ind : Nat) (scat : List WqeDataSeg)
  | completed (wrId : Nat) (scat : List WqeDataSeg)
  | faulted
  deriving DecidableEq, Repr

/-- One step.  For a completion the driver reads the request's number, frees the element,
and then still reads its segments for data that came with the completion. -/
def SrqSystem.step (s : SrqSystem) : SrqOp → Option (SrqSystem × SrqOut)
  | .post wrs => do
      let (srq, nreq, err) ← mlx5PostSrqRecv s.srq wrs
      some ({ s with srq }, .posted nreq err)
  | .fetch => do
      let wqe ← s.srq.wqes[s.hwHead]?
      some ({ s with
        hwHead := wqe.nextWqeIndex
        hwCounter := (s.hwCounter + 1) % 2 ^ 16
        inflight := s.hwHead :: s.inflight }, .fetched s.hwHead (scatterOf wqe.scat))
  | .complete ind => do
      let id ← s.srq.wrid[ind]?
      let srq ← mlx5FreeSrqWqe s.srq ind
      let wqe ← srq.wqes[ind]?
      some ({ s with srq, inflight := s.inflight.erase ind }, .completed id (scatterOf wqe.scat))
  | .fault ind => do
      let srq ← mlx5CompleteOdpFault s.srq ind
      some ({ s with srq, inflight := s.inflight.erase ind }, .faulted)

/-- What the device keeps to: it takes elements only as far as the counter in the record
tells it to, and a completion or a fault is of an element it works on. -/
def SrqOp.Legal (s : SrqSystem) : SrqOp → Prop
  | .post _ => True
  | .fetch => s.hwCounter ≠ s.srq.db
  | .complete ind => ind ∈ s.inflight
  | .fault ind => ind ∈ s.inflight

instance SrqOp.decidableLegal (s : SrqSystem) : ∀ op : SrqOp, Decidable (op.Legal s)
  | .post _ => inferInstanceAs (Decidable True)
  | .fetch => inferInstanceAs (Decidable (s.hwCounter ≠ s.srq.db))
  | .complete ind => inferInstanceAs (Decidable (ind ∈ s.inflight))
  | .fault ind => inferInstanceAs (Decidable (ind ∈ s.inflight))

/-- A new queue at the device. -/
def SrqSystem.init (srq : Mlx5Srq) : SrqSystem :=
  { srq, hwHead := 0, hwCounter := 0, inflight := [] }

/-- The operations keep to that from the state on. -/
def SrqLegal (s : SrqSystem) (ops : List SrqOp) : Prop :=
  Machine.Respects (fun s op => op.Legal s) SrqSystem.step s ops

instance (s : SrqSystem) (ops : List SrqOp) : Decidable (SrqLegal s ops) :=
  Machine.decidableRespects _ _ _ _

end Nicmem
