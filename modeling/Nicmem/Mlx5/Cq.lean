/-
The completion queue: the ring of `cq.c`, its cleaning and its resizing, and the device
that fills it.

The device writes completion entries into a ring.  The lowest bit of `op_own` is the owner
bit, which alternates from round to round; an entry belongs to the software if its owner
bit is that of the round and its opcode is not the invalid one every entry starts with.
The software takes entries at `cons_index`, and tells the device in the doorbell record how
far it got.

Indices have 32 bits in the source and are numbers taken modulo `2 ^ 32` here; the record
has 24 bits.  Where the source computes with `int`, an overflow has no result.  What an
entry holds besides the fields the driver looks at is one number, `payload`.  The device
has a running index of its own; what it writes during an operation of the driver is part
of that operation, and so are the answers of the kernel.
-/
import Nicmem.C.Array
import Nicmem.Machine
import Nicmem.Mlx5.Srq
import Mathlib.Data.BitVec

namespace Nicmem

open C

/-! ### Entries -/

/-- The fields of `struct mlx5_cqe64` used here; 24 bits of the first two count. -/
structure Cqe where
  opOwn : BitVec 8
  sopDropQpn : Nat
  srqnUidx : Nat
  wqeCounter : Nat
  payload : Nat
  deriving DecidableEq, Repr, Inhabited

def mlx5dvGetCqeOpcode (cqe : Cqe) : BitVec 8 := cqe.opOwn >>> 4

/-- `MLX5_CQE_INVALID` and `MLX5_CQE_RESIZE_CQ`. -/
def cqeInvalid : BitVec 8 := 15

def cqeResizeCq : BitVec 8 := 5

/-- `sw_ownership_bit`, which is also `!!(n & nent)`. -/
def swOwnershipBit (n nent : Nat) : BitVec 8 := if n &&& nent = 0 then 0 else 1

/-- `op_own` with another owner bit. -/
def Cqe.withOwner (cqe : Cqe) (owner : BitVec 8) : Cqe :=
  { cqe with opOwn := owner ||| (cqe.opOwn &&& ~~~1#8) }

/-! ### Polling -/

/-- The active buffer, `ibv_cq.cqe` (one less than the entries of the ring), the size of an
entry in bytes, the consumer index and the record. -/
structure Mlx5Cq where
  buf : List Cqe
  cqe : Nat
  cqeSz : Nat
  consIndex : Nat
  dbrec : Nat
  deriving DecidableEq, Repr

def getSwCqe (cq : Mlx5Cq) (n : Nat) : Option (Option Cqe) :=
  (cq.buf[n &&& cq.cqe]?).map fun cqe =>
    if mlx5dvGetCqeOpcode cqe ≠ cqeInvalid ∧
        (cqe.opOwn &&& 1#8) ^^^ swOwnershipBit n (cq.cqe + 1) = 0 then
      some cqe
    else
      none

/-- The next entry, or `CQ_EMPTY`. -/
def mlx5GetNextCqe (cq : Mlx5Cq) : Option (Mlx5Cq × Option Cqe) :=
  (getSwCqe cq cq.consIndex).map fun found =>
    match found with
    | none => (cq, none)
    | some cqe => ({ cq with consIndex := (cq.consIndex + 1) % 2 ^ 32 }, some cqe)

def updateConsIndex (cq : Mlx5Cq) : Mlx5Cq := { cq with dbrec := cq.consIndex &&& 0xffffff }

/-! ### Cleaning -/

def isResponder (opcode : BitVec 8) : Bool := opcode ∈ [1#8, 2#8, 3#8, 4#8, 14#8]

/-- Whether the entry is one of the resource `rsn`, and then the element of the shared
receive queue that is freed, if the resource has one. -/
def freeResCqe (cqe : Cqe) (rsn : Nat) (srq cqeVersion : Bool) : Bool × Option Nat :=
  if cqeVersion then
    if rsn = cqe.srqnUidx &&& 0xffffff then
      (true, if srq ∧ isResponder (mlx5dvGetCqeOpcode cqe) then some cqe.wqeCounter else none)
    else
      (false, none)
  else
    if rsn = cqe.sopDropQpn &&& 0xffffff then
      (true, if srq ∧ cqe.srqnUidx &&& 0xffffff ≠ 0 then some cqe.wqeCounter else none)
    else
      (false, none)

/-- The loop that finds the producer index; it ends after a round at the latest. -/
def cqProdIndex (cq : Mlx5Cq) : (fuel prodIndex : Nat) → Option Nat
  | 0, _ => none
  | fuel + 1, prodIndex => do
      match ← getSwCqe cq prodIndex with
      | none => some prodIndex
      | some _ =>
          if prodIndex = (cq.consIndex + cq.cqe) % 2 ^ 32 then
            some prodIndex
          else
            cqProdIndex cq fuel ((prodIndex + 1) % 2 ^ 32)

/-- A 32-bit number as an `int`. -/
def toInt32 (n : Nat) : Int := if n < 2 ^ 31 then n else n - 2 ^ 32

/-- `(int) a - (int) b`, if it is an `int`. -/
def intSub (a b : Nat) : Option Int :=
  let d := toInt32 a - toInt32 b
  if -2 ^ 31 ≤ d ∧ d < 2 ^ 31 then some d else none

/-- What the sweep changes: the buffer, how many entries were removed and which elements of
the shared receive queue were freed, the latest first. -/
structure CqSweep where
  buf : List Cqe
  nfreed : Nat
  freed : List Nat
  deriving DecidableEq, Repr

/-- One round of the sweep, for the entry at `prodIndex`. -/
def cqSweepStep (cq : Mlx5Cq) (rsn : Nat) (srq cqeVersion : Bool) (prodIndex : Nat) (w : CqSweep) :
    Option CqSweep := do
  let cqe ← w.buf[prodIndex &&& cq.cqe]?
  let (mine, freed) := freeResCqe cqe rsn srq cqeVersion
  if mine then
    some { w with nfreed := w.nfreed + 1, freed := w.freed ++ freed.toList }
  else if w.nfreed ≠ 0 then
    let buf ← updateAt w.buf ((prodIndex + w.nfreed) % 2 ^ 32 &&& cq.cqe) fun dest =>
      some (cqe.withOwner (dest.opOwn &&& 1#8))
    some { w with buf }
  else
    some w

/-- The sweep backwards from `prodIndex` to the consumer index. -/
def cqSweep (cq : Mlx5Cq) (rsn : Nat) (srq cqeVersion : Bool) :
    (fuel prodIndex : Nat) → CqSweep → Option CqSweep
  | 0, _, _ => none
  | fuel + 1, prodIndex, w => do
      let prodIndex := (prodIndex + 2 ^ 32 - 1) % 2 ^ 32
      let d ← intSub prodIndex cq.consIndex
      if d ≥ 0 then
        let w ← cqSweepStep cq rsn srq cqeVersion prodIndex w
        cqSweep cq rsn srq cqeVersion fuel prodIndex w
      else
        some w

/-- `__mlx5_cq_clean` after the producer index was found: the queue and the elements freed
in the shared receive queue. -/
def mlx5CqClean (cq : Mlx5Cq) (rsn : Nat) (srq cqeVersion : Bool) (prodIndex : Nat) :
    Option (Mlx5Cq × List Nat) := do
  let w ← cqSweep cq rsn srq cqeVersion (cq.cqe + 2) prodIndex ⟨cq.buf, 0, []⟩
  if w.nfreed ≠ 0 then
    some (updateConsIndex { cq with buf := w.buf, consIndex := (cq.consIndex + w.nfreed) % 2 ^ 32 },
      w.freed)
  else
    some ({ cq with buf := w.buf }, w.freed)

/-! ### Resizing -/

def isHw (own : BitVec 8) (n mask : Nat) : Bool := (own &&& 1#8) ^^^ swOwnershipBit n (mask + 1) ≠ 0

/-- `i + 1` for an `int`. -/
def intSucc (i : Nat) : Option Nat := if i = 2 ^ 31 - 1 then none else some ((i + 1) % 2 ^ 32)

/-- The loop of `mlx5_cq_resize_copy_cqes` from the entry `scqe` of index `i` on: the new
buffer, and whether the entry was found that marks the end.  Its other two exits are errors
that the driver only prints. -/
def resizeCopyLoop (old : List Cqe) (mask start : Nat) :
    (fuel i : Nat) → (scqe : Cqe) → (new : List Cqe) → Option (List Cqe × Bool)
  | 0, _, _, _ => none
  | fuel + 1, i, scqe, new => do
      if mlx5dvGetCqeOpcode scqe = cqeResizeCq then
        some (new, true)
      else
        let i ← intSucc i
        let new ← store new (i &&& (new.length - 1)) (scqe.withOwner (swOwnershipBit i new.length))
        let scqe ← old[i &&& mask]?
        if isHw scqe.opOwn i mask then some (new, false)
        else if i &&& mask = start then some (new, false)
        else resizeCopyLoop old mask start fuel i scqe new

/-- `mlx5_cq_resize_copy_cqes`: the new buffer and the consumer index. -/
def mlx5CqResizeCopyCqes (cq : Mlx5Cq) (new : List Cqe) : Option (List Cqe × Nat) := do
  let i := cq.consIndex
  let scqe ← cq.buf[i &&& cq.cqe]?
  if isHw scqe.opOwn i cq.cqe then
    some (new, cq.consIndex)
  else
    let (new, found) ← resizeCopyLoop cq.buf cq.cqe (i &&& cq.cqe) (cq.cqe + 1) i scqe new
    some (new, if found then (cq.consIndex + 1) % 2 ^ 32 else cq.consIndex)

/-- Entries that are all invalid, whatever the memory held. -/
def invalidCqes (memory : Nat → Cqe) (nent : Nat) : List Cqe :=
  (List.range nent).map fun i => { memory i with opOwn := cqeInvalid <<< 4 }

/-- `mlx5_alloc_cq_buf`, where the product of the sizes is an `int`.  The inner `none` is an
allocation that failed. -/
def mlx5AllocCqBuf (memory : Option (Nat → Cqe)) (nent cqeSz : Nat) : Option (Option (List Cqe)) :=
  if nent * cqeSz < 2 ^ 31 then some (memory.map fun memory => invalidCqes memory nent) else none

/-! ### The device -/

/-- The queue and the running index of the device. -/
structure CqSystem where
  cq : Mlx5Cq
  hwProd : Nat
  deriving DecidableEq, Repr

/-- The entries the device knows to be in use, from its index and the 24 bits of the record. -/
def CqSystem.inUse (s : CqSystem) : Nat := (s.hwProd % 2 ^ 24 + 2 ^ 24 - s.cq.dbrec) % 2 ^ 24

/-- The owner bit the device writes. -/
def hwOwner (nent prod : Nat) : BitVec 8 := if prod / nent % 2 = 1 then 1 else 0

/-- Entries are written to a ring from the index on. -/
def hwWrite : (buf : List Cqe) → (prod : Nat) → List Cqe → Option (List Cqe)
  | buf, _, [] => some buf
  | buf, prod, cqe :: cqes =>
      (store buf (prod % buf.length) (cqe.withOwner (hwOwner buf.length prod))).bind fun buf =>
        hwWrite buf (prod + 1) cqes

/-- The device writes completions. -/
def CqSystem.produce (s : CqSystem) (cqes : List Cqe) : Option CqSystem :=
  (hwWrite s.cq.buf s.hwProd cqes).map fun buf =>
    { s with cq := { s.cq with buf }, hwProd := s.hwProd + cqes.length }

/-- What the device does that got a new ring: the entries it ends the old one with, and the
completions it writes to the new one before the driver copies the old entries. -/
structure CqMove where
  ending : List Cqe
  meanwhile : List Cqe
  deriving DecidableEq, Repr

/-- `mlx5_resize_cq`, with the answer to `ibv_cmd_resize_cq`: the system, whether the call
succeeded, and the completions written meanwhile. -/
def CqSystem.resize (s : CqSystem) (cqe : Nat) (memory : Option (Nat → Cqe))
    (answer : Option CqMove) : Option (CqSystem × Bool × List Cqe) :=
  if cqe * 64 > 2 ^ 31 - 1 then some (s, false, [])
  else
    let nent := alignQueueSize (cqe + 1)
    if nent = s.cq.cqe + 1 then some (s, true, [])
    else
      (mlx5AllocCqBuf memory nent s.cq.cqeSz).bind fun ring =>
        match ring, answer with
        | some ring, some move => do
            let old ← hwWrite s.cq.buf s.hwProd move.ending
            let hwProd := s.hwProd + move.ending.length
            let new ← hwWrite ring hwProd move.meanwhile
            let (new, consIndex) ← mlx5CqResizeCopyCqes { s.cq with buf := old } new
            some ({ cq := { s.cq with buf := new, cqe := nent - 1, consIndex }
                    hwProd := hwProd + move.meanwhile.length }, true, move.meanwhile)
        | _, _ => some (s, false, [])

inductive CqOp where
  /-- the device writes a completion -/
  | produce (cqe : Cqe)
  /-- the driver takes an entry -/
  | next
  /-- the driver updates the record -/
  | update
  /-- the driver removes the entries of a resource; the device writes `meanwhile` after the
  producer index was found -/
  | clean (rsn : Nat) (srq cqeVersion : Bool) (meanwhile : List Cqe)
  /-- the driver resizes the queue -/
  | resize (cqe : Nat) (memory : Option (Nat → Cqe)) (answer : Option CqMove)

inductive CqOut where
  | produced
  | next (cqe : Option Cqe)
  | updated
  | cleaned (freed : List Nat)
  | resized (ok : Bool) (written : List Cqe)

def CqSystem.step (s : CqSystem) : CqOp → Option (CqSystem × CqOut)
  | .produce cqe => (s.produce [cqe]).map fun s => (s, .produced)
  | .next => (mlx5GetNextCqe s.cq).map fun r => ({ s with cq := r.1 }, .next r.2)
  | .update => some ({ s with cq := updateConsIndex s.cq }, .updated)
  | .clean rsn srq cqeVersion meanwhile => do
      let prodIndex ← cqProdIndex s.cq (s.cq.cqe + 1) s.cq.consIndex
      let s ← s.produce meanwhile
      let (cq, freed) ← mlx5CqClean s.cq rsn srq cqeVersion prodIndex
      some ({ s with cq }, .cleaned freed)
  | .resize cqe memory answer =>
      (s.resize cqe memory answer).map fun r => (r.1, .resized r.2.1 r.2.2)

/-- The checks of `create_cq` and a new ring, with the answer to `ibv_cmd_create_cq`.  The
inner `none` is an error return. -/
def createCq (cqe cqeSz : Nat) (memory : Option (Nat → Cqe)) (accepted : Bool) :
    Option (Option CqSystem) :=
  let ncqe := alignQueueSize (cqe + 1)
  if cqe = 0 ∨ ncqe > 1 <<< 24 ∨ ncqe < cqe + 1 then some none
  else if cqeSz ≠ 64 ∧ cqeSz ≠ 128 then some none
  else
    (mlx5AllocCqBuf memory ncqe cqeSz).map fun ring =>
      if accepted then
        ring.map fun buf =>
          { cq := { buf, cqe := ncqe - 1, cqeSz, consIndex := 0, dbrec := 0 }, hwProd := 0 }
      else
        none

/-! ### What the device keeps to -/

/-- Entries of a completion are neither invalid nor the mark of a resize. -/
def Cqe.Completion (cqe : Cqe) : Prop :=
  mlx5dvGetCqeOpcode cqe ≠ cqeInvalid ∧ mlx5dvGetCqeOpcode cqe ≠ cqeResizeCq

instance (cqe : Cqe) : Decidable cqe.Completion := inferInstanceAs (Decidable (_ ∧ _))

/-- Completions, for which there is room in the ring as far as the device knows. -/
def CqSystem.Room (s : CqSystem) (cqes : List Cqe) : Prop :=
  (∀ cqe ∈ cqes, cqe.Completion) ∧ s.inUse + cqes.length ≤ s.cq.cqe + 1

instance (s : CqSystem) (cqes : List Cqe) : Decidable (s.Room cqes) :=
  inferInstanceAs (Decidable (_ ∧ _))

/-- The indices from the driver's to the device's do not pass from `2 ^ 31 - 1` to `2 ^ 31`,
where they change their sign as an `int`. -/
def CqSystem.SignKept (s : CqSystem) : Prop :=
  s.cq.consIndex + (s.hwProd + 2 ^ 32 - s.cq.consIndex) % 2 ^ 32 < 2 ^ 31 ∨
    2 ^ 31 < s.cq.consIndex

instance (s : CqSystem) : Decidable s.SignKept := inferInstanceAs (Decidable (_ ∨ _))

/-- A device that takes a ring of `nent` entries ends the old ring with a mark, for which
there is room; the new ring has room for the entries in use, the mark and the completions
written meanwhile, and the record can count its entries. -/
def CqMove.Proper (s : CqSystem) (nent : Nat) (move : CqMove) : Prop :=
  move.ending.map mlx5dvGetCqeOpcode = [cqeResizeCq] ∧ s.inUse < s.cq.cqe + 1 ∧
    (∀ cqe ∈ move.meanwhile, cqe.Completion) ∧
    s.inUse + 1 + move.meanwhile.length ≤ nent ∧ nent < 2 ^ 24

instance (s : CqSystem) (nent : Nat) (move : CqMove) : Decidable (move.Proper s nent) :=
  inferInstanceAs (Decidable (_ ∧ _ ∧ _ ∧ _ ∧ _))

/-- A new ring is asked for only if its size in bytes is an `int`, and is taken only if the
copy can compute with the indices. -/
def CqSystem.MayResize (s : CqSystem) (cqe : Nat) (answer : Option CqMove) : Prop :=
  cqe * 64 ≤ 2 ^ 31 - 1 → alignQueueSize (cqe + 1) ≠ s.cq.cqe + 1 →
    alignQueueSize (cqe + 1) * s.cq.cqeSz < 2 ^ 31 ∧
      ∀ move ∈ answer, s.SignKept ∧ move.Proper s (alignQueueSize (cqe + 1))

instance (s : CqSystem) (cqe : Nat) (answer : Option CqMove) : Decidable (s.MayResize cqe answer) :=
  inferInstanceAs (Decidable (cqe * 64 ≤ 2 ^ 31 - 1 → alignQueueSize (cqe + 1) ≠ s.cq.cqe + 1 →
    alignQueueSize (cqe + 1) * s.cq.cqeSz < 2 ^ 31 ∧
      ∀ move ∈ answer, s.SignKept ∧ move.Proper s (alignQueueSize (cqe + 1))))

/-- What the device keeps to, and what the driver needs to compute with `int`. -/
def CqOp.Legal (s : CqSystem) : CqOp → Prop
  | .produce cqe => s.Room [cqe]
  | .next => True
  | .update => True
  | .clean _ _ _ meanwhile => s.SignKept ∧ s.Room meanwhile
  | .resize cqe _ answer => s.MayResize cqe answer

instance CqOp.decidableLegal (s : CqSystem) : ∀ op : CqOp, Decidable (op.Legal s)
  | .produce cqe => inferInstanceAs (Decidable (s.Room [cqe]))
  | .next => inferInstanceAs (Decidable True)
  | .update => inferInstanceAs (Decidable True)
  | .clean _ _ _ meanwhile => inferInstanceAs (Decidable (s.SignKept ∧ s.Room meanwhile))
  | .resize cqe _ answer => inferInstanceAs (Decidable (s.MayResize cqe answer))

/-- The operations keep to that from the state on. -/
def CqLegal (s : CqSystem) (ops : List CqOp) : Prop :=
  Machine.Respects (fun s op => op.Legal s) CqSystem.step s ops

instance (s : CqSystem) (ops : List CqOp) : Decidable (CqLegal s ops) :=
  Machine.decidableRespects _ _ _ _

end Nicmem
