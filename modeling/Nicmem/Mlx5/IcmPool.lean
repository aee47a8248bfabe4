/-
The pool of steering memory: `dr_icm_pool.c`.

A pool is a list of buddy allocators, each over one piece of device memory.  A chunk is a
block of one of them.  A freed chunk is hot: the device may still use its memory, and it
goes back to its allocator only after a sync command of the device succeeded.

What the operating system and the device answer to the calls of one operation is given
with the operation: a pointer or a failure of `calloc`, the address of device memory,
whether the sync command succeeded.  A structure is known by its pointer (`ptr`), and the
intrusive lists of the source are lists of structures.  The arrays a chunk carries for
the steering tables (`ste_arr`, `hw_ste_arr`, `miss_list`) are left out; whether they
could be allocated is not.
-/
import Nicmem.Mlx5.Buddy
import Mathlib.Data.Nat.Size

namespace Nicmem

inductive DrIcmType where
  | STE
  | MODIFY_ACTION
  deriving DecidableEq, Repr

/-- `ilog32`: the number of bits of a number. -/
def ilog32 (v : Nat) : Nat := Nat.size v

def drIcmPoolDmTypeToEntrySize : DrIcmType → Nat
  | .STE => 64
  | .MODIFY_ACTION => 8

def drIcmPoolChunkSizeToEntries (chunkSize : Nat) : Nat := 1 <<< chunkSize

def drIcmPoolChunkSizeToByte (chunkSize : Nat) (icmType : DrIcmType) : Nat :=
  drIcmPoolDmTypeToEntrySize icmType * drIcmPoolChunkSizeToEntries chunkSize

/-- `struct dr_icm_mr`, with the address of its device memory and of its memory region. -/
structure DrIcmMr where
  remoteVa : Nat
  dmLength : Nat
  mrAddr : Nat
  rkey : Nat
  icmStartAddr : Nat
  deriving DecidableEq, Repr

structure DrIcmChunk where
  ptr : Nat
  buddyMem : Nat
  rkey : Nat
  numOfEntries : Nat
  byteSize : Nat
  icmAddr : Nat
  mrAddr : Nat
  seg : Nat
  deriving DecidableEq, Repr

/-- `struct dr_icm_buddy_mem`: the allocator (`mem`), its memory and its chunks. -/
structure IcmBuddy where
  ptr : Nat
  mem : DrIcmBuddyMem
  icmMr : DrIcmMr
  usedList : List DrIcmChunk
  usedMemory : Nat
  hotList : List DrIcmChunk
  deriving DecidableEq, Repr

/-- `struct dr_icm_pool`; `reclaim` is the flag of its domain, which may be switched. -/
structure DrIcmPool where
  icmType : DrIcmType
  maxLogChunkSz : Nat
  reclaim : Bool
  buddyMemList : List IcmBuddy
  hotMemorySize : Nat
  deriving DecidableEq, Repr

/-- The answers to the calls of one `dr_icm_alloc_chunk`. -/
structure IcmEnv where
  /-- `calloc` of the `dr_icm_mr` -/
  icmMr : Bool
  /-- `mlx5dv_alloc_dm`, and the same again for twice the size -/
  dm : Option Nat
  dmDouble : Option Nat
  /-- `ibv_reg_dm_mr`: the address and the key -/
  regMr : Option (Nat × Nat)
  /-- `calloc` of the `dr_icm_buddy_mem`, and whether `dr_buddy_init` got its arrays -/
  buddy : Option Nat
  buddyInit : Bool
  /-- `calloc` of the `dr_icm_chunk`, and whether `dr_icm_chunk_ste_init` got its arrays -/
  chunk : Option Nat
  steInit : Bool
  deriving DecidableEq, Repr

/-! ### The memory of an allocator -/

/-- The size of the memory of one allocator. -/
def DrIcmPool.size (pool : DrIcmPool) : Nat :=
  drIcmPoolChunkSizeToByte pool.maxLogChunkSz pool.icmType

/-- The logarithm of the alignment: the size itself for steering entries, 64 bytes for
header modification. -/
def DrIcmPool.logAlignBase (pool : DrIcmPool) : Nat :=
  match pool.icmType with
  | .STE => ilog32 (pool.size - 1)
  | .MODIFY_ACTION => ilog32 (64 - 1)

/-- The address, the length and the aligned start of the device memory, or a failure. -/
def drIcmAllocateAlignedDm (pool : DrIcmPool) (env : IcmEnv) : Option (Nat × Nat × Nat) := do
  let size := pool.size
  let alignBase := 1 <<< pool.logAlignBase
  let va ← env.dm
  if va &&& (alignBase - 1) = 0 then
    some (va, size, va)
  else
    -- the memory is given back, and twice as much asked for
    let va ← env.dmDouble
    if va &&& (alignBase - 1) = 0 then
      some (va, size * 2, va)
    else
      some (va, size * 2, va + (alignBase - va % alignBase))

def drIcmPoolMrCreate (pool : DrIcmPool) (env : IcmEnv) : Option DrIcmMr :=
  if env.icmMr then
    (drIcmAllocateAlignedDm pool env).bind fun dm =>
      env.regMr.map fun mr =>
        { remoteVa := dm.1, dmLength := dm.2.1, icmStartAddr := dm.2.2, mrAddr := mr.1
          rkey := mr.2 }
  else
    none

/-- The pool with a new allocator at the start of its list; the inner `none` is an error. -/
def drIcmBuddyCreate (pool : DrIcmPool) (env : IcmEnv) : Option (Option DrIcmPool) :=
  match drIcmPoolMrCreate pool env, env.buddy with
  | some icmMr, some ptr =>
      if env.buddyInit then
        (drBuddyInit pool.maxLogChunkSz).map fun mem =>
          let buddy := { ptr, mem, icmMr, usedList := [], usedMemory := 0, hotList := [] }
          some { pool with buddyMemList := buddy :: pool.buddyMemList }
      else
        some none
  | _, _ => some none

/-! ### dr_icm_alloc_chunk -/

/-- The loop over the allocators: the first with memory, its segment and the list after
the attempts.  With new memory the first allocator must have some. -/
def drIcmTryBuddies (chunkSize : Nat) (newMem : Bool) :
    List IcmBuddy → Option (Option (Nat × Nat) × List IcmBuddy)
  | [] => some (none, [])
  | buddy :: buddies => do
      let (seg, mem) ← drBuddyAllocMem buddy.mem chunkSize
      if seg ≠ -1 then
        some (some (buddy.ptr, seg.toNat), { buddy with mem } :: buddies)
      else if newMem then
        none
      else
        let (found, buddies) ← drIcmTryBuddies chunkSize newMem buddies
        some (found, { buddy with mem } :: buddies)

/-- The allocator and the segment, or an error, and the pool.  After a new allocator was
added the loop over the list does not end without a result. -/
def drIcmHandleBuddiesGetMem (pool : DrIcmPool) (chunkSize : Nat) (env : IcmEnv) :
    Option (Option (Nat × Nat) × DrIcmPool) := do
  let (found, buddies) ← drIcmTryBuddies chunkSize false pool.buddyMemList
  let pool := { pool with buddyMemList := buddies }
  match found with
  | some r => some (some r, pool)
  | none =>
      let created ← drIcmBuddyCreate pool env
      match created with
      | none => some (none, pool)
      | some pool =>
          let (found, buddies) ← drIcmTryBuddies chunkSize true pool.buddyMemList
          let r ← found
          some (some r, { pool with buddyMemList := buddies })

/-- The allocator with the given pointer, changed in place. -/
def DrIcmPool.updateBuddy (pool : DrIcmPool) (ptr : Nat) (f : IcmBuddy → Option IcmBuddy) :
    Option DrIcmPool :=
  (pool.buddyMemList.mapM fun buddy => if buddy.ptr = ptr then f buddy else some buddy).map
    fun buddies => { pool with buddyMemList := buddies }

/-- The fields of a new chunk. -/
def drIcmChunkOf (pool : DrIcmPool) (chunkSize : Nat) (buddy : IcmBuddy) (seg ptr : Nat) :
    DrIcmChunk :=
  let offset := drIcmPoolDmTypeToEntrySize pool.icmType * seg
  { ptr
    buddyMem := buddy.ptr
    rkey := buddy.icmMr.rkey
    mrAddr := buddy.icmMr.mrAddr + offset
    icmAddr := buddy.icmMr.icmStartAddr + offset
    numOfEntries := drIcmPoolChunkSizeToEntries chunkSize
    byteSize := drIcmPoolChunkSizeToByte chunkSize pool.icmType
    seg }

/-- `dr_icm_chunk_create`, for the allocator with pointer `buddyPtr`: the pool with the
chunk in the used list, or an error. -/
def drIcmChunkCreate (pool : DrIcmPool) (chunkSize buddyPtr seg : Nat) (env : IcmEnv) :
    Option (Option DrIcmPool) :=
  match env.chunk with
  | none => some none
  | some ptr =>
      if pool.icmType = .STE ∧ env.steInit = false then
        some none
      else
        (pool.updateBuddy buddyPtr fun buddy =>
          let chunk := drIcmChunkOf pool chunkSize buddy seg ptr
          some { buddy with
            usedMemory := buddy.usedMemory + chunk.byteSize
            usedList := buddy.usedList ++ [chunk] }).map some

/-- The pool after the call, and whether a chunk was returned. -/
def drIcmAllocChunk (pool : DrIcmPool) (chunkSize : Nat) (env : IcmEnv) :
    Option (DrIcmPool × Bool) := do
  if chunkSize > pool.maxLogChunkSz then
    some (pool, false)
  else
    let (found, pool) ← drIcmHandleBuddiesGetMem pool chunkSize env
    match found with
    | none => some (pool, false)
    | some (buddyPtr, seg) =>
        let created ← drIcmChunkCreate pool chunkSize buddyPtr seg env
        match created with
        | some pool => some (pool, true)
        | none =>
            -- the memory goes back to its allocator
            let pool ← pool.updateBuddy buddyPtr fun buddy =>
              (drBuddyFreeMem buddy.mem seg chunkSize).map fun mem => { buddy with mem }
            some (pool, false)

/-! ### dr_icm_free_chunk -/

/-- `dr_icm_pool_is_sync_required`. -/
def drIcmPoolIsSyncRequired (pool : DrIcmPool) : Bool := pool.hotMemorySize > 64 * 1024 * 1024

/-- The hot chunks of one allocator go back to it; `hot` is `hot_memory_size`. -/
def drIcmSyncChunks : List DrIcmChunk → IcmBuddy → (hot : Nat) → Option (IcmBuddy × Nat)
  | [], buddy, hot => some (buddy, hot)
  | chunk :: chunks, buddy, hot => do
      let mem ← drBuddyFreeMem buddy.mem chunk.seg (ilog32 (chunk.numOfEntries - 1))
      let usedMemory := buddy.usedMemory - chunk.byteSize
      drIcmSyncChunks chunks { buddy with mem, usedMemory, hotList := chunks }
        (hot - chunk.byteSize)

/-- The allocators one after the other; one without memory in use is destroyed if the
domain reclaims. -/
def drIcmSyncBuddies (pool : DrIcmPool) : List IcmBuddy → (hot : Nat) → Option (List IcmBuddy × Nat)
  | [], hot => some ([], hot)
  | buddy :: buddies, hot => do
      let (buddy, hot) ← drIcmSyncChunks buddy.hotList buddy hot
      let (buddies, hot) ← drIcmSyncBuddies pool buddies hot
      if pool.reclaim ∧ pool.icmType = .STE ∧ buddy.usedMemory = 0 then
        some (buddies, hot)
      else
        some (buddy :: buddies, hot)

/-- `sync` is whether the command of the device succeeded. -/
def drIcmPoolSyncAllBuddyPools (pool : DrIcmPool) (sync : Bool) : Option DrIcmPool :=
  if sync then
    (drIcmSyncBuddies pool pool.buddyMemList pool.hotMemorySize).map fun r =>
      { pool with buddyMemList := r.1, hotMemorySize := r.2 }
  else
    some pool

def drIcmFreeChunk (pool : DrIcmPool) (chunk : DrIcmChunk) (sync : Bool) : Option DrIcmPool := do
  let pool ← pool.updateBuddy chunk.buddyMem fun buddy =>
    some { buddy with
      usedList := buddy.usedList.filter (·.ptr ≠ chunk.ptr)
      hotList := buddy.hotList ++ [chunk] }
  let pool := { pool with hotMemorySize := pool.hotMemorySize + chunk.byteSize }
  let pool ← (if drIcmPoolIsSyncRequired pool then drIcmPoolSyncAllBuddyPools pool sync
    else some pool)
  -- the mutex is unlocked through the allocator of the chunk, which the sync may have freed
  if pool.buddyMemList.any (·.ptr = chunk.buddyMem) then some pool else none

/-- `mlx5dv_dr_domain_set_reclaim_device_memory`, for the pool of a domain. -/
def drDomainSetReclaim (pool : DrIcmPool) (enable : Bool) : DrIcmPool :=
  { pool with reclaim := enable }

/-! ### The clients of a pool -/

/-- The chunks the clients hold. -/
def DrIcmPool.used (pool : DrIcmPool) : List DrIcmChunk := pool.buddyMemList.flatMap (·.usedList)

/-- The chunks that wait for a sync. -/
def DrIcmPool.hot (pool : DrIcmPool) : List DrIcmChunk := pool.buddyMemList.flatMap (·.hotList)

/-- The chunks of an allocator whose memory the device may use. -/
def IcmBuddy.chunks (buddy : IcmBuddy) : List DrIcmChunk := buddy.usedList ++ buddy.hotList

/-- The chunks whose memory the device may use. -/
def DrIcmPool.chunks (pool : DrIcmPool) : List DrIcmChunk := pool.buddyMemList.flatMap (·.chunks)

/-- `calloc` and the device hand out nothing that is in use. -/
def IcmEnv.Fresh (env : IcmEnv) (pool : DrIcmPool) : Prop :=
  (∀ ptr ∈ env.chunk, ptr ∉ pool.chunks.map (·.ptr)) ∧
  (∀ ptr ∈ env.buddy, ptr ∉ pool.buddyMemList.map (·.ptr)) ∧
  ∀ dm ∈ drIcmAllocateAlignedDm pool env, ∀ buddy ∈ pool.buddyMemList,
    dm.1 + dm.2.1 ≤ buddy.icmMr.remoteVa ∨
      buddy.icmMr.remoteVa + buddy.icmMr.dmLength ≤ dm.1

instance (env : IcmEnv) (pool : DrIcmPool) : Decidable (env.Fresh pool) :=
  inferInstanceAs (Decidable (_ ∧ _ ∧ _))

/-- Freeing the chunk destroys its own allocator: a sync is due and succeeds, the domain
reclaims, and the chunk is the only one of the allocator in use. -/
def DrIcmPool.DestroysOwn (pool : DrIcmPool) (chunk : DrIcmChunk) (sync : Bool) : Prop :=
  sync = true ∧ 64 * 1024 * 1024 < pool.hotMemorySize + chunk.byteSize ∧
    pool.reclaim = true ∧ pool.icmType = .STE ∧
    ∀ c ∈ pool.used, c.buddyMem = chunk.buddyMem → c.ptr = chunk.ptr

instance (pool : DrIcmPool) (chunk : DrIcmChunk) (sync : Bool) :
    Decidable (pool.DestroysOwn chunk sync) :=
  inferInstanceAs (Decidable (_ ∧ _ ∧ _ ∧ _ ∧ _))

inductive IcmOp where
  | alloc (chunkSize : Nat) (env : IcmEnv)
  | free (ptr : Nat) (sync : Bool)
  | setReclaim (enable : Bool)
  deriving DecidableEq, Repr

/-- One call of a client.  To free a chunk that it does not hold is undefined. -/
def DrIcmPool.step (pool : DrIcmPool) : IcmOp → Option (DrIcmPool × Bool)
  | .alloc chunkSize env => drIcmAllocChunk pool chunkSize env
  | .free ptr sync =>
      (pool.used.find? (·.ptr = ptr)).bind fun chunk =>
        (drIcmFreeChunk pool chunk sync).map fun pool => (pool, true)
  | .setReclaim enable => some (drDomainSetReclaim pool enable, true)

/-- What the system and the clients keep to: nothing that is in use is handed out, and a
client frees a chunk that it holds and whose allocator the free does not destroy. -/
def IcmOp.Legal (pool : DrIcmPool) : IcmOp → Prop
  | .alloc _ env => env.Fresh pool
  | .free ptr sync => ∃ c ∈ pool.used, c.ptr = ptr ∧ ¬ pool.DestroysOwn c sync
  | .setReclaim _ => True

instance IcmOp.decidableLegal : ∀ (pool : DrIcmPool) (op : IcmOp), Decidable (op.Legal pool)
  | pool, .alloc _ env => inferInstanceAs (Decidable (env.Fresh pool))
  | pool, .free ptr sync =>
      inferInstanceAs (Decidable (∃ c ∈ pool.used, c.ptr = ptr ∧ ¬ pool.DestroysOwn c sync))
  | _, .setReclaim _ => inferInstanceAs (Decidable True)

/-- `dr_icm_pool_create`, with the largest chunk the domain allows: `dr_domain.c` sets 4K
for header modification, and at most 1024K entries of what the device has for steering. -/
def drIcmPoolCreate (icmType : DrIcmType) (logIcmSize : Nat) (reclaim : Bool) : DrIcmPool where
  icmType := icmType
  maxLogChunkSz := match icmType with
    | .STE => min 20 logIcmSize
    | .MODIFY_ACTION => 12
  reclaim := reclaim
  buddyMemList := []
  hotMemorySize := 0

/-- The calls keep to that from the pool on. -/
def IcmLegal (pool : DrIcmPool) (ops : List IcmOp) : Prop :=
  Machine.Respects (fun pool op => op.Legal pool) DrIcmPool.step pool ops

instance (pool : DrIcmPool) (ops : List IcmOp) : Decidable (IcmLegal pool ops) :=
  Machine.decidableRespects _ _ _ _

/-- The calls of the clients, from `dr_icm_pool_create` on. -/
def icmRun (icmType : DrIcmType) (logIcmSize : Nat) (reclaim : Bool) (ops : List IcmOp) :
    Option (DrIcmPool × List Bool) :=
  Machine.run DrIcmPool.step (drIcmPoolCreate icmType logIcmSize reclaim) ops

end Nicmem
