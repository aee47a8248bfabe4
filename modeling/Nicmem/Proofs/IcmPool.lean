/-
What the clients of a steering-memory pool can rely on.

The device may use the memory of the chunks the clients hold and of the hot ones.  In
every run these chunks are disjoint, each lies inside the device memory of its allocator,
and the counters that decide about a sync and about giving device memory back count
exactly them.  So a freed chunk's memory is handed out again only after a sync.

An allocator is described by the invariant of its clients (`BuddyUse.Inv`), the clients
being the chunks on its two lists.  Operations touch one allocator of the list; the list
is split at it, and the rest is carried along.
-/
import Nicmem.Mlx5.IcmPool
import Nicmem.Proofs.BuddyRuns

namespace Nicmem

open C Dyadic

/-! ### Sizes -/

theorem ilog32_pred_two_pow (k : Nat) : ilog32 (2 ^ k - 1) = k := by
  have hpos := Nat.two_pow_pos k
  unfold ilog32
  refine Nat.le_antisymm (Nat.size_le.mpr (by omega)) ?_
  rcases k with _ | k
  · exact Nat.zero_le _
  · rw [Nat.succ_le_iff, Nat.lt_size, Nat.pow_succ]
    have := Nat.two_pow_pos k
    omega

/-- The order of a chunk, as the sync computes it. -/
def DrIcmChunk.order (chunk : DrIcmChunk) : Nat := ilog32 (chunk.numOfEntries - 1)

/-- The block of a chunk in its allocator. -/
def DrIcmChunk.block (chunk : DrIcmChunk) : Nat × Nat := (chunk.seg, chunk.order)

/-! ### One allocator -/

/-- A chunk of the allocator `buddy`. -/
structure ChunkOK (icmType : DrIcmType) (buddy : IcmBuddy) (chunk : DrIcmChunk) : Prop where
  buddyMem : chunk.buddyMem = buddy.ptr
  byteSize : chunk.byteSize = drIcmPoolDmTypeToEntrySize icmType * 2 ^ chunk.order
  icmAddr :
    chunk.icmAddr = buddy.icmMr.icmStartAddr + drIcmPoolDmTypeToEntrySize icmType * chunk.seg

/-- An allocator of a pool with its chunks. -/
structure IcmBuddy.OK (icmType : DrIcmType) (maxOrder : Nat) (buddy : IcmBuddy) : Prop where
  chunk : ∀ c ∈ buddy.chunks, ChunkOK icmType buddy c
  use : BuddyUse.Inv maxOrder ⟨buddy.mem, buddy.chunks.map (·.block)⟩
  usedMemory : buddy.usedMemory = (buddy.chunks.map (·.byteSize)).sum
  start : buddy.icmMr.remoteVa ≤ buddy.icmMr.icmStartAddr
  fits : buddy.icmMr.icmStartAddr + drIcmPoolChunkSizeToByte maxOrder icmType ≤
    buddy.icmMr.remoteVa + buddy.icmMr.dmLength
  aligned : icmType = .STE → drIcmPoolChunkSizeToByte maxOrder icmType ∣ buddy.icmMr.icmStartAddr

theorem entrySize_pos (icmType : DrIcmType) : 0 < drIcmPoolDmTypeToEntrySize icmType := by
  cases icmType <;> decide

theorem chunkSizeToByte_eq (k : Nat) (icmType : DrIcmType) :
    drIcmPoolChunkSizeToByte k icmType = drIcmPoolDmTypeToEntrySize icmType * 2 ^ k := by
  unfold drIcmPoolChunkSizeToByte drIcmPoolChunkSizeToEntries
  rw [Nat.shiftLeft_eq, Nat.one_mul]

theorem ChunkOK.byteSize_pos {icmType : DrIcmType} {buddy : IcmBuddy} {c : DrIcmChunk}
    (h : ChunkOK icmType buddy c) : 0 < c.byteSize := by
  rw [h.byteSize]
  exact Nat.mul_pos (entrySize_pos icmType) (Nat.two_pow_pos _)

/-- The addresses of a chunk. -/
def DrIcmChunk.range (chunk : DrIcmChunk) : Set Nat :=
  Set.Ico chunk.icmAddr (chunk.icmAddr + chunk.byteSize)

/-- An address of a chunk, in units of entries from the start, is a cell of its block. -/
theorem ChunkOK.cell_mem {icmType : DrIcmType} {buddy : IcmBuddy} {c : DrIcmChunk}
    (h : ChunkOK icmType buddy c) {a : Nat} (ha : a ∈ c.range) :
    buddy.icmMr.icmStartAddr ≤ a ∧
      (a - buddy.icmMr.icmStartAddr) / drIcmPoolDmTypeToEntrySize icmType ∈ blockCells c.block := by
  obtain ⟨hge, hlt⟩ := ha
  have hpos := entrySize_pos icmType
  rw [h.icmAddr] at hge hlt
  rw [h.byteSize, Nat.add_assoc, ← Nat.mul_add] at hlt
  refine ⟨by omega, ?_, ?_⟩
  · rw [Nat.le_div_iff_mul_le hpos, Nat.mul_comm]
    show _ * c.seg ≤ _
    omega
  · rw [Nat.div_lt_iff_lt_mul hpos, Nat.mul_comm]
    show _ < _ * (c.seg + 2 ^ c.order)
    omega

/-- The chunks of one allocator are disjoint. -/
theorem IcmBuddy.OK.pairwise {icmType : DrIcmType} {maxOrder : Nat} {buddy : IcmBuddy}
    (h : buddy.OK icmType maxOrder) :
    buddy.chunks.Pairwise fun c c' => Disjoint c.range c'.range := by
  have hblocks := List.pairwise_map.mp h.use.disjoint
  refine List.Pairwise.imp_of_mem (fun {c c'} hc hc' hdisj => ?_) hblocks
  refine Set.disjoint_left.mpr fun a ha ha' => ?_
  exact Set.disjoint_left.mp hdisj ((h.chunk c hc).cell_mem ha).2 ((h.chunk c' hc').cell_mem ha').2

/-- The chunks of an allocator lie inside its device memory. -/
theorem IcmBuddy.OK.range_subset {icmType : DrIcmType} {maxOrder : Nat} {buddy : IcmBuddy}
    (h : buddy.OK icmType maxOrder) {c : DrIcmChunk} (hc : c ∈ buddy.chunks) :
    c.range ⊆ Set.Ico buddy.icmMr.remoteVa (buddy.icmMr.remoteVa + buddy.icmMr.dmLength) := by
  intro a ha
  obtain ⟨hstart, hcell⟩ := (h.chunk c hc).cell_mem ha
  have hplaced := h.use.placed c.block (List.mem_map_of_mem hc)
  have hend : (a - buddy.icmMr.icmStartAddr) / drIcmPoolDmTypeToEntrySize icmType < 2 ^ maxOrder :=
    Nat.lt_of_lt_of_le hcell.2 hplaced.2
  rw [Nat.div_lt_iff_lt_mul (entrySize_pos icmType), Nat.mul_comm, ← chunkSizeToByte_eq] at hend
  have hfits := h.fits
  exact ⟨Nat.le_trans h.start hstart, by omega⟩

/-- In a pool of steering entries a chunk is aligned to its size. -/
theorem IcmBuddy.OK.chunk_aligned {maxOrder : Nat} {buddy : IcmBuddy}
    (h : buddy.OK .STE maxOrder) {c : DrIcmChunk} (hc : c ∈ buddy.chunks) :
    c.byteSize ∣ c.icmAddr := by
  obtain ⟨hseg, hend⟩ := h.use.placed c.block (List.mem_map_of_mem hc)
  have hle : c.order ≤ maxOrder :=
    (Nat.pow_le_pow_iff_right (Nat.lt_succ_self 1)).mp (Nat.le_trans (Nat.le_add_left _ _) hend)
  rw [(h.chunk c hc).byteSize, (h.chunk c hc).icmAddr]
  refine Nat.dvd_add ?_ (Nat.mul_dvd_mul_left _ hseg)
  refine Nat.dvd_trans ?_ (h.aligned rfl)
  rw [chunkSizeToByte_eq]
  exact Nat.mul_dvd_mul_left _ (Nat.pow_dvd_pow 2 hle)

/-! ### The whole pool -/

/-- Two pieces of device memory do not overlap. -/
def DrIcmMr.Apart (mr mr' : DrIcmMr) : Prop :=
  mr.remoteVa + mr.dmLength ≤ mr'.remoteVa ∨ mr'.remoteVa + mr'.dmLength ≤ mr.remoteVa

/-- What every run keeps. -/
structure DrIcmPool.Inv (pool : DrIcmPool) : Prop where
  room : pool.icmType = .MODIFY_ACTION → 3 ≤ pool.maxLogChunkSz
  buddy : ∀ b ∈ pool.buddyMemList, b.OK pool.icmType pool.maxLogChunkSz
  ptrs : (pool.buddyMemList.map (·.ptr)).Nodup
  chunkPtrs : (pool.chunks.map (·.ptr)).Nodup
  regions : pool.buddyMemList.Pairwise fun b b' => b.icmMr.Apart b'.icmMr
  hot : pool.hotMemorySize = (pool.hot.map (·.byteSize)).sum

/-- The parameters of a pool, which no operation changes. -/
def DrIcmPool.SameKind (pool pool' : DrIcmPool) : Prop :=
  pool'.icmType = pool.icmType ∧ pool'.maxLogChunkSz = pool.maxLogChunkSz

variable {pool : DrIcmPool} {env : IcmEnv} {l₁ l₂ : List IcmBuddy} {b b' : IcmBuddy}

/-- No two chunks share an address, in whatever allocators they are. -/
theorem DrIcmPool.Inv.pairwise (h : pool.Inv) :
    pool.chunks.Pairwise fun c c' => Disjoint c.range c'.range := by
  refine List.pairwise_flatMap.mpr ⟨fun b hb => (h.buddy b hb).pairwise, ?_⟩
  refine List.Pairwise.imp_of_mem (fun {b b'} hb hb' hapart c hc c' hc' => ?_) h.regions
  refine Set.disjoint_left.mpr fun a ha ha' => ?_
  have hin := (h.buddy b hb).range_subset hc ha
  have hin' := (h.buddy b' hb').range_subset hc' ha'
  rw [Set.mem_Ico] at hin hin'
  rcases hapart with hle | hle <;> omega

/-! ### One allocator of the list -/

theorem mapM_of_forall_eq_some {α : Type} {f : α → Option α} :
    ∀ {l : List α}, (∀ x ∈ l, f x = some x) → l.mapM f = some l := by
  intro l
  induction l with
  | nil =>
      intro _
      rfl
  | cons x l ih =>
      intro h
      rw [List.mapM_cons, h x List.mem_cons_self, ih fun y hy => h y (List.mem_cons_of_mem x hy)]
      rfl

/-- A change of the allocator with a given pointer changes that one. -/
theorem updateBuddy_eq {f : IcmBuddy → Option IcmBuddy}
    (hlist : pool.buddyMemList = l₁ ++ b :: l₂) (hptrs : (pool.buddyMemList.map (·.ptr)).Nodup)
    (hf : f b = some b') :
    pool.updateBuddy b.ptr f = some { pool with buddyMemList := l₁ ++ b' :: l₂ } := by
  rw [hlist, List.map_append, List.map_cons, List.nodup_append] at hptrs
  obtain ⟨-, hb, hapart⟩ := hptrs
  have h₁ : ∀ x ∈ l₁, (if x.ptr = b.ptr then f x else some x) = some x := fun x hx =>
    if_neg (hapart _ (List.mem_map_of_mem hx) _ List.mem_cons_self)
  have h₂ : ∀ x ∈ l₂, (if x.ptr = b.ptr then f x else some x) = some x := fun x hx =>
    if_neg fun heq : x.ptr = b.ptr => (List.nodup_cons.mp hb).1 (heq ▸ List.mem_map_of_mem hx)
  unfold DrIcmPool.updateBuddy
  rw [hlist, List.mapM_append, List.mapM_cons, mapM_of_forall_eq_some h₁,
    mapM_of_forall_eq_some h₂, if_pos rfl, hf]
  rfl

theorem chunks_split (l₁ l₂ : List IcmBuddy) (b : IcmBuddy) :
    (l₁ ++ b :: l₂).flatMap IcmBuddy.chunks =
      l₁.flatMap IcmBuddy.chunks ++ (b.chunks ++ l₂.flatMap IcmBuddy.chunks) := by
  rw [List.flatMap_append, List.flatMap_cons]

/-- An allocator is replaced by one in order that has the same pointer and memory. -/
theorem DrIcmPool.Inv.replace {hot : Nat} (h : pool.Inv)
    (hlist : pool.buddyMemList = l₁ ++ b :: l₂)
    (hok : b'.OK pool.icmType pool.maxLogChunkSz) (hptr : b'.ptr = b.ptr) (hmr : b'.icmMr = b.icmMr)
    (hchunks : (((l₁ ++ b' :: l₂).flatMap IcmBuddy.chunks).map (·.ptr)).Nodup)
    (hhot : hot = (((l₁ ++ b' :: l₂).flatMap (·.hotList)).map (·.byteSize)).sum) :
    DrIcmPool.Inv { pool with buddyMemList := l₁ ++ b' :: l₂, hotMemorySize := hot } where
  room := h.room
  buddy x hx := by
    have hold := h.buddy
    rw [hlist] at hold
    rcases List.mem_append.mp hx with hx | hx
    · exact hold x (List.mem_append_left _ hx)
    · rcases List.mem_cons.mp hx with rfl | hx
      · exact hok
      · exact hold x (List.mem_append_right _ (List.mem_cons_of_mem b hx))
  ptrs := by
    have hold := h.ptrs
    rw [hlist] at hold
    simpa only [List.map_append, List.map_cons, hptr] using hold
  chunkPtrs := hchunks
  regions := by
    have hold := h.regions
    rw [hlist] at hold
    simpa only [List.pairwise_append, List.pairwise_cons, List.mem_cons, forall_eq_or_imp, hmr]
      using hold
  hot := hhot

/-! ### New memory -/

/-- The memory of an allocator starts inside the device memory, aligned, and ends in it. -/
theorem drIcmAllocateAlignedDm_spec {va length start : Nat}
    (hroom : pool.icmType = .MODIFY_ACTION → 3 ≤ pool.maxLogChunkSz)
    (h : drIcmAllocateAlignedDm pool env = some (va, length, start)) :
    va ≤ start ∧ start + pool.size ≤ va + length ∧ 2 ^ pool.logAlignBase ∣ start := by
  have hpos := Nat.two_pow_pos pool.logAlignBase
  have hle : 2 ^ pool.logAlignBase ≤ pool.size := by
    unfold DrIcmPool.logAlignBase DrIcmPool.size
    rw [chunkSizeToByte_eq]
    cases htype : pool.icmType with
    | STE =>
        show 2 ^ ilog32 (2 ^ 6 * 2 ^ pool.maxLogChunkSz - 1) ≤ 2 ^ 6 * 2 ^ pool.maxLogChunkSz
        rw [← Nat.pow_add, ilog32_pred_two_pow]
    | MODIFY_ACTION =>
        show 2 ^ ilog32 (2 ^ 6 - 1) ≤ 2 ^ 3 * 2 ^ pool.maxLogChunkSz
        rw [ilog32_pred_two_pow, ← Nat.pow_add]
        exact Nat.pow_le_pow_right (Nat.succ_pos 1) (by have := hroom htype; omega)
  simp only [drIcmAllocateAlignedDm, bind, Option.bind_eq_some_iff, Nat.shiftLeft_eq, Nat.one_mul,
    Nat.and_two_pow_sub_one_eq_mod] at h
  obtain ⟨a, -, h⟩ := h
  split_ifs at h with haligned
  · simp only [Option.some.injEq, Prod.mk.injEq] at h
    obtain ⟨rfl, rfl, rfl⟩ := h
    exact ⟨Nat.le_refl a, Nat.le_refl _, Nat.dvd_of_mod_eq_zero haligned⟩
  · rw [Option.bind_eq_some_iff] at h
    obtain ⟨a₂, -, h⟩ := h
    split_ifs at h with haligned₂
    · simp only [Option.some.injEq, Prod.mk.injEq] at h
      obtain ⟨rfl, rfl, rfl⟩ := h
      exact ⟨Nat.le_refl a₂, by omega, Nat.dvd_of_mod_eq_zero haligned₂⟩
    · -- the start is moved up to the next aligned address
      simp only [Option.some.injEq, Prod.mk.injEq] at h
      obtain ⟨rfl, rfl, rfl⟩ := h
      have hlt := Nat.mod_lt a₂ hpos
      refine ⟨Nat.le_add_right _ _, by omega, ?_⟩
      have hsum : a₂ + (2 ^ pool.logAlignBase - a₂ % 2 ^ pool.logAlignBase) =
          2 ^ pool.logAlignBase * (a₂ / 2 ^ pool.logAlignBase + 1) := by
        have := Nat.div_add_mod a₂ (2 ^ pool.logAlignBase)
        rw [Nat.mul_add, Nat.mul_one]
        omega
      rw [hsum]
      exact Nat.dvd_mul_right _ _

theorem size_eq_alignBase (h : pool.icmType = .STE) : pool.size = 2 ^ pool.logAlignBase := by
  unfold DrIcmPool.logAlignBase DrIcmPool.size
  rw [h, chunkSizeToByte_eq]
  show 2 ^ 6 * 2 ^ pool.maxLogChunkSz = 2 ^ ilog32 (2 ^ 6 * 2 ^ pool.maxLogChunkSz - 1)
  rw [← Nat.pow_add, ilog32_pred_two_pow]

/-- A new allocator is in order and has no chunks, or there is an error. -/
theorem drIcmBuddyCreate_spec (h : pool.Inv) (hfresh : env.Fresh pool) :
    drIcmBuddyCreate pool env = some none ∨
    ∃ buddy, drIcmBuddyCreate pool env =
        some (some { pool with buddyMemList := buddy :: pool.buddyMemList }) ∧
      buddy.chunks = [] ∧ buddy.hotList = [] ∧
      DrIcmPool.Inv { pool with buddyMemList := buddy :: pool.buddyMemList } := by
  unfold drIcmBuddyCreate
  rcases hmr : drIcmPoolMrCreate pool env with _ | mr
  · exact Or.inl rfl
  rcases hptr : env.buddy with _ | ptr
  · exact Or.inl rfl
  rcases hinit : env.buddyInit with _ | _
  · exact Or.inl rfl
  obtain ⟨mem, hmem, hinv⟩ := drBuddyInit_inv pool.maxLogChunkSz
  unfold drIcmPoolMrCreate at hmr
  split_ifs at hmr
  rw [Option.bind_eq_some_iff] at hmr
  obtain ⟨⟨va, length, start⟩, hdm, hmr⟩ := hmr
  rw [Option.map_eq_some_iff] at hmr
  obtain ⟨⟨addr, rkey⟩, -, rfl⟩ := hmr
  obtain ⟨hstart, hfits, haligned⟩ := drIcmAllocateAlignedDm_spec h.room hdm
  refine Or.inr
    ⟨⟨ptr, mem, ⟨va, length, addr, rkey, start⟩, [], 0, []⟩, by simp [hmem], rfl, rfl, ?_⟩
  refine ⟨h.room, fun x hx => ?_, ?_, ?_, ?_, ?_⟩
  · rcases List.mem_cons.mp hx with rfl | hx
    · refine ⟨by simp [IcmBuddy.chunks], hinv, rfl, hstart, hfits,
        fun hste : pool.icmType = .STE => ?_⟩
      show pool.size ∣ start
      rw [size_eq_alignBase hste]
      exact haligned
    · exact h.buddy x hx
  · exact List.nodup_cons.mpr ⟨hfresh.2.1 ptr hptr, h.ptrs⟩
  · exact h.chunkPtrs
  · exact List.pairwise_cons.mpr ⟨fun x hx => hfresh.2.2 _ hdm x hx, h.regions⟩
  · exact h.hot

/-! ### Finding memory -/

/-- Memory was found: the segment is a block of the allocator `b` that no chunk has. -/
structure GotMem (chunkSize : Nat) (pool pool' : DrIcmPool) (l₁ : List IcmBuddy) (b : IcmBuddy)
    (l₂ : List IcmBuddy) (mem : DrIcmBuddyMem) (seg : Nat) : Prop where
  list : pool.buddyMemList = l₁ ++ b :: l₂
  after : pool' = { pool with buddyMemList := l₁ ++ { b with mem } :: l₂ }
  use : BuddyUse.Inv pool.maxLogChunkSz ⟨mem, (seg, chunkSize) :: b.chunks.map (·.block)⟩

/-- One pass over the list. -/
theorem drIcmTryBuddies_spec {icmType : DrIcmType} {maxOrder : Nat} (chunkSize : Nat) :
    ∀ (l : List IcmBuddy), (∀ b ∈ l, b.OK icmType maxOrder) →
      drIcmTryBuddies chunkSize false l = some (none, l) ∨
      ∃ l₁ b l₂ mem seg, l = l₁ ++ b :: l₂ ∧
        drIcmTryBuddies chunkSize false l = some (some (b.ptr, seg), l₁ ++ { b with mem } :: l₂) ∧
        BuddyUse.Inv maxOrder ⟨mem, (seg, chunkSize) :: b.chunks.map (·.block)⟩ := by
  intro l
  induction l with
  | nil =>
      intro _
      exact Or.inl rfl
  | cons b l ih =>
      intro hok
      rcases (hok b List.mem_cons_self).use.alloc chunkSize with ⟨heq, -⟩ | ⟨seg, mem, heq, hinv⟩
      · have hstep : ∀ r, drIcmTryBuddies chunkSize false l = some r →
            drIcmTryBuddies chunkSize false (b :: l) = some (r.1, b :: r.2) := by
          intro r hr
          simp [drIcmTryBuddies, heq, hr]
        rcases ih fun x hx => hok x (List.mem_cons_of_mem b hx) with
          hnone | ⟨l₁, b₁, l₂, mem, seg, rfl, htry, hinv⟩
        · exact Or.inl (hstep _ hnone)
        · exact Or.inr ⟨b :: l₁, b₁, l₂, mem, seg, rfl, hstep _ htry, hinv⟩
      · refine Or.inr ⟨[], b, l, mem, seg, rfl, ?_, hinv⟩
        have hne : (seg : Int) ≠ -1 := by omega
        simp [drIcmTryBuddies, heq, hne]

/-- With new memory the first allocator has a block of every order. -/
theorem drIcmTryBuddies_new {icmType : DrIcmType} {maxOrder chunkSize : Nat} {b : IcmBuddy}
    (l : List IcmBuddy) (hok : b.OK icmType maxOrder) (hnew : b.chunks = [])
    (hsize : chunkSize ≤ maxOrder) :
    ∃ mem seg,
      drIcmTryBuddies chunkSize true (b :: l) = some (some (b.ptr, seg), { b with mem } :: l) ∧
      BuddyUse.Inv maxOrder ⟨mem, (seg, chunkSize) :: b.chunks.map (·.block)⟩ := by
  rcases hok.use.alloc chunkSize with ⟨-, hnone⟩ | ⟨seg, mem, heq, hinv⟩
  · refine absurd (free_covered_iff.mpr ⟨⟨Dvd.intro_left 0 rfl, ?_⟩, ?_⟩) (hnone 0)
    · rw [Nat.zero_mul, Nat.zero_add]
      exact Nat.pow_le_pow_right (Nat.succ_pos 1) hsize
    · simp [hnew]
  · refine ⟨mem, seg, ?_, hinv⟩
    have hne : (seg : Int) ≠ -1 := by omega
    simp [drIcmTryBuddies, heq, hne]

/-- The search for memory ends with memory of the pool, with memory of a new allocator, or
with an error. -/
theorem drIcmHandleBuddiesGetMem_spec {chunkSize : Nat} (h : pool.Inv) (hfresh : env.Fresh pool)
    (hsize : chunkSize ≤ pool.maxLogChunkSz) :
    (drIcmHandleBuddiesGetMem pool chunkSize env = some (none, pool) ∧
      drIcmBuddyCreate pool env = some none) ∨
    ∃ pool₀ pool' l₁ b l₂ mem seg,
      drIcmHandleBuddiesGetMem pool chunkSize env = some (some (b.ptr, seg), pool') ∧
      pool₀.Inv ∧ pool.SameKind pool₀ ∧ pool₀.chunks = pool.chunks ∧ pool₀.hot = pool.hot ∧
      GotMem chunkSize pool₀ pool' l₁ b l₂ mem seg := by
  rcases drIcmTryBuddies_spec chunkSize pool.buddyMemList h.buddy with
    hnone | ⟨l₁, b, l₂, mem, seg, hlist, htry, hinv⟩
  · rcases drIcmBuddyCreate_spec h hfresh with herr | ⟨buddy, hcreate, hchunks, hhot, hnew⟩
    · exact Or.inl ⟨by simp [drIcmHandleBuddiesGetMem, hnone, herr], herr⟩
    · obtain ⟨mem, seg, htry, hinv⟩ := drIcmTryBuddies_new pool.buddyMemList
        (hnew.buddy buddy List.mem_cons_self) hchunks hsize
      refine Or.inr ⟨_, _, [], buddy, pool.buddyMemList, mem, seg, ?_, hnew, ⟨rfl, rfl⟩, ?_, ?_,
        rfl, rfl, hinv⟩
      · simp [drIcmHandleBuddiesGetMem, hnone, hcreate, htry]
      · unfold DrIcmPool.chunks
        rw [List.flatMap_cons, hchunks, List.nil_append]
      · unfold DrIcmPool.hot
        rw [List.flatMap_cons, hhot, List.nil_append]
  · refine Or.inr ⟨pool, _, l₁, b, l₂, mem, seg, ?_, h, ⟨rfl, rfl⟩, rfl, rfl, hlist, rfl, hinv⟩
    simp [drIcmHandleBuddiesGetMem, htry]

/-! ### Allocating a chunk -/

theorem DrIcmPool.Inv.ptrs_replace (h : pool.Inv) (hlist : pool.buddyMemList = l₁ ++ b :: l₂)
    (hptr : b'.ptr = b.ptr) : ((l₁ ++ b' :: l₂).map (·.ptr)).Nodup := by
  have hold := h.ptrs
  rw [hlist] at hold
  simpa only [List.map_append, List.map_cons, hptr] using hold

/-- The allocator with the new chunk on its used list. -/
def IcmBuddy.addChunk (b : IcmBuddy) (mem : DrIcmBuddyMem) (chunk : DrIcmChunk) : IcmBuddy :=
  { b with
    mem
    usedMemory := b.usedMemory + chunk.byteSize
    usedList := b.usedList ++ [chunk] }

theorem perm_addChunk (b : IcmBuddy) (mem : DrIcmBuddyMem) (chunk : DrIcmChunk) :
    (b.addChunk mem chunk).chunks.Perm (chunk :: b.chunks) := by
  unfold IcmBuddy.chunks IcmBuddy.addChunk
  rw [List.append_assoc]
  exact List.perm_middle

theorem order_drIcmChunkOf (pool : DrIcmPool) (chunkSize : Nat) (b : IcmBuddy) (seg ptr : Nat) :
    (drIcmChunkOf pool chunkSize b seg ptr).order = chunkSize := by
  unfold DrIcmChunk.order drIcmChunkOf drIcmPoolChunkSizeToEntries
  rw [Nat.shiftLeft_eq, Nat.one_mul, ilog32_pred_two_pow]

theorem addChunk_ok {chunkSize seg ptr : Nat} {mem : DrIcmBuddyMem}
    (hok : b.OK pool.icmType pool.maxLogChunkSz)
    (hinv : BuddyUse.Inv pool.maxLogChunkSz ⟨mem, (seg, chunkSize) :: b.chunks.map (·.block)⟩) :
    (b.addChunk mem (drIcmChunkOf pool chunkSize b seg ptr)).OK pool.icmType
      pool.maxLogChunkSz := by
  have hperm := perm_addChunk b mem (drIcmChunkOf pool chunkSize b seg ptr)
  have horder := order_drIcmChunkOf pool chunkSize b seg ptr
  refine ⟨fun c hc => ?_, ?_, ?_, hok.start, hok.fits, hok.aligned⟩
  · rcases List.mem_cons.mp (hperm.mem_iff.mp hc) with rfl | hold
    · refine ⟨rfl, ?_, rfl⟩
      rw [horder]
      exact chunkSizeToByte_eq chunkSize pool.icmType
    · exact ⟨(hok.chunk c hold).buddyMem, (hok.chunk c hold).byteSize, (hok.chunk c hold).icmAddr⟩
  · refine hinv.perm ?_
    have hblock : (drIcmChunkOf pool chunkSize b seg ptr).block = (seg, chunkSize) := by
      unfold DrIcmChunk.block
      rw [horder]
      rfl
    have := (hperm.map (·.block)).symm
    rwa [List.map_cons, hblock] at this
  · have hsum := (hperm.map (·.byteSize)).sum_nat
    rw [List.map_cons, List.sum_cons, ← hok.usedMemory, Nat.add_comm] at hsum
    exact hsum.symm

theorem flatMap_replace {β : Type} {f : IcmBuddy → List β} (l₁ l₂ : List IcmBuddy)
    (b b' : IcmBuddy) (hf : f b' = f b) :
    (l₁ ++ b' :: l₂).flatMap f = (l₁ ++ b :: l₂).flatMap f := by
  simp only [List.flatMap_append, List.flatMap_cons, hf]

theorem GotMem.perm_addChunk {pool' : DrIcmPool} {chunkSize seg : Nat} {mem : DrIcmBuddyMem}
    (hgot : GotMem chunkSize pool pool' l₁ b l₂ mem seg) (ptr : Nat) :
    ((l₁ ++ b.addChunk mem (drIcmChunkOf pool chunkSize b seg ptr) :: l₂).flatMap
      IcmBuddy.chunks).Perm (drIcmChunkOf pool chunkSize b seg ptr :: pool.chunks) := by
  unfold DrIcmPool.chunks
  rw [hgot.list, chunks_split, chunks_split]
  refine List.Perm.trans ?_ List.perm_middle
  refine List.Perm.append_left _ ?_
  exact (Nicmem.perm_addChunk b mem _).append_right _

/-- A chunk is added to an allocator of the pool. -/
theorem DrIcmPool.Inv.addChunk {pool' : DrIcmPool} {chunkSize seg ptr : Nat} {mem : DrIcmBuddyMem}
    (h : pool.Inv) (hgot : GotMem chunkSize pool pool' l₁ b l₂ mem seg)
    (hptr : ptr ∉ pool.chunks.map (·.ptr)) :
    DrIcmPool.Inv { pool with
      buddyMemList := l₁ ++ b.addChunk mem (drIcmChunkOf pool chunkSize b seg ptr) :: l₂ } := by
  have hb : b ∈ pool.buddyMemList := by rw [hgot.list]; simp
  refine h.replace hgot.list (addChunk_ok (h.buddy b hb) hgot.use) rfl rfl ?_ ?_
  · rw [((hgot.perm_addChunk ptr).map _).nodup_iff, List.map_cons, List.nodup_cons]
    exact ⟨hptr, h.chunkPtrs⟩
  · rw [h.hot, DrIcmPool.hot, hgot.list, flatMap_replace l₁ l₂ b (b.addChunk mem _) rfl]

/-- The memory found for a chunk goes back to its allocator. -/
theorem GotMem.giveBack {pool' : DrIcmPool} {chunkSize seg : Nat} {mem : DrIcmBuddyMem}
    (h : pool.Inv) (hgot : GotMem chunkSize pool pool' l₁ b l₂ mem seg) :
    ∃ mem', pool'.updateBuddy b.ptr
        (fun buddy => (drBuddyFreeMem buddy.mem seg chunkSize).map fun mem => { buddy with mem }) =
        some { pool with buddyMemList := l₁ ++ { b with mem := mem' } :: l₂ } ∧
      DrIcmPool.Inv { pool with buddyMemList := l₁ ++ { b with mem := mem' } :: l₂ } := by
  have hb : b ∈ pool.buddyMemList := by rw [hgot.list]; simp
  have hok := h.buddy b hb
  obtain ⟨mem', heq, hinv⟩ := hgot.use.free List.mem_cons_self
  rw [List.erase_cons_head] at hinv
  refine ⟨mem', ?_, ?_⟩
  · rw [hgot.after]
    exact updateBuddy_eq (b := { b with mem }) rfl (h.ptrs_replace hgot.list rfl)
      (by simp only [heq, Option.map_some])
  · refine h.replace hgot.list ?_ rfl rfl ?_ ?_
    · refine ⟨fun c hc => ?_, hinv, hok.usedMemory, hok.start, hok.fits, hok.aligned⟩
      exact ⟨(hok.chunk c hc).buddyMem, (hok.chunk c hc).byteSize, (hok.chunk c hc).icmAddr⟩
    · rw [flatMap_replace l₁ l₂ b { b with mem := mem' } rfl, ← hgot.list]
      exact h.chunkPtrs
    · rw [flatMap_replace l₁ l₂ b { b with mem := mem' } rfl, ← hgot.list]
      exact h.hot

/-- All calls of an allocation get what they ask for. -/
structure IcmEnv.Succeeds (env : IcmEnv) : Prop where
  icmMr : env.icmMr = true
  dm : env.dm.isSome
  dmDouble : env.dmDouble.isSome
  regMr : env.regMr.isSome
  buddy : env.buddy.isSome
  buddyInit : env.buddyInit = true
  chunk : env.chunk.isSome
  steInit : env.steInit = true

theorem IcmEnv.Succeeds.drIcmBuddyCreate_ne (henv : env.Succeeds) (pool : DrIcmPool) :
    drIcmBuddyCreate pool env ≠ some none := by
  obtain ⟨va, hva⟩ := Option.isSome_iff_exists.mp henv.dm
  obtain ⟨va₂, hva₂⟩ := Option.isSome_iff_exists.mp henv.dmDouble
  obtain ⟨mr, hmr⟩ := Option.isSome_iff_exists.mp henv.regMr
  obtain ⟨ptr, hptr⟩ := Option.isSome_iff_exists.mp henv.buddy
  obtain ⟨mem, hmem, -⟩ := drBuddyInit_inv pool.maxLogChunkSz
  have hdm : ∃ dm, drIcmAllocateAlignedDm pool env = some dm := by
    simp only [drIcmAllocateAlignedDm, hva, hva₂, bind, Option.bind_some]
    split_ifs <;> exact ⟨_, rfl⟩
  obtain ⟨dm, hdm⟩ := hdm
  simp [drIcmBuddyCreate, drIcmPoolMrCreate, henv.icmMr, hdm, hmr, hptr, henv.buddyInit, hmem]

/-- A chunk is added, or the chunks stay as they are; the latter only when the size is too
large or a call failed. -/
structure Allocated (pool pool' : DrIcmPool) (chunkSize : Nat) (env : IcmEnv) (ok : Bool) :
    Prop where
  inv : pool'.Inv
  kind : pool.SameKind pool'
  hot : pool'.hot = pool.hot
  failed : ok = false → pool'.chunks = pool.chunks
  added : ok = true → ∃ c, pool'.chunks.Perm (c :: pool.chunks) ∧ c ∈ pool'.used ∧
    c.byteSize = drIcmPoolChunkSizeToByte chunkSize pool.icmType
  succeeds : chunkSize ≤ pool.maxLogChunkSz → env.Succeeds → ok = true

/-- A chunk that cannot be created gives its memory back. -/
theorem drIcmAllocChunk_of_create_none {pool₀ pool' : DrIcmPool} {chunkSize seg : Nat}
    {mem : DrIcmBuddyMem} (hsize : ¬ chunkSize > pool.maxLogChunkSz)
    (hget : drIcmHandleBuddiesGetMem pool chunkSize env = some (some (b.ptr, seg), pool'))
    (h₀ : pool₀.Inv) (hkind : pool.SameKind pool₀) (hchunks : pool₀.chunks = pool.chunks)
    (hhot : pool₀.hot = pool.hot)
    (hgot : GotMem chunkSize pool₀ pool' l₁ b l₂ mem seg)
    (hcreate : drIcmChunkCreate pool' chunkSize b.ptr seg env = some none)
    (hfailed : ¬ env.Succeeds) :
    ∃ pool' ok, drIcmAllocChunk pool chunkSize env = some (pool', ok) ∧
      Allocated pool pool' chunkSize env ok := by
  obtain ⟨mem', hback, hinv⟩ := hgot.giveBack h₀
  refine ⟨_, false, ?_, hinv, hkind, ?_, fun _ => ?_, by simp, fun _ henv => absurd henv hfailed⟩
  · simp only [drIcmAllocChunk, if_neg hsize, hget, hcreate, hback, bind, Option.bind_some]
  · rw [← hhot]
    unfold DrIcmPool.hot
    rw [flatMap_replace l₁ l₂ b { b with mem := mem' } rfl, ← hgot.list]
  · rw [← hchunks]
    unfold DrIcmPool.chunks
    rw [flatMap_replace l₁ l₂ b { b with mem := mem' } rfl, ← hgot.list]

theorem drIcmAllocChunk_spec (h : pool.Inv) (hfresh : env.Fresh pool) (chunkSize : Nat) :
    ∃ pool' ok, drIcmAllocChunk pool chunkSize env = some (pool', ok) ∧
      Allocated pool pool' chunkSize env ok := by
  by_cases hsize : chunkSize > pool.maxLogChunkSz
  · refine ⟨pool, false, ?_, h, ⟨rfl, rfl⟩, rfl, fun _ => rfl, by simp,
      fun hle => absurd hle (Nat.not_le.mpr hsize)⟩
    unfold drIcmAllocChunk
    rw [if_pos hsize]
  rcases drIcmHandleBuddiesGetMem_spec h hfresh (Nat.not_lt.mp hsize) with
    ⟨hnone, herr⟩ | ⟨pool₀, pool', l₁, b, l₂, mem, seg, hget, h₀, hkind, hchunks, hhot, hgot⟩
  · refine ⟨pool, false, by simp [drIcmAllocChunk, hnone], h, ⟨rfl, rfl⟩, rfl, fun _ => rfl,
      by simp, fun _ henv => absurd herr (henv.drIcmBuddyCreate_ne pool)⟩
  rcases hptr : env.chunk with _ | ptr
  · refine drIcmAllocChunk_of_create_none hsize hget h₀ hkind hchunks hhot hgot ?_ fun henv => ?_
    · simp [drIcmChunkCreate, hptr]
    · have := henv.chunk
      simp [hptr] at this
  by_cases hste : pool'.icmType = .STE ∧ env.steInit = false
  · refine drIcmAllocChunk_of_create_none hsize hget h₀ hkind hchunks hhot hgot ?_ fun henv => ?_
    · simp [drIcmChunkCreate, hptr, hste]
    · have := henv.steInit
      simp [hste.2] at this
  have hnew : ptr ∉ pool₀.chunks.map (·.ptr) := by
    rw [hchunks]
    exact hfresh.1 ptr hptr
  have hcreate : drIcmChunkCreate pool' chunkSize b.ptr seg env = some (some { pool₀ with
      buddyMemList := l₁ ++ b.addChunk mem (drIcmChunkOf pool₀ chunkSize b seg ptr) :: l₂ }) := by
    simp only [drIcmChunkCreate, hptr, if_neg hste]
    rw [hgot.after, Option.map_eq_some_iff]
    refine ⟨_, ?_, rfl⟩
    exact updateBuddy_eq (b := { b with mem }) rfl (h₀.ptrs_replace hgot.list rfl) rfl
  refine ⟨_, true, ?_, h₀.addChunk hgot hnew, hkind, ?_, by simp, fun _ => ?_, fun _ _ => rfl⟩
  · simp only [drIcmAllocChunk, if_neg hsize, hget, hcreate, bind, Option.bind_some]
  · rw [← hhot]
    unfold DrIcmPool.hot
    rw [flatMap_replace l₁ l₂ b (b.addChunk mem _) rfl, ← hgot.list]
  · refine ⟨drIcmChunkOf pool₀ chunkSize b seg ptr, ?_, ?_, ?_⟩
    · rw [← hchunks]
      exact hgot.perm_addChunk ptr
    · refine List.mem_flatMap.mpr ⟨_, List.mem_append_right _ List.mem_cons_self, ?_⟩
      exact List.mem_append_right _ List.mem_cons_self
    · rw [← hkind.1]
      rfl

/-! ### The sync -/

/-- The hot chunks of an allocator go back to it, one after the other. -/
theorem drIcmSyncChunks_spec {icmType : DrIcmType} {maxOrder : Nat} :
    ∀ (chunks : List DrIcmChunk) (b : IcmBuddy) (hot : Nat), b.hotList = chunks →
      b.OK icmType maxOrder →
      ∃ b', drIcmSyncChunks chunks b hot = some (b', hot - (chunks.map (·.byteSize)).sum) ∧
        b'.OK icmType maxOrder ∧ b'.hotList = [] ∧ b'.usedList = b.usedList ∧ b'.ptr = b.ptr ∧
        b'.icmMr = b.icmMr := by
  intro chunks
  induction chunks with
  | nil =>
      intro b hot hhot hok
      exact ⟨b, rfl, hok, hhot, rfl, rfl, rfl⟩
  | cons c chunks ih =>
      intro b hot hhot hok
      have hperm : b.chunks.Perm (c :: (b.usedList ++ chunks)) := by
        unfold IcmBuddy.chunks
        rw [hhot]
        exact List.perm_middle
      have hblocks := hperm.map (·.block)
      rw [List.map_cons] at hblocks
      obtain ⟨mem, heq, hinv⟩ := (hok.use.perm hblocks).free List.mem_cons_self
      rw [show (c.seg, c.order) = c.block from rfl, List.erase_cons_head] at hinv
      have hsum := (hperm.map (·.byteSize)).sum_nat
      rw [List.map_cons, List.sum_cons, ← hok.usedMemory] at hsum
      have hok' : IcmBuddy.OK icmType maxOrder
          { b with mem, usedMemory := b.usedMemory - c.byteSize, hotList := chunks } := by
        refine ⟨fun x hx => ?_, hinv, ?_, hok.start, hok.fits, hok.aligned⟩
        · have hx' := hok.chunk x (hperm.mem_iff.mpr (List.mem_cons_of_mem c hx))
          exact ⟨hx'.buddyMem, hx'.byteSize, hx'.icmAddr⟩
        · show b.usedMemory - c.byteSize = ((b.usedList ++ chunks).map (·.byteSize)).sum
          omega
      obtain ⟨b', hsync, hrest⟩ := ih _ (hot - c.byteSize) rfl hok'
      refine ⟨b', ?_, hrest⟩
      rw [List.map_cons, List.sum_cons, ← Nat.sub_sub, ← hsync]
      simp only [drIcmSyncChunks, bind]
      rw [show drBuddyFreeMem b.mem c.seg (ilog32 (c.numOfEntries - 1)) = some mem from heq,
        Option.bind_some]

/-- An allocator that a sync does not destroy. -/
def DrIcmPool.stays (pool : DrIcmPool) (b : IcmBuddy) : Bool :=
  !decide (pool.reclaim = true ∧ pool.icmType = .STE ∧ b.usedList = [])

/-- What the loop over the allocators leaves: each one without hot chunks, and of those
destroyed no chunk is missing. -/
structure Synced (pool : DrIcmPool) (icmType : DrIcmType) (maxOrder : Nat)
    (l l' : List IcmBuddy) : Prop where
  ok : ∀ b ∈ l', b.OK icmType maxOrder ∧ b.hotList = []
  ptrs : l'.map (·.ptr) = (l.filter pool.stays).map (·.ptr)
  mrs : (l'.map (·.icmMr)).Sublist (l.map (·.icmMr))
  used : l'.flatMap (·.usedList) = l.flatMap (·.usedList)

/-- Without hot chunks, an allocator without memory in use is one without used chunks. -/
theorem IcmBuddy.OK.usedMemory_eq_zero_iff {icmType : DrIcmType} {maxOrder : Nat}
    (h : b.OK icmType maxOrder) (hhot : b.hotList = []) : b.usedMemory = 0 ↔ b.usedList = [] := by
  have hchunks : b.chunks = b.usedList := by rw [IcmBuddy.chunks, hhot, List.append_nil]
  have hsum := h.usedMemory
  rw [hchunks] at hsum
  constructor
  · intro hzero
    refine List.eq_nil_iff_forall_not_mem.mpr fun c hc => ?_
    rw [hzero, eq_comm, List.sum_eq_zero_iff_forall_eq_nat] at hsum
    have hpos := (h.chunk c (hchunks ▸ hc)).byteSize_pos
    rw [hsum _ (List.mem_map_of_mem hc)] at hpos
    exact Nat.lt_irrefl 0 hpos
  · intro hnil
    rw [hsum, hnil]
    rfl

theorem drIcmSyncBuddies_spec (pool : DrIcmPool) {icmType : DrIcmType} {maxOrder : Nat} :
    ∀ (l : List IcmBuddy) (hot : Nat), (∀ b ∈ l, b.OK icmType maxOrder) →
      ∃ l', drIcmSyncBuddies pool l hot =
          some (l', hot - ((l.flatMap (·.hotList)).map (·.byteSize)).sum) ∧
        Synced pool icmType maxOrder l l' := by
  intro l
  induction l with
  | nil =>
      intro hot _
      exact ⟨[], rfl, by simp, rfl, List.Sublist.refl _, rfl⟩
  | cons b l ih =>
      intro hot hok
      obtain ⟨b', hsync, hok', hhot, hused, hptr, hmr⟩ :=
        drIcmSyncChunks_spec b.hotList b hot rfl (hok b List.mem_cons_self)
      obtain ⟨l', hrest, hsynced⟩ := ih (hot - (b.hotList.map (·.byteSize)).sum)
        fun x hx => hok x (List.mem_cons_of_mem b hx)
      have hsum : hot - (((b :: l).flatMap (·.hotList)).map (·.byteSize)).sum =
          hot - (b.hotList.map (·.byteSize)).sum -
            ((l.flatMap (·.hotList)).map (·.byteSize)).sum := by
        rw [List.flatMap_cons, List.map_append, List.sum_append_nat, Nat.sub_sub]
      rw [hsum]
      simp only [drIcmSyncBuddies, hsync, hrest, bind, Option.bind_some,
        hok'.usedMemory_eq_zero_iff hhot, hused]
      split_ifs with hdestroy
      · have hstays : pool.stays b = false := by
          rw [DrIcmPool.stays, decide_eq_true hdestroy]
          rfl
        refine ⟨l', rfl, hsynced.ok, ?_, hsynced.mrs.cons _, ?_⟩
        · rw [List.filter_cons_of_neg (by rw [hstays]; exact Bool.false_ne_true)]
          exact hsynced.ptrs
        · rw [List.flatMap_cons, hdestroy.2.2, List.nil_append]
          exact hsynced.used
      · have hstays : pool.stays b = true := by
          rw [DrIcmPool.stays, decide_eq_false hdestroy]
          rfl
        refine ⟨b' :: l', rfl, fun x hx => ?_, ?_, ?_, ?_⟩
        · rcases List.mem_cons.mp hx with rfl | hx
          · exact ⟨hok', hhot⟩
          · exact hsynced.ok x hx
        · rw [List.filter_cons_of_pos hstays, List.map_cons, List.map_cons, hptr, hsynced.ptrs]
        · rw [List.map_cons, List.map_cons, hmr]
          exact hsynced.mrs.cons_cons _
        · rw [List.flatMap_cons, List.flatMap_cons, hused, hsynced.used]

theorem used_sublist_chunks (l : List IcmBuddy) :
    (l.flatMap (·.usedList)).Sublist (l.flatMap IcmBuddy.chunks) := by
  induction l with
  | nil => exact List.Sublist.refl _
  | cons b l ih =>
      rw [List.flatMap_cons, List.flatMap_cons]
      exact (List.sublist_append_left _ _).append ih

/-- After a sync that succeeded no chunk is hot and the used ones are as before. -/
theorem drIcmPoolSyncAllBuddyPools_spec (h : pool.Inv) (sync : Bool) :
    ∃ pool', drIcmPoolSyncAllBuddyPools pool sync = some pool' ∧ pool'.Inv ∧
      pool.SameKind pool' ∧ pool'.used = pool.used ∧
      pool'.hot = (if sync then [] else pool.hot) ∧
      pool'.buddyMemList.map (·.ptr) =
        (if sync then pool.buddyMemList.filter pool.stays else pool.buddyMemList).map (·.ptr) := by
  cases sync with
  | false => exact ⟨pool, rfl, h, ⟨rfl, rfl⟩, rfl, rfl, rfl⟩
  | true =>
      obtain ⟨l', hsync, hsynced⟩ :=
        drIcmSyncBuddies_spec pool pool.buddyMemList pool.hotMemorySize h.buddy
      have hhot : l'.flatMap (·.hotList) = [] := by
        rw [List.flatMap_eq_nil_iff]
        exact fun b hb => (hsynced.ok b hb).2
      have hchunks : l'.flatMap IcmBuddy.chunks = l'.flatMap (·.usedList) := by
        refine List.flatMap_congr fun b hb => ?_
        unfold IcmBuddy.chunks
        rw [(hsynced.ok b hb).2, List.append_nil]
      have hptrs : (l'.map (·.ptr)).Sublist (pool.buddyMemList.map (·.ptr)) := by
        rw [hsynced.ptrs]
        exact List.filter_sublist.map _
      refine ⟨{ pool with buddyMemList := l', hotMemorySize := 0 }, ?_, ?_, ⟨rfl, rfl⟩,
        hsynced.used, hhot, hsynced.ptrs⟩
      · unfold drIcmPoolSyncAllBuddyPools
        rw [if_pos rfl, hsync, Option.map_some, ← DrIcmPool.hot, ← h.hot, Nat.sub_self]
      · refine ⟨h.room, fun b hb => (hsynced.ok b hb).1, h.ptrs.sublist hptrs, ?_, ?_, ?_⟩
        · unfold DrIcmPool.chunks
          rw [hchunks, hsynced.used]
          exact h.chunkPtrs.sublist ((used_sublist_chunks _).map _)
        · exact List.pairwise_map.mp ((List.pairwise_map.mpr h.regions).sublist hsynced.mrs)
        · unfold DrIcmPool.hot
          rw [hhot]
          rfl

/-! ### Freeing a chunk -/

/-- Taking the chunk with a pointer out of a list in which the pointers differ. -/
theorem perm_cons_filter_ptr {l : List DrIcmChunk} {c : DrIcmChunk} (hl : (l.map (·.ptr)).Nodup)
    (hc : c ∈ l) : l.Perm (c :: l.filter (·.ptr ≠ c.ptr)) := by
  have hfilter : l.filter (·.ptr ≠ c.ptr) = l.erase c := by
    rw [(List.Nodup.of_map _ hl).erase_eq_filter]
    refine List.filter_congr fun x hx => ?_
    have hiff : x.ptr = c.ptr ↔ x = c :=
      ⟨fun h => List.inj_on_of_nodup_map hl hx hc h, fun h => h ▸ rfl⟩
    by_cases hx' : x = c <;> simp [hiff, hx']
  rw [hfilter]
  exact List.perm_cons_erase hc

/-- The allocator with a used chunk turned hot. -/
def IcmBuddy.heat (b : IcmBuddy) (chunk : DrIcmChunk) : IcmBuddy :=
  { b with usedList := b.usedList.filter (·.ptr ≠ chunk.ptr), hotList := b.hotList ++ [chunk] }

theorem perm_heat {c : DrIcmChunk} (hptrs : (b.chunks.map (·.ptr)).Nodup) (hc : c ∈ b.usedList) :
    (b.heat c).chunks.Perm b.chunks := by
  have hused : (b.usedList.map (·.ptr)).Nodup :=
    hptrs.sublist ((List.sublist_append_left _ _).map _)
  have hperm := perm_cons_filter_ptr hused hc
  unfold IcmBuddy.chunks IcmBuddy.heat
  rw [← List.append_assoc]
  refine (List.perm_append_singleton _ _).trans ?_
  exact (hperm.symm.append_right b.hotList)

/-- The pool with a used chunk of one of its allocators turned hot. -/
def DrIcmPool.heat (pool : DrIcmPool) (l₁ : List IcmBuddy) (b : IcmBuddy) (l₂ : List IcmBuddy)
    (chunk : DrIcmChunk) : DrIcmPool :=
  { pool with
    buddyMemList := l₁ ++ b.heat chunk :: l₂, hotMemorySize := pool.hotMemorySize + chunk.byteSize }

section Heat

variable {c : DrIcmChunk} (h : pool.Inv) (hlist : pool.buddyMemList = l₁ ++ b :: l₂)
  (hc : c ∈ b.usedList)
include h hlist

theorem DrIcmPool.Inv.nodup_ptrs_buddy : (b.chunks.map (·.ptr)).Nodup := by
  refine h.chunkPtrs.sublist (List.Sublist.map _ ?_)
  unfold DrIcmPool.chunks
  rw [hlist, chunks_split]
  exact (List.sublist_append_left _ _).trans (List.sublist_append_right _ _)

include hc

theorem drIcmFreeChunk_eq (sync : Bool) :
    drIcmFreeChunk pool c sync = (if drIcmPoolIsSyncRequired (pool.heat l₁ b l₂ c) then
      drIcmPoolSyncAllBuddyPools (pool.heat l₁ b l₂ c) sync
      else some (pool.heat l₁ b l₂ c)).bind fun pool' =>
        if pool'.buddyMemList.any (·.ptr = c.buddyMem) then some pool' else none := by
  have hb : b ∈ pool.buddyMemList := by simp [hlist]
  have hupdate : pool.updateBuddy c.buddyMem (fun buddy => some (buddy.heat c)) =
      some { pool with buddyMemList := l₁ ++ b.heat c :: l₂ } := by
    rw [((h.buddy b hb).chunk c (List.mem_append_left _ hc)).buddyMem]
    exact updateBuddy_eq hlist h.ptrs rfl
  unfold drIcmFreeChunk
  unfold IcmBuddy.heat at hupdate
  rw [hupdate]
  rfl

theorem DrIcmPool.Inv.perm_used_heat : pool.used.Perm (c :: (pool.heat l₁ b l₂ c).used) := by
  have hbused : (b.usedList.map (·.ptr)).Nodup :=
    (h.nodup_ptrs_buddy hlist).sublist ((List.sublist_append_left _ _).map _)
  unfold DrIcmPool.used DrIcmPool.heat
  rw [hlist]
  simp only [List.flatMap_append, List.flatMap_cons]
  refine List.Perm.trans (List.Perm.append_left _
    ((perm_cons_filter_ptr hbused hc).append_right _)) ?_
  rw [List.cons_append]
  exact List.perm_middle

omit h hc in
theorem DrIcmPool.perm_hot_heat : (pool.heat l₁ b l₂ c).hot.Perm (c :: pool.hot) := by
  unfold DrIcmPool.hot DrIcmPool.heat
  rw [hlist]
  simp only [List.flatMap_append, List.flatMap_cons, IcmBuddy.heat, List.append_assoc,
    List.singleton_append]
  rw [← List.append_assoc, ← List.append_assoc]
  exact List.perm_middle

theorem DrIcmPool.Inv.heat : (pool.heat l₁ b l₂ c).Inv := by
  have hok := h.buddy b (by simp [hlist])
  have hperm := perm_heat (h.nodup_ptrs_buddy hlist) hc
  have hsum : pool.hotMemorySize + c.byteSize =
      ((pool.heat l₁ b l₂ c).hot.map (·.byteSize)).sum := by
    rw [((DrIcmPool.perm_hot_heat hlist).map _).sum_nat, List.map_cons, List.sum_cons, h.hot,
      Nat.add_comm]
  refine h.replace hlist ⟨fun x hx => ?_, ?_, ?_, hok.start, hok.fits, hok.aligned⟩ rfl rfl ?_ hsum
  · have hx' := hok.chunk x (hperm.mem_iff.mp hx)
    exact ⟨hx'.buddyMem, hx'.byteSize, hx'.icmAddr⟩
  · exact hok.use.perm (hperm.symm.map _)
  · rw [(hperm.map _).sum_nat]
    exact hok.usedMemory
  · have hall : ((l₁ ++ b.heat c :: l₂).flatMap IcmBuddy.chunks).Perm pool.chunks := by
      unfold DrIcmPool.chunks
      rw [hlist, chunks_split, chunks_split]
      exact List.Perm.append_left _ (hperm.append_right _)
    rw [(hall.map _).nodup_iff]
    exact h.chunkPtrs

/-- The chunks in use of the chunk's allocator. -/
theorem DrIcmPool.Inv.usedList_heat_eq_nil_iff :
    (b.heat c).usedList = [] ↔ ∀ x ∈ pool.used, x.buddyMem = c.buddyMem → x.ptr = c.ptr := by
  have hb : b ∈ pool.buddyMemList := by simp [hlist]
  have hown : c.buddyMem = b.ptr := ((h.buddy b hb).chunk c (List.mem_append_left _ hc)).buddyMem
  rw [show (b.heat c).usedList = b.usedList.filter (·.ptr ≠ c.ptr) from rfl, List.filter_eq_nil_iff]
  constructor
  · intro hall x hx hsame
    obtain ⟨b', hb', hxb'⟩ := List.mem_flatMap.mp hx
    have hptr : b'.ptr = b.ptr := by
      rw [← hown, ← hsame]
      exact ((h.buddy b' hb').chunk x (List.mem_append_left _ hxb')).buddyMem.symm
    obtain rfl : b' = b := List.inj_on_of_nodup_map h.ptrs hb' hb hptr
    simpa using hall x hxb'
  · intro hall x hx
    have hmem : x ∈ pool.used := List.mem_flatMap.mpr ⟨b, hb, hx⟩
    have hsame : x.buddyMem = c.buddyMem := by
      rw [hown]
      exact ((h.buddy b hb).chunk x (List.mem_append_left _ hx)).buddyMem
    simpa using hall x hmem hsame

/-- The chunk's allocator is still there after the sync, unless the free destroys it. -/
theorem DrIcmPool.Inv.stays_heat_iff {sync : Bool}
    (hreq : drIcmPoolIsSyncRequired (pool.heat l₁ b l₂ c) = true) (hsync : sync = true) :
    (pool.heat l₁ b l₂ c).stays (b.heat c) = true ↔ ¬ pool.DestroysOwn c sync := by
  have hdue : 64 * 1024 * 1024 < pool.hotMemorySize + c.byteSize := by
    simpa [drIcmPoolIsSyncRequired, DrIcmPool.heat] using hreq
  have hnil := h.usedList_heat_eq_nil_iff hlist hc
  have hflag : (pool.heat l₁ b l₂ c).reclaim = pool.reclaim := rfl
  have hkind : (pool.heat l₁ b l₂ c).icmType = pool.icmType := rfl
  rw [DrIcmPool.stays, DrIcmPool.DestroysOwn, Bool.not_eq_true', decide_eq_false_iff_not, hflag,
    hkind, hnil]
  simp only [hsync, hdue, true_and]

end Heat

/-- The chunk is hot now, and only a sync that succeeded ends that. -/
structure Freed (pool pool' : DrIcmPool) (c : DrIcmChunk) (sync : Bool) : Prop where
  inv : pool'.Inv
  kind : pool.SameKind pool'
  used : pool.used.Perm (c :: pool'.used)
  hot : (sync = true ∧ pool'.hot = []) ∨ pool'.hot.Perm (c :: pool.hot)
  bounded : sync = true → pool'.hotMemorySize ≤ 64 * 1024 * 1024

/-- An allocator is known by its pointer, so the pointer is left exactly when it is. -/
theorem DrIcmPool.Inv.ptr_mem_filter_iff {b : IcmBuddy} (h : pool.Inv) (hb : b ∈ pool.buddyMemList)
    (p : IcmBuddy → Bool) :
    b.ptr ∈ (pool.buddyMemList.filter p).map (·.ptr) ↔ p b = true := by
  constructor
  · intro hin
    obtain ⟨x, hx, hxptr⟩ := List.mem_map.mp hin
    obtain ⟨hx, hpx⟩ := List.mem_filter.mp hx
    rwa [← List.inj_on_of_nodup_map h.ptrs hx hb hxptr]
  · intro hpb
    exact List.mem_map_of_mem (f := (·.ptr)) (List.mem_filter.mpr ⟨hb, hpb⟩)

/-- A free is undefined exactly when it destroys the allocator of its own chunk. -/
theorem drIcmFreeChunk_spec {c : DrIcmChunk} (h : pool.Inv) (hc : c ∈ pool.used) (sync : Bool) :
    (drIcmFreeChunk pool c sync = none ∧ pool.DestroysOwn c sync) ∨
    ∃ pool', drIcmFreeChunk pool c sync = some pool' ∧ ¬ pool.DestroysOwn c sync ∧
      Freed pool pool' c sync := by
  obtain ⟨b, hb, hcb⟩ := List.mem_flatMap.mp hc
  obtain ⟨l₁, l₂, hlist⟩ := List.append_of_mem hb
  have hinv := h.heat hlist hcb
  have hused := h.perm_used_heat hlist hcb
  have hhot := DrIcmPool.perm_hot_heat (c := c) hlist
  have hown : c.buddyMem = b.ptr := ((h.buddy b hb).chunk c (List.mem_append_left _ hcb)).buddyMem
  have hmem : b.heat c ∈ (pool.heat l₁ b l₂ c).buddyMemList :=
    List.mem_append_right _ List.mem_cons_self
  -- whether the allocator is found depends on the pointers of the list only
  have hany : ∀ l : List IcmBuddy, l.any (·.ptr = c.buddyMem) = true ↔ b.ptr ∈ l.map (·.ptr) := by
    intro l
    rw [hown]
    simp
  rw [drIcmFreeChunk_eq h hlist hcb]
  by_cases hreq : drIcmPoolIsSyncRequired (pool.heat l₁ b l₂ c) = true
  · obtain ⟨pool', hsynced, hinv', hkind, hused', hhot', hptrs⟩ :=
      drIcmPoolSyncAllBuddyPools_spec hinv sync
    rw [if_pos hreq, hsynced, Option.bind_some]
    have hfreed : Freed pool pool' c sync := by
      refine ⟨hinv', hkind, ?_, ?_, fun hs => ?_⟩
      · rw [hused']
        exact hused
      · rw [hhot']
        cases sync with
        | true => exact Or.inl ⟨rfl, rfl⟩
        | false => exact Or.inr hhot
      · rw [hinv'.hot, hhot', if_pos hs]
        exact Nat.zero_le _
    cases hs : sync with
    | false =>
        rw [hs] at hptrs hfreed
        have hfound : b.ptr ∈ pool'.buddyMemList.map (·.ptr) := by
          rw [hptrs]
          exact List.mem_map_of_mem (f := (·.ptr)) hmem
        rw [if_pos ((hany _).mpr hfound)]
        exact Or.inr ⟨pool', rfl, fun hd => Bool.false_ne_true hd.1, hfreed⟩
    | true =>
        rw [hs] at hptrs hfreed
        have hstays := h.stays_heat_iff hlist hcb hreq (rfl : true = true)
        have hfound : b.ptr ∈ pool'.buddyMemList.map (·.ptr) ↔
            (pool.heat l₁ b l₂ c).stays (b.heat c) = true := by
          rw [hptrs]
          exact hinv.ptr_mem_filter_iff hmem _
        by_cases hd : pool.DestroysOwn c true
        · refine Or.inl ⟨if_neg fun hin => ?_, hd⟩
          exact hstays.mp (hfound.mp ((hany _).mp hin)) hd
        · rw [if_pos ((hany _).mpr (hfound.mpr (hstays.mpr hd)))]
          exact Or.inr ⟨pool', rfl, hd, hfreed⟩
  · have hfound : (pool.heat l₁ b l₂ c).buddyMemList.any (·.ptr = c.buddyMem) = true :=
      (hany _).mpr (List.mem_map_of_mem (f := (·.ptr)) hmem)
    rw [if_neg hreq, Option.bind_some, if_pos hfound]
    refine Or.inr ⟨_, rfl, fun hd => hreq ?_, hinv, ⟨rfl, rfl⟩, hused, Or.inr hhot, fun _ => ?_⟩
    · exact decide_eq_true hd.2.1
    · simpa [drIcmPoolIsSyncRequired] using hreq

end Nicmem
