/-
Runs of a steering-memory pool.

Every legal call is defined in a pool with the invariant, and keeps it; a free that
destroys the allocator of its own chunk is not, and is no legal call.  The answers to the
sync commands decide about the hot chunks: refused syncs leave every hot chunk hot, and
with syncs that succeed the hot memory stays under the threshold.
-/
import Nicmem.Proofs.IcmPool

namespace Nicmem

/-- A sync command made by the operation gets this answer. -/
def IcmOp.Answered (answer : Bool) : IcmOp → Prop
  | .alloc _ _ => True
  | .free _ sync => sync = answer
  | .setReclaim _ => True

/-- What one call does to a pool. -/
structure DrIcmPool.Stepped (pool pool' : DrIcmPool) (op : IcmOp) : Prop where
  inv : pool'.Inv
  kind : pool.SameKind pool'
  hot : op.Answered false → ∀ c ∈ pool.hot, c ∈ pool'.hot
  bounded : op.Answered true → pool.hotMemorySize ≤ 64 * 1024 * 1024 →
    pool'.hotMemorySize ≤ 64 * 1024 * 1024

variable {pool pool' : DrIcmPool} {env : IcmEnv} {op : IcmOp}

/-- The flag of the domain is no part of the invariant. -/
theorem drDomainSetReclaim_stepped (h : pool.Inv) (enable : Bool) :
    pool.Stepped (drDomainSetReclaim pool enable) op :=
  ⟨⟨h.room, h.buddy, h.ptrs, h.chunkPtrs, h.regions, h.hot⟩, ⟨rfl, rfl⟩, fun _ _ hc => hc,
    fun _ hle => hle⟩

theorem Allocated.stepped {chunkSize : Nat} {ok : Bool} (h : pool.Inv)
    (halloc : Allocated pool pool' chunkSize env ok) : pool.Stepped pool' op := by
  refine ⟨halloc.inv, halloc.kind, fun _ c hc => ?_, fun _ hle => ?_⟩
  · rw [halloc.hot]
    exact hc
  · rw [halloc.inv.hot, halloc.hot, ← h.hot]
    exact hle

theorem Freed.stepped {c : DrIcmChunk} {sync : Bool} (hfree : Freed pool pool' c sync) (ptr : Nat) :
    pool.Stepped pool' (.free ptr sync) := by
  refine ⟨hfree.inv, hfree.kind, fun hans x hx => ?_, fun hans _ => hfree.bounded hans⟩
  unfold IcmOp.Answered at hans
  subst hans
  rcases hfree.hot with ⟨hsync, -⟩ | hperm
  · simp at hsync
  · exact hperm.mem_iff.mpr (List.mem_cons_of_mem c hx)

/-- The chunk a client frees is the one it holds. -/
theorem DrIcmPool.Inv.find?_used (h : pool.Inv) {c : DrIcmChunk} (hc : c ∈ pool.used) :
    pool.used.find? (·.ptr = c.ptr) = some c := by
  rcases hfind : pool.used.find? (·.ptr = c.ptr) with _ | x
  · have hnone := List.find?_eq_none.mp hfind c hc
    simp at hnone
  · have hptr : x.ptr = c.ptr := by simpa using List.find?_some hfind
    have hnodup : (pool.used.map (·.ptr)).Nodup :=
      h.chunkPtrs.sublist ((used_sublist_chunks _).map _)
    rw [hfind, List.inj_on_of_nodup_map hnodup (List.mem_of_find?_eq_some hfind) hc hptr]

/-- Every legal call is defined. -/
theorem DrIcmPool.step_spec (h : pool.Inv) (op : IcmOp) (hlegal : op.Legal pool) :
    ∃ pool' out, pool.step op = some (pool', out) ∧ pool.Stepped pool' op := by
  cases op with
  | alloc chunkSize env =>
      obtain ⟨pool', ok, heq, halloc⟩ := drIcmAllocChunk_spec h hlegal chunkSize
      exact ⟨pool', ok, heq, halloc.stepped h⟩
  | free ptr sync =>
      obtain ⟨c, hc, rfl, hkeeps⟩ := hlegal
      rcases drIcmFreeChunk_spec h hc sync with ⟨-, hdestroys⟩ | ⟨pool', heq, -, hfree⟩
      · exact absurd hdestroys hkeeps
      · refine ⟨pool', true, ?_, hfree.stepped c.ptr⟩
        rw [DrIcmPool.step, h.find?_used hc, Option.bind_some, heq, Option.map_some]
  | setReclaim enable => exact ⟨_, true, rfl, drDomainSetReclaim_stepped h enable⟩

theorem drIcmPoolCreate_inv (icmType : DrIcmType) (logIcmSize : Nat) (reclaim : Bool) :
    (drIcmPoolCreate icmType logIcmSize reclaim).Inv := by
  refine ⟨fun htype => ?_, ?_, List.nodup_nil, List.nodup_nil, List.Pairwise.nil, rfl⟩
  · change icmType = .MODIFY_ACTION at htype
    subst htype
    show 3 ≤ 12
    omega
  · simp [drIcmPoolCreate]

/-- The invariant over a run, with the kind of the pool at its start. -/
theorem DrIcmPool.run_inv (h : pool.Inv) {ops : List IcmOp}
    (hlegal : IcmLegal pool ops) :
    ∃ pool' outs, Machine.run DrIcmPool.step pool ops = some (pool', outs) ∧
      pool'.Inv ∧ pool.SameKind pool' := by
  refine Machine.run_invariant (I := fun pool' => pool'.Inv ∧ pool.SameKind pool')
    (fun pool₁ op hpool₁ hop => ?_) ⟨h, rfl, rfl⟩ hlegal
  obtain ⟨pool₂, out, heq, hstep⟩ := DrIcmPool.step_spec hpool₁.1 op hop
  exact ⟨pool₂, out, heq, hstep.inv, hstep.kind.1.trans hpool₁.2.1, hstep.kind.2.trans hpool₁.2.2⟩

theorem inv_of_icmRun {icmType : DrIcmType} {logIcmSize : Nat} {reclaim : Bool} {ops : List IcmOp}
    {outs : List Bool} (hlegal : IcmLegal (drIcmPoolCreate icmType logIcmSize reclaim) ops)
    (h : icmRun icmType logIcmSize reclaim ops = some (pool, outs)) : pool.Inv := by
  obtain ⟨pool', outs', hrun, hinv, -⟩ :=
    DrIcmPool.run_inv (drIcmPoolCreate_inv icmType logIcmSize reclaim) hlegal
  rw [icmRun, hrun, Option.some.injEq, Prod.mk.injEq] at h
  rw [← h.1]
  exact hinv

/-- A run whose syncs are refused keeps a hot chunk hot. -/
theorem DrIcmPool.run_hot {c : DrIcmChunk} (h : pool.Inv) (hc : c ∈ pool.hot) {ops : List IcmOp}
    (hlegal : IcmLegal pool ops)
    (hops : ∀ op ∈ ops, op.Answered false) :
    ∃ pool' outs, Machine.run DrIcmPool.step pool ops = some (pool', outs) ∧
      pool'.Inv ∧ c ∈ pool'.hot := by
  refine Machine.run_invariant (I := fun pool' : DrIcmPool => pool'.Inv ∧ c ∈ pool'.hot)
    (fun pool₁ op hpool₁ hop => ?_) ⟨h, hc⟩ (hlegal.and hops)
  obtain ⟨pool₂, out, heq, hstep⟩ := DrIcmPool.step_spec hpool₁.1 op hop.1
  exact ⟨pool₂, out, heq, hstep.inv, hstep.hot hop.2 c hpool₁.2⟩

/-- A run whose syncs succeed keeps the hot memory under the threshold. -/
theorem DrIcmPool.run_bounded (h : pool.Inv) (hle : pool.hotMemorySize ≤ 64 * 1024 * 1024)
    {ops : List IcmOp}
    (hlegal : IcmLegal pool ops)
    (hops : ∀ op ∈ ops, op.Answered true) :
    ∃ pool' outs, Machine.run DrIcmPool.step pool ops = some (pool', outs) ∧
      pool'.Inv ∧ pool'.hotMemorySize ≤ 64 * 1024 * 1024 := by
  refine Machine.run_invariant
    (I := fun pool' : DrIcmPool => pool'.Inv ∧ pool'.hotMemorySize ≤ 64 * 1024 * 1024)
    (fun pool₁ op hpool₁ hop => ?_) ⟨h, hle⟩ (hlegal.and hops)
  obtain ⟨pool₂, out, heq, hstep⟩ := DrIcmPool.step_spec hpool₁.1 op hop.1
  exact ⟨pool₂, out, heq, hstep.inv, hstep.bounded hop.2 hpool₁.2⟩

theorem perm_used_append_hot (pool : DrIcmPool) : (pool.used ++ pool.hot).Perm pool.chunks :=
  List.flatMap_append_perm _ _ _

/-- No chunk the clients hold shares an address with a hot one. -/
theorem DrIcmPool.Inv.disjoint_hot (h : pool.Inv) {c c' : DrIcmChunk} (hc : c ∈ pool.hot)
    (hc' : c' ∈ pool.used) : Disjoint c.range c'.range := by
  have hpairwise :=
    ((perm_used_append_hot pool).pairwise_iff fun h => Disjoint.symm h).mpr h.pairwise
  exact ((List.pairwise_append.mp hpairwise).2.2 c' hc' c hc).symm

/-! ### The guarantees -/

/-- In a legal run no call goes wrong, and the memory of all chunks, used or hot, is
pairwise disjoint, inside the device memory of their allocators and, for steering entries,
aligned to the size of the chunk.  Of the chunks in use after it, those are undefined to
free whose own allocator the free destroys, and only those. -/
theorem icmRun_chunks_disjoint {icmType : DrIcmType} {logIcmSize : Nat} {reclaim : Bool}
    {ops : List IcmOp} (hlegal : IcmLegal (drIcmPoolCreate icmType logIcmSize reclaim) ops) :
    ∃ pool outs, icmRun icmType logIcmSize reclaim ops = some (pool, outs) ∧
      pool.chunks.Pairwise (fun c c' => Disjoint c.range c'.range) ∧
      (∀ b ∈ pool.buddyMemList, ∀ c ∈ b.chunks, c.range ⊆
        Set.Ico b.icmMr.remoteVa (b.icmMr.remoteVa + b.icmMr.dmLength)) ∧
      (icmType = .STE → ∀ c ∈ pool.chunks, c.byteSize ∣ c.icmAddr) ∧
      ∀ c ∈ pool.used, ∀ sync, drIcmFreeChunk pool c sync = none ↔ pool.DestroysOwn c sync := by
  obtain ⟨pool, outs, hrun, hinv, hkind⟩ :=
    DrIcmPool.run_inv (drIcmPoolCreate_inv icmType logIcmSize reclaim) hlegal
  refine ⟨pool, outs, hrun, hinv.pairwise,
    fun b hb c hc => (hinv.buddy b hb).range_subset hc, ?_, fun c hc sync => ?_⟩
  · intro htype c hc
    obtain ⟨b, hb, hcb⟩ := List.mem_flatMap.mp hc
    have hok := hinv.buddy b hb
    rw [show pool.icmType = .STE from hkind.1.trans htype] at hok
    exact hok.chunk_aligned hcb
  · rcases drIcmFreeChunk_spec hinv hc sync with ⟨heq, hdestroys⟩ | ⟨pool', heq, hkeeps, -⟩
    · exact ⟨fun _ => hdestroys, fun _ => heq⟩
    · exact ⟨fun h => absurd (heq.symm.trans h) (Option.some_ne_none _), fun h => absurd h hkeeps⟩

/-- Two chunks of one allocator, the first of them freed. -/
theorem icmRun_chunks_disjoint_twoChunks : ∃ pool outs,
    icmRun .STE 1 true
        [.alloc 0 ⟨true, some 0, none, some (0, 7), some 1, true, some 1, true⟩,
          .alloc 0 ⟨false, none, none, none, none, false, some 2, true⟩, .free 1 true] =
      some (pool, outs) ∧ pool.chunks.Pairwise (fun c c' => Disjoint c.range c'.range) := by
  have hlegal : IcmLegal (drIcmPoolCreate .STE 1 true)
      [.alloc 0 ⟨true, some 0, none, some (0, 7), some 1, true, some 1, true⟩,
        .alloc 0 ⟨false, none, none, none, none, false, some 2, true⟩, .free 1 true] := by decide
  obtain ⟨pool, outs, hrun, hdisjoint, -⟩ := icmRun_chunks_disjoint hlegal
  exact ⟨pool, outs, hrun, hdisjoint⟩

/-- The counters are exact: an allocator's `used_memory` is the size of its chunks and
the pool's `hot_memory_size` that of the hot ones.  If no sync is refused, the hot memory
stays within 64 megabytes. -/
theorem icmRun_accounting {icmType : DrIcmType} {logIcmSize : Nat} {reclaim : Bool}
    {ops : List IcmOp} (hlegal : IcmLegal (drIcmPoolCreate icmType logIcmSize reclaim) ops) :
    ∃ pool outs, icmRun icmType logIcmSize reclaim ops = some (pool, outs) ∧
      (∀ b ∈ pool.buddyMemList, b.usedMemory = (b.chunks.map (·.byteSize)).sum) ∧
      pool.hotMemorySize = (pool.hot.map (·.byteSize)).sum ∧
      ((∀ op ∈ ops, op.Answered true) → pool.hotMemorySize ≤ 64 * 1024 * 1024) := by
  have hcreate := drIcmPoolCreate_inv icmType logIcmSize reclaim
  obtain ⟨pool, outs, hrun, hinv, -⟩ := DrIcmPool.run_inv hcreate hlegal
  refine ⟨pool, outs, hrun, fun b hb => (hinv.buddy b hb).usedMemory, hinv.hot, fun hops => ?_⟩
  obtain ⟨pool₁, outs₁, hrun₁, -, hle⟩ := DrIcmPool.run_bounded hcreate (Nat.zero_le _) hlegal hops
  rw [hrun, Option.some.injEq, Prod.mk.injEq] at hrun₁
  rw [hrun₁.1]
  exact hle

/-- One chunk that the pool gave out and got back, in a domain that starts to reclaim. -/
theorem icmRun_accounting_oneChunk : ∃ pool outs,
    icmRun .MODIFY_ACTION 0 false
        [.alloc 0 ⟨true, some 0, none, some (0, 7), some 1, true, some 1, true⟩,
          .setReclaim true, .free 1 true] = some (pool, outs) ∧
      pool.hotMemorySize = (pool.hot.map (·.byteSize)).sum := by
  have hlegal : IcmLegal (drIcmPoolCreate .MODIFY_ACTION 0 false)
      [.alloc 0 ⟨true, some 0, none, some (0, 7), some 1, true, some 1, true⟩,
        .setReclaim true, .free 1 true] := by decide
  obtain ⟨pool, outs, hrun, -, hhot, -⟩ := icmRun_accounting hlegal
  exact ⟨pool, outs, hrun, hhot⟩

/-- After any legal run an allocation of at most the largest size whose calls all get what
they ask for gives a chunk of the size asked for; one that fails changes no chunk. -/
theorem icmRun_alloc {icmType : DrIcmType} {logIcmSize : Nat} {reclaim : Bool} {ops : List IcmOp}
    {outs : List Bool} {pool : DrIcmPool} {env : IcmEnv}
    (hlegal : IcmLegal (drIcmPoolCreate icmType logIcmSize reclaim) ops)
    (hrun : icmRun icmType logIcmSize reclaim ops = some (pool, outs)) (hfresh : env.Fresh pool)
    (chunkSize : Nat) :
    ∃ pool' ok, drIcmAllocChunk pool chunkSize env = some (pool', ok) ∧
      (chunkSize ≤ pool.maxLogChunkSz → env.Succeeds → ok = true) ∧
      (ok = false → pool'.chunks = pool.chunks) ∧
      (ok = true → ∃ c, c ∈ pool'.used ∧ pool'.chunks.Perm (c :: pool.chunks) ∧
        c.byteSize = drIcmPoolChunkSizeToByte chunkSize pool.icmType) := by
  obtain ⟨pool', ok, heq, halloc⟩ :=
    drIcmAllocChunk_spec (inv_of_icmRun hlegal hrun) hfresh chunkSize
  refine ⟨pool', ok, heq, halloc.succeeds, halloc.failed, fun hok => ?_⟩
  obtain ⟨c, hperm, hmem, hsize⟩ := halloc.added hok
  exact ⟨c, hmem, hperm, hsize⟩

/-- The second allocation of a run, for which more device memory is at hand. -/
theorem icmRun_alloc_second : ∃ pool pool' outs,
    icmRun .STE 1 true [.alloc 0 ⟨true, some 0, none, some (0, 7), some 1, true, some 1, true⟩] =
        some (pool, outs) ∧
      drIcmAllocChunk pool 1 ⟨true, some 256, some 512, some (0, 8), some 2, true, some 2, true⟩ =
        some (pool', true) := by
  have hlegal : IcmLegal (drIcmPoolCreate .STE 1 true)
      [.alloc 0 ⟨true, some 0, none, some (0, 7), some 1, true, some 1, true⟩] := by decide
  obtain ⟨pool, outs, hrun, hfresh, hsize⟩ : ∃ pool outs, icmRun .STE 1 true
      [.alloc 0 ⟨true, some 0, none, some (0, 7), some 1, true, some 1, true⟩] = some (pool, outs) ∧
      IcmEnv.Fresh ⟨true, some 256, some 512, some (0, 8), some 2, true, some 2, true⟩ pool ∧
      1 ≤ pool.maxLogChunkSz := ⟨_, _, rfl, by decide, by decide⟩
  obtain ⟨pool', ok, heq, hok, -⟩ := icmRun_alloc hlegal hrun hfresh 1
  rw [hok hsize ⟨rfl, rfl, rfl, rfl, rfl, rfl, rfl, rfl⟩] at heq
  exact ⟨pool, pool', outs, hrun, heq⟩

/-- The memory of a freed chunk is not handed out again before a sync succeeded: the chunk
stays hot, and no chunk the clients hold shares an address with it. -/
theorem icmRun_freed_not_reused {icmType : DrIcmType} {logIcmSize : Nat} {reclaim : Bool}
    {ops later : List IcmOp} {outs : List Bool} {pool : DrIcmPool} {c : DrIcmChunk}
    (hlegal : IcmLegal (drIcmPoolCreate icmType logIcmSize reclaim) ops)
    (hrun : icmRun icmType logIcmSize reclaim ops = some (pool, outs)) (hc : c ∈ pool.used)
    (hlater : ∀ op ∈ later, op.Answered false)
    (hrest : IcmLegal pool (.free c.ptr false :: later)) :
    ∃ pool' outs',
      Machine.run DrIcmPool.step pool (.free c.ptr false :: later) = some (pool', outs') ∧
      c ∈ pool'.hot ∧ ∀ c' ∈ pool'.used, Disjoint c.range c'.range := by
  have hinv := inv_of_icmRun hlegal hrun
  rcases drIcmFreeChunk_spec hinv hc false with ⟨-, hdestroys⟩ | ⟨pool₁, heq, -, hfree⟩
  · exact absurd hdestroys.1 Bool.false_ne_true
  have hstep : pool.step (.free c.ptr false) = some (pool₁, true) := by
    rw [DrIcmPool.step, hinv.find?_used hc, Option.bind_some, heq, Option.map_some]
  have hhot : c ∈ pool₁.hot := by
    rcases hfree.hot with ⟨hsync, -⟩ | hperm
    · exact absurd hsync Bool.false_ne_true
    · exact hperm.mem_iff.mpr List.mem_cons_self
  obtain ⟨pool', outs', hrun', hinv', hhot'⟩ :=
    DrIcmPool.run_hot hfree.inv hhot (hrest.tail hstep) hlater
  exact ⟨pool', true :: outs', Machine.run_of_step hstep hrun', hhot',
    fun c' hc' => hinv'.disjoint_hot hhot' hc'⟩

/-- With room for two chunks, the one freed is not the one the next allocation gets. -/
theorem icmRun_free_alloc : ∃ pool outs,
    icmRun .STE 1 true [.alloc 0 ⟨true, some 0, none, some (0, 7), some 1, true, some 1, true⟩] =
        some (pool, outs) ∧ ∃ c ∈ pool.used, ∃ pool' outs',
      Machine.run DrIcmPool.step pool [.free c.ptr false,
          .alloc 0 ⟨false, none, none, none, none, false, some 2, true⟩] = some (pool', outs') ∧
        c ∈ pool'.hot := by
  have hlegal : IcmLegal (drIcmPoolCreate .STE 1 true)
      [.alloc 0 ⟨true, some 0, none, some (0, 7), some 1, true, some 1, true⟩] := by decide
  obtain ⟨pool, outs, hrun, hmem, hfresh⟩ : ∃ pool outs, icmRun .STE 1 true
      [.alloc 0 ⟨true, some 0, none, some (0, 7), some 1, true, some 1, true⟩] = some (pool, outs) ∧
      ⟨1, 1, 7, 1, 64, 0, 0, 0⟩ ∈ pool.used ∧
      IcmLegal pool
        [.free 1 false, .alloc 0 ⟨false, none, none, none, none, false, some 2, true⟩] :=
    ⟨_, _, rfl, by decide, by decide⟩
  have hlater : ∀ op ∈ [IcmOp.alloc 0 ⟨false, none, none, none, none, false, some 2, true⟩],
      op.Answered false := by simp [IcmOp.Answered]
  obtain ⟨pool', outs', heq, hhot, -⟩ := icmRun_freed_not_reused hlegal hrun hmem hlater hfresh
  exact ⟨pool, outs, hrun, _, hmem, pool', outs', heq, hhot⟩

end Nicmem
