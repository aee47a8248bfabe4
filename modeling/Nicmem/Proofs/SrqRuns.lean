/-
Runs of a shared receive queue.

A new queue has all elements but the last of its first half free, and the second half in
the wait queue.  So it holds as many requests as the application asked for, and from there
on every legal run is one of the specification.
-/
import Nicmem.Proofs.Srq

namespace Nicmem

open C Segment

/-! ### A new queue -/

variable {srq : Mlx5Srq} {cap maxGs : Nat} {wait : List Nat} {s : SrqSystem} {a : SrqSpec}

theorem setSrqBufLl_spec :
    ∀ (n start : Nat) {srq : Mlx5Srq}, srq.Shape → start + n < srq.max →
      ∃ wqes, setSrqBufLl n start srq = some { srq with wqes } ∧ Mlx5Srq.Shape { srq with wqes } ∧
        ∀ j, nextOf wqes j = if start ≤ j ∧ j < start + n then j + 1 else nextOf srq.wqes j := by
  intro n
  induction n with
  | zero =>
      intro start srq h _
      refine ⟨srq.wqes, rfl, h, fun j => ?_⟩
      rw [if_neg (by omega)]
  | succ n ih =>
      intro start srq h hlt
      obtain ⟨wqes, hset, hshape, hnext, -⟩ :=
        setNext_spec h (show start < srq.max by omega) (show start + 1 < srq.max by omega)
      obtain ⟨wqes', hloop, hshape', hnext'⟩ := ih (start + 1) hshape (by simp only; omega)
      refine ⟨wqes', by rw [setSrqBufLl, hset, Option.bind_some, hloop], hshape', fun j => ?_⟩
      rw [hnext', hnext]
      by_cases hj : j = start
      · rw [if_neg (by omega), if_pos hj, if_pos (by omega), hj]
      · by_cases hin : start + 1 ≤ j ∧ j < start + 1 + n
        · rw [if_pos hin, if_pos (by omega)]
        · rw [if_neg hin, if_neg hj, if_neg (by omega)]

/-- The elements of the wait queue of a new queue. -/
def initialWait (srq : Mlx5Srq) : List Nat := List.range' (srq.tail + 1) (srq.max - (srq.tail + 1))

/-- A queue as `mlx5_alloc_srq_buf` leaves it. -/
structure NewSrq (maxWr maxSge : Nat) (srq : Mlx5Srq) : Prop where
  refines : (SrqSystem.init srq).Refines srq.tail srq.maxGs (initialWait srq) ⟨[], []⟩
  maxWr : maxWr ≤ srq.tail
  maxSge : maxSge ≤ srq.maxGs
  wait : srqHasWaitq srq = true → (initialWait srq).length = srq.tail + 1

/-- The chains of a new queue make it a refinement of the empty specification. -/
theorem init_refines (hshape : srq.Shape) (hhead : srq.head = 0) (hcounter : srq.counter = 0)
    (hdb : srq.db = 0) (htail : srq.tail < srq.max)
    (hfree : ∀ j < srq.tail, nextOf srq.wqes j = j + 1) (hwait : WaitQueue srq (initialWait srq)) :
    (SrqSystem.init srq).Refines srq.tail srq.maxGs (initialWait srq) ⟨[], []⟩ := by
  refine ⟨[], List.range' 0 srq.tail,
    ⟨hshape, ⟨?_, ?_⟩, hwait, ?_, ?_, List.Forall₂.nil, rfl, by simp⟩,
    ⟨?_, ?_, by simp [SrqSystem.init]⟩, rfl⟩
  · exact hhead.symm
  · show Seg (nextOf srq.wqes) srq.head (List.range' 0 srq.tail) srq.tail
    have hseg := seg_range' srq.tail 0 fun j _ hj => hfree j (by omega)
    rw [Nat.zero_add] at hseg
    rw [hhead]
    exact hseg
  · show (List.range' 0 srq.tail ++ srq.tail :: (initialWait srq ++ [])).Perm (List.range srq.max)
    have hall : List.range' 0 srq.tail ++ srq.tail :: (initialWait srq ++ []) =
        List.range srq.max := by
      unfold initialWait
      rw [List.append_nil, ← List.range'_succ, List.range_eq_range']
      have happ : List.range' 0 srq.tail ++ List.range' srq.tail (srq.max - (srq.tail + 1) + 1) =
          List.range' 0 (srq.tail + (srq.max - (srq.tail + 1) + 1)) := by
        have happ := List.range'_append_1 (s := 0) (m := srq.tail)
          (n := srq.max - (srq.tail + 1) + 1)
        rwa [Nat.zero_add] at happ
      rw [happ]
      congr 1
      omega
    rw [hall]
  · show (initialWait srq).length + srq.tail + 1 = srq.max
    rw [initialWait, List.length_range']
    omega
  · show srq.db = srq.counter
    rw [hdb, hcounter]
  · exact hcounter.trans (by simp [SrqSystem.init])

/-- A queue whose elements are there, and their links not yet. -/
structure Unlinked (srq : Mlx5Srq) : Prop where
  shape : srq.Shape
  head : srq.head = 0
  counter : srq.counter = 0
  db : srq.db = 0

theorem unlinked_blank (memory : SrqMemory) {max maxGs : Nat} (hmax : max ≤ 2 ^ 16) (tail : Nat)
    (waitqHead waitqTail : Int) :
    Unlinked
      { wqes := (List.range max).map fun i =>
          ⟨memory.next i, (List.range maxGs).map (memory.seg i)⟩
        wrid := (List.range max).map memory.oldWrid
        max, maxGs, head := 0, tail, waitqHead, waitqTail, counter := 0, db := 0 } := by
  refine ⟨⟨by simp, by simp, fun i hi => ?_, hmax⟩, rfl, rfl, rfl⟩
  unfold scatOf
  rw [List.getD_eq_getElem _ _ (by simpa using hi)]
  simp

/-- Without a wait queue all elements are linked. -/
theorem Unlinked.link (h : Unlinked srq) (hmax : srq.max = srq.tail + 1)
    (hwq : srq.waitqHead = -1) :
    ∃ wqes, setSrqBufLl srq.tail 0 srq = some { srq with wqes } ∧
      (SrqSystem.init { srq with wqes }).Refines srq.tail srq.maxGs (initialWait srq) ⟨[], []⟩ := by
  obtain ⟨wqes, hloop, hshape, hnext⟩ := setSrqBufLl_spec srq.tail 0 h.shape (by omega)
  refine ⟨wqes, hloop, init_refines hshape h.head h.counter h.db (by simp only; omega)
    (fun j hj => ?_) (Or.inl ⟨hwq, ?_⟩)⟩
  · simp only at hj ⊢
    rw [hnext, if_pos (by omega)]
  · unfold initialWait
    simp only
    rw [hmax, Nat.sub_self]
    rfl

/-- With one, the first half of the elements and the second. -/
theorem Unlinked.link_waitq (h : Unlinked srq) (hmax : srq.max = 2 * (srq.tail + 1))
    (hhd : srq.waitqHead = (srq.tail + 1 : Nat)) (htl : srq.waitqTail = (srq.max - 1 : Nat)) :
    ∃ wqes₁ wqes, setSrqBufLl srq.tail 0 srq = some { srq with wqes := wqes₁ } ∧
      setSrqBufLl (srq.max - 1 - (srq.tail + 1)) (srq.tail + 1) { srq with wqes := wqes₁ } =
        some { srq with wqes } ∧
      (SrqSystem.init { srq with wqes }).Refines srq.tail srq.maxGs (initialWait srq) ⟨[], []⟩ := by
  obtain ⟨wqes, hloop, hshape, hnext⟩ := setSrqBufLl_spec srq.tail 0 h.shape (by omega)
  obtain ⟨wqes', hloop', hshape', hnext'⟩ :=
    setSrqBufLl_spec (srq.max - 1 - (srq.tail + 1)) (srq.tail + 1) hshape (by simp only; omega)
  simp only at hnext'
  refine ⟨wqes, wqes', hloop, hloop', init_refines hshape' h.head h.counter h.db
    (by simp only; omega) (fun j hj => ?_) (Or.inr ?_)⟩
  · simp only at hj ⊢
    rw [hnext', if_neg (by omega), hnext, if_pos (by omega)]
  · refine ⟨srq.tail + 1, srq.max - 1, List.range' (srq.tail + 1) srq.tail, hhd, htl, ?_, ?_⟩
    · have hlinks : ∀ j, srq.tail + 1 ≤ j → j < srq.tail + 1 + srq.tail →
          nextOf wqes' j = j + 1 := by
        intro j hj hlt
        rw [hnext', if_pos (by omega)]
      have hseg := seg_range' srq.tail (srq.tail + 1) hlinks
      rwa [show srq.tail + 1 + srq.tail = srq.max - 1 by omega] at hseg
    · unfold initialWait
      simp only
      rw [show srq.max - (srq.tail + 1) = srq.tail + 1 by omega, List.range'_concat]
      congr 2
      omega

theorem maxSge_le_maxGs (maxSge : Nat) :
    maxSge ≤ (roundupPowOfTwo (max 32 (16 + maxSge * 16)) - 16) / 16 := by
  have hlt := lt_roundupPowOfTwo_succ (show 0 < max 32 (16 + maxSge * 16) - 1 by omega)
  rw [Nat.sub_add_cancel (by omega)] at hlt
  have hle := Nat.le_max_right 32 (16 + maxSge * 16)
  omega

/-- The size of the buffer is an `int`. -/
theorem bufSize_lt {nent maxSge : Nat} (hnent : nent ≤ 2 ^ 16)
    (hsge : maxSge * 16 + 16 ≤ 2 ^ 14) :
    ¬ nent * roundupPowOfTwo (max 32 (16 + maxSge * 16)) ≥ 2 ^ 31 := by
  have hlt : max 32 (16 + maxSge * 16) - 1 < 2 ^ 14 := by omega
  have hsize := roundupPowOfTwo_le (by omega : 0 < max 32 (16 + maxSge * 16) - 1) hlt
  rw [Nat.sub_add_cancel (by omega)] at hsize
  exact Nat.not_le.mpr (Nat.lt_of_le_of_lt (Nat.mul_le_mul hnent hsize) (by decide))

theorem mlx5AllocSrqBuf_spec {caps : SrqCaps} (memory : Option SrqMemory) {maxWr maxSge : Nat}
    (hpos : 0 < maxWr) (hle : maxWr ≤ caps.maxSrqRecvWr) (hsge : maxSge * 16 + 16 ≤ 2 ^ 14) :
    mlx5AllocSrqBuf caps memory maxWr maxSge = some none ∨
    ∃ srq, mlx5AllocSrqBuf caps memory maxWr maxSge = some (some srq) ∧
      NewSrq maxWr maxSge srq := by
  have hcap := caps.max_lt
  have hwr := lt_roundupPowOfTwo_succ hpos
  have hgs := maxSge_le_maxGs maxSge
  unfold mlx5AllocSrqBuf
  by_cases hsize : roundupPowOfTwo (max 32 (16 + maxSge * 16)) > caps.maxRecvWr
  · exact Or.inl (by simp only [if_pos hsize])
  simp only [if_neg hsize, alignQueueSize]
  by_cases hwq : maxWr * 2 + 1 > caps.maxSrqRecvWr
  · -- no room for a wait queue
    have hmax : roundupPowOfTwo (maxWr + 1) ≤ 2 ^ 16 := roundupPowOfTwo_le hpos (by omega)
    simp only [hwq, decide_true, Bool.not_true, Bool.false_eq_true, if_false]
    rw [if_neg (bufSize_lt hmax hsge)]
    rcases memory with _ | memory
    · exact Or.inl rfl
    refine Or.inr ?_
    simp only
    obtain ⟨wqes, hloop, hrefines⟩ :=
      (unlinked_blank memory hmax (roundupPowOfTwo (maxWr + 1) - 1) (-1) (-1)).link
        (by simp only; omega) rfl
    refine ⟨_, by rw [hloop, Option.bind_some, Option.map_some], hrefines, by simp only; omega,
      hgs, ?_⟩
    intro hhas
    simp [srqHasWaitq] at hhas
  · -- the second half is the wait queue
    have hdouble := roundupPowOfTwo_double hpos
    have hmax : roundupPowOfTwo (maxWr * 2 + 1) ≤ 2 ^ 16 :=
      roundupPowOfTwo_le (by omega) (by omega)
    simp only [hwq, decide_false, Bool.not_false, if_true]
    rw [if_neg (bufSize_lt hmax hsge)]
    rcases memory with _ | memory
    · exact Or.inl rfl
    refine Or.inr ?_
    simp only
    rw [hdouble] at hmax ⊢
    generalize roundupPowOfTwo (maxWr + 1) = half at hwr hmax ⊢
    obtain ⟨wqes₁, wqes, hloop, hloop', hrefines⟩ := (unlinked_blank memory hmax (half - 1)
      ((half - 1 : Nat) + 1) ((2 * half : Nat) - 1)).link_waitq (by simp only; omega)
      (by simp only; omega) (by simp only; omega)
    simp only at hloop'
    refine ⟨_, by rw [hloop, Option.bind_some, hloop', Option.map_some], hrefines,
      by simp only; omega, hgs, ?_⟩
    intro _
    unfold initialWait
    rw [List.length_range']
    simp only
    omega

/-- A created queue is a new one. -/
theorem newSrq_of_create {caps : SrqCaps} {memory : Option SrqMemory} {maxWr maxSge : Nat}
    (h : mlx5CreateSrq caps memory maxWr maxSge = some (some srq)) (hpos : 0 < maxWr) :
    NewSrq maxWr maxSge srq := by
  unfold mlx5CreateSrq at h
  split_ifs at h with hwr hsge
  · simp at h
  · simp at h
  · have hdesc := caps.desc_le
    rcases mlx5AllocSrqBuf_spec memory hpos (Nat.not_lt.mp hwr)
        (by omega : maxSge * 16 + 16 ≤ 2 ^ 14) with
      hnone | ⟨srq', hsome, hnew⟩
    · rw [hnone] at h
      simp at h
    · rw [hsome, Option.some.injEq, Option.some.injEq] at h
      exact h ▸ hnew

/-! ### Runs -/

theorem WaitStep.length_eq {op : SrqOp} {wait' : List Nat} (h : WaitStep op wait wait') :
    wait'.length = wait.length := by
  rcases h with rfl | ⟨ind, -, hne, rfl⟩
  · rfl
  · have hpos := List.length_pos_iff.mpr hne
    rw [List.length_append, List.length_tail, List.length_singleton]
    omega

/-- A run keeps the length of the wait queue. -/
theorem SrqSystem.run_refines (h : s.Refines cap maxGs wait a) {ops : List SrqOp}
    (hlegal : SrqLegal s ops) :
    ∃ s' outs a', Machine.run SrqSystem.step s ops = some (s', outs) ∧
      Machine.Allows (SrqSpec.Step cap maxGs) a ops outs a' ∧
      ∃ wait', s'.Refines cap maxGs wait' a' ∧ wait'.length = wait.length := by
  refine Machine.run_allows (R := fun s' a' => ∃ wait', SrqSystem.Refines cap maxGs wait' s' a' ∧
    wait'.length = wait.length) (fun s₁ a₁ op hs₁ hop => ?_) ops s a ⟨wait, h, rfl⟩ hlegal
  obtain ⟨wait₁, hs₁, hlen⟩ := hs₁
  obtain ⟨s₂, out, a₂, wait₂, hstep, hspec, hs₂, hwait, -⟩ := SrqSystem.step_refines hs₁ op hop
  exact ⟨s₂, out, a₂, hstep, hspec, wait₂, hs₂, hwait.length_eq.trans hlen⟩

def SrqOp.isFault : SrqOp → Bool
  | .fault _ => true
  | _ => false

/-- An element of the wait queue is left alone as long as there are fewer faults than
elements before it. -/
theorem SrqSystem.run_kept {ind : Nat} :
    ∀ (ops : List SrqOp) {s : SrqSystem} {a : SrqSpec} {before behind : List Nat},
      s.Refines cap maxGs (before ++ ind :: behind) a → SrqLegal s ops →
      ops.countP SrqOp.isFault ≤ before.length →
      ∃ s' outs, Machine.run SrqSystem.step s ops = some (s', outs) ∧
        Kept s.srq s'.srq [ind] := by
  intro ops
  induction ops with
  | nil =>
      intro s a before behind _ _ _
      exact ⟨s, [], rfl, Kept.refl _ _⟩
  | cons op ops ih =>
      intro s a before behind h hlegal hfew
      obtain ⟨s₁, out, a₁, wait₁, hstep, -, hs₁, hwait, hkept⟩ :=
        SrqSystem.step_refines h op hlegal.1
      have hmoved : ∃ before' behind', wait₁ = before' ++ ind :: behind' ∧
          ops.countP SrqOp.isFault ≤ before'.length := by
        rcases hwait with rfl | ⟨i, rfl, -, rfl⟩
        · refine ⟨before, behind, rfl, Nat.le_trans ?_ hfew⟩
          rw [List.countP_cons]
          exact Nat.le_add_right _ _
        · rw [List.countP_cons_of_pos (by rfl)] at hfew
          rcases before with _ | ⟨x, before⟩
          · simp at hfew
          · exact ⟨before, behind ++ [i], by simp, Nat.le_of_succ_le_succ hfew⟩
      obtain ⟨before', behind', rfl, hfew'⟩ := hmoved
      obtain ⟨s', outs, hrun, hkept'⟩ := ih hs₁ (hlegal.tail hstep) hfew'
      refine ⟨s', out :: outs, Machine.run_of_step hstep hrun,
        Kept.trans (fun j hj => hkept j ?_) hkept'⟩
      rw [List.mem_singleton.mp hj]
      simp

/-! ### The guarantees -/

/-- Whatever the application, the device and its page faults do, the queue hands every
posted request to the device once, in the order of the posts, with its segments, and gives
its number back with the completion; a request that met a page fault is posted again.  A
post is refused only for too many segments or when the queue is full, and it has room for
what the application asked for.  The counter in the record always tells the device whether
there is a request for it. -/
theorem srqRun_fifo {caps : SrqCaps} {memory : Option SrqMemory} {maxWr maxSge : Nat}
    {srq : Mlx5Srq} (hcreate : mlx5CreateSrq caps memory maxWr maxSge = some (some srq))
    (hpos : 0 < maxWr) {ops : List SrqOp} (hlegal : SrqLegal (SrqSystem.init srq) ops) :
    maxWr ≤ srq.tail ∧ maxSge ≤ srq.maxGs ∧
    ∃ s outs a, Machine.run SrqSystem.step (SrqSystem.init srq) ops = some (s, outs) ∧
      Machine.Allows (SrqSpec.Step srq.tail srq.maxGs) ⟨[], []⟩ ops outs a ∧
      (s.hwCounter = s.srq.db ↔ a.queue = []) ∧ s.inflight = a.inflight.map (·.1) := by
  have hnew := newSrq_of_create hcreate hpos
  obtain ⟨s, outs, a, hrun, hallows, wait, href, -⟩ :=
    SrqSystem.run_refines hnew.refines hlegal
  exact ⟨hnew.maxWr, hnew.maxSge, s, outs, a, hrun, hallows, href.seen⟩

/-- A device of small limits. -/
def smallSrqCaps : SrqCaps := ⟨7, 64, 64, by decide, by decide⟩

/-- Zeroed memory. -/
def zeroSrqMemory : SrqMemory := ⟨fun _ => 0, fun _ _ => ⟨0, 0, 0⟩, fun _ => 0⟩

/-- A queue for one request, that meets a page fault and is taken a second time. -/
theorem srqRun_fifo_one : ∃ srq s outs a,
    mlx5CreateSrq smallSrqCaps (some zeroSrqMemory) 1 1 = some (some srq) ∧
      Machine.run SrqSystem.step (SrqSystem.init srq)
        [.post [⟨5, [⟨64, 7, 4096⟩]⟩], .fetch, .fault 0, .fetch, .complete 1] = some (s, outs) ∧
      Machine.Allows (SrqSpec.Step srq.tail srq.maxGs) ⟨[], []⟩
        [.post [⟨5, [⟨64, 7, 4096⟩]⟩], .fetch, .fault 0, .fetch, .complete 1] outs a := by
  obtain ⟨srq, hcreate, hlegal⟩ : ∃ srq,
      mlx5CreateSrq smallSrqCaps (some zeroSrqMemory) 1 1 = some (some srq) ∧
      SrqLegal (SrqSystem.init srq)
        [.post [⟨5, [⟨64, 7, 4096⟩]⟩], .fetch, .fault 0, .fetch, .complete 1] :=
    ⟨_, rfl, by decide⟩
  obtain ⟨-, -, s, outs, a, hrun, hallows, -⟩ := srqRun_fifo hcreate Nat.one_pos hlegal
  exact ⟨srq, s, outs, a, hcreate, hrun, hallows⟩

/-- With a wait queue, an element with a page fault is not written to, whatever is posted
afterwards, until there were as many further faults as the queue has room for requests. -/
theorem srqRun_faulted_kept {caps : SrqCaps} {memory : Option SrqMemory} {maxWr maxSge : Nat}
    {srq : Mlx5Srq} {s : SrqSystem} {ops later : List SrqOp} {outs : List SrqOut} {ind : Nat}
    (hcreate : mlx5CreateSrq caps memory maxWr maxSge = some (some srq)) (hpos : 0 < maxWr)
    (hwq : srqHasWaitq srq = true) (hlegal : SrqLegal (SrqSystem.init srq) ops)
    (hrun : Machine.run SrqSystem.step (SrqSystem.init srq) ops = some (s, outs))
    (hlater : SrqLegal s (.fault ind :: later)) (hfew : later.countP SrqOp.isFault ≤ srq.tail) :
    ∃ s' outs', Machine.run SrqSystem.step s (.fault ind :: later) = some (s', outs') ∧
      Kept s.srq s'.srq [ind] := by
  have hnew := newSrq_of_create hcreate hpos
  obtain ⟨s₁, outs₁, a, hrun₁, -, wait, href, hlen⟩ :=
    SrqSystem.run_refines hnew.refines hlegal
  rw [hrun, Option.some.injEq, Prod.mk.injEq] at hrun₁
  rw [← hrun₁.1] at href
  rw [hnew.wait hwq] at hlen
  have hind : ind ∈ s.inflight := hlater.1
  obtain ⟨⟨i, wr⟩, hwr, rfl⟩ : ∃ x ∈ a.inflight, x.1 = ind := by
    rw [href.seen.2] at hind
    exact List.mem_map.mp hind
  obtain ⟨srq', wait', hfault, hwait, hkept, href'⟩ := mlx5CompleteOdpFault_spec href hind hwr
  have hcons : wait ≠ [] ∧ wait' = wait.tail ++ [i] := by
    rcases hwait with ⟨hnil, -⟩ | hcons
    · rw [hnil] at hlen
      simp at hlen
    · exact hcons
  rw [hcons.2] at href'
  have hbefore : later.countP SrqOp.isFault ≤ wait.tail.length := by
    rw [List.length_tail, hlen]
    exact hfew
  have hstep : s.step (.fault i) =
      some ({ s with srq := srq', inflight := s.inflight.erase i }, .faulted) := by
    simp only [SrqSystem.step, hfault, bind, Option.bind_some]
  obtain ⟨s', outs', hrun', hkept'⟩ :=
    SrqSystem.run_kept later href' (hlater.tail hstep) hbefore
  refine ⟨s', .faulted :: outs', Machine.run_of_step hstep hrun',
    Kept.trans (fun j hj => hkept j ?_) hkept'⟩
  rw [List.mem_singleton.mp hj]
  exact List.mem_cons_self

/-- The element of a request that met a page fault, over a second request. -/
theorem srqRun_faulted_kept_one : ∃ srq s s' outs outs',
    mlx5CreateSrq smallSrqCaps (some zeroSrqMemory) 1 1 = some (some srq) ∧
      Machine.run SrqSystem.step (SrqSystem.init srq) [.post [⟨5, [⟨64, 7, 4096⟩]⟩], .fetch] =
        some (s, outs) ∧
      Machine.run SrqSystem.step s [.fault 0, .fetch, .complete 1, .post [⟨6, []⟩]] =
        some (s', outs') ∧
      Kept s.srq s'.srq [0] := by
  obtain ⟨srq, s, outs, hcreate, hwq, hlegal, hrun, hlater, hroom⟩ : ∃ srq s outs,
      mlx5CreateSrq smallSrqCaps (some zeroSrqMemory) 1 1 = some (some srq) ∧
      srqHasWaitq srq = true ∧
      SrqLegal (SrqSystem.init srq) [.post [⟨5, [⟨64, 7, 4096⟩]⟩], .fetch] ∧
      Machine.run SrqSystem.step (SrqSystem.init srq) [.post [⟨5, [⟨64, 7, 4096⟩]⟩], .fetch] =
        some (s, outs) ∧
      SrqLegal s [.fault 0, .fetch, .complete 1, .post [⟨6, []⟩]] ∧
      [SrqOp.fetch, .complete 1, .post [⟨6, []⟩]].countP SrqOp.isFault ≤ srq.tail :=
    ⟨_, _, _, rfl, rfl, by decide, rfl, by decide, Nat.zero_le _⟩
  obtain ⟨s', outs', hrun', hkept⟩ :=
    srqRun_faulted_kept hcreate Nat.one_pos hwq hlegal hrun hlater hroom
  exact ⟨srq, s, s', outs, outs', hcreate, hrun, hrun', hkept⟩

end Nicmem
