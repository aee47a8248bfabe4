/-
What the clients of a buddy allocator can rely on.

Whatever the clients allocate and free, in any order, no call goes wrong, the blocks they
hold are aligned, inside the memory and disjoint, an allocation fails only when no
aligned block of its size is free, and the state of the allocator is a function of the
blocks held: what was allocated before and in which order leaves no trace.

All of it follows from one invariant.  The allocator keeps the maximal free blocks of
the memory with the cells of the live blocks covered (`Keeps`).
-/
import Nicmem.Proofs.Buddy

namespace Nicmem

open C Dyadic DrIcmBuddyMem

/-! ### The allocator at the start -/

/-- The allocator before its one block is marked. -/
def drBuddyEmpty (maxOrder : Nat) : DrIcmBuddyMem where
  bits := (List.range (maxOrder + 1)).map fun i => bitmapAlloc0 (2 ^ (maxOrder - i))
  setBit := (List.range (maxOrder + 1)).map fun i => bitmapAlloc0 (bitsToLongs (2 ^ (maxOrder - i)))
  numFree := List.replicate (maxOrder + 1) 0
  maxOrder := maxOrder

theorem drBuddyInit_eq_mark (maxOrder : Nat) :
    drBuddyInit maxOrder = drBuddyMark (drBuddyEmpty maxOrder) 0 maxOrder := by
  have hnum : updateAt (List.replicate (maxOrder + 1) 0) maxOrder (fun _ => some 1) =
      updateAt (List.replicate (maxOrder + 1) 0) maxOrder fun n => some (n + 1) := by
    unfold updateAt
    rw [List.getElem?_replicate_of_lt (Nat.lt_succ_self maxOrder)]
    rfl
  simp only [drBuddyInit, hnum]
  rfl

theorem getD_bits_empty {maxOrder o : Nat} (ho : o ≤ maxOrder) :
    (drBuddyEmpty maxOrder).bits.getD o [] = bitmapAlloc0 (2 ^ (maxOrder - o)) := by
  have hlt : o < maxOrder + 1 := Nat.lt_succ_of_le ho
  simp [drBuddyEmpty, List.getD_eq_getElem?_getD, hlt]

theorem getD_setBit_empty {maxOrder o : Nat} (ho : o ≤ maxOrder) :
    (drBuddyEmpty maxOrder).setBit.getD o [] = bitmapAlloc0 (bitsToLongs (2 ^ (maxOrder - o))) := by
  have hlt : o < maxOrder + 1 := Nat.lt_succ_of_le ho
  simp [drBuddyEmpty, List.getD_eq_getElem?_getD, hlt]

theorem bit_empty {maxOrder o : Nat} (ho : o ≤ maxOrder) (i : Nat) :
    (drBuddyEmpty maxOrder).bit o i = false := by
  unfold DrIcmBuddyMem.bit
  rw [getD_bits_empty ho, bitAt_alloc0]

theorem wellFormed_empty (maxOrder : Nat) : WellFormed (drBuddyEmpty maxOrder) where
  bits_length := by simp [drBuddyEmpty]
  setBit_length := by simp [drBuddyEmpty]
  numFree_length := by simp [drBuddyEmpty]
  words o (ho : o ≤ maxOrder) := by
    rw [getD_bits_empty ho, length_alloc0]
    rfl
  setWords o (ho : o ≤ maxOrder) := by
    rw [getD_setBit_empty ho, length_alloc0]
    rfl
  wordBit_iff o (ho : o ≤ maxOrder) w := by
    unfold DrIcmBuddyMem.wordBit
    rw [getD_setBit_empty ho, bitAt_alloc0]
    simp only [bit_empty ho, Bool.false_eq_true, and_false, exists_false]
  count o (ho : o ≤ maxOrder) := by
    have hshown : (drBuddyEmpty maxOrder).shown o = ∅ := by
      ext i
      rw [mem_shown, bit_empty ho]
      simp
    have hlt : o < maxOrder + 1 := Nat.lt_succ_of_le ho
    rw [hshown, Finset.card_empty]
    simp [drBuddyEmpty, List.getD_eq_getElem?_getD, hlt]

/-- At the start the whole memory is one free block. -/
theorem drBuddyInit_spec (maxOrder : Nat) :
    ∃ b, drBuddyInit maxOrder = some b ∧ b.maxOrder = maxOrder ∧
      Keeps b {c | 2 ^ maxOrder ≤ c} := by
  have hwf := wellFormed_empty maxOrder
  have hM : (drBuddyEmpty maxOrder).maxOrder = maxOrder := rfl
  obtain ⟨b, hb, hwf', hM', hbit⟩ := drBuddyMark_spec hwf (Nat.le_refl maxOrder)
    (hwf.toShape.lt_words (Nat.le_refl maxOrder) (Nat.two_pow_pos _)) (bit_empty (Nat.le_refl _) 0)
  rw [hM] at hM'
  refine ⟨b, by rw [drBuddyInit_eq_mark, hb], hM', hwf', fun c hc => hM' ▸ hc, fun o ho i => ?_⟩
  rw [hbit, maxFree_empty, bit_empty (hM' ▸ ho)]
  split_ifs with h <;> simp [h]

/-! ### The live blocks -/

/-- The cells of a block, given by its segment and its order. -/
def blockCells (x : Nat × Nat) : Set Nat := Set.Ico x.1 (x.1 + 2 ^ x.2)

/-- A block is aligned to its size and ends inside the memory. -/
def Placed (maxOrder : Nat) (x : Nat × Nat) : Prop := 2 ^ x.2 ∣ x.1 ∧ x.1 + 2 ^ x.2 ≤ 2 ^ maxOrder

/-- The cells nobody may be given: those of the live blocks and all behind the memory. -/
def covered (maxOrder : Nat) (live : List (Nat × Nat)) : Set Nat :=
  {c | 2 ^ maxOrder ≤ c ∨ ∃ x ∈ live, c ∈ blockCells x}

/-- What every run keeps. -/
structure BuddyUse.Inv (maxOrder : Nat) (u : BuddyUse) : Prop where
  maxOrder_eq : u.buddy.maxOrder = maxOrder
  placed : ∀ x ∈ u.live, Placed maxOrder x
  disjoint : u.live.Pairwise fun x y => Disjoint (blockCells x) (blockCells y)
  keeps : Keeps u.buddy (covered maxOrder u.live)

theorem blockCells_eq_block (order i : Nat) :
    blockCells (i * 2 ^ order, order) = block order i := by
  ext c
  rw [mem_block_iff_range, blockCells, Set.mem_Ico, Nat.add_mul, Nat.one_mul]

theorem covered_cons (maxOrder order i : Nat) (live : List (Nat × Nat)) :
    covered maxOrder ((i * 2 ^ order, order) :: live) = covered maxOrder live ∪ block order i := by
  ext c
  rw [← blockCells_eq_block]
  simp only [covered, List.mem_cons, exists_eq_or_imp, Set.mem_union, Set.mem_ofPred_eq, or_assoc]
  exact or_congr_right or_comm

/-- Of disjoint blocks the others stay covered when one goes. -/
theorem covered_erase {maxOrder order i : Nat} {live : List (Nat × Nat)}
    (hdisj : live.Pairwise fun x y => Disjoint (blockCells x) (blockCells y))
    (hmem : (i * 2 ^ order, order) ∈ live) (hin : (i + 1) * 2 ^ order ≤ 2 ^ maxOrder) :
    covered maxOrder (live.erase (i * 2 ^ order, order)) =
      covered maxOrder live \ block order i := by
  have hperm := List.perm_cons_erase hmem
  have hcons := (hperm.pairwise_iff fun h => Disjoint.symm h).mp hdisj
  rw [List.pairwise_cons] at hcons
  have hout : ∀ c ∈ covered maxOrder (live.erase (i * 2 ^ order, order)), c ∉ block order i := by
    rintro c (hc | ⟨y, hy, hcy⟩) hblock
    · have := (mem_block_iff_range.mp hblock).2
      omega
    · rw [← blockCells_eq_block] at hblock
      exact Set.disjoint_left.mp (hcons.1 y hy) hblock hcy
  have hall : covered maxOrder live =
      covered maxOrder (live.erase (i * 2 ^ order, order)) ∪ block order i := by
    rw [← covered_cons]
    ext c
    simp only [covered, Set.mem_ofPred_eq, hperm.mem_iff]
  rw [hall, Set.union_sdiff_cancel_right fun c hc => hout c hc.1 hc.2]

theorem free_covered_iff {maxOrder order i : Nat} {live : List (Nat × Nat)} :
    Free (covered maxOrder live) order i ↔
      Placed maxOrder (i * 2 ^ order, order) ∧
        ∀ x ∈ live, Disjoint (blockCells (i * 2 ^ order, order)) (blockCells x) := by
  rw [blockCells_eq_block]
  refine ⟨fun h => ⟨⟨Dvd.intro_left i rfl, ?_⟩, fun x hx => ?_⟩,
    fun ⟨⟨_, hin⟩, hdisj⟩ c hc hcov => ?_⟩
  · have := h.le_two_pow (M := maxOrder) fun c hc => Or.inl hc
    rwa [Nat.add_mul, Nat.one_mul] at this
  · exact Set.disjoint_left.mpr fun c hc hcx => h c hc (Or.inr ⟨x, hx, hcx⟩)
  · rcases hcov with hc' | ⟨x, hx, hcx⟩
    · have := (mem_block_iff_range.mp hc).2
      rw [Nat.add_mul, Nat.one_mul] at this
      simp only at hin
      omega
    · exact Set.disjoint_left.mp (hdisj x hx) hc hcx

/-! ### Runs -/

/-- The order of the live blocks does not matter. -/
theorem BuddyUse.Inv.perm {maxOrder : Nat} {buddy : DrIcmBuddyMem} {live live' : List (Nat × Nat)}
    (h : BuddyUse.Inv maxOrder ⟨buddy, live⟩) (hperm : live.Perm live') :
    BuddyUse.Inv maxOrder ⟨buddy, live'⟩ := by
  refine ⟨h.maxOrder_eq, fun x hx => h.placed x (hperm.mem_iff.mpr hx), ?_, ?_⟩
  · exact (hperm.pairwise_iff fun h => Disjoint.symm h).mp h.disjoint
  · have hcov : covered maxOrder live' = covered maxOrder live := by
      ext c
      simp only [covered, Set.mem_ofPred_eq, hperm.mem_iff]
    show Keeps buddy (covered maxOrder live')
    rw [hcov]
    exact h.keeps

/-- An allocation fails and changes nothing, or adds a block to the live ones. -/
theorem BuddyUse.Inv.alloc {maxOrder : Nat} {u : BuddyUse} (h : u.Inv maxOrder) (order : Nat) :
    (drBuddyAllocMem u.buddy order = some (-1, u.buddy) ∧
      ∀ i, ¬ Free (covered maxOrder u.live) order i) ∨
    ∃ (seg : Nat) (buddy : DrIcmBuddyMem),
      drBuddyAllocMem u.buddy order = some ((seg : Int), buddy) ∧
      BuddyUse.Inv maxOrder ⟨buddy, (seg, order) :: u.live⟩ := by
  rcases drBuddyAllocMem_spec h.keeps order with hfail | ⟨i, b', heq, hM, hfree, hkeeps⟩
  · exact Or.inl hfail
  · obtain ⟨hplaced, hdisj⟩ := free_covered_iff.mp hfree
    refine Or.inr ⟨i * 2 ^ order, b', heq, hM.trans h.maxOrder_eq, ?_,
      List.pairwise_cons.mpr ⟨hdisj, h.disjoint⟩, ?_⟩
    · intro x hx
      rcases List.mem_cons.mp hx with rfl | hx
      · exact hplaced
      · exact h.placed x hx
    · rw [covered_cons]
      exact hkeeps

/-- Freeing a live block takes it out of the live ones. -/
theorem BuddyUse.Inv.free {maxOrder seg order : Nat} {u : BuddyUse} (h : u.Inv maxOrder)
    (hmem : (seg, order) ∈ u.live) :
    ∃ buddy, drBuddyFreeMem u.buddy seg order = some buddy ∧
      BuddyUse.Inv maxOrder ⟨buddy, u.live.erase (seg, order)⟩ := by
  obtain ⟨⟨i, hi⟩, hin⟩ := h.placed _ hmem
  simp only at hi hin
  rw [Nat.mul_comm] at hi
  subst hi
  have hin' : (i + 1) * 2 ^ order ≤ 2 ^ maxOrder := by rw [Nat.add_mul, Nat.one_mul]; exact hin
  have hcov : block order i ⊆ covered maxOrder u.live := by
    intro c hc
    rw [← blockCells_eq_block] at hc
    exact Or.inr ⟨_, hmem, hc⟩
  obtain ⟨b', heq, hM, hkeeps⟩ :=
    drBuddyFreeMem_spec h.keeps (by rw [h.maxOrder_eq]; exact hin') hcov
  refine ⟨b', heq, hM.trans h.maxOrder_eq, fun x hx => h.placed x (List.mem_of_mem_erase hx),
    h.disjoint.sublist List.erase_sublist, ?_⟩
  rw [covered_erase h.disjoint hmem hin']
  exact hkeeps

theorem BuddyUse.step_inv {maxOrder : Nat} (u : BuddyUse) (op : BuddyOp) (h : u.Inv maxOrder) :
    ∃ u' out, u.step op = some (u', out) ∧ u'.Inv maxOrder := by
  cases op with
  | alloc order =>
      rcases h.alloc order with ⟨heq, -⟩ | ⟨seg, b', heq, hinv⟩
      · exact ⟨u, -1, by simp [BuddyUse.step, heq], h⟩
      · refine ⟨_, seg, ?_, hinv⟩
        have hne : (seg : Int) ≠ -1 := by omega
        simp only [BuddyUse.step, heq, Option.map_some, if_neg hne, Int.toNat_natCast]
  | free seg order =>
      by_cases hmem : (seg, order) ∈ u.live
      · obtain ⟨b', heq, hinv⟩ := h.free hmem
        exact ⟨_, 0, by simp only [BuddyUse.step, if_pos hmem, heq, Option.map_some], hinv⟩
      · exact ⟨u, 0, by simp only [BuddyUse.step, if_neg hmem], h⟩

/-- A new allocator with nothing allocated. -/
theorem drBuddyInit_inv (maxOrder : Nat) :
    ∃ buddy, drBuddyInit maxOrder = some buddy ∧ BuddyUse.Inv maxOrder ⟨buddy, []⟩ := by
  obtain ⟨b, hb, hM, hkeeps⟩ := drBuddyInit_spec maxOrder
  have hcov : covered maxOrder [] = {c | 2 ^ maxOrder ≤ c} := by
    ext c
    simp [covered]
  refine ⟨b, hb, hM, by simp, List.Pairwise.nil, ?_⟩
  rw [hcov]
  exact hkeeps

theorem buddyRun_inv (maxOrder : Nat) (ops : List BuddyOp) :
    ∃ u outs, buddyRun maxOrder ops = some (u, outs) ∧ u.Inv maxOrder := by
  obtain ⟨b, hb, hinit⟩ := drBuddyInit_inv maxOrder
  obtain ⟨u, outs, hrun, hinv⟩ :=
    Machine.run_invariant (fun u op h _ => BuddyUse.step_inv u op h) hinit
      (Machine.respects_true _ ops)
  exact ⟨u, outs, by rw [buddyRun, hb, Option.bind_some, hrun], hinv⟩

theorem inv_of_buddyRun {maxOrder : Nat} {ops : List BuddyOp} {u : BuddyUse} {outs : List Int}
    (h : buddyRun maxOrder ops = some (u, outs)) : u.Inv maxOrder := by
  obtain ⟨u', outs', hrun, hinv⟩ := buddyRun_inv maxOrder ops
  rw [h, Option.some.injEq, Prod.mk.injEq] at hrun
  rw [hrun.1]
  exact hinv

/-! ### The state is a function of what is covered -/

theorem DrIcmBuddyMem.WellFormed.ext {b b' : DrIcmBuddyMem} (h : WellFormed b) (h' : WellFormed b')
    (hM : b.maxOrder = b'.maxOrder) (hbit : ∀ o ≤ b.maxOrder, ∀ i, b.bit o i = b'.bit o i) :
    b = b' := by
  have hlt : ∀ {o}, o < b.maxOrder + 1 → o ≤ b.maxOrder := Nat.le_of_lt_succ
  have hbits : b.bits = b'.bits := by
    refine List.ext_getElem (by rw [h.bits_length, h'.bits_length, hM]) fun o ho ho' => ?_
    rw [← List.getD_eq_getElem _ [] ho, ← List.getD_eq_getElem _ [] ho']
    have hle := hlt (h.bits_length ▸ ho)
    refine bitmap_ext ?_ (hbit o hle)
    rw [h.words o hle, h'.words o (hM ▸ hle), hM]
  have hset : b.setBit = b'.setBit := by
    refine List.ext_getElem (by rw [h.setBit_length, h'.setBit_length, hM]) fun o ho ho' => ?_
    rw [← List.getD_eq_getElem _ [] ho, ← List.getD_eq_getElem _ [] ho']
    have hle := hlt (h.setBit_length ▸ ho)
    refine bitmap_ext ?_ fun w => ?_
    · rw [h.setWords o hle, h'.setWords o (hM ▸ hle), hM]
    · rw [Bool.eq_iff_iff]
      have hw := h.wordBit_iff o hle w
      have hw' := h'.wordBit_iff o (hM ▸ hle) w
      simp only [hbit o hle] at hw
      exact hw.trans hw'.symm
  have hnum : b.numFree = b'.numFree := by
    refine List.ext_getElem (by rw [h.numFree_length, h'.numFree_length, hM]) fun o ho ho' => ?_
    rw [← List.getD_eq_getElem _ 0 ho, ← List.getD_eq_getElem _ 0 ho']
    have hle := hlt (h.numFree_length ▸ ho)
    rw [h.count o hle, h'.count o (hM ▸ hle)]
    congr 1
    ext i
    rw [mem_shown, mem_shown, hbit o hle]
  cases b
  cases b'
  simp only at hbits hset hnum hM
  subst hbits hset hnum hM
  rfl

theorem Keeps.unique {b b' : DrIcmBuddyMem} {C : Set Nat} (h : Keeps b C) (h' : Keeps b' C)
    (hM : b.maxOrder = b'.maxOrder) : b = b' := by
  refine h.toWellFormed.ext h'.toWellFormed hM fun o ho i => ?_
  rw [Bool.eq_iff_iff, h.bit_iff o ho, h'.bit_iff o (hM ▸ ho)]

/-! ### The guarantees -/

/-- Whatever the clients call, no call goes wrong, and the blocks they hold are aligned to
their size, inside the memory and pairwise disjoint. -/
theorem buddyRun_blocks_disjoint (maxOrder : Nat) (ops : List BuddyOp) :
    ∃ u outs, buddyRun maxOrder ops = some (u, outs) ∧ (∀ x ∈ u.live, Placed maxOrder x) ∧
      u.live.Pairwise fun x y => Disjoint (blockCells x) (blockCells y) := by
  obtain ⟨u, outs, hrun, hinv⟩ := buddyRun_inv maxOrder ops
  exact ⟨u, outs, hrun, hinv.placed, hinv.disjoint⟩

/-- After any run an allocation fails exactly when every aligned block of its size inside
the memory meets a live block. -/
theorem buddyRun_alloc_fails_iff (maxOrder : Nat) (ops : List BuddyOp) :
    ∃ u outs, buddyRun maxOrder ops = some (u, outs) ∧ ∀ order,
      (drBuddyAllocMem u.buddy order = some (-1, u.buddy) ↔
        ∀ seg, Placed maxOrder (seg, order) →
          ∃ x ∈ u.live, ¬ Disjoint (blockCells (seg, order)) (blockCells x)) := by
  obtain ⟨u, outs, hrun, hinv⟩ := buddyRun_inv maxOrder ops
  refine ⟨u, outs, hrun, fun order => ?_⟩
  rcases drBuddyAllocMem_spec hinv.keeps order with ⟨heq, hnone⟩ | ⟨i, b', heq, -, hfree, -⟩
  · refine ⟨fun _ seg hplaced => ?_, fun _ => heq⟩
    obtain ⟨⟨i, hi⟩, -⟩ := id hplaced
    simp only at hi
    rw [Nat.mul_comm] at hi
    subst hi
    by_contra hall
    push Not at hall
    exact hnone i (free_covered_iff.mpr ⟨hplaced, hall⟩)
  · obtain ⟨hplaced, hdisj⟩ := free_covered_iff.mp hfree
    refine ⟨fun hfail => ?_, fun hall => ?_⟩
    · rw [heq, Option.some.injEq, Prod.mk.injEq] at hfail
      omega
    · obtain ⟨x, hx, hmeets⟩ := hall _ hplaced
      exact absurd (hdisj x hx) hmeets

/-- Two runs that leave the clients with the same blocks leave the allocator in the same
state: all splits are undone, whatever the order of the calls. -/
theorem buddyRun_history_free {maxOrder : Nat} {ops ops' : List BuddyOp} {u u' : BuddyUse}
    {outs outs' : List Int} (hrun : buddyRun maxOrder ops = some (u, outs))
    (hrun' : buddyRun maxOrder ops' = some (u', outs')) (hlive : ∀ x, x ∈ u.live ↔ x ∈ u'.live) :
    u.buddy = u'.buddy := by
  have hinv := inv_of_buddyRun hrun
  have hinv' := inv_of_buddyRun hrun'
  have hcov : covered maxOrder u.live = covered maxOrder u'.live := by
    ext c
    simp only [covered, Set.mem_ofPred_eq, hlive]
  exact hinv.keeps.unique (hcov ▸ hinv'.keeps) (hinv.maxOrder_eq.trans hinv'.maxOrder_eq.symm)

/-- A run that frees all it allocated is one case: the allocator is as at the start. -/
theorem buddyRun_all_freed : ∃ u u' outs outs',
    buddyRun 2 [.alloc 0, .alloc 1, .free 0 0, .free 2 1] = some (u, outs) ∧
      buddyRun 2 [] = some (u', outs') ∧ u.buddy = u'.buddy := by
  have hrun : buddyRun 2 [.alloc 0, .alloc 1, .free 0 0, .free 2 1] = some (_, _) := rfl
  have hrun' : buddyRun 2 [] = some (_, _) := rfl
  exact ⟨_, _, _, _, hrun, hrun', buddyRun_history_free hrun hrun' fun _ => Iff.rfl⟩

end Nicmem
