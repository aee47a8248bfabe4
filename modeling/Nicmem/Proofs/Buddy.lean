/-
The buddy allocator keeps the maximal free blocks.

The bitmaps of a buddy allocator are read as the set of the blocks they show as free
(`bit`).  `WellFormed` says that the second bitmaps and the counters agree with them, so
that the search over the orders finds the first free block; `Keeps` says that the blocks
shown are the maximal free blocks of a partly covered line (`Dyadic.MaxFree`).  Taking a
block covers it, a split uncovers the upper halves one by one, and a merge covers the
buddies before the joined block is uncovered.  The cells behind the end of the memory
count as covered, which is why a merge stops at the largest order.
-/
import Nicmem.Dyadic
import Nicmem.Mlx5.Buddy
import Nicmem.Proofs.Bitmap
import Mathlib.Tactic.Linarith
import Mathlib.Tactic.Ring

namespace Nicmem

open C Dyadic

namespace DrIcmBuddyMem

variable {b b' : DrIcmBuddyMem}

/-- The bitmap of order `o` shows block `i` as free. -/
def bit (b : DrIcmBuddyMem) (o i : Nat) : Bool := bitAt (b.bits.getD o []) i

/-- The second bitmap of order `o` shows word `w` as not empty. -/
def wordBit (b : DrIcmBuddyMem) (o w : Nat) : Bool := bitAt (b.setBit.getD o []) w

/-- The blocks of order `o` shown as free. -/
def shown (b : DrIcmBuddyMem) (o : Nat) : Finset Nat :=
  (Finset.range (64 * (b.bits.getD o []).length)).filter fun i => b.bit o i = true

/-- The lengths of the arrays. -/
structure Shape (b : DrIcmBuddyMem) : Prop where
  bits_length : b.bits.length = b.maxOrder + 1
  setBit_length : b.setBit.length = b.maxOrder + 1
  numFree_length : b.numFree.length = b.maxOrder + 1
  words : ∀ o ≤ b.maxOrder, (b.bits.getD o []).length = bitmapNwords (2 ^ (b.maxOrder - o))
  setWords : ∀ o ≤ b.maxOrder,
    (b.setBit.getD o []).length = bitmapNwords (bitsToLongs (2 ^ (b.maxOrder - o)))

/-- The second bitmaps and the counters agree with the bitmaps. -/
structure WellFormed (b : DrIcmBuddyMem) : Prop extends Shape b where
  wordBit_iff : ∀ o ≤ b.maxOrder, ∀ w,
    b.wordBit o w = true ↔ ∃ i, i / 64 = w ∧ b.bit o i = true
  count : ∀ o ≤ b.maxOrder, b.numFree.getD o 0 = (b.shown o).card

theorem Shape.lt_words (h : Shape b) {o i : Nat} (ho : o ≤ b.maxOrder)
    (hi : i < 2 ^ (b.maxOrder - o)) : i < 64 * (b.bits.getD o []).length := by
  rw [h.words o ho]
  exact Nat.lt_of_lt_of_le hi (le_nwords _)

/-- The second bitmap has a bit for every word of the first. -/
theorem Shape.lt_setWords (h : Shape b) {o i : Nat} (ho : o ≤ b.maxOrder)
    (hi : i < 64 * (b.bits.getD o []).length) : i / 64 < 64 * (b.setBit.getD o []).length := by
  rw [h.words o ho] at hi
  rw [h.setWords o ho]
  have hle := le_nwords (bitsToLongs (2 ^ (b.maxOrder - o)))
  unfold bitsToLongs bitmapNwords at *
  omega

theorem mem_shown {o i : Nat} : i ∈ b.shown o ↔ b.bit o i = true := by
  rw [shown, Finset.mem_filter, Finset.mem_range, and_iff_right_iff_imp]
  exact lt_of_bitAt

/-- A change at one order only. -/
structure ChangedAt (b b' : DrIcmBuddyMem) (o : Nat) : Prop where
  maxOrder : b'.maxOrder = b.maxOrder
  bits_length : b'.bits.length = b.bits.length
  setBit_length : b'.setBit.length = b.setBit.length
  numFree_length : b'.numFree.length = b.numFree.length
  words : ∀ p, (b'.bits.getD p []).length = (b.bits.getD p []).length
  setWords : ∀ p, (b'.setBit.getD p []).length = (b.setBit.getD p []).length
  bits_other : ∀ p, p ≠ o → b'.bits.getD p [] = b.bits.getD p []
  setBit_other : ∀ p, p ≠ o → b'.setBit.getD p [] = b.setBit.getD p []
  numFree_other : ∀ p, p ≠ o → b'.numFree.getD p 0 = b.numFree.getD p 0

theorem ChangedAt.bit_other {o p : Nat} (h : ChangedAt b b' o) (hp : p ≠ o) (i : Nat) :
    b'.bit p i = b.bit p i := by
  unfold bit
  rw [h.bits_other p hp]

theorem Shape.changedAt {o : Nat} (h : Shape b) (hc : ChangedAt b b' o) : Shape b' where
  bits_length := by rw [hc.bits_length, hc.maxOrder, h.bits_length]
  setBit_length := by rw [hc.setBit_length, hc.maxOrder, h.setBit_length]
  numFree_length := by rw [hc.numFree_length, hc.maxOrder, h.numFree_length]
  words p hp := by rw [hc.words, h.words p (hc.maxOrder ▸ hp), hc.maxOrder]
  setWords p hp := by rw [hc.setWords, h.setWords p (hc.maxOrder ▸ hp), hc.maxOrder]

/-- After a change at one order only that order has to be looked at. -/
theorem WellFormed.changedAt {o : Nat} (h : WellFormed b) (hc : ChangedAt b b' o)
    (hword : ∀ w, b'.wordBit o w = true ↔ ∃ i, i / 64 = w ∧ b'.bit o i = true)
    (hcount : b'.numFree.getD o 0 = (b'.shown o).card) : WellFormed b' where
  toShape := h.toShape.changedAt hc
  wordBit_iff p hp w := by
    rcases eq_or_ne p o with rfl | hne
    · exact hword w
    · unfold wordBit
      rw [hc.setBit_other p hne]
      simp only [hc.bit_other hne]
      exact h.wordBit_iff p (hc.maxOrder ▸ hp) w
  count p hp := by
    rcases eq_or_ne p o with rfl | hne
    · exact hcount
    · rw [hc.numFree_other p hne, h.count p (hc.maxOrder ▸ hp)]
      congr 1
      ext i
      rw [mem_shown, mem_shown, hc.bit_other hne]

/-- An array whose element at `o` is replaced by one of the same length. -/
def ReplacedAt (array array' : List Bitmap) (o : Nat) (bmap : Bitmap) : Prop :=
  array'.length = array.length ∧ bmap.length = (array.getD o []).length ∧
    ∀ p, array'.getD p [] = if p = o then bmap else array.getD p []

theorem ReplacedAt.length_getD {array array' : List Bitmap} {o : Nat} {bmap : Bitmap}
    (h : ReplacedAt array array' o bmap) (p : Nat) :
    (array'.getD p []).length = (array.getD p []).length := by
  rw [h.2.2]
  split_ifs with hp
  · rw [h.2.1, hp]
  · rfl

theorem ReplacedAt.refl (array : List Bitmap) (o : Nat) :
    ReplacedAt array array o (array.getD o []) := by
  refine ⟨rfl, rfl, fun p => ?_⟩
  split_ifs with hp
  · rw [hp]
  · rfl

theorem changedAt_of_replacedAt {o n : Nat} {bits setBit : List Bitmap} {numFree : List Nat}
    {bm sm : Bitmap} (hbits : ReplacedAt b.bits bits o bm) (hset : ReplacedAt b.setBit setBit o sm)
    (hlen : numFree.length = b.numFree.length)
    (hnum : ∀ p, numFree.getD p 0 = if p = o then n else b.numFree.getD p 0) :
    ChangedAt b { b with bits, setBit, numFree } o where
  maxOrder := rfl
  bits_length := hbits.1
  setBit_length := hset.1
  numFree_length := hlen
  words := hbits.length_getD
  setWords := hset.length_getD
  bits_other p hp := by simp only [hbits.2.2, if_neg hp]
  setBit_other p hp := by simp only [hset.2.2, if_neg hp]
  numFree_other p hp := by simp only [hnum, if_neg hp]

end DrIcmBuddyMem

open DrIcmBuddyMem

variable {b b' : DrIcmBuddyMem} {C : Set Nat}

/-- A bitmap changed in place inside an array of bitmaps. -/
theorem updateAt_bitmap {array : List Bitmap} {o : Nat} {f : Bitmap → Option Bitmap} {bmap : Bitmap}
    (ho : o < array.length) (hf : f (array.getD o []) = some bmap)
    (hlen : bmap.length = (array.getD o []).length) :
    ∃ array', updateAt array o f = some array' ∧ ReplacedAt array array' o bmap := by
  obtain ⟨array', heq, hlen', hget⟩ := updateAt_spec f [] ho hf
  exact ⟨array', heq, hlen', hlen, hget⟩

/-! ### Marking and unmarking a block -/

theorem drBuddyMark_spec {o seg : Nat} (h : WellFormed b) (ho : o ≤ b.maxOrder)
    (hseg : seg < 64 * (b.bits.getD o []).length) (hbit : b.bit o seg = false) :
    ∃ b', drBuddyMark b seg o = some b' ∧ WellFormed b' ∧ b'.maxOrder = b.maxOrder ∧
      ∀ p i, b'.bit p i = if p = o ∧ i = seg then true else b.bit p i := by
  obtain ⟨bm, hbm, hbmlen, hbmbit⟩ := bitmapSetBit_spec hseg
  obtain ⟨sm, hsm, hsmlen, hsmbit⟩ := bitmapSetBit_spec (h.lt_setWords ho hseg)
  obtain ⟨bits, hbits, hbitsat⟩ := updateAt_bitmap (f := (bitmapSetBit · seg))
    (by rw [h.bits_length]; omega) hbm hbmlen
  obtain ⟨setBit, hset, hsetat⟩ := updateAt_bitmap (f := (bitmapSetBit · (seg / 64)))
    (by rw [h.setBit_length]; omega) hsm hsmlen
  obtain ⟨numFree, hnum, hnumlen, hnumget⟩ := updateAt_spec (fun n => some (n + 1)) 0
    (show o < b.numFree.length by rw [h.numFree_length]; omega) rfl
  have hc : ChangedAt b { b with bits, setBit, numFree } o :=
    changedAt_of_replacedAt hbitsat hsetat hnumlen hnumget
  have hnewbit : ∀ i, DrIcmBuddyMem.bit { b with bits, setBit, numFree } o i =
      if i = seg then true else b.bit o i := by
    intro i
    unfold DrIcmBuddyMem.bit
    rw [hbitsat.2.2, if_pos rfl, hbmbit]
  refine ⟨_, ?_, h.changedAt hc ?_ ?_, rfl, ?_⟩
  · simp [drBuddyMark, hbits, hset, hnum]
  · intro w
    have hold := h.wordBit_iff o ho w
    unfold DrIcmBuddyMem.wordBit at hold ⊢
    rw [hsetat.2.2, if_pos rfl, hsmbit]
    simp only [hnewbit]
    split_ifs with hw
    · simp only [true_iff]
      exact ⟨seg, hw.symm, if_pos rfl⟩
    · rw [hold]
      refine exists_congr fun i => and_congr_right fun hi => ?_
      rw [if_neg (by rintro rfl; exact hw hi.symm)]
  · have hinsert : DrIcmBuddyMem.shown { b with bits, setBit, numFree } o =
        insert seg (b.shown o) := by
      ext i
      rw [Finset.mem_insert, mem_shown, mem_shown, hnewbit]
      split_ifs with hi <;> simp [hi]
    rw [hinsert, Finset.card_insert_of_notMem (by rw [mem_shown, hbit]; exact Bool.false_ne_true),
      ← h.count o ho]
    simp only [hnumget, if_pos]
  · intro p i
    rcases eq_or_ne p o with rfl | hp
    · rw [hnewbit]
      simp
    · rw [hc.bit_other hp, if_neg (fun hpi => hp hpi.1)]

/-- The bit of a word in the second bitmap goes when the word is empty. -/
theorem drBuddyUpdateUpperBitmap_spec {o seg : Nat} (h : Shape b) (ho : o ≤ b.maxOrder)
    (hseg : seg < 64 * (b.bits.getD o []).length) :
    ∃ setBit sm, drBuddyUpdateUpperBitmap b seg o = some { b with setBit } ∧
      ReplacedAt b.setBit setBit o sm ∧
      ∀ w, bitAt sm w = true ↔
        b.wordBit o w = true ∧ (w = seg / 64 → ∃ i, i / 64 = w ∧ b.bit o i = true) := by
  have hbits : b.bits[o]? = some (b.bits.getD o []) :=
    getElem?_eq_getD [] (by rw [h.bits_length]; omega)
  obtain ⟨m, hm, hfirst⟩ := bitmapFfs_spec (show seg / 64 * 64 ≤ (seg / 64 + 1) * 64 by omega)
    (show (seg / 64 + 1) * 64 ≤ 64 * (b.bits.getD o []).length by omega)
  have hstep : drBuddyUpdateUpperBitmap b seg o = if m = (seg / 64 + 1) * 64 then
      (updateAt b.setBit o (bitmapClearBit · (seg / 64))).bind fun setBit => some { b with setBit }
      else some b := by
    unfold drBuddyUpdateUpperBitmap
    rw [hbits]
    show (bitmapFfs _ _ _).bind _ = _
    rw [hm]
    rfl
  rw [hstep]
  by_cases hmh : m = (seg / 64 + 1) * 64
  · rw [if_pos hmh]
    obtain ⟨sm, hsm, hsmlen, hsmbit⟩ := bitmapClearBit_spec (h.lt_setWords ho hseg)
    obtain ⟨setBit, hset, hsetat⟩ := updateAt_bitmap (f := (bitmapClearBit · (seg / 64)))
      (by rw [h.setBit_length]; omega) hsm hsmlen
    refine ⟨setBit, sm, by rw [hset, Option.bind_some], hsetat, fun w => ?_⟩
    rw [hsmbit]
    split_ifs with hw
    · refine ⟨fun hfalse => absurd hfalse not_false, fun ⟨_, hsome⟩ => ?_⟩
      obtain ⟨i, hi, hbi⟩ := hsome hw
      have := hfirst.before i (by omega) (by omega)
      exact absurd (hbi.symm.trans this) Bool.false_ne_true.symm
    · exact ⟨fun hb => ⟨hb, fun hw' => absurd hw' hw⟩, fun hb => hb.1⟩
  · rw [if_neg hmh]
    refine ⟨b.setBit, b.setBit.getD o [], rfl, ReplacedAt.refl _ _, fun w => ?_⟩
    have hlt : m < (seg / 64 + 1) * 64 := Nat.lt_of_le_of_ne hfirst.le hmh
    have hge := hfirst.ge
    refine ⟨fun hb => ⟨hb, fun hw => ⟨m, by omega, hfirst.set hlt⟩⟩, fun hb => hb.1⟩

theorem drBuddyUnmark_spec {o seg : Nat} (h : WellFormed b) (ho : o ≤ b.maxOrder)
    (hbit : b.bit o seg = true) :
    ∃ b', drBuddyUnmark b seg o = some b' ∧ WellFormed b' ∧ b'.maxOrder = b.maxOrder ∧
      ∀ p i, b'.bit p i = if p = o ∧ i = seg then false else b.bit p i := by
  have hseg := lt_of_bitAt hbit
  obtain ⟨bm, hbm, hbmlen, hbmbit⟩ := bitmapClearBit_spec hseg
  obtain ⟨bits, hbits, hbitsat⟩ := updateAt_bitmap (f := (bitmapClearBit · seg))
    (by rw [h.bits_length]; omega) hbm hbmlen
  have hshape : Shape { b with bits } := by
    refine h.toShape.changedAt (o := o) (changedAt_of_replacedAt hbitsat (ReplacedAt.refl _ _) rfl
      (n := b.numFree.getD o 0) fun p => ?_)
    split_ifs with hp
    · rw [hp]
    · rfl
  obtain ⟨setBit, sm, hupper, hsetat, hsmbit⟩ :=
    drBuddyUpdateUpperBitmap_spec (b := { b with bits }) hshape ho
      (by rw [hbitsat.length_getD]; exact hseg)
  obtain ⟨numFree, hnum, hnumlen, hnumget⟩ := updateAt_spec (fun n => some (n - 1)) 0
    (show o < b.numFree.length by rw [h.numFree_length]; omega) rfl
  have hc : ChangedAt b { b with bits, setBit, numFree } o :=
    changedAt_of_replacedAt hbitsat hsetat hnumlen hnumget
  have hnewbit : ∀ i, DrIcmBuddyMem.bit { b with bits, setBit, numFree } o i =
      if i = seg then false else b.bit o i := by
    intro i
    unfold DrIcmBuddyMem.bit
    rw [hbitsat.2.2, if_pos rfl, hbmbit]
  refine ⟨_, ?_, h.changedAt hc ?_ ?_, rfl, ?_⟩
  · simp [drBuddyUnmark, hbits, hupper, hnum]
  · intro w
    have hold := h.wordBit_iff o ho w
    have hnew : DrIcmBuddyMem.wordBit { b with bits, setBit, numFree } o w = bitAt sm w := by
      unfold DrIcmBuddyMem.wordBit
      rw [hsetat.2.2, if_pos rfl]
    rw [hnew, hsmbit]
    refine ⟨fun ⟨hw, hsome⟩ => ?_, fun ⟨i, hi, hbi⟩ => ⟨?_, fun _ => ⟨i, hi, hbi⟩⟩⟩
    · by_cases hword : w = seg / 64
      · exact hsome hword
      · obtain ⟨i, hi, hbi⟩ := hold.mp hw
        refine ⟨i, hi, ?_⟩
        rw [hnewbit, if_neg (by rintro rfl; exact hword hi.symm)]
        exact hbi
    · refine hold.mpr ⟨i, hi, ?_⟩
      rw [hnewbit] at hbi
      split_ifs at hbi
      exact hbi
  · have herase : DrIcmBuddyMem.shown { b with bits, setBit, numFree } o =
        (b.shown o).erase seg := by
      ext i
      rw [Finset.mem_erase, mem_shown, mem_shown, hnewbit]
      split_ifs with hi <;> simp [hi]
    rw [herase, Finset.card_erase_of_mem (mem_shown.mpr hbit), ← h.count o ho]
    simp only [hnumget, if_pos]
  · intro p i
    rcases eq_or_ne p o with rfl | hp
    · rw [hnewbit]
      simp
    · rw [hc.bit_other hp, if_neg (fun hpi => hp hpi.1)]

/-! ### The bitmaps show the maximal free blocks -/

/-- The allocator keeps the maximal free blocks of the line with the cells `C` covered. -/
structure Keeps (b : DrIcmBuddyMem) (C : Set Nat) : Prop extends WellFormed b where
  outside : ∀ c, 2 ^ b.maxOrder ≤ c → c ∈ C
  bit_iff : ∀ o ≤ b.maxOrder, ∀ i, b.bit o i = true ↔ MaxFree C o i

/-- Taking a maximal free block covers it. -/
theorem drBuddyUnmark_keeps {o seg : Nat} (h : Keeps b C) (hmax : MaxFree C o seg) :
    ∃ b', drBuddyUnmark b seg o = some b' ∧ b'.maxOrder = b.maxOrder ∧
      Keeps b' (C ∪ block o seg) := by
  have ho := hmax.1.order_le h.outside
  obtain ⟨b', heq, hwf, hM, hbit⟩ :=
    drBuddyUnmark_spec h.toWellFormed ho ((h.bit_iff o ho seg).mpr hmax)
  refine ⟨b', heq, hM, hwf, fun c hc => Or.inl (h.outside c (hM ▸ hc)), fun p hp i => ?_⟩
  rw [hbit, maxFree_cover hmax, ← h.bit_iff p (hM ▸ hp)]
  split_ifs with hpi <;> simp [hpi]

/-- Giving a block back whose buddy is not free uncovers it. -/
theorem drBuddyMark_keeps {o seg : Nat} (h : Keeps b C) (hcov : block o seg ⊆ C)
    (hbuddy : ¬ Free C o (seg ^^^ 1)) (hin : (seg + 1) * 2 ^ o ≤ 2 ^ b.maxOrder) :
    ∃ b', drBuddyMark b seg o = some b' ∧ b'.maxOrder = b.maxOrder ∧
      Keeps b' (C \ block o seg) := by
  have hfree : Free {c | 2 ^ b.maxOrder ≤ c} o seg := fun c hc => by
    have := (mem_block_iff_range.mp hc).2
    show ¬ 2 ^ b.maxOrder ≤ c
    omega
  have ho := hfree.order_le fun c hc => hc
  have hbit : b.bit o seg = false := by
    rw [Bool.eq_false_iff]
    intro hset
    exact ((h.bit_iff o ho seg).mp hset).1 _ (start_mem o seg) (hcov (start_mem o seg))
  obtain ⟨b', heq, hwf, hM, hbit'⟩ := drBuddyMark_spec h.toWellFormed ho
    (h.toShape.lt_words ho (hfree.index_lt fun c hc => hc)) hbit
  refine ⟨b', heq, hM, hwf, fun c hc => ⟨h.outside c (hM ▸ hc), fun hmem => ?_⟩, fun p hp i => ?_⟩
  · exact hfree c hmem (hM ▸ hc)
  · rw [hbit', maxFree_uncover hcov hbuddy, ← h.bit_iff p (hM ▸ hp)]
    split_ifs with hpi <;> simp [hpi]

/-! ### The search -/

/-- The two bitmaps of an order lead to its first free block. -/
theorem drFindFirstBit_spec {o i : Nat} (h : Keeps b C) (hmax : MaxFree C o i) :
    ∃ seg, drFindFirstBit (b.setBit.getD o []) (b.bits.getD o []) (2 ^ (b.maxOrder - o)) =
      some seg ∧
      MaxFree C o seg ∧ ∀ j < seg, ¬ MaxFree C o j := by
  have ho := hmax.1.order_le h.outside
  have hword := le_nwords (bitsToLongs (2 ^ (b.maxOrder - o)))
  have hsize : (2 ^ (b.maxOrder - o) - 1) / 64 + 1 = bitsToLongs (2 ^ (b.maxOrder - o)) := by
    have := Nat.two_pow_pos (b.maxOrder - o)
    unfold bitsToLongs
    omega
  have hilt := hmax.1.index_lt h.outside
  obtain ⟨w, hw, hwfirst⟩ := bitmapFfs_spec (Nat.zero_le (bitsToLongs (2 ^ (b.maxOrder - o))))
    (show _ ≤ 64 * (b.setBit.getD o []).length by rw [h.setWords o ho]; exact hword)
  have hwi : w ≤ i / 64 := by
    by_contra hlt
    have hset := (h.wordBit_iff o ho (i / 64)).mpr ⟨i, rfl, (h.bit_iff o ho i).mpr hmax⟩
    have hclear := hwfirst.before (i / 64) (Nat.zero_le _) (by omega)
    exact Bool.false_ne_true (hclear.symm.trans hset)
  have hwset : b.wordBit o w = true := hwfirst.set (by unfold bitsToLongs; omega)
  obtain ⟨j, hj, hbj⟩ := (h.wordBit_iff o ho w).mp hwset
  have hjlt := ((h.bit_iff o ho j).mp hbj).1.index_lt h.outside
  obtain ⟨seg, hseg, hfirst⟩ := bitmapFfs_spec (show w * 64 ≤ 2 ^ (b.maxOrder - o) by omega)
    (show _ ≤ 64 * (b.bits.getD o []).length by rw [h.words o ho]; exact le_nwords _)
  have hsegj : seg ≤ j := by
    by_contra hlt
    have hclear := hfirst.before j (by omega) (by omega)
    exact Bool.false_ne_true (hclear.symm.trans hbj)
  refine ⟨seg, ?_, ?_, fun k hk hkmax => ?_⟩
  · rw [drFindFirstBit, hsize, hw, Option.bind_some, hseg]
  · exact (h.bit_iff o ho seg).mp (hfirst.set (by omega))
  · have hbk := (h.bit_iff o ho k).mpr hkmax
    rcases Nat.lt_or_ge k (w * 64) with hlt | hge
    · -- a free block in an earlier word
      have hset := (h.wordBit_iff o ho (k / 64)).mpr ⟨k, rfl, hbk⟩
      have hclear := hwfirst.before (k / 64) (Nat.zero_le _) (by omega)
      exact Bool.false_ne_true (hclear.symm.trans hset)
    · exact Bool.false_ne_true ((hfirst.before k hge hk).symm.trans hbk)

/-- What the search over the orders from `o` on returns. -/
structure Found (C : Set Nat) (o : Nat) (found : Option (Nat × Nat)) : Prop where
  none : found = none → ∀ p, o ≤ p → ∀ i, ¬ MaxFree C p i
  some : ∀ seg p, found = some (seg, p) → o ≤ p ∧ MaxFree C p seg ∧
    (∀ j < seg, ¬ MaxFree C p j) ∧ ∀ q, o ≤ q → q < p → ∀ i, ¬ MaxFree C q i

theorem drBuddyFind_spec (h : Keeps b C) : ∀ (orders o : Nat), b.maxOrder + 1 - o = orders →
    ∃ found, drBuddyFind b orders o = some found ∧ Found C o found := by
  intro orders
  induction orders with
  | zero =>
      intro o horders
      refine ⟨none, rfl, fun _ p hp i hmax => ?_, by simp⟩
      have := hmax.1.order_le h.outside
      omega
  | succ orders ih =>
      intro o horders
      have ho : o ≤ b.maxOrder := by omega
      have hnum := getElem?_eq_getD 0 (show o < b.numFree.length by rw [h.numFree_length]; omega)
      have hset := getElem?_eq_getD [] (show o < b.setBit.length by rw [h.setBit_length]; omega)
      have hbits := getElem?_eq_getD [] (show o < b.bits.length by rw [h.bits_length]; omega)
      have hcount := h.count o ho
      simp only [drBuddyFind, hnum, hset, hbits, bind, Option.bind_some]
      by_cases hzero : b.numFree.getD o 0 = 0
      · -- no free block of this order
        have hnone : ∀ i, ¬ MaxFree C o i := by
          intro i hmax
          rw [hzero, eq_comm, Finset.card_eq_zero] at hcount
          have := mem_shown.mpr ((h.bit_iff o ho i).mpr hmax)
          rw [hcount] at this
          exact Finset.notMem_empty i this
        obtain ⟨found, heq, hfound⟩ := ih (o + 1) (by omega)
        refine ⟨found, by rw [if_neg (not_not.mpr hzero)]; exact heq, fun hn p hp i => ?_, ?_⟩
        · rcases Nat.eq_or_lt_of_le hp with rfl | hlt
          · exact hnone i
          · exact hfound.none hn p hlt i
        · intro seg p hs
          obtain ⟨hp, hmax, hfirst, hlower⟩ := hfound.some seg p hs
          refine ⟨by omega, hmax, hfirst, fun q hq hqp i => ?_⟩
          rcases Nat.eq_or_lt_of_le hq with rfl | hlt
          · exact hnone i
          · exact hlower q hlt hqp i
      · obtain ⟨i, hi⟩ := Finset.card_pos.mp (Nat.pos_of_ne_zero (hcount ▸ hzero))
        obtain ⟨seg, hseg, hmax, hfirst⟩ :=
          drFindFirstBit_spec h ((h.bit_iff o ho i).mp (mem_shown.mp hi))
        have hlt := hmax.1.index_lt h.outside
        refine ⟨some (seg, o), ?_, by simp, ?_⟩
        · rw [if_pos hzero, hseg, Option.bind_some, if_neg (Nat.not_le.mpr hlt)]
        · intro seg' p hs
          simp only [Option.some.injEq, Prod.mk.injEq] at hs
          obtain ⟨rfl, rfl⟩ := hs
          exact ⟨Nat.le_refl _, hmax, hfirst, fun q hq hqp => absurd hqp (by omega)⟩

/-! ### Splitting and merging -/

/-- The halves that are split off are uncovered, down to the block of the order asked for. -/
theorem drBuddySplit_spec (order : Nat) : ∀ (splits : Nat) {b : DrIcmBuddyMem} {seg : Nat},
    Free C (order + splits) seg → (seg + 1) * 2 ^ (order + splits) ≤ 2 ^ b.maxOrder →
    Keeps b (C ∪ block (order + splits) seg) →
    ∃ b', drBuddySplit order splits b seg = some (b', seg * 2 ^ splits) ∧
      b'.maxOrder = b.maxOrder ∧ Keeps b' (C ∪ block order (seg * 2 ^ splits)) := by
  intro splits
  induction splits with
  | zero =>
      intro b seg _ _ h
      rw [Nat.pow_zero, Nat.mul_one]
      exact ⟨b, rfl, rfl, h⟩
  | succ splits ih =>
      intro b seg hfree hin h
      have hseg : seg <<< 1 = 2 * seg := by rw [Nat.shiftLeft_eq, Nat.pow_one, Nat.mul_comm]
      have hhalf : 2 * seg / 2 = seg := Nat.mul_div_cancel_left seg (Nat.succ_pos 1)
      have hupper : (2 * seg ^^^ 1) = 2 * seg + 1 := by
        rcases eq_or_eq_xor_one (show (2 * seg + 1) / 2 = 2 * seg / 2 by omega) with heq | heq
        · omega
        · exact heq.symm
      rw [← Nat.add_assoc] at hfree hin h
      rw [Nat.pow_succ, ← Nat.mul_assoc, Nat.mul_comm _ 2, Nat.mul_comm (seg + 1)] at hin
      have hpos := Nat.two_pow_pos (order + splits)
      have hlow : block (order + splits) (2 * seg) ⊆ block (order + splits + 1) seg := by
        have := block_subset_parent (order + splits) (2 * seg)
        rwa [hhalf] at this
      have hhigh : block (order + splits) (2 * seg ^^^ 1) ⊆ block (order + splits + 1) seg := by
        have := block_subset_parent (order + splits) (2 * seg ^^^ 1)
        rwa [xor_one_div, hhalf] at this
      have hbuddy : ¬ Free (C ∪ block (order + splits + 1) seg) (order + splits)
          (2 * seg ^^^ 1 ^^^ 1) := by
        rw [xor_one_xor_one]
        exact fun hlower => hlower _ (start_mem _ _) (Or.inr (hlow (start_mem _ _)))
      obtain ⟨b₁, hb₁, hM₁, hk₁⟩ := drBuddyMark_keeps h (fun c hc => Or.inr (hhigh hc)) hbuddy
        (by rw [hupper]; linarith)
      have hkeep := cover_parent_diff_buddy (o := order + splits) (i := 2 * seg) (C := C)
        (by rw [hhalf]; exact hfree)
      rw [hhalf] at hkeep
      rw [hkeep] at hk₁
      obtain ⟨b₂, hb₂, hM₂, hk₂⟩ := ih (hfree.mono hlow) (by rw [hM₁]; linarith) hk₁
      have hshift : 2 * seg * 2 ^ splits = seg * 2 ^ (splits + 1) := by
        rw [Nat.pow_succ]
        ring
      rw [hshift] at hb₂ hk₂
      refine ⟨b₂, ?_, hM₂.trans hM₁, hk₂⟩
      simp only [drBuddySplit, hseg, hb₁, bind, Option.bind_some]
      exact hb₂

/-- A buddy index stays inside a bitmap. -/
theorem xor_one_lt {i n : Nat} (h : i < 64 * n) : i ^^^ 1 < 64 * n := by
  have := xor_one_div i
  omega

/-- The free buddies are covered one after the other and the joined block is uncovered. -/
theorem drBuddyMerge_spec : ∀ (orders : Nat) {b : DrIcmBuddyMem} {C : Set Nat} {seg order : Nat},
    b.maxOrder + 1 - order = orders → (seg + 1) * 2 ^ order ≤ 2 ^ b.maxOrder →
    block order seg ⊆ C → Keeps b C →
    ∃ b', drBuddyMerge orders b seg order = some b' ∧ b'.maxOrder = b.maxOrder ∧
      Keeps b' (C \ block order seg) := by
  intro orders
  induction orders with
  | zero =>
      intro b C seg order horders hin hcov h
      have hpow : 2 ^ b.maxOrder < 2 ^ order := Nat.pow_lt_pow_right (Nat.lt_succ_self 1) (by omega)
      rw [Nat.add_mul, Nat.one_mul] at hin
      omega
  | succ orders ih =>
      intro b C seg order horders hin hcov h
      have ho : order ≤ b.maxOrder := by omega
      have hbits := getElem?_eq_getD [] (show order < b.bits.length by rw [h.bits_length]; omega)
      have hseglt : seg < 64 * (b.bits.getD order []).length := by
        refine h.toShape.lt_words ho ?_
        rw [← Nat.pow_sub_mul_pow 2 ho] at hin
        exact Nat.le_of_mul_le_mul_right hin (Nat.two_pow_pos order)
      have htest : bitmapTestBit (b.bits.getD order []) (seg ^^^ 1) =
        some (b.bit order (seg ^^^ 1)) :=
        bitmapTestBit_spec (xor_one_lt hseglt)
      simp only [drBuddyMerge, hbits, htest, bind, Option.bind_some]
      by_cases hbuddy : b.bit order (seg ^^^ 1) = true
      · have hmax := (h.bit_iff order ho _).mp hbuddy
        have hend := hmax.1.le_two_pow h.outside
        obtain ⟨b₁, hb₁, hM₁, hk₁⟩ := drBuddyUnmark_keeps h hmax
        have hcov₁ : block (order + 1) (seg / 2) ⊆ C ∪ block order (seg ^^^ 1) := by
          intro c hc
          rcases mem_parent_iff.mp hc with hi | hb
          · exact Or.inl (hcov hi)
          · exact Or.inr hb
        have hin₁ : (seg / 2 + 1) * 2 ^ (order + 1) ≤ 2 ^ b₁.maxOrder := by
          -- the later one of the two buddies ends with their parent
          rw [hM₁, Nat.pow_succ, ← Nat.mul_assoc, Nat.mul_right_comm]
          rcases eq_or_eq_xor_one (show (2 * (seg / 2) + 1) / 2 = seg / 2 by omega) with heq | heq
          · rw [show (seg / 2 + 1) * 2 = seg + 1 by omega]
            exact hin
          · rw [show (seg / 2 + 1) * 2 = (seg ^^^ 1) + 1 by omega]
            exact hend
        obtain ⟨b₂, hb₂, hM₂, hk₂⟩ := ih (show b₁.maxOrder + 1 - (order + 1) = orders by omega)
          hin₁ hcov₁ hk₁
        rw [cover_buddy_diff_parent hmax.1] at hk₂
        refine ⟨b₂, ?_, hM₂.trans hM₁, hk₂⟩
        rw [if_pos hbuddy, hb₁, Option.bind_some, Nat.shiftRight_eq_div_pow, Nat.pow_one]
        exact hb₂
      · rw [if_neg hbuddy]
        refine drBuddyMark_keeps h hcov (fun hfree => hbuddy ?_) hin
        refine (h.bit_iff order ho _).mpr ⟨hfree, fun hparent => ?_⟩
        rw [xor_one_div] at hparent
        exact hparent _ (block_subset_parent order seg (start_mem _ _)) (hcov (start_mem _ _))

/-! ### Allocating and freeing -/

/-- An allocation either finds nothing, and then no block of that order is free, or it
covers a block that was free. -/
theorem drBuddyAllocMem_spec (h : Keeps b C) (order : Nat) :
    (drBuddyAllocMem b order = some (-1, b) ∧ ∀ i, ¬ Free C order i) ∨
    ∃ i b', drBuddyAllocMem b order = some (((i * 2 ^ order : Nat) : Int), b') ∧
      b'.maxOrder = b.maxOrder ∧ Free C order i ∧ Keeps b' (C ∪ block order i) := by
  obtain ⟨found, heq, hfound⟩ := drBuddyFind_spec h (b.maxOrder + 1 - order) order rfl
  cases found with
  | none =>
      refine Or.inl ⟨by simp [drBuddyAllocMem, heq], fun i hfree => ?_⟩
      obtain ⟨p, hp, -, hmax⟩ := hfree.exists_maxFree (M := b.maxOrder)
        (fun o ho j hj => absurd (hj.order_le h.outside) (Nat.not_le.mpr ho)) _ _ _ rfl
      exact hfound.none rfl p hp _ hmax
  | some sp =>
      obtain ⟨seg, p⟩ := sp
      obtain ⟨hp, hmax, -, -⟩ := hfound.some seg p rfl
      obtain ⟨b₁, hb₁, hM₁, hk₁⟩ := drBuddyUnmark_keeps h hmax
      have hsum : order + (p - order) = p := Nat.add_sub_cancel' hp
      have hend := hmax.1.le_two_pow h.outside
      rw [← hsum] at hmax hk₁ hend
      obtain ⟨b₂, hb₂, hM₂, hk₂⟩ :=
        drBuddySplit_spec order (p - order) hmax.1 (by rw [hM₁]; exact hend) hk₁
      rw [hsum] at hmax
      refine Or.inr ⟨seg * 2 ^ (p - order), b₂, ?_, hM₂.trans hM₁, ?_, hk₂⟩
      · simp [drBuddyAllocMem, heq, hb₁, hb₂, Nat.shiftLeft_eq]
      · refine hmax.1.mono ?_
        have := block_subset hp (seg * 2 ^ (p - order))
        rwa [Nat.mul_div_cancel _ (Nat.two_pow_pos _)] at this

/-- Freeing a block uncovers it. -/
theorem drBuddyFreeMem_spec {i order : Nat} (h : Keeps b C)
    (hin : (i + 1) * 2 ^ order ≤ 2 ^ b.maxOrder) (hcov : block order i ⊆ C) :
    ∃ b', drBuddyFreeMem b (i * 2 ^ order) order = some b' ∧ b'.maxOrder = b.maxOrder ∧
      Keeps b' (C \ block order i) := by
  rw [drBuddyFreeMem, Nat.shiftRight_eq_div_pow, Nat.mul_div_cancel _ (Nat.two_pow_pos _)]
  exact drBuddyMerge_spec _ rfl hin hcov h

end Nicmem
