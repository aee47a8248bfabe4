/-
What the bitmap functions do to the set of bits.

A bitmap is read as the set of its bits (`bitAt`).  Setting, clearing and testing a bit
are the operations on that set, and `bitmap_ffs`, which works on whole words with masks
for the first and the last one, finds the least bit of a range.
-/
import Nicmem.Ccan.Bitmap
import Mathlib.Data.Finset.Card
import Mathlib.Data.List.GetD
import Mathlib.Tactic.SplitIfs

namespace Nicmem

/-- Bit `i` of a bitmap; outside the array no bit is set. -/
def bitAt (bmap : Bitmap) (i : Nat) : Bool := (bmap.getD (i / 64) 0).getMsbD (i % 64)

theorem bitAt_of_word {bmap : Bitmap} {i : Nat} {w : BitVec 64} (h : bitmapWord bmap i = some w) :
    bitAt bmap i = w.getMsbD (i % 64) := by
  unfold bitmapWord at h
  simp [bitAt, h]

theorem bitmapWord_isSome {bmap : Bitmap} {n : Nat} (h : n < 64 * bmap.length) :
    ∃ w, bitmapWord bmap n = some w := by
  unfold bitmapWord
  exact ⟨bmap[n / 64], List.getElem?_eq_getElem (by omega)⟩

theorem lt_of_bitAt {bmap : Bitmap} {i : Nat} (h : bitAt bmap i = true) :
    i < 64 * bmap.length := by
  by_contra hlt
  unfold bitAt at h
  rw [List.getD_eq_default _ _ (by omega)] at h
  simp at h

@[simp] theorem bitAt_alloc0 (nbits i : Nat) : bitAt (bitmapAlloc0 nbits) i = false := by
  unfold bitAt bitmapAlloc0
  rcases Nat.lt_or_ge (i / 64) (bitmapNwords nbits) with h | h
  · rw [List.getD_eq_getElem _ _ (by simpa using h)]
    simp
  · rw [List.getD_eq_default _ _ (by simpa using h)]
    simp

@[simp] theorem length_alloc0 (nbits : Nat) :
    (bitmapAlloc0 nbits).length = bitmapNwords nbits := by
  simp [bitmapAlloc0]

theorem le_nwords (nbits : Nat) : nbits ≤ 64 * bitmapNwords nbits := by
  unfold bitmapNwords
  omega

/-- Two bitmaps of one length with the same bits are equal. -/
theorem bitmap_ext {a b : Bitmap} (hlen : a.length = b.length)
    (h : ∀ i, bitAt a i = bitAt b i) : a = b := by
  refine List.ext_getElem hlen fun w ha hb => ?_
  refine BitVec.eq_of_getMsbD_eq fun i hi => ?_
  have hbit := h (64 * w + i)
  unfold bitAt at hbit
  have hw : (64 * w + i) / 64 = w := by omega
  have hi : (64 * w + i) % 64 = i := by omega
  rw [hw, hi, List.getD_eq_getElem _ _ ha, List.getD_eq_getElem _ _ hb] at hbit
  exact hbit

/-! ### Setting, clearing and testing one bit -/

theorem getMsbD_wordbit {n i : Nat} (h : i < 64) :
    (bitmapWordbit n).getMsbD i = decide (i = n % 64) := by
  unfold bitmapWordbit
  rw [BitVec.getMsbD_shiftLeft, BitVec.getMsbD_one]
  have : n % 64 < 64 := Nat.mod_lt _ (by omega)
  simp only [decide_true, Bool.and_true, Nat.zero_lt_succ]
  congr 1
  apply propext
  omega

theorem bitAt_set (bmap : Bitmap) (k : Nat) (w : BitVec 64) (i : Nat) (hk : k < bmap.length) :
    bitAt (bmap.set k w) i = if i / 64 = k then w.getMsbD (i % 64) else bitAt bmap i := by
  unfold bitAt
  rw [List.getD_eq_getElem?_getD, List.getD_eq_getElem?_getD, List.getElem?_set]
  rcases eq_or_ne k (i / 64) with rfl | hne
  · rw [if_pos rfl, if_pos rfl, if_pos hk]
    rfl
  · rw [if_neg hne, if_neg (Ne.symm hne)]

/-- What a function that rewrites the word of bit `n` does, when it leaves the other bits
of that word alone. -/
theorem bitAt_set_word {bmap : Bitmap} {n : Nat} {w w' : BitVec 64} {v : Bool}
    (hw : bitmapWord bmap n = some w)
    (h : ∀ i < 64, w'.getMsbD i = if i = n % 64 then v else w.getMsbD i) (i : Nat) :
    bitAt (bmap.set (n / 64) w') i = if i = n then v else bitAt bmap i := by
  have hlt : n / 64 < bmap.length := by
    unfold bitmapWord at hw
    exact (List.getElem?_eq_some_iff.mp hw).1
  rw [bitAt_set bmap _ _ _ hlt, h _ (Nat.mod_lt _ (by omega))]
  rcases eq_or_ne (i / 64) (n / 64) with hword | hword
  · have hold : bitAt bmap i = w.getMsbD (i % 64) := by
      refine bitAt_of_word ?_
      unfold bitmapWord at hw ⊢
      rw [hword, hw]
    have hiff : i % 64 = n % 64 ↔ i = n := by omega
    simp only [if_pos hword, hiff, hold]
  · have hne : i ≠ n := fun h => hword (by rw [h])
    rw [if_neg hword, if_neg hne]

/-- `bitmap_set_bit` sets bit `n` and no other. -/
theorem bitmapSetBit_spec {bmap : Bitmap} {n : Nat} (h : n < 64 * bmap.length) :
    ∃ bmap', bitmapSetBit bmap n = some bmap' ∧ bmap'.length = bmap.length ∧
      ∀ i, bitAt bmap' i = if i = n then true else bitAt bmap i := by
  obtain ⟨w, hw⟩ := bitmapWord_isSome h
  refine ⟨_, by rw [bitmapSetBit, hw, Option.map_some], List.length_set, ?_⟩
  refine bitAt_set_word hw fun i hi => ?_
  rw [BitVec.getMsbD_or, getMsbD_wordbit hi]
  split_ifs with hin <;> simp [hin]

/-- `bitmap_clear_bit` clears bit `n` and no other. -/
theorem bitmapClearBit_spec {bmap : Bitmap} {n : Nat} (h : n < 64 * bmap.length) :
    ∃ bmap', bitmapClearBit bmap n = some bmap' ∧ bmap'.length = bmap.length ∧
      ∀ i, bitAt bmap' i = if i = n then false else bitAt bmap i := by
  obtain ⟨w, hw⟩ := bitmapWord_isSome h
  refine ⟨_, by rw [bitmapClearBit, hw, Option.map_some], List.length_set, ?_⟩
  refine bitAt_set_word hw fun i hi => ?_
  rw [BitVec.getMsbD_and, BitVec.getMsbD_not, getMsbD_wordbit hi]
  split_ifs with hin <;> simp [hin, hi]

theorem bitmapTestBit_spec {bmap : Bitmap} {n : Nat} (h : n < 64 * bmap.length) :
    bitmapTestBit bmap n = some (bitAt bmap n) := by
  obtain ⟨w, hw⟩ := bitmapWord_isSome h
  have hmod : n % 64 < 64 := Nat.mod_lt _ (by omega)
  rw [bitmapTestBit, hw, Option.map_some, bitAt_of_word hw]
  congr 1
  rw [Bool.eq_iff_iff, bne_iff_ne]
  refine ⟨fun hne => ?_, fun hbit h0 => ?_⟩
  · by_contra hbit
    refine hne (BitVec.eq_of_getMsbD_eq fun i hi => ?_)
    rw [BitVec.getMsbD_and, getMsbD_wordbit hi]
    rcases eq_or_ne i (n % 64) with rfl | hin
    · simpa using hbit
    · simp [hin]
  · have := congrArg (fun x => x.getMsbD (n % 64)) h0
    rw [BitVec.getMsbD_and, getMsbD_wordbit hmod, hbit] at this
    simp at this

/-! ### The first set bit of a word -/

theorem and_shifted_eq_zero_iff {w : BitVec 64} {k : Nat} (hk : k < 64) :
    w &&& (1#64 <<< (64 - 1)) >>> k = 0 ↔ w.getMsbD k = false := by
  have hmask : ∀ i < 64, ((1#64 <<< (64 - 1)) >>> k).getMsbD i = decide (i = k) := by
    intro i hi
    rw [BitVec.getMsbD_ushiftRight, BitVec.getMsbD_shiftLeft, BitVec.getMsbD_one]
    rw [Bool.eq_iff_iff]
    simp only [Bool.and_eq_true, decide_eq_true_eq, Bool.not_eq_true', decide_eq_false_iff_not]
    omega
  refine ⟨fun h0 => ?_, fun hbit => ?_⟩
  · have := congrArg (fun x => x.getMsbD k) h0
    rw [BitVec.getMsbD_and, hmask k hk] at this
    simpa using this
  · refine BitVec.eq_of_getMsbD_eq fun i hi => ?_
    rw [BitVec.getMsbD_and, hmask i hi]
    rcases eq_or_ne i k with rfl | hne
    · simp [hbit]
    · simp [hne]

/-- The loop of `bitmap_clz`, started at bit `lz` of a word with no bit before it. -/
theorem bitmapClzLoop_spec {w : BitVec 64} (hw : w ≠ 0) :
    ∀ (fuel lz : Nat), fuel + lz = 64 → (∀ i < lz, w.getMsbD i = false) →
      w.getMsbD (bitmapClzLoop w fuel ((1#64 <<< (64 - 1)) >>> lz) lz) = true ∧
      ∀ i < bitmapClzLoop w fuel ((1#64 <<< (64 - 1)) >>> lz) lz, w.getMsbD i = false := by
  intro fuel
  induction fuel with
  | zero =>
      intro lz hsum hbefore
      exfalso
      refine hw (BitVec.eq_of_getMsbD_eq fun i hi => ?_)
      rw [hbefore i (by omega)]
      simp
  | succ fuel ih =>
      intro lz hsum hbefore
      rw [bitmapClzLoop]
      split_ifs with hmask
      · have hlz := (and_shifted_eq_zero_iff (by omega)).mp hmask
        rw [← BitVec.shiftRight_add]
        refine ih (lz + 1) (by omega) fun i hi => ?_
        rcases Nat.lt_succ_iff_lt_or_eq.mp hi with hlt | rfl
        · exact hbefore i hlt
        · exact hlz
      · refine ⟨?_, hbefore⟩
        rw [and_shifted_eq_zero_iff (by omega)] at hmask
        simpa using hmask

theorem bitmapClz_spec {w : BitVec 64} (hw : w ≠ 0) :
    w.getMsbD (bitmapClz w) = true ∧ ∀ i < bitmapClz w, w.getMsbD i = false := by
  have := bitmapClzLoop_spec hw 64 0 rfl (fun i hi => absurd hi (Nat.not_lt_zero i))
  rwa [BitVec.ushiftRight_zero] at this

theorem bitmapClz_lt {w : BitVec 64} (hw : w ≠ 0) : bitmapClz w < 64 := by
  have h := (bitmapClz_spec hw).1
  by_contra hge
  rw [BitVec.getMsbD_of_ge _ _ (by omega)] at h
  exact Bool.false_ne_true h

/-! ### The first set bit of a range -/

/-- `k` is the first set bit at or after `n` and before `m`, or `m` if there is none. -/
structure FirstBit (bmap : Bitmap) (n m k : Nat) : Prop where
  ge : n ≤ k
  le : k ≤ m
  before : ∀ i, n ≤ i → i < k → bitAt bmap i = false
  set : k < m → bitAt bmap k = true

theorem FirstBit.unique {bmap : Bitmap} {n m k k' : Nat} (h : FirstBit bmap n m k)
    (h' : FirstBit bmap n m k') : k = k' := by
  rcases Nat.lt_trichotomy k k' with hlt | heq | hgt
  · have hset := h.set (Nat.lt_of_lt_of_le hlt h'.le)
    rw [h'.before k h.ge hlt] at hset
    exact absurd hset Bool.false_ne_true
  · exact heq
  · have hset := h'.set (Nat.lt_of_lt_of_le hgt h.le)
    rw [h.before k' h'.ge hgt] at hset
    exact absurd hset Bool.false_ne_true

/-- A range without a set bit, followed by another. -/
theorem FirstBit.append {bmap : Bitmap} {n l m k : Nat} (hn : n ≤ l)
    (hempty : ∀ i, n ≤ i → i < l → bitAt bmap i = false) (h : FirstBit bmap l m k) :
    FirstBit bmap n m k := by
  refine ⟨Nat.le_trans hn h.ge, h.le, fun i hi hik => ?_, h.set⟩
  rcases Nat.lt_or_ge i l with hlt | hge
  · exact hempty i hi hlt
  · exact h.before i hge hik

/-- One masked word: `word` holds the bits of the bitmap from `base` on inside `[n, m)` and
nothing else. -/
theorem firstBit_word {bmap : Bitmap} {base n m : Nat} {word : BitVec 64}
    (hbase : base ≤ n) (hm : m ≤ base + 64) (hnm : n ≤ m)
    (hbits : ∀ i < 64,
      word.getMsbD i = (decide (n ≤ base + i ∧ base + i < m) && bitAt bmap (base + i))) :
    FirstBit bmap n m (if word ≠ 0 then base + bitmapClz word else m) := by
  split_ifs with hw
  · have hlt := bitmapClz_lt hw
    obtain ⟨hset, hbefore⟩ := bitmapClz_spec hw
    rw [hbits _ hlt, Bool.and_eq_true, decide_eq_true_eq] at hset
    refine ⟨hset.1.1, Nat.le_of_lt hset.1.2, fun i hi hik => ?_, fun _ => hset.2⟩
    have h0 := hbefore (i - base) (by omega)
    rw [hbits _ (by omega), Nat.add_sub_cancel' (by omega)] at h0
    have hin : n ≤ i ∧ i < m := ⟨hi, by omega⟩
    simpa [hin] using h0
  · refine ⟨hnm, Nat.le_refl m, fun i hi him => ?_, fun h => absurd h (Nat.lt_irrefl m)⟩
    have h0 := hbits (i - base) (by omega)
    rw [not_not.mp hw, Nat.add_sub_cancel' (by omega)] at h0
    have hin : n ≤ i ∧ i < m := ⟨hi, him⟩
    simpa [hin] using h0.symm

theorem getMsbD_headmask {a i : Nat} (hi : i < 64) :
    (BitVec.allOnes 64 >>> a).getMsbD i = decide (a ≤ i) := by
  rw [BitVec.getMsbD_ushiftRight, BitVec.getMsbD_allOnes, Bool.eq_iff_iff]
  simp only [Bool.and_eq_true, decide_eq_true_eq, Bool.not_eq_true', decide_eq_false_iff_not]
  omega

theorem getMsbD_tailmask {a i : Nat} (hi : i < 64) :
    (~~~(BitVec.allOnes 64 >>> a)).getMsbD i = decide (i < a) := by
  rw [BitVec.getMsbD_not, getMsbD_headmask hi, Bool.eq_iff_iff]
  simp only [Bool.and_eq_true, decide_eq_true_eq, Bool.not_eq_true', decide_eq_false_iff_not]
  omega

/-- The bits of the word of `n`, by their place in the bitmap. -/
theorem getMsbD_word {bmap : Bitmap} {n i : Nat} {w : BitVec 64} (h : bitmapWord bmap n = some w)
    (hi : i < 64) : w.getMsbD i = bitAt bmap (bitAlignDown n + i) := by
  have hplace : bitmapWord bmap (bitAlignDown n + i) = some w := by
    unfold bitmapWord bitAlignDown at *
    rw [show (n / 64 * 64 + i) / 64 = n / 64 by omega, h]
  rw [bitAt_of_word hplace]
  unfold bitAlignDown
  rw [show (n / 64 * 64 + i) % 64 = i by omega]

/-- The loop over whole words: it stops at the first set bit, or there is none. -/
theorem bitmapFfsWords_spec (bmap : Bitmap) :
    ∀ (words an : Nat), an % 64 = 0 → an + 64 * words ≤ 64 * bmap.length →
      ∃ found, bitmapFfsWords bmap words an = some found ∧
        FirstBit bmap an (an + 64 * words) (found.getD (an + 64 * words)) ∧
        ∀ k, found = some k → k < an + 64 * words := by
  intro words
  induction words with
  | zero =>
      intro an _ _
      refine ⟨none, rfl, ⟨Nat.le_refl _, Nat.le_refl _, ?_, ?_⟩, ?_⟩
      · intro i hi hik
        exact absurd hik (by simp only [Option.getD_none]; omega)
      · simp
      · simp
  | succ words ih =>
      intro an han hlen
      obtain ⟨w, hw⟩ := bitmapWord_isSome (show an < 64 * bmap.length by omega)
      have hword : FirstBit bmap an (an + 64) (if w ≠ 0 then an + bitmapClz w else an + 64) := by
        refine firstBit_word (Nat.le_refl _) (Nat.le_refl _) (by omega) fun i hi => ?_
        rw [getMsbD_word hw hi]
        unfold bitAlignDown
        rw [show an / 64 * 64 = an by omega]
        simp [hi]
      rw [bitmapFfsWords, hw, Option.bind_some]
      split_ifs at hword ⊢ with hw0
      · have hlt := bitmapClz_lt hw0
        refine ⟨_, rfl, ?_, ?_⟩
        · rw [Option.getD_some]
          exact ⟨hword.ge, by omega, hword.before, fun _ => hword.set (by omega)⟩
        · intro k hk
          rw [Option.some_inj] at hk
          omega
      · obtain ⟨found, heq, hfirst, hbound⟩ := ih (an + 64) (by omega) (by omega)
        rw [show an + 64 * (words + 1) = an + 64 + 64 * words by omega]
        exact ⟨found, heq, FirstBit.append (by omega) hword.before hfirst, hbound⟩

theorem bitmapFfsTail_spec {bmap : Bitmap} {m : Nat} (hm : m ≤ 64 * bmap.length) :
    ∃ k, bitmapFfsTail bmap m = some k ∧ FirstBit bmap (bitAlignDown m) m k := by
  have hdown : bitAlignDown m ≤ m := by unfold bitAlignDown; omega
  simp only [bitmapFfsTail]
  split_ifs with h
  · have hlt : m < 64 * bmap.length := by unfold bitAlignDown at h; omega
    obtain ⟨w, hw⟩ := bitmapWord_isSome hlt
    refine ⟨_, by rw [hw, Option.map_some], ?_⟩
    refine firstBit_word (Nat.le_refl _) (by unfold bitAlignDown; omega) hdown fun i hi => ?_
    rw [BitVec.getMsbD_and, getMsbD_tailmask hi, getMsbD_word hw hi, Bool.and_comm]
    congr 2
    apply propext
    unfold bitAlignDown
    omega
  · have heq : bitAlignDown m = m := by omega
    refine ⟨m, rfl, hdown, Nat.le_refl m, ?_, ?_⟩
    · intro i hi hik
      omega
    · intro h
      exact absurd h (Nat.lt_irrefl m)

theorem bitmapFfsRest_spec {bmap : Bitmap} {an m : Nat} (han : an % 64 = 0)
    (hle : an ≤ bitAlignDown m) (hm : m ≤ 64 * bmap.length) :
    ∃ k, bitmapFfsRest bmap an m = some k ∧ FirstBit bmap an m k := by
  have hdown : bitAlignDown m ≤ m := by unfold bitAlignDown; omega
  have hend : an + 64 * ((bitAlignDown m - an) / 64) = bitAlignDown m := by
    unfold bitAlignDown at *
    omega
  obtain ⟨found, heq, hfirst, hbound⟩ :=
    bitmapFfsWords_spec bmap ((bitAlignDown m - an) / 64) an han (by omega)
  rw [hend] at hfirst hbound
  rw [bitmapFfsRest, heq, Option.bind_some]
  cases found with
  | some k =>
      have hk := hbound k rfl
      rw [Option.getD_some] at hfirst
      exact ⟨k, rfl, hfirst.ge, by omega, hfirst.before, fun _ => hfirst.set hk⟩
  | none =>
      rw [Option.getD_none] at hfirst
      obtain ⟨k, hk, htail⟩ := bitmapFfsTail_spec hm
      exact ⟨k, hk, htail.append hle hfirst.before⟩

/-- `bitmap_ffs` finds the first set bit of `[n, m)`, or `m`. -/
theorem bitmapFfs_spec {bmap : Bitmap} {n m : Nat} (hnm : n ≤ m) (hm : m ≤ 64 * bmap.length) :
    ∃ k, bitmapFfs bmap n m = some k ∧ FirstBit bmap n m k := by
  have hup : bitAlignUp n % 64 = 0 := by unfold bitAlignUp bitAlignDown; omega
  have hndown : bitAlignDown n ≤ n := by unfold bitAlignDown; omega
  simp only [bitmapFfs]
  rw [if_neg (Nat.not_lt.mpr hnm)]
  split_ifs with hsame hhead
  · -- `n` and `m` are in one word
    have hbase : bitAlignDown m = bitAlignDown n := by
      unfold bitAlignUp bitAlignDown at *
      omega
    obtain ⟨w, hw⟩ := bitmapWord_isSome
      (show n < 64 * bmap.length by unfold bitAlignUp bitAlignDown at *; omega)
    refine ⟨_, by rw [hw, Option.map_some], ?_⟩
    rw [hbase]
    refine firstBit_word hndown (by unfold bitAlignDown at *; omega) hnm fun i hi => ?_
    rw [BitVec.getMsbD_and, BitVec.getMsbD_and, getMsbD_headmask hi, getMsbD_tailmask hi,
      getMsbD_word hw hi, Bool.and_comm, ← Bool.decide_and]
    congr 2
    apply propext
    unfold bitAlignUp bitAlignDown at *
    omega
  · -- `n` is inside a word that ends before `m`
    have hnext : bitAlignUp n = bitAlignDown n + 64 := by
      unfold bitAlignUp bitAlignDown at *
      omega
    have hle : bitAlignUp n ≤ m := by unfold bitAlignUp bitAlignDown at *; omega
    obtain ⟨w, hw⟩ := bitmapWord_isSome (show n < 64 * bmap.length by omega)
    have hword : FirstBit bmap n (bitAlignUp n)
        (if w &&& BitVec.allOnes 64 >>> (n % 64) ≠ 0 then
          bitAlignDown n + bitmapClz (w &&& BitVec.allOnes 64 >>> (n % 64)) else bitAlignUp n) := by
      refine firstBit_word hndown (by omega) (by omega) fun i hi => ?_
      rw [BitVec.getMsbD_and, getMsbD_headmask hi, getMsbD_word hw hi, Bool.and_comm]
      congr 2
      apply propext
      unfold bitAlignUp bitAlignDown at *
      omega
    rw [hw, Option.bind_some]
    split_ifs at hword ⊢ with hw0
    · have hlt := bitmapClz_lt hw0
      exact ⟨_, rfl, hword.ge, by omega, hword.before, fun _ => hword.set (by omega)⟩
    · obtain ⟨k, hk, hrest⟩ := bitmapFfsRest_spec hup (by omega) hm
      exact ⟨k, hk, hrest.append (by omega) hword.before⟩
  · have heq : bitAlignUp n = n := by unfold bitAlignUp bitAlignDown at *; omega
    rw [heq] at hsame hup ⊢
    exact bitmapFfsRest_spec hup (by omega) hm

/-- The first bit a scan of `[n, m)` finds. -/
theorem firstBit_scan {bmap : Bitmap} {n m : Nat} (hnm : n ≤ m) (hm : m ≤ 64 * bmap.length) :
    FirstBit bmap n m
      (((List.range' n (m - n)).find? fun i => bitmapTestBit bmap i = some true).getD m) := by
  rcases hfind : (List.range' n (m - n)).find? fun i => bitmapTestBit bmap i = some true with _ | k
  · refine ⟨hnm, Nat.le_refl m, fun i hi him => ?_, fun h => absurd h (Nat.lt_irrefl m)⟩
    rw [List.find?_eq_none] at hfind
    rw [Option.getD_none] at him
    have hi' := hfind i (List.mem_range'_1.mpr ⟨hi, by omega⟩)
    simpa [bitmapTestBit_spec (Nat.lt_of_lt_of_le him hm)] using hi'
  · obtain ⟨hn, hk⟩ := List.mem_range'_1.mp (List.mem_of_find?_eq_some hfind)
    obtain ⟨hset, as, bs, hsplit, hbefore⟩ := List.find?_eq_some_iff_append.mp hfind
    rw [Option.getD_some]
    refine ⟨hn, by omega, fun i hi hik => ?_, fun hkm => ?_⟩
    · have hmem : i ∈ as := by
        have hin : i ∈ as ++ k :: bs := hsplit ▸ List.mem_range'_1.mpr ⟨hi, by omega⟩
        have hsorted : (as ++ k :: bs).Pairwise (· < ·) := hsplit ▸ List.pairwise_lt_range'
        rcases List.mem_append.mp hin with h | h
        · exact h
        · rcases List.mem_cons.mp h with rfl | h
          · exact absurd hik (Nat.lt_irrefl i)
          · have hlt := List.rel_of_pairwise_cons (List.pairwise_append.mp hsorted).2.1 h
            exact absurd hlt (Nat.lt_asymm hik)
      have hi' := hbefore i hmem
      simpa [bitmapTestBit_spec (show i < 64 * bmap.length by omega)] using hi'
    · simpa [bitmapTestBit_spec (Nat.lt_of_lt_of_le hkm hm)] using hset

/-- The search by words and masks is the search bit by bit. -/
theorem bitmapFfs_eq_scan {bmap : Bitmap} {n m : Nat} (hnm : n ≤ m) (hm : m ≤ 64 * bmap.length) :
    bitmapFfs bmap n m =
      some (((List.range' n (m - n)).find? fun i => bitmapTestBit bmap i = some true).getD m) := by
  obtain ⟨k, hk, hfirst⟩ := bitmapFfs_spec hnm hm
  rw [hk, hfirst.unique (firstBit_scan hnm hm)]

/-- Bit 65 of two words, the lowest set one, found from bit 3 on. -/
theorem bitmapFfs_second_word : bitmapFfs [0#64, 0x6000000000000000#64] 3 100 = some 65 := by
  rw [bitmapFfs_eq_scan (by decide) (by decide)]
  decide

end Nicmem
