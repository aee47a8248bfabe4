/-
The checksum of steering entries is the CRC-32.

The plain definition is the shift register: a byte is added to its low end and stepped over.
The entry `j` of table `i` is the register `j` after `8 * (i + 1)` steps, so a round of the
first loop, which looks up the eight bytes of two words, is eight rounds of the plain one.
The index of a steering entry comes from the bytes of its tag that the mask covers whole, so
it is the same for every packet that matches the entry.
-/
import Nicmem.Mlx5.Crc32
import Nicmem.RegisterPolynomial
import Mathlib.Tactic.IntervalCases

namespace Nicmem

open C ShiftRegister

/-! ### The tables -/

theorem and_one_ne_zero_iff (c : BitVec 32) : c &&& 1#32 ≠ 0 ↔ c.getLsbD 0 = true := by
  rw [BitVec.and_one_eq_setWidth_ofBool_getLsbD]
  cases c.getLsbD 0 with
  | false => decide
  | true => decide

/-- The inner loop steps the register. -/
theorem crcBits_eq_feeds (n : Nat) : ∀ c : BitVec 32, crcBits n c = feeds drSteCrcPoly n c := by
  induction n with
  | zero =>
      intro c
      rfl
  | succ n ih =>
      intro c
      rw [crcBits, feeds_succ, ih]
      simp only [feed, and_one_ne_zero_iff]

/-- Eight tables of 256 entries. -/
structure CrcTables.Shape (tbl : CrcTables) : Prop where
  rows : tbl.length = 8
  cols : ∀ i, i < 8 → (tbl.getD i []).length = 256

def CrcTables.tab (tbl : CrcTables) (i j : Nat) : BitVec 32 := (tbl.getD i []).getD j 0

theorem CrcTables.Shape.entry_eq {tbl : CrcTables} (h : tbl.Shape) {i j : Nat} (hi : i < 8)
    (hj : j < 256) :
    tbl.entry i j = some (tbl.tab i j) := by
  have hcols := h.cols i hi
  rw [CrcTables.entry, getElem?_eq_getD [] (by rw [h.rows]; exact hi), Option.bind_eq_bind,
    Option.bind_some, getElem?_eq_getD 0 (by omega)]
  rfl

/-- One entry is written. -/
theorem CrcTables.Shape.set_entry {tbl : CrcTables} (h : tbl.Shape) {i j : Nat} (hi : i < 8)
    (hj : j < 256)
    (x : BitVec 32) :
    ∃ tbl' : CrcTables, (updateAt tbl i fun row => store row j x) = some tbl' ∧ tbl'.Shape ∧
      ∀ a b, tbl'.tab a b = if a = i ∧ b = j then x else tbl.tab a b := by
  have hcols := h.cols i hi
  obtain ⟨row, hrow, hlen, hget⟩ := updateAt_spec (fun _ => some x) 0
    (by omega : j < (tbl.getD i []).length) rfl
  obtain ⟨tbl', htbl, hlen', hget'⟩ :=
    updateAt_spec (fun row => store row j x) [] (by rw [h.rows]; exact hi)
    hrow
  refine ⟨tbl', htbl, ⟨by rw [hlen', h.rows], ?_⟩, ?_⟩
  · intro a ha
    rw [hget']
    split
    · rw [hlen, hcols]
    · exact h.cols a ha
  · intro a b
    unfold CrcTables.tab
    rw [hget']
    by_cases hai : a = i
    · rw [if_pos hai, hget]
      simp [hai]
    · rw [if_neg hai, if_neg fun hc => hai hc.1]

/-- The entry of a filled table. -/
abbrev crcEntry (i j : Nat) : BitVec 32 := feeds drSteCrcPoly (8 * (i + 1)) (BitVec.ofNat 32 j)

/-- The tables are filled. -/
structure CrcTables.Filled (tbl : CrcTables) : Prop extends tbl.Shape where
  tab_eq : ∀ i, i < 8 → ∀ j, j < 256 → tbl.tab i j = crcEntry i j

theorem toNat_and_ff_lt (c : BitVec 32) : (c &&& 0xff#32).toNat < 256 := by
  have hle : (c &&& 0xff#32).toNat ≤ 255 := by
    rw [BitVec.toNat_and]
    exact Nat.and_le_right
  omega

theorem low_eq_and_ff (c : BitVec 32) : low 8 c = c &&& 0xff#32 := rfl

theorem crcEntry_toNat (i : Nat) (c : BitVec 32) :
    crcEntry i c.toNat = feeds drSteCrcPoly (8 * (i + 1)) c := by
  rw [crcEntry, BitVec.ofNat_toNat, BitVec.setWidth_eq]

/-- Eight steps, from the first table. -/
theorem feeds_eight (c : BitVec 32) :
    feeds drSteCrcPoly 8 c = (c >>> 8) ^^^ feeds drSteCrcPoly 8 (c &&& 0xff#32) := by
  rw [feeds_split drSteCrcPoly 8 0 c, low_eq_and_ff, BitVec.xor_comm]
  rfl

/-- The next table has eight more steps. -/
theorem crcEntry_succ (i j : Nat) :
    crcEntry (i + 1) j = (crcEntry i j >>> 8) ^^^ crcEntry 0 (crcEntry i j &&& 0xff#32).toNat := by
  rw [crcEntry_toNat 0, ← feeds_eight, ← feeds_add]
  exact congrArg (fun n => feeds drSteCrcPoly n _) (by omega)

/-- The columns up to `j` are filled, and the first table. -/
structure CrcTables.FilledTo (j : Nat) (tbl : CrcTables) : Prop extends tbl.Shape where
  first : ∀ b, b < 256 → tbl.tab 0 b = crcEntry 0 b
  tab_eq : ∀ i, i < 8 → ∀ b, b < j → tbl.tab i b = crcEntry i b

theorem CrcTables.FilledTo.lookup_entry {tbl : CrcTables} {i j : Nat} (h : tbl.FilledTo j)
    (hi : i < 7)
    (hj : j < 256) (hcol : ∀ a, a ≤ i → tbl.tab a j = crcEntry a j) :
    ∃ tbl', drCrc32CalcLookupEntry tbl (i + 1) j = some tbl' ∧ tbl'.FilledTo j ∧
      ∀ a, a ≤ i + 1 → tbl'.tab a j = crcEntry a j := by
  obtain ⟨tbl', hset, hshape, htab⟩ := h.set_entry (by omega : i + 1 < 8) hj (crcEntry (i + 1) j)
  refine ⟨tbl', ?_, { hshape with first := ?_, tab_eq := ?_ }, ?_⟩
  · have hlt := toNat_and_ff_lt (crcEntry i j)
    unfold drCrc32CalcLookupEntry
    rw [Nat.add_sub_cancel, h.entry_eq (by omega) hj, hcol i (Nat.le_refl i)]
    simp only [Option.bind_eq_bind, Option.bind_some]
    rw [h.entry_eq (by omega) hlt, h.first _ hlt, Option.bind_some, ← crcEntry_succ, hset]
  · intro b hb
    rw [htab, if_neg (by omega)]
    exact h.first b hb
  · intro a ha b hb
    rw [htab, if_neg (by omega)]
    exact h.tab_eq a ha b hb
  · intro a ha
    rw [htab]
    by_cases hai : a = i + 1
    · simp [hai]
    · rw [if_neg (by omega)]
      exact hcol a (by omega)

/-- Initialising fills the tables, whatever they held. -/
theorem drCrc32InitTable_filled {tbl : CrcTables} (h : tbl.Shape) :
    ∃ tbl', drCrc32InitTable tbl = some tbl' ∧ tbl'.Filled := by
  -- the first table
  obtain ⟨tbl₁, hfirst, hshape₁, htab₁⟩ := foldlM_range (n := 256)
    (f := fun tbl i => updateAt tbl 0 fun row => store row i (crcBits 8 (BitVec.ofNat 32 i)))
    (I := fun k (tbl : CrcTables) => tbl.Shape ∧ ∀ b, b < k → tbl.tab 0 b = crcEntry 0 b) (by
      intro k hk tbl ⟨hshape, htab⟩
      obtain ⟨tbl', hset, hshape', htab'⟩ := hshape.set_entry (by omega : 0 < 8) hk (crcEntry 0 k)
      refine ⟨tbl', by rw [← hset, crcBits_eq_feeds], hshape', fun b hb => ?_⟩
      rw [htab']
      by_cases hbk : b = k
      · simp [hbk]
      · rw [if_neg (by omega)]
        exact htab b (by omega)) ⟨h, by intro b hb; omega⟩
  -- the others, column by column
  obtain ⟨tbl₂, hrest, h₂⟩ := foldlM_range (n := 256)
    (f := fun tbl j =>
      [1, 2, 3, 4, 5, 6, 7].foldlM (fun tbl i => drCrc32CalcLookupEntry tbl i j) tbl)
    (I := fun k (tbl : CrcTables) => tbl.FilledTo k) (by
      intro j hj tbl h
      obtain ⟨tbl', hloop, h', hcol⟩ := foldlM_range (n := 7)
        (f := fun tbl i => drCrc32CalcLookupEntry tbl (i + 1) j)
        (I := fun m (tbl : CrcTables) => tbl.FilledTo j ∧ ∀ a, a ≤ m → tbl.tab a j = crcEntry a j)
        (fun m hm tbl ⟨h, hcol⟩ => h.lookup_entry hm hj hcol)
        ⟨h, fun a ha => by rw [Nat.le_zero.mp ha]; exact h.first j hj⟩
      refine ⟨tbl', hloop, { h' with tab_eq := fun i hi b hb => ?_ }⟩
      rcases Nat.lt_succ_iff_lt_or_eq.mp hb with hlt | rfl
      · exact h'.tab_eq i hi b hlt
      · exact hcol i (by omega)) { hshape₁ with first := htab₁, tab_eq := by intro i _ b hb; omega }
  refine ⟨tbl₂, ?_, { h₂ with tab_eq := h₂.tab_eq }⟩
  unfold drCrc32InitTable
  rw [hfirst, Option.bind_eq_bind, Option.bind_some, hrest]

/-! ### The loops -/

section Filled

variable {tbl : CrcTables}

/-- A look-up of a byte of a register. -/
theorem CrcTables.Filled.entry_ff (h : tbl.Filled) {i : Nat} (hi : i < 8) (c : BitVec 32) :
    tbl.entry i (c &&& 0xff#32).toNat =
      some (feeds drSteCrcPoly (8 * (i + 1)) (c &&& 0xff#32)) := by
  have hlt := toNat_and_ff_lt c
  rw [h.entry_eq hi hlt, h.tab_eq i hi _ hlt, crcEntry_toNat]

/-- A register of four bytes, each by itself. -/
theorem feeds_four (n : Nat) (c : BitVec 32) :
    feeds drSteCrcPoly (n + 32) c =
      feeds drSteCrcPoly (n + 32) (c &&& 0xff#32) ^^^
        (feeds drSteCrcPoly (n + 24) ((c >>> 8) &&& 0xff#32) ^^^
          (feeds drSteCrcPoly (n + 16) ((c >>> 16) &&& 0xff#32) ^^^
            feeds drSteCrcPoly (n + 8) ((c >>> 24) &&& 0xff#32))) := by
  have hlast : (c >>> 24) &&& 0xff#32 = c >>> 24 := by
    rw [← low_eq_and_ff]
    apply BitVec.eq_of_getLsbD_eq
    intro i hi
    rw [getLsbD_low, BitVec.getLsbD_ushiftRight]
    by_cases hin : i < 8
    · simp [hin]
    · simp [BitVec.getLsbD_of_ge c (24 + i) (by omega)]
  rw [show n + 32 = n + 24 + 8 by omega, feeds_split _ 8 (n + 24) c,
    show n + 24 = n + 16 + 8 by omega, feeds_split _ 8 (n + 16) (c >>> 8),
    show n + 16 = n + 8 + 8 by omega, ← BitVec.shiftRight_add,
    feeds_split _ 8 (n + 8) (c >>> (8 + 8)), ← BitVec.shiftRight_add, hlast]
  rfl

/-- A word is four bytes. -/
theorem digest_loadWord (c : BitVec 32) (b₀ b₁ b₂ b₃ : BitVec 8) :
    digest drSteCrcPoly c [b₀, b₁, b₂, b₃] =
      feeds drSteCrcPoly 32 (loadWord b₀ b₁ b₂ b₃ ^^^ c) := by
  have habsorb : absorb drSteCrcPoly c (b₃ ++ (b₂ ++ (b₁ ++ b₀))) =
      digest drSteCrcPoly c [b₀, b₁, b₂, b₃] := by
    rw [absorb_append drSteCrcPoly (by omega), absorb_append drSteCrcPoly (by omega),
      absorb_append drSteCrcPoly (by omega)]
    rfl
  rw [← habsorb, BitVec.xor_comm]
  unfold absorb
  rw [BitVec.setWidth_eq]
  rfl

theorem slice8Round_eq (h : tbl.Filled) (c first second : BitVec 32) :
    slice8Round tbl c first second =
      some (feeds drSteCrcPoly 32 (second ^^^ feeds drSteCrcPoly 32 (first ^^^ c))) := by
  have hone : feeds drSteCrcPoly 32 (feeds drSteCrcPoly 32 (first ^^^ c)) =
      feeds drSteCrcPoly (32 + 32) (first ^^^ c) := (feeds_add _ 32 32 _).symm
  rw [feeds_xor, hone, feeds_four 32,
    show feeds drSteCrcPoly 32 second = feeds drSteCrcPoly (0 + 32) second from rfl, feeds_four 0]
  unfold slice8Round
  simp only [h.entry_ff (by omega : 0 < 8), h.entry_ff (by omega : 1 < 8),
    h.entry_ff (by omega : 2 < 8), h.entry_ff (by omega : 3 < 8), h.entry_ff (by omega : 4 < 8),
    h.entry_ff (by omega : 5 < 8), h.entry_ff (by omega : 6 < 8), h.entry_ff (by omega : 7 < 8),
    Option.bind_eq_bind, Option.bind_some]
  refine congrArg some ?_
  ac_rfl

theorem byteRound_eq (h : tbl.Filled) (c : BitVec 32) (byte : BitVec 8) :
    byteRound tbl c byte = some (absorb drSteCrcPoly c byte) := by
  have hindex : (c &&& 0xff#32) ^^^ byte.setWidth 32 = (c ^^^ byte.setWidth 32) &&& 0xff#32 := by
    rw [← low_eq_and_ff, ← low_eq_and_ff, low_xor, low_setWidth]
  have hshift : byte.setWidth 32 >>> 8 = 0#32 := by
    apply BitVec.eq_of_getLsbD_eq
    intro i _
    simp
  unfold byteRound absorb
  rw [hindex, h.entry_ff (by omega), Option.bind_eq_bind, Option.bind_some, feeds_eight (c ^^^ _),
    BitVec.ushiftRight_xor_distrib, hshift, BitVec.xor_zero]

theorem foldlM_byteRound (h : tbl.Filled) (bytes : List (BitVec 8)) :
    ∀ c : BitVec 32, bytes.foldlM (byteRound tbl) c = some (digest drSteCrcPoly c bytes) := by
  induction bytes with
  | nil =>
      intro c
      rfl
  | cons byte bytes ih =>
      intro c
      rw [List.foldlM_cons, byteRound_eq h, Option.bind_eq_bind, Option.bind_some, ih]
      rfl

/-- Both loops compute the plain CRC. -/
theorem slice8Loop_eq (h : tbl.Filled) (c : BitVec 32) (bytes : List (BitVec 8)) :
    slice8Loop tbl c bytes = some (digest drSteCrcPoly c bytes) := by
  fun_induction slice8Loop tbl c bytes with
  | case1 c b₀ b₁ b₂ b₃ b₄ b₅ b₆ b₇ rest ih =>
      have hsplit : b₀ :: b₁ :: b₂ :: b₃ :: b₄ :: b₅ :: b₆ :: b₇ :: rest =
          [b₀, b₁, b₂, b₃] ++ ([b₄, b₅, b₆, b₇] ++ rest) := rfl
      rw [slice8Round_eq h, Option.bind_eq_bind, Option.bind_some, ih, ← digest_loadWord,
        ← digest_loadWord, hsplit, digest_append, digest_append]
  | case2 c rest => exact foldlM_byteRound h rest c

end Filled

theorem drSteCrcTab32_shape : drSteCrcTab32.Shape := by
  refine ⟨List.length_replicate, fun i hi => ?_⟩
  rw [drSteCrcTab32, List.getD_replicate _ hi, List.length_replicate]

/-- With the tables filled, the checksum taken eight bytes at a time is the plain CRC of the
bytes, one bit after the other, with its own bytes swapped. -/
theorem drCrc32Slice8Calc_plain :
    ∃ tbl, drCrc32InitTable drSteCrcTab32 = some tbl ∧ ∀ input : List (BitVec 8),
      drCrc32Slice8Calc tbl (some input) = some (swapBytes (digest drSteCrcPoly 0 input)) := by
  obtain ⟨tbl, hinit, hfilled⟩ := drCrc32InitTable_filled drSteCrcTab32_shape
  refine ⟨tbl, hinit, fun input => ?_⟩
  rw [drCrc32Slice8Calc, slice8Loop_eq hfilled, Option.map_some]

/-! ### What the checksum is -/

section

open Polynomial

theorem generator_drSteCrcPoly :
    generator drSteCrcPoly = X ^ 32 + X ^ 26 + X ^ 23 + X ^ 22 + X ^ 16 + X ^ 12 + X ^ 11 + X ^ 10 +
      X ^ 8 + X ^ 7 + X ^ 5 + X ^ 4 + X ^ 2 + X + 1 := by
  simp [generator, poly, Finset.sum_range_succ, drSteCrcPoly]
  ring

/-- The checksum is the remainder of the input, as a polynomial, in the division by the
polynomial of CRC-32. -/
theorem drCrc32Slice8Calc_remainder :
    ∃ tbl, drCrc32InitTable drSteCrcTab32 = some tbl ∧ ∀ input : List (BitVec 8), ∃ crc : BitVec 32,
      drCrc32Slice8Calc tbl (some input) = some (swapBytes crc) ∧
      poly crc = (message input * X ^ 32) %ₘ
        (X ^ 32 + X ^ 26 + X ^ 23 + X ^ 22 + X ^ 16 + X ^ 12 + X ^ 11 + X ^ 10 +
          X ^ 8 + X ^ 7 + X ^ 5 + X ^ 4 + X ^ 2 + X + 1) := by
  obtain ⟨tbl, hinit, hfilled⟩ := drCrc32InitTable_filled drSteCrcTab32_shape
  refine ⟨tbl, hinit, fun input => ⟨digest drSteCrcPoly 0 input, ?_, ?_⟩⟩
  · rw [drCrc32Slice8Calc, slice8Loop_eq hfilled, Option.map_some]
  · rw [poly_digest drSteCrcPoly (by omega), generator_drSteCrcPoly]

end

theorem swapBytes_swapBytes (c : BitVec 32) : swapBytes (swapBytes c) = c := by
  apply BitVec.eq_of_getLsbD_eq
  intro i hi
  unfold swapBytes
  simp only [BitVec.getLsbD_or, BitVec.getLsbD_and, BitVec.getLsbD_ushiftRight,
    BitVec.getLsbD_shiftLeft]
  interval_cases i <;> simp

/-- Inputs that differ only in up to four bytes, one after the other, have different
checksums. -/
theorem drCrc32Slice8Calc_ne {tbl : CrcTables} (hinit : drCrc32InitTable drSteCrcTab32 = some tbl)
    (before after : List (BitVec 8)) {u v : List (BitVec 8)} (hlen : u.length = v.length)
    (hfour : u.length ≤ 4) (hne : u ≠ v) :
    drCrc32Slice8Calc tbl (some (before ++ u ++ after)) ≠
      drCrc32Slice8Calc tbl (some (before ++ v ++ after)) := by
  obtain ⟨tbl', hinit', hfilled⟩ := drCrc32InitTable_filled drSteCrcTab32_shape
  obtain rfl := Option.some.inj (hinit.symm.trans hinit')
  intro h
  simp only [drCrc32Slice8Calc, slice8Loop_eq hfilled, Option.map_some, Option.some.injEq] at h
  have hdigest := congrArg swapBytes h
  rw [swapBytes_swapBytes, swapBytes_swapBytes] at hdigest
  exact digest_ne drSteCrcPoly (by decide) 0 before after hlen (by omega) hne hdigest

theorem drCrc32Slice8Calc_ne_port :
    ∃ tbl, drCrc32InitTable drSteCrcTab32 = some tbl ∧
      drCrc32Slice8Calc tbl (some ([10, 0, 0, 1] ++ [0x1f, 0x90] ++ [6])) ≠
        drCrc32Slice8Calc tbl (some ([10, 0, 0, 1] ++ [0x1f, 0x91] ++ [6])) := by
  obtain ⟨tbl, hinit, -⟩ := drCrc32InitTable_filled drSteCrcTab32_shape
  exact ⟨tbl, hinit, drCrc32Slice8Calc_ne hinit _ _ rfl (by decide) (by decide)⟩

/-! ### The hash index -/

theorem and_bit_ne_zero_iff (c : BitVec 16) {k : Nat} (hk : k < 16) :
    c &&& 1#16 <<< k ≠ 0 ↔ c.getLsbD k = true := by
  have hbit : (1#16 <<< k).getLsbD k = true := by simp [hk]
  have hand : c &&& 1#16 <<< k = if c.getLsbD k then 1#16 <<< k else 0 := BitVec.and_twoPow c k
  rw [hand]
  cases c.getLsbD k with
  | false => simp
  | true =>
      simp only [if_true, iff_true]
      intro hzero
      rw [hzero] at hbit
      simp at hbit

/-- The bytes the byte mask does not have make no difference. -/
theorem maskTag_congr {byteMask : BitVec 16} : ∀ (tag tag' : List (BitVec 8)) (k : Nat), k < 16 →
    tag.length ≤ k + 1 → tag.length = tag'.length →
    (∀ i, i ≤ k → byteMask.getLsbD (k - i) = true → tag[i]? = tag'[i]?) →
      maskTag byteMask (1#16 <<< k) tag = maskTag byteMask (1#16 <<< k) tag' := by
  intro tag
  induction tag with
  | nil =>
      intro tag' k _ _ hlen _
      rw [List.length_eq_zero_iff.mp hlen.symm]
  | cons byte tag ih =>
      intro tag' k hk hfit hlen hsame
      cases tag' with
      | nil => cases hlen
      | cons byte' tag' =>
          rw [List.length_cons] at hfit
          rw [List.length_cons, List.length_cons, Nat.succ_inj] at hlen
          have hhead : (if byteMask &&& 1#16 <<< k ≠ 0 then byte else 0) =
              if byteMask &&& 1#16 <<< k ≠ 0 then byte' else 0 := by
            by_cases hbit : byteMask &&& 1#16 <<< k ≠ 0
            · rw [if_pos hbit, if_pos hbit]
              exact Option.some.inj (hsame 0 (by omega) ((and_bit_ne_zero_iff _ hk).mp hbit))
            · rw [if_neg hbit, if_neg hbit]
          have htail : maskTag byteMask (1#16 <<< k >>> 1) tag =
              maskTag byteMask (1#16 <<< k >>> 1) tag' := by
            cases k with
            | zero =>
                -- the last byte
                rw [List.length_eq_zero_iff.mp (by omega : tag.length = 0),
                  List.length_eq_zero_iff.mp (by omega : tag'.length = 0)]
            | succ k =>
                have hshift : 1#16 <<< (k + 1) >>> 1 = 1#16 <<< k := by
                  apply BitVec.eq_of_getLsbD_eq
                  intro i _
                  simp only [BitVec.getLsbD_ushiftRight, BitVec.getLsbD_shiftLeft,
                    BitVec.getLsbD_one]
                  rw [Bool.eq_iff_iff]
                  simp only [Bool.and_eq_true, Bool.not_eq_true', decide_eq_true_eq,
                    decide_eq_false_iff_not]
                  omega
                rw [hshift]
                refine ih tag' k (by omega) (by omega) hlen fun i hi hbit => ?_
                exact hsame (i + 1) (by omega) (by rwa [show k + 1 - (i + 1) = k - i by omega])
          rw [maskTag, maskTag, hhead, htail]

/-- The byte mask has the bytes of the mask whose bits are all set. -/
theorem drSteConvBitToByteMask_bit (mask : List (BitVec 8)) : ∀ j, j < mask.length → j < 16 →
    (drSteConvBitToByteMask mask).getLsbD j = true → mask[mask.length - 1 - j]? = some 0xff := by
  induction mask using List.reverseRecOn with
  | nil =>
      intro j hj _ _
      cases hj
  | append_singleton mask m ih =>
      intro j hj hj' hbit
      have hconv : drSteConvBitToByteMask (mask ++ [m]) =
          if m = 0xff#8 then (drSteConvBitToByteMask mask <<< 1) ||| 1#16
          else drSteConvBitToByteMask mask <<< 1 := by
        simp [drSteConvBitToByteMask]
      rw [List.length_append, List.length_singleton] at hj ⊢
      cases j with
      | zero =>
          have hm : m = 0xff#8 := by
            by_contra hm
            rw [hconv, if_neg hm] at hbit
            simp at hbit
          simp [hm]
      | succ j =>
          have hbit' : (drSteConvBitToByteMask mask).getLsbD j = true := by
            have hj'' : j < 16 := by omega
            rw [hconv] at hbit
            split at hbit
            · simpa [hj', hj''] using hbit
            · simpa [hj', hj''] using hbit
          rw [List.getElem?_append_left (by omega),
            show mask.length + 1 - 1 - (j + 1) = mask.length - 1 - j by omega]
          exact ih j (by omega) (by omega) hbit'

/-- The index of a tag: packets that match an entry under the mask of its table have the
index of the entry, and it is one of the table. -/
theorem drSteCalcHashIndex_match {tbl : CrcTables} (htbl : SteHtbl)
    (mask tag tag' : List (BitVec 8))
    (hinit : drCrc32InitTable drSteCrcTab32 = some tbl) (hentries : 0 < htbl.numOfEntries)
    (hbyteMask : htbl.byteMask = drSteConvBitToByteMask mask) (hmask : mask.length = drSteSizeTag)
    (htag : tag.length = drSteSizeTag) (htag' : tag'.length = drSteSizeTag)
    (hmatch : List.zipWith (· &&& ·) tag mask = List.zipWith (· &&& ·) tag' mask) :
    ∃ index, index < htbl.numOfEntries ∧ drSteCalcHashIndex tbl htbl tag = some index ∧
      drSteCalcHashIndex tbl htbl tag' = some index := by
  obtain ⟨tbl', hinit', hfilled⟩ := drCrc32InitTable_filled drSteCrcTab32_shape
  obtain rfl := Option.some.inj (hinit.symm.trans hinit')
  unfold drSteSizeTag at hmask htag htag'
  have hmasked :
      maskTag htbl.byteMask (1#16 <<< 15) tag = maskTag htbl.byteMask (1#16 <<< 15) tag' := by
    apply maskTag_congr tag tag' 15 (by omega) (by omega) (by omega)
    intro i hi hbit
    rw [hbyteMask] at hbit
    have hff := drSteConvBitToByteMask_bit mask (15 - i) (by omega) (by omega) hbit
    rw [hmask, show 16 - 1 - (15 - i) = i by omega] at hff
    have hhere := congrArg (fun l => l[i]?) hmatch
    simp only [List.getElem?_zipWith, hff] at hhere
    rw [List.getElem?_eq_getElem (by omega : i < tag.length),
      List.getElem?_eq_getElem (by omega : i < tag'.length)] at hhere ⊢
    have hbyte : ∀ b : BitVec 8, b &&& 0xff#8 = b := fun b => BitVec.and_allOnes
    simpa [hbyte] using hhere
  unfold drSteCalcHashIndex
  by_cases htrivial : htbl.numOfEntries = 1 ∨ htbl.byteMask = 0
  · rw [if_pos htrivial, if_pos htrivial]
    exact ⟨0, hentries, rfl, rfl⟩
  · have hcrc : ∀ t,
        drCrc32Slice8Calc tbl (some t) = some (swapBytes (digest drSteCrcPoly 0 t)) := by
      intro t
      rw [drCrc32Slice8Calc, slice8Loop_eq hfilled, Option.map_some]
    rw [if_neg htrivial, if_neg htrivial]
    refine ⟨_, Nat.mod_lt _ hentries, by rw [hcrc, Option.bind_eq_bind, Option.bind_some], ?_⟩
    rw [hcrc, Option.bind_eq_bind, Option.bind_some, show drSteSizeTag - 1 = 15 from rfl, hmasked]

/-- A mask of four whole bytes and half of the fifth. -/
theorem drSteCalcHashIndex_match_prefix :
    ∃ tbl, drCrc32InitTable drSteCrcTab32 = some tbl ∧ ∃ index, index < 512 ∧
      drSteCalcHashIndex tbl ⟨512, 0xf000⟩ [10, 0, 0, 1, 0x25, 0, 0, 0, 0, 0, 0, 0, 0, 0, 0, 0] =
        some index ∧
      drSteCalcHashIndex tbl ⟨512, 0xf000⟩ [10, 0, 0, 1, 0x2a, 7, 0, 0, 0, 0, 0, 0, 0, 0, 0, 9] =
        some index := by
  obtain ⟨tbl, hinit, -⟩ := drCrc32InitTable_filled drSteCrcTab32_shape
  exact ⟨tbl, hinit, drSteCalcHashIndex_match ⟨512, 0xf000⟩
    [0xff, 0xff, 0xff, 0xff, 0xf0, 0, 0, 0, 0, 0, 0, 0, 0, 0, 0, 0] _ _ hinit (by decide)
    (by decide)
    rfl rfl rfl (by decide)⟩

end Nicmem
