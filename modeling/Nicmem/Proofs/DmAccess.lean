/-
What an access to the device memory does.

`mlx5_access_dm` checks its bound on the sum of offset and length, computed in 64 bits.
Without a wrap-around the check is the one intended, and the call keeps its contract: it
refuses and touches nothing, or it moves exactly the bytes it was asked to move.  A sum
that wraps around passes the check whenever what is left of it is within the device
memory; if both numbers are aligned, the word loop then runs out of the device memory.
-/
import Nicmem.Proofs.DmCopy

namespace Nicmem

open C

/-! ### Leaving the buffers -/

/-- The word loop has no result when its words do not fit. -/
theorem copyWords_eq_none {src : Bytes} (words : Nat) :
    ∀ {dst : Bytes} {dstPos srcPos : Nat}, 0 < words →
      dst.length < dstPos + 4 * words ∨ src.length < srcPos + 4 * words →
      copyWords dst dstPos src srcPos words = none := by
  induction words with
  | zero =>
      intro dst dstPos srcPos hpos
      omega
  | succ words ih =>
      intro dst dstPos srcPos _ hout
      rw [copyWords]
      by_cases hfits : dstPos + 4 ≤ dst.length ∧ srcPos + 4 ≤ src.length
      · have hlen : (overwrite dst dstPos (slice src srcPos 4)).length = dst.length :=
          length_overwrite (by rw [length_slice hfits.2]; exact hfits.1)
        rw [memcpy_of_le hfits.1 hfits.2, Option.bind_some]
        exact ih (by omega) (by omega)
      · rw [memcpy_of_not_le (by omega)]
        rfl

/-- The sum of offset and length wraps around and passes both checks. -/
def WrapsInside (dm : Bytes) (dmOffset length : Nat) : Prop :=
  2 ^ 64 ≤ dmOffset + length ∧ (dmOffset + length) % 2 ^ 64 ≤ dm.length ∧
    4 ∣ dmOffset ∧ 4 ∣ length

section Access

variable {dm host : Bytes} {dmOffset length : Nat}

/-- An access whose sum wraps around inside leaves the device memory. -/
theorem mlx5AccessDm_wrapsInside (hdm : dm.length < 2 ^ 64) (hoffset : dmOffset < 2 ^ 64)
    (h : WrapsInside dm dmOffset length) (read : Bool) :
    mlx5AccessDm dm dmOffset host 0 length read = none := by
  obtain ⟨hwrap, hinside, hoffset4, hlength4⟩ := h
  have hpos : dmOffset / 4 * 4 = dmOffset := by omega
  have hwords : 4 * (length / 4) = length := by omega
  rw [mlx5AccessDm, if_neg (by omega), if_neg (by omega), hpos]
  cases read with
  | true =>
      rw [if_pos rfl, copyWords_eq_none _ (by omega) (Or.inr (by omega))]
      rfl
  | false =>
      rw [if_neg Bool.false_ne_true, copyWords_eq_none _ (by omega) (Or.inl (by omega))]
      rfl

/-- Any other access is refused, or it is aligned and inside. -/
theorem mlx5AccessDm_cases (hdm : dm.length < 2 ^ 64) (h : ¬ WrapsInside dm dmOffset length)
    (host : Bytes) (read : Bool) :
    (∃ status, status ≠ .success ∧
      mlx5AccessDm dm dmOffset host 0 length read = some (status, dm, host)) ∨
    (4 ∣ dmOffset ∧ 4 ∣ length ∧ dmOffset + length ≤ dm.length) := by
  rw [mlx5AccessDm]
  by_cases hbound : (dmOffset + length) % 2 ^ 64 > dm.length
  · exact Or.inl ⟨.EFAULT, by decide, if_pos hbound⟩
  by_cases halign : length % 4 ≠ 0 ∨ dmOffset % 4 ≠ 0
  · refine Or.inl ⟨.EINVAL, by decide, ?_⟩
    rw [if_neg hbound, if_pos halign]
  · refine Or.inr ⟨by omega, by omega, ?_⟩
    by_contra hout
    exact h ⟨by omega, by omega, by omega, by omega⟩

end Access

/-! ### The contract -/

/-- `dst'` is `dst` with `n` bytes from `pos` on taken from `src`, there from `srcPos` on. -/
structure Written (dst : Bytes) (pos n : Nat) (src : Bytes) (srcPos : Nat) (dst' : Bytes) :
    Prop where
  length : dst'.length = dst.length
  bytes : ∀ i, dst'[i]? = if pos ≤ i ∧ i < pos + n then src[srcPos + (i - pos)]? else dst[i]?

theorem written_overwrite {dst src : Bytes} {pos n srcPos : Nat} (hdst : pos + n ≤ dst.length)
    (hsrc : srcPos + n ≤ src.length) :
    Written dst pos n src srcPos (overwrite dst pos (slice src srcPos n)) where
  length := length_overwrite (by rw [length_slice hsrc]; exact hdst)
  bytes i := by
    rw [getElem?_overwrite (by rw [length_slice hsrc]; exact hdst), length_slice hsrc]
    split
    · rw [getElem?_slice, if_pos (by omega)]
    · rfl

/-- The contract of the two accesses: each is refused and changes nothing, or succeeds with
an aligned range inside the device memory and moves exactly its bytes; and what a
successful write stored is read back. -/
structure AccessContract (dm : Bytes) (dmOffset : Nat) (host : Bytes) (length : Nat) : Prop where
  write : ∃ status dm' host', mlx5MemcpyToDm dm dmOffset host 0 length = some (status, dm', host') ∧
    host' = host ∧ if status = .success then
      4 ∣ dmOffset ∧ 4 ∣ length ∧ dmOffset + length ≤ dm.length ∧
        Written dm dmOffset length host 0 dm'
    else dm' = dm
  read : ∃ status dm' host',
    mlx5MemcpyFromDm host 0 dm dmOffset length = some (status, dm', host') ∧
    dm' = dm ∧ if status = .success then
      4 ∣ dmOffset ∧ 4 ∣ length ∧ dmOffset + length ≤ dm.length ∧
        Written host 0 length dm dmOffset host'
    else host' = host
  readBack : ∀ dm' host', mlx5MemcpyToDm dm dmOffset host 0 length = some (.success, dm', host') →
    ∀ buf : Bytes, length ≤ buf.length → ∃ buf',
      mlx5MemcpyFromDm buf 0 dm' dmOffset length = some (.success, dm', buf') ∧
        slice buf' 0 length = slice host 0 length

/-- An aligned access inside the device memory keeps the contract. -/
theorem accessContract_aligned {dm host : Bytes} {dmOffset length : Nat}
    (hdm : dm.length < 2 ^ 64) (hhost : length ≤ host.length) (hoffset4 : 4 ∣ dmOffset)
    (hlength4 : 4 ∣ length) (hfits : dmOffset + length ≤ dm.length) :
    AccessContract dm dmOffset host length := by
  have hhost' : 0 + length ≤ host.length := by omega
  have hlen := length_slice hhost'
  have hwrite := mlx5MemcpyToDm_aligned hlength4 hoffset4 (by omega) hfits hhost'
  refine ⟨?_, ?_, ?_⟩
  · refine ⟨_, _, _, hwrite, rfl, ?_⟩
    rw [if_pos rfl]
    exact ⟨hoffset4, hlength4, hfits, written_overwrite hfits hhost'⟩
  · refine ⟨_, _, _, mlx5MemcpyFromDm_aligned hlength4 hoffset4 (by omega) hfits hhost', rfl, ?_⟩
    rw [if_pos rfl]
    exact ⟨hoffset4, hlength4, hfits, written_overwrite hhost' hfits⟩
  · intro dm' host' h buf hbuf
    rw [hwrite] at h
    cases h
    have hsame : (overwrite dm dmOffset (slice host 0 length)).length = dm.length :=
      length_overwrite (by omega)
    refine ⟨_, mlx5MemcpyFromDm_aligned hlength4 hoffset4 (by omega) (by omega) (by omega), ?_⟩
    have hback : slice (overwrite dm dmOffset (slice host 0 length)) dmOffset length =
        slice host 0 length := by
      have hin : dmOffset + (slice host 0 length).length ≤ dm.length := by omega
      have hslice := slice_overwrite hin
      rwa [hlen] at hslice
    have hin : 0 + (slice host 0 length).length ≤ buf.length := by omega
    have hread := slice_overwrite hin
    rw [hback]
    rwa [hlen] at hread

/-- A refused access keeps the contract. -/
theorem accessContract_refused {dm host : Bytes} {dmOffset length : Nat}
    (h : ∀ read, ∃ status, status ≠ .success ∧
      mlx5AccessDm dm dmOffset host 0 length read = some (status, dm, host)) :
    AccessContract dm dmOffset host length := by
  obtain ⟨status, hstatus, hwrite⟩ := h false
  obtain ⟨status', hstatus', hread⟩ := h true
  refine ⟨⟨status, dm, host, hwrite, rfl, ?_⟩, ⟨status', dm, host, hread, rfl, ?_⟩, ?_⟩
  · rw [if_neg hstatus]
  · rw [if_neg hstatus']
  · intro dm' host' hsuccess
    rw [mlx5MemcpyToDm, hwrite, Option.some.injEq, Prod.mk.injEq] at hsuccess
    exact absurd hsuccess.1 hstatus

/-- **Where an access to the device memory keeps its contract**: exactly where the sum of
offset and length does not wrap around inside the device memory. -/
theorem mlx5AccessDm_contract_iff (dm host : Bytes) (dmOffset length : Nat)
    (hdm : dm.length < 2 ^ 64) (hoffset : dmOffset < 2 ^ 64) (hhost : length ≤ host.length) :
    AccessContract dm dmOffset host length ↔
      ¬ (2 ^ 64 ≤ dmOffset + length ∧ (dmOffset + length) % 2 ^ 64 ≤ dm.length ∧
        4 ∣ dmOffset ∧ 4 ∣ length) := by
  constructor
  · intro h hwraps
    obtain ⟨status, dm', host', hwrite, -⟩ := h.write
    rw [mlx5MemcpyToDm, mlx5AccessDm_wrapsInside hdm hoffset hwraps] at hwrite
    cases hwrite
  · intro h
    by_cases hinside : 4 ∣ dmOffset ∧ 4 ∣ length ∧ dmOffset + length ≤ dm.length
    · exact accessContract_aligned hdm hhost hinside.1 hinside.2.1 hinside.2.2
    · refine accessContract_refused fun read => ?_
      rcases mlx5AccessDm_cases hdm h host read with hrefused | hin
      · exact hrefused
      · exact absurd hin hinside

/-- Four bytes at offset four of a device memory of eight. -/
theorem mlx5AccessDm_contract_fourBytes :
    AccessContract [0, 0, 0, 0, 0, 0, 0, 0] 4 [1, 2, 3, 4] 4 :=
  (mlx5AccessDm_contract_iff [0, 0, 0, 0, 0, 0, 0, 0] [1, 2, 3, 4] 4 4 (by decide) (by decide)
    (by decide)).mpr (by decide)

/-- Eight bytes at the last aligned 64-bit offset: the sum is four, and the access leaves
the device memory. -/
theorem mlx5AccessDm_wraps :
    mlx5MemcpyToDm [0, 0, 0, 0, 0, 0, 0, 0] (2 ^ 64 - 4) [1, 2, 3, 4, 5, 6, 7, 8] 0 8 = none ∧
      ¬ AccessContract [0, 0, 0, 0, 0, 0, 0, 0] (2 ^ 64 - 4) [1, 2, 3, 4, 5, 6, 7, 8] 8 := by
  have hnone : mlx5MemcpyToDm [0, 0, 0, 0, 0, 0, 0, 0] (2 ^ 64 - 4) [1, 2, 3, 4, 5, 6, 7, 8] 0 8 =
      none := by decide
  refine ⟨hnone, fun h => ?_⟩
  obtain ⟨status, dm', host', hwrite, -⟩ := h.write
  rw [hnone] at hwrite
  cases hwrite

end Nicmem
