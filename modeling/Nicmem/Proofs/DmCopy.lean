/-
The raw and the checked copy path of the device-memory benchmark.

`memcpy_dm1` copies bytes without a check; `memcpy_dm2` goes through
`mlx5_access_dm`, which refuses a length that is not a multiple of four, and the
benchmark drops the error.  Both paths copy the same bytes exactly when every chunk
is a multiple of four, and the last chunk decides that: a chunk is either the whole
message size, or what is left of the source buffer.
-/
import Nicmem.DmCopy
import Mathlib.Tactic.NormNum

namespace Nicmem

open C

/-! ### One access -/

/-- The word loop is one `memcpy` of all its words. -/
theorem copyWords_eq {src : Bytes} (words : Nat) :
    ∀ {dst : Bytes} {dstPos srcPos : Nat}, dstPos + 4 * words ≤ dst.length →
      srcPos + 4 * words ≤ src.length →
      copyWords dst dstPos src srcPos words
        = some (overwrite dst dstPos (slice src srcPos (4 * words))) := by
  induction words with
  | zero =>
      intro dst dstPos srcPos _ _
      simp [copyWords, slice]
  | succ words ih =>
      intro dst dstPos srcPos hdst hsrc
      have hword : (slice src srcPos 4).length = 4 := length_slice (by omega)
      have hlen : (overwrite dst dstPos (slice src srcPos 4)).length = dst.length :=
        length_overwrite (by omega)
      have hjoin := overwrite_append (x := slice src srcPos 4)
        (y := slice src (srcPos + 4) (4 * words)) (show dstPos ≤ dst.length by omega)
      rw [hword, slice_append, Nat.add_comm 4, ← Nat.mul_succ] at hjoin
      rw [copyWords, memcpy_of_le (by omega) (by omega), Option.bind_some,
        ih (by omega) (by omega), hjoin]

/-- An aligned write that fits copies its bytes. -/
theorem mlx5MemcpyToDm_aligned {dm host : Bytes} {dmOffset hostAddr length : Nat}
    (hlength : 4 ∣ length) (hoffset : 4 ∣ dmOffset) (hmod : dmOffset + length < 2 ^ 64)
    (hdm : dmOffset + length ≤ dm.length) (hhost : hostAddr + length ≤ host.length) :
    mlx5MemcpyToDm dm dmOffset host hostAddr length
      = some (.success, overwrite dm dmOffset (slice host hostAddr length), host) := by
  have hwords : 4 * (length / 4) = length := by omega
  have hpos : dmOffset / 4 * 4 = dmOffset := by omega
  rw [mlx5MemcpyToDm, mlx5AccessDm, if_neg (by omega), if_neg (by omega), if_neg (by decide),
    hpos, copyWords_eq _ (by omega) (by omega), hwords]
  rfl

/-- An aligned read that fits copies its bytes. -/
theorem mlx5MemcpyFromDm_aligned {dm host : Bytes} {dmOffset hostAddr length : Nat}
    (hlength : 4 ∣ length) (hoffset : 4 ∣ dmOffset) (hmod : dmOffset + length < 2 ^ 64)
    (hdm : dmOffset + length ≤ dm.length) (hhost : hostAddr + length ≤ host.length) :
    mlx5MemcpyFromDm host hostAddr dm dmOffset length
      = some (.success, dm, overwrite host hostAddr (slice dm dmOffset length)) := by
  have hwords : 4 * (length / 4) = length := by omega
  have hpos : dmOffset / 4 * 4 = dmOffset := by omega
  rw [mlx5MemcpyFromDm, mlx5AccessDm, if_neg (by omega), if_neg (by omega), if_pos rfl,
    hpos, copyWords_eq _ (by omega) (by omega), hwords]
  rfl

/-- A write of an odd number of bytes changes nothing, whatever it returns. -/
theorem mlx5MemcpyToDm_unaligned (dm : Bytes) (dmOffset : Nat) (host : Bytes) (hostAddr : Nat)
    {length : Nat} (hlength : ¬ 4 ∣ length) :
    ∃ status, mlx5MemcpyToDm dm dmOffset host hostAddr length = some (status, dm, host) := by
  rw [mlx5MemcpyToDm, mlx5AccessDm]
  split
  · exact ⟨.EFAULT, rfl⟩
  · exact ⟨.EINVAL, if_pos (by omega)⟩

/-! ### One chunk -/

/-- The buffers of a run with message size `dstsize` and source size `size`. -/
structure Buffers.Sized (dstsize size : Nat) (b : Buffers) : Prop where
  dm : b.dm.length = dstsize
  srcbuf : b.srcbuf.length = size

/-- A chunk of `size` bytes at `offset`, inside the source buffer and the message size. -/
structure Fits (dstsize srcsize offset size : Nat) : Prop where
  message : size ≤ dstsize
  source : offset + size ≤ srcsize

section Chunk

variable {dstsize srcsize offset size : Nat} {b : Buffers}

theorem Fits.dm_le (hfits : Fits dstsize srcsize offset size) (hb : b.Sized dstsize srcsize) :
    0 + size ≤ b.dm.length := by
  rw [hb.dm, Nat.zero_add]
  exact hfits.message

theorem Fits.srcbuf_le (hfits : Fits dstsize srcsize offset size)
    (hb : b.Sized dstsize srcsize) : offset + size ≤ b.srcbuf.length := by
  rw [hb.srcbuf]
  exact hfits.source

theorem memcpyDm1_eq (hb : b.Sized dstsize srcsize) (hfits : Fits dstsize srcsize offset size)
    (hsize : size < 2 ^ 64) :
    memcpyDm1 b offset size
      = some { b with dm := overwrite b.dm 0 (slice b.srcbuf offset size) } := by
  rw [memcpyDm1, toSize_natCast hsize, memcpy_of_le (hfits.dm_le hb) (hfits.srcbuf_le hb)]
  rfl

theorem memcpyDm1Reverse_eq (hb : b.Sized dstsize srcsize)
    (hfits : Fits dstsize srcsize offset size) (hsize : size < 2 ^ 64) :
    memcpyDm1Reverse b offset size
      = some { b with srcbuf := overwrite b.srcbuf offset (slice b.dm 0 size) } := by
  rw [memcpyDm1Reverse, toSize_natCast hsize, memcpy_of_le (hfits.srcbuf_le hb) (hfits.dm_le hb)]
  rfl

theorem memcpyDm2_aligned (hb : b.Sized dstsize srcsize)
    (hfits : Fits dstsize srcsize offset size) (hsize : size < 2 ^ 64) (hword : 4 ∣ size) :
    memcpyDm2 b offset size = memcpyDm1 b offset size := by
  rw [memcpyDm1_eq hb hfits hsize, memcpyDm2, toSize_natCast hsize,
    mlx5MemcpyToDm_aligned hword (Nat.dvd_zero 4) (by omega) (hfits.dm_le hb)
      (hfits.srcbuf_le hb)]
  rfl

theorem memcpyDm2Reverse_aligned (hb : b.Sized dstsize srcsize)
    (hfits : Fits dstsize srcsize offset size) (hsize : size < 2 ^ 64) (hword : 4 ∣ size) :
    memcpyDm2Reverse b offset size = memcpyDm1Reverse b offset size := by
  rw [memcpyDm1Reverse_eq hb hfits hsize, memcpyDm2Reverse, toSize_natCast hsize,
    mlx5MemcpyFromDm_aligned hword (Nat.dvd_zero 4) (by omega) (hfits.dm_le hb)
      (hfits.srcbuf_le hb)]
  rfl

/-- Both raw copies keep the buffers' sizes. -/
theorem Buffers.Sized.memcpyDm1 (hb : b.Sized dstsize srcsize)
    (hfits : Fits dstsize srcsize offset size) (hsize : size < 2 ^ 64) :
    ∃ b', Nicmem.memcpyDm1 b offset size = some b' ∧ b'.Sized dstsize srcsize := by
  refine ⟨_, memcpyDm1_eq hb hfits hsize, ?_, hb.srcbuf⟩
  show (overwrite b.dm 0 (slice b.srcbuf offset size)).length = dstsize
  rw [length_overwrite, hb.dm]
  rw [length_slice (hfits.srcbuf_le hb)]
  exact hfits.dm_le hb

theorem Buffers.Sized.memcpyDm1Reverse (hb : b.Sized dstsize srcsize)
    (hfits : Fits dstsize srcsize offset size) (hsize : size < 2 ^ 64) :
    ∃ b', Nicmem.memcpyDm1Reverse b offset size = some b' ∧ b'.Sized dstsize srcsize := by
  refine ⟨_, memcpyDm1Reverse_eq hb hfits hsize, hb.dm, ?_⟩
  show (overwrite b.srcbuf offset (slice b.dm 0 size)).length = srcsize
  rw [length_overwrite, hb.srcbuf]
  rw [length_slice (hfits.dm_le hb)]
  exact hfits.srcbuf_le hb

theorem memcpyDm2_unaligned (hsize : size < 2 ^ 64) (hword : ¬ 4 ∣ size) :
    memcpyDm2 b offset size = some b := by
  obtain ⟨status, hcall⟩ := mlx5MemcpyToDm_unaligned b.dm 0 b.srcbuf offset hword
  rw [memcpyDm2, toSize_natCast hsize, hcall]
  rfl

end Chunk

/-! ### The chunk loop -/

section Loop

variable {dstsize size : Nat}

theorem chunk_eq {offset : Nat} (hsize : size < 2 ^ 31) (hoffset : offset < size) :
    chunk dstsize size offset = (min dstsize (size - offset) : Nat) := by
  have hdiff : (size : Int) - offset = (size - offset : Nat) := by omega
  rw [chunk, hdiff, toSize_natCast (by omega), toInt_natCast (by omega)]
  split <;> omega

/-- A round that finds bytes left copies one chunk and goes on after it. -/
theorem copyLoop_step (copier : Copier) {offset : Nat} (fuel : Nat) (b : Buffers)
    (hsize : size < 2 ^ 31) (hoffset : offset < size) :
    copyLoop copier dstsize size (fuel + 1) offset b
      = (copier b offset (min dstsize (size - offset) : Nat)).bind
          (copyLoop copier dstsize size fuel (offset + min dstsize (size - offset))) := by
  rw [copyLoop, if_pos (by rw [toSize_natCast (by omega)]; exact hoffset)]
  dsimp only
  rw [chunk_eq hsize hoffset, toSize_natCast (by omega), Nat.mod_eq_of_lt (by omega)]

theorem copyLoop_done (copier : Copier) (fuel : Nat) (b : Buffers) (hsize : size < 2 ^ 31) :
    copyLoop copier dstsize size fuel size b = some b := by
  have hend : ¬ size < toSize size := by rw [toSize_natCast (by omega)]; omega
  cases fuel with
  | zero => rw [copyLoop, if_neg hend]
  | succ fuel => rw [copyLoop, if_neg hend]

/-- An invariant of the loop.  `P offset b` says what holds before the chunk at `offset`;
every chunk is copied and keeps it, so the loop ends, with it, at the end of the source
buffer. -/
theorem copyLoop_invariant (copier : Copier) (P : Nat → Buffers → Prop)
    (hsize : size < 2 ^ 31) (hdst : 0 < dstsize)
    (hstep : ∀ offset b, offset < size → P offset b →
      ∃ b', copier b offset (min dstsize (size - offset) : Nat) = some b'
        ∧ P (offset + min dstsize (size - offset)) b') (fuel : Nat) :
    ∀ offset b, offset ≤ size → size ≤ offset + fuel → P offset b →
      ∃ b', copyLoop copier dstsize size fuel offset b = some b' ∧ P size b' := by
  induction fuel with
  | zero =>
      intro offset b hle hfuel hP
      obtain rfl : offset = size := by omega
      exact ⟨b, copyLoop_done copier 0 b hsize, hP⟩
  | succ fuel ih =>
      intro offset b hle hfuel hP
      by_cases hend : offset = size
      · subst hend
        exact ⟨b, copyLoop_done copier (fuel + 1) b hsize, hP⟩
      · have hoffset : offset < size := by omega
        obtain ⟨b', hcopy, hP'⟩ := hstep offset b hoffset hP
        rw [copyLoop_step copier fuel b hsize hoffset, hcopy, Option.bind_some]
        -- A chunk is never empty, so the fuel that is left is enough for the rest.
        exact ih _ b' (by omega) (by omega) hP'

/-- Two copy functions that do the same to every chunk do the same over the loop. -/
theorem copyLoop_congr {copier copier' : Copier} (P : Nat → Buffers → Prop)
    (hsize : size < 2 ^ 31)
    (hstep : ∀ offset b, offset < size → P offset b →
      copier' b offset (min dstsize (size - offset) : Nat)
          = copier b offset (min dstsize (size - offset) : Nat)
        ∧ ∀ b', copier b offset (min dstsize (size - offset) : Nat) = some b' →
          P (offset + min dstsize (size - offset)) b') (fuel : Nat) :
    ∀ offset b, offset ≤ size → P offset b →
      copyLoop copier' dstsize size fuel offset b = copyLoop copier dstsize size fuel offset b := by
  induction fuel with
  | zero => intro offset b _ _; rfl
  | succ fuel ih =>
      intro offset b hle hP
      by_cases hend : offset = size
      · subst hend
        rw [copyLoop_done copier' _ b hsize, copyLoop_done copier _ b hsize]
      · have hoffset : offset < size := by omega
        obtain ⟨hsame, hnext⟩ := hstep offset b hoffset hP
        rw [copyLoop_step copier' fuel b hsize hoffset,
          copyLoop_step copier fuel b hsize hoffset, hsame]
        apply Option.bind_congr
        intro b' hcopy
        exact ih _ b' (by omega) (hnext b' hcopy)

theorem fits_chunk {offset : Nat} (hoffset : offset < size) :
    Fits dstsize size offset (min dstsize (size - offset)) :=
  ⟨Nat.min_le_left _ _, by omega⟩

end Loop

/-! ### Where the two paths agree -/

/-- The loop ends with either copy function, with the same bytes in `part`.  Every chunk
has at least one byte, so `srcsize` rounds are enough. -/
def EndAlike (copier copier' : Copier) (dstsize : Int) (srcsize : Nat)
    (part : Buffers → Bytes) (b : Buffers) : Prop :=
  ∃ b₁ b₂, copyLoop copier dstsize srcsize srcsize 0 b = some b₁
    ∧ copyLoop copier' dstsize srcsize srcsize 0 b = some b₂ ∧ part b₁ = part b₂

section Agreement

variable {dstsize srcsize : Nat} {b : Buffers}

/-- The loop is at a multiple of four bytes. -/
def AtWord (dstsize srcsize offset : Nat) (b : Buffers) : Prop :=
  b.Sized dstsize srcsize ∧ 4 ∣ offset

/-- Two copy functions that agree on aligned chunks end alike when every chunk is
aligned. -/
private theorem endAlike_of_aligned {copier copier' : Copier} (part : Buffers → Bytes)
    (hdst : 0 < dstsize) (hdst31 : dstsize < 2 ^ 31) (hsrc : srcsize < 2 ^ 31)
    (hdst4 : 4 ∣ dstsize) (hsrc4 : 4 ∣ srcsize) (hb : b.Sized dstsize srcsize)
    (hkeep : ∀ {b : Buffers} {offset size : Nat}, b.Sized dstsize srcsize →
      Fits dstsize srcsize offset size → size < 2 ^ 64 →
      ∃ b', copier b offset size = some b' ∧ b'.Sized dstsize srcsize)
    (hsame : ∀ {b : Buffers} {offset size : Nat}, b.Sized dstsize srcsize →
      Fits dstsize srcsize offset size → size < 2 ^ 64 → 4 ∣ size →
      copier' b offset size = copier b offset size) :
    EndAlike copier copier' dstsize srcsize part b := by
  have hstep : ∀ offset b, offset < srcsize → AtWord dstsize srcsize offset b →
      4 ∣ min dstsize (srcsize - offset)
        ∧ ∃ b', copier b offset (min dstsize (srcsize - offset) : Nat) = some b'
          ∧ AtWord dstsize srcsize (offset + min dstsize (srcsize - offset)) b' := by
    rintro offset b hoffset ⟨hb, haligned⟩
    have hchunk : 4 ∣ min dstsize (srcsize - offset) := by omega
    obtain ⟨b', hcopy, hb'⟩ := hkeep hb (fits_chunk hoffset) (by omega)
    exact ⟨hchunk, b', hcopy, hb', by omega⟩
  have hstart : AtWord dstsize srcsize 0 b := ⟨hb, Nat.dvd_zero 4⟩
  obtain ⟨b₁, hrun, -⟩ := copyLoop_invariant copier (AtWord dstsize srcsize) hsrc hdst
    (fun offset b hoffset hP => (hstep offset b hoffset hP).2) srcsize 0 b (Nat.zero_le _)
    (by omega) hstart
  refine ⟨b₁, b₁, hrun, ?_, rfl⟩
  rw [← hrun]
  refine copyLoop_congr (AtWord dstsize srcsize) hsrc ?_ srcsize 0 b (Nat.zero_le _) hstart
  intro offset b hoffset hP
  obtain ⟨hchunk, b', hcopy, hP'⟩ := hstep offset b hoffset hP
  refine ⟨hsame hP.1 (fits_chunk hoffset) (by omega) hchunk, ?_⟩
  intro b'' hcopy''
  rw [hcopy] at hcopy''
  rw [← Option.some.inj hcopy'']
  exact hP'

end Agreement

/-! ### Where they differ -/

section Difference

variable {dstsize srcsize : Nat}

/-- A source buffer with one byte set, its last, and a device memory of zeros. -/
def lastByteSet (dstsize srcsize : Nat) : Buffers where
  dm := List.replicate dstsize 0
  dstbuf := []
  srcbuf := List.replicate (srcsize - 1) 0 ++ [1]

theorem sized_lastByteSet (dstsize : Nat) (hsrc : 0 < srcsize) :
    (lastByteSet dstsize srcsize).Sized dstsize srcsize := by
  refine ⟨List.length_replicate, ?_⟩
  show (List.replicate (srcsize - 1) (0 : UInt8) ++ [1]).length = srcsize
  rw [List.length_append, List.length_replicate, List.length_singleton]
  omega

/-- A chunk that stops before the last byte copies zeros over zeros. -/
private theorem memcpyDm1_zeros {offset size : Nat} (hsrc : 0 < srcsize) (hsize : size < 2 ^ 64)
    (hdst : size ≤ dstsize) (hlast : offset + size < srcsize) :
    memcpyDm1 (lastByteSet dstsize srcsize) offset size = some (lastByteSet dstsize srcsize) := by
  have hzeros : slice (lastByteSet dstsize srcsize).srcbuf offset size
      = List.replicate size 0 := by
    rw [slice, lastByteSet, List.drop_append_of_le_length, List.take_append_of_le_length,
      List.drop_replicate, List.take_replicate, Nat.min_eq_left (by omega)]
    · rw [List.length_drop, List.length_replicate]
      omega
    · rw [List.length_replicate]
      omega
  rw [memcpyDm1_eq (sized_lastByteSet dstsize hsrc) ⟨hdst, by omega⟩ hsize, hzeros]
  simp only [lastByteSet, overwrite, List.take_zero, List.nil_append, Nat.zero_add,
    List.length_replicate, List.drop_replicate, List.replicate_append_replicate]
  rw [Nat.add_sub_cancel' hdst]

/-- The loop has changed nothing, and is at the start of a chunk or at the end. -/
def BuffersKept (dstsize srcsize offset : Nat) (b : Buffers) : Prop :=
  b = lastByteSet dstsize srcsize ∧ (dstsize ∣ offset ∨ offset = srcsize)

/-- A chunk of the checked path, if the last one is not a multiple of four. -/
private theorem BuffersKept.memcpyDm2 {offset : Nat} {b : Buffers} (hdst31 : dstsize < 2 ^ 31)
    (hpos : 0 < srcsize)
    (hlast : ∀ offset, dstsize ∣ offset → offset < srcsize → srcsize - offset ≤ dstsize →
      ¬ 4 ∣ srcsize - offset)
    (hoffset : offset < srcsize) (h : BuffersKept dstsize srcsize offset b) :
    ∃ b', Nicmem.memcpyDm2 b offset (min dstsize (srcsize - offset) : Nat) = some b'
      ∧ BuffersKept dstsize srcsize (offset + min dstsize (srcsize - offset)) b' := by
  obtain ⟨rfl, hmul | hend⟩ := h
  · refine ⟨lastByteSet dstsize srcsize, ?_, rfl, ?_⟩
    · by_cases hword : 4 ∣ min dstsize (srcsize - offset)
      · -- Only a chunk before the last one can be aligned.
        have hmore : ¬ srcsize - offset ≤ dstsize := by
          intro hle
          rw [Nat.min_eq_right hle] at hword
          exact hlast offset hmul hoffset hle hword
        rw [memcpyDm2_aligned (sized_lastByteSet dstsize hpos) (fits_chunk hoffset) (by omega)
          hword]
        exact memcpyDm1_zeros hpos (by omega) (by omega) (by omega)
      · exact memcpyDm2_unaligned (by omega) hword
    · by_cases hle : srcsize - offset ≤ dstsize
      · right; omega
      · left
        rw [Nat.min_eq_left (by omega)]
        exact Nat.dvd_add hmul (Nat.dvd_refl dstsize)
  · omega

/-- When the last chunk is not a multiple of four, the checked path leaves the device
memory as it was. -/
private theorem copyLoop_memcpyDm2 (hdst : 0 < dstsize) (hdst31 : dstsize < 2 ^ 31)
    (hpos : 0 < srcsize) (hsrc : srcsize < 2 ^ 31)
    (hlast : ∀ offset, dstsize ∣ offset → offset < srcsize → srcsize - offset ≤ dstsize →
      ¬ 4 ∣ srcsize - offset) :
    copyLoop memcpyDm2 dstsize srcsize srcsize 0 (lastByteSet dstsize srcsize)
      = some (lastByteSet dstsize srcsize) := by
  obtain ⟨b', hrun, hb', -⟩ := copyLoop_invariant memcpyDm2 (BuffersKept dstsize srcsize) hsrc hdst
    (fun _ _ hoffset h => h.memcpyDm2 hdst31 hpos hlast hoffset) srcsize 0 _ (Nat.zero_le _)
    (by omega) ⟨rfl, Or.inl (Nat.dvd_zero _)⟩
  rw [hrun, hb']

/-- The loop has left the source alone, and at the end the device memory has its last byte. -/
def Carried (dstsize srcsize offset : Nat) (b : Buffers) : Prop :=
  b.Sized dstsize srcsize ∧ b.srcbuf = (lastByteSet dstsize srcsize).srcbuf
    ∧ (offset = srcsize → 1 ∈ b.dm)

/-- A chunk of the raw path. -/
private theorem Carried.memcpyDm1 {offset : Nat} {b : Buffers} (hdst31 : dstsize < 2 ^ 31)
    (hoffset : offset < srcsize) (h : Carried dstsize srcsize offset b) :
    ∃ b', Nicmem.memcpyDm1 b offset (min dstsize (srcsize - offset) : Nat) = some b'
      ∧ Carried dstsize srcsize (offset + min dstsize (srcsize - offset)) b' := by
  obtain ⟨hb, hsame, -⟩ := h
  have hfits : Fits dstsize srcsize offset (min dstsize (srcsize - offset)) :=
    fits_chunk hoffset
  obtain ⟨b', hcopy, hb'⟩ := hb.memcpyDm1 hfits (by omega)
  have heq := memcpyDm1_eq hb hfits (by omega)
  rw [hcopy] at heq
  refine ⟨b', hcopy, hb', ?_, ?_⟩
  · rw [Option.some.inj heq]
    exact hsame
  · intro hend
    have hrest : min dstsize (srcsize - offset) = srcsize - offset := by omega
    have hmem : 1 ∈ slice b.srcbuf offset (srcsize - offset) := by
      rw [slice, hsame, lastByteSet, List.drop_append_of_le_length (by
        rw [List.length_replicate]; omega), List.take_of_length_le]
      · simp
      · simp only [List.length_append, List.length_drop, List.length_replicate,
          List.length_singleton]
        omega
    rw [Option.some.inj heq, hrest]
    exact List.mem_append_left _ (List.mem_append_right _ hmem)

/-- The raw path brings the last byte of the source to the device memory. -/
private theorem copyLoop_memcpyDm1 (hdst : 0 < dstsize) (hdst31 : dstsize < 2 ^ 31)
    (hpos : 0 < srcsize) (hsrc : srcsize < 2 ^ 31) :
    ∃ b, copyLoop memcpyDm1 dstsize srcsize srcsize 0 (lastByteSet dstsize srcsize) = some b
      ∧ 1 ∈ b.dm := by
  obtain ⟨b, hrun, -, -, hmem⟩ := copyLoop_invariant memcpyDm1 (Carried dstsize srcsize) hsrc hdst
    (fun _ _ hoffset h => h.memcpyDm1 hdst31 hoffset) srcsize 0 _ (Nat.zero_le _) (by omega)
    ⟨sized_lastByteSet dstsize hpos, rfl, fun h => absurd h (by omega)⟩
  exact ⟨b, hrun, hmem rfl⟩

end Difference

/-! ### The sizes -s accepts -/

theorem sizeAccepted_isPowerOfTwo {size : BitVec 32} (haccepted : sizeAccepted size = true)
    (hpos : size ≠ 0) : ∃ k < 32, size.toNat = 2 ^ k := by
  have hne : size.toNat ≠ 0 := by
    intro hzero
    exact hpos (BitVec.eq_of_toNat_eq hzero)
  have hpred : (size - 1).toNat = size.toNat - 1 := by
    rw [BitVec.toNat_sub_of_le]
    · rfl
    · show (1 : BitVec 32).toNat ≤ size.toNat
      exact Nat.one_le_iff_ne_zero.mpr hne
  have hand : size.toNat &&& size.toNat - 1 = 0 := by
    rw [← hpred, ← BitVec.toNat_and, eq_of_beq haccepted]
    rfl
  obtain ⟨k, hk⟩ := (Nat.and_sub_one_eq_zero_iff_isPowerOfTwo hne).mp hand
  refine ⟨k, ?_, hk⟩
  have hlt : 2 ^ k < 2 ^ 32 := hk ▸ size.isLt
  exact (Nat.pow_lt_pow_iff_right (by decide)).mp hlt

/-- An accepted size of four bytes or more is a multiple of four. -/
theorem four_dvd_of_sizeAccepted {size : BitVec 32} (haccepted : sizeAccepted size = true)
    (hpos : size ≠ 0) (hfour : 4 ≤ size.toNat) : 4 ∣ size.toNat := by
  obtain ⟨k, -, hk⟩ := sizeAccepted_isPowerOfTwo haccepted hpos
  rw [hk] at hfour ⊢
  have hexp : 2 ≤ k := (Nat.pow_le_pow_iff_right (a := 2) (by decide)).mp hfour
  exact Nat.pow_dvd_pow 2 hexp

/-- The one accepted size that does not fit an `int` becomes a negative message size, and
the first raw copy of a run with it leaves the buffers. -/
theorem copyLoop_memcpyDm1_negative {size : BitVec 32} {srcsize : Nat} {b : Buffers}
    (haccepted : sizeAccepted size = true) (hbig : 2 ^ 31 ≤ size.toNat)
    (hpos : 0 < srcsize) (hsrc : srcsize < 2 ^ 31) (hb : b.srcbuf.length = srcsize)
    (fuel : Nat) :
    copyLoop memcpyDm1 (dstsizeOf size) srcsize fuel 0 b = none := by
  have hne : size ≠ 0 := by
    rintro rfl
    exact absurd hbig (by decide)
  obtain ⟨k, hk32, hk⟩ := sizeAccepted_isPowerOfTwo haccepted hne
  have hk31 : k = 31 := by
    have hle : 31 ≤ k := (Nat.pow_le_pow_iff_right (a := 2) (by decide)).mp (hk ▸ hbig)
    omega
  have hdst : dstsizeOf size = -2 ^ 31 := by
    rw [dstsizeOf, hk, hk31]
    decide
  have hstart : 0 < toSize srcsize := by rw [toSize_natCast (by omega)]; exact hpos
  have hchunk : chunk (-2 ^ 31) srcsize 0 = -2 ^ 31 := by
    rw [chunk, Int.natCast_zero, Int.sub_zero, toSize_natCast (by omega),
      toInt_natCast hsrc]
    exact if_neg (by omega)
  have hbytes : toSize (-2 ^ 31) = 2 ^ 64 - 2 ^ 31 := by decide
  cases fuel with
  | zero => rw [copyLoop, if_pos hstart]
  | succ fuel =>
      rw [copyLoop, if_pos hstart, hdst]
      dsimp only
      rw [hchunk, memcpyDm1, hbytes, memcpy, if_neg (by omega)]
      rfl

/-- A run whose last chunk is not a multiple of four ends differently on the two paths. -/
theorem not_endAlike_of_lastChunk {dstsize srcsize : Nat} (hdst : 0 < dstsize)
    (hdst31 : dstsize < 2 ^ 31) (hpos : 0 < srcsize) (hsrc : srcsize < 2 ^ 31)
    (hlast : ∀ offset, dstsize ∣ offset → offset < srcsize → srcsize - offset ≤ dstsize →
      ¬ 4 ∣ srcsize - offset) :
    ¬ EndAlike memcpyDm1 memcpyDm2 dstsize srcsize Buffers.dm (lastByteSet dstsize srcsize) := by
  rintro ⟨b₁, b₂, hrun₁, hrun₂, hsame⟩
  obtain ⟨b, hrun, hmem⟩ := copyLoop_memcpyDm1 hdst hdst31 hpos hsrc
  rw [hrun] at hrun₁
  rw [copyLoop_memcpyDm2 hdst hdst31 hpos hsrc hlast] at hrun₂
  rw [Option.some.inj hrun₁, hsame, ← Option.some.inj hrun₂] at hmem
  exact absurd (List.eq_of_mem_replicate hmem) (by decide)

/-- The last chunk starts at a multiple of the message size, so an accepted size makes it
a multiple of four only when both sizes are. -/
theorem lastChunk_unaligned {size : BitVec 32} (haccepted : sizeAccepted size = true)
    (hpos : size ≠ 0) (srcsize : Nat) (hnot : ¬ (4 ∣ srcsize ∧ 4 ≤ size.toNat)) :
    ∀ offset, size.toNat ∣ offset → offset < srcsize → srcsize - offset ≤ size.toNat →
      ¬ 4 ∣ srcsize - offset := by
  intro offset hmul hoffset hle hword
  have hfour : 4 ≤ size.toNat := by omega
  have hoffset4 : 4 ∣ offset := (four_dvd_of_sizeAccepted haccepted hpos hfour).trans hmul
  omega

/-! ### The two paths of the benchmark -/

/-- **Where the raw and the checked path copy the same.**  With a source buffer that is
not empty, both directions end alike for all contents exactly when the source size is a
multiple of four and the message size is at least four bytes and fits an `int`. -/
theorem copies_agree_iff (size : BitVec 32) (haccepted : sizeAccepted size = true)
    (hpos : size ≠ 0) (srcsize : Nat) (hsrc : srcsize < 2 ^ 31) :
    (∀ b : Buffers, b.dm.length = toSize (dstsizeOf size) → b.srcbuf.length = srcsize →
        EndAlike memcpyDm1 memcpyDm2 (dstsizeOf size) srcsize Buffers.dm b
          ∧ EndAlike memcpyDm1Reverse memcpyDm2Reverse (dstsizeOf size) srcsize
              Buffers.srcbuf b)
      ↔ srcsize = 0 ∨ (4 ∣ srcsize ∧ 4 ≤ size.toNat ∧ size.toNat < 2 ^ 31) := by
  have hsize0 : 0 < size.toNat := by
    rw [Nat.pos_iff_ne_zero]
    intro hzero
    exact hpos (BitVec.eq_of_toNat_eq hzero)
  by_cases hempty : srcsize = 0
  · -- An empty source buffer has no chunk.
    subst hempty
    refine ⟨fun _ => Or.inl rfl, fun _ b _ _ => ?_⟩
    exact ⟨⟨b, b, rfl, rfl, rfl⟩, ⟨b, b, rfl, rfl, rfl⟩⟩
  have hsrc0 : 0 < srcsize := by omega
  have hsized := sized_lastByteSet (toSize (dstsizeOf size)) hsrc0
  by_cases hbig : 2 ^ 31 ≤ size.toNat
  · constructor
    · intro hall
      obtain ⟨⟨b₁, _, hrun, -⟩, -⟩ := hall _ hsized.dm hsized.srcbuf
      rw [copyLoop_memcpyDm1_negative haccepted hbig hsrc0 hsrc hsized.srcbuf] at hrun
      cases hrun
    · omega
  have hdst : dstsizeOf size = size.toNat := toInt_natCast (by omega)
  rw [hdst, toSize_natCast (by omega)] at hsized ⊢
  constructor
  · intro hall
    right
    by_contra hnot
    have hlast := lastChunk_unaligned haccepted hpos srcsize (by omega)
    exact not_endAlike_of_lastChunk hsize0 (by omega) hsrc0 hsrc hlast
      (hall _ hsized.dm hsized.srcbuf).1
  · rintro (hzero | ⟨hsrc4, hfour, -⟩) b hdm hsrcbuf
    · exact absurd hzero hempty
    have hdst4 := four_dvd_of_sizeAccepted haccepted hpos hfour
    have hb : b.Sized size.toNat srcsize := ⟨hdm, hsrcbuf⟩
    exact ⟨endAlike_of_aligned Buffers.dm hsize0 (by omega) hsrc hdst4 hsrc4 hb
        Buffers.Sized.memcpyDm1 memcpyDm2_aligned,
      endAlike_of_aligned Buffers.srcbuf hsize0 (by omega) hsrc hdst4 hsrc4 hb
        Buffers.Sized.memcpyDm1Reverse memcpyDm2Reverse_aligned⟩

/-- Messages of four bytes and a source of eight. -/
theorem copies_agree_fourBytes :
    sizeAccepted 4 = true ∧ (4 : BitVec 32) ≠ 0 ∧ 8 < 2 ^ 31
      ∧ EndAlike memcpyDm1 memcpyDm2 (dstsizeOf 4) 8 Buffers.dm
          ⟨[0, 0, 0, 0], [], [1, 2, 3, 4, 5, 6, 7, 8]⟩ :=
  ⟨by decide, by decide, by decide,
    ((copies_agree_iff 4 (by decide) (by decide) 8 (by decide)).mpr
      (by decide) ⟨[0, 0, 0, 0], [], [1, 2, 3, 4, 5, 6, 7, 8]⟩ (by decide) (by decide)).1⟩

/-- With `-s 2` every checked copy is refused: the raw path fills the device memory and
the checked path leaves it, and the same in the other direction.  With `-s 4` the checked
path loses the last two bytes of a source of six. -/
theorem copies_differ :
    sizeAccepted 2 = true
      ∧ copyLoop memcpyDm1 (dstsizeOf 2) 4 4 0 ⟨[0, 0], [], [1, 2, 3, 4]⟩
        = some ⟨[3, 4], [], [1, 2, 3, 4]⟩
      ∧ copyLoop memcpyDm2 (dstsizeOf 2) 4 4 0 ⟨[0, 0], [], [1, 2, 3, 4]⟩
        = some ⟨[0, 0], [], [1, 2, 3, 4]⟩
      ∧ copyLoop memcpyDm1Reverse (dstsizeOf 2) 4 4 0 ⟨[8, 9], [], [1, 2, 3, 4]⟩
        = some ⟨[8, 9], [], [8, 9, 8, 9]⟩
      ∧ copyLoop memcpyDm2Reverse (dstsizeOf 2) 4 4 0 ⟨[8, 9], [], [1, 2, 3, 4]⟩
        = some ⟨[8, 9], [], [1, 2, 3, 4]⟩
      ∧ sizeAccepted 4 = true
      ∧ copyLoop memcpyDm1 (dstsizeOf 4) 6 6 0 ⟨[0, 0, 0, 0], [], [1, 2, 3, 4, 5, 6]⟩
        = some ⟨[5, 6, 3, 4], [], [1, 2, 3, 4, 5, 6]⟩
      ∧ copyLoop memcpyDm2 (dstsizeOf 4) 6 6 0 ⟨[0, 0, 0, 0], [], [1, 2, 3, 4, 5, 6]⟩
        = some ⟨[1, 2, 3, 4], [], [1, 2, 3, 4, 5, 6]⟩ := by
  decide

end Nicmem
