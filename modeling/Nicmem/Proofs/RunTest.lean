/-
The loops of `run_test`: the chunks of a source buffer, and the cycles they take.

`main` accepts zero and the powers of two for `-s`.  From the message size on, the chunks
follow one another, and the source buffer is covered, as long as the size is positive and
fits an `int`.  With zero the loop stays where it is, and with `2^31` the first chunk has a
negative size.

The cycles are summed in 64 bits, and the calibration is taken off every interval.  The
order of wrap-arounds does not matter: the sum is right exactly when the calibration, taken
once per chunk, does not exceed the intervals together.
-/
import Mathlib.Algebra.BigOperators.Group.List.Basic
import Nicmem.Proofs.DmCopy

namespace Nicmem

open C

/-! ### The chunks -/

/-- The loop with a copy function copies the chunks one after the other. -/
theorem copyLoop_eq_chunks (copier : Copier) (dstsize size : Int) (fuel : Nat) :
    ∀ (offset : Nat) (b : Buffers), copyLoop copier dstsize size fuel offset b =
      (chunks dstsize size fuel offset).bind fun cs =>
        cs.foldlM (fun b c => copier b c.1 c.2) b := by
  induction fuel with
  | zero =>
      intro offset b
      rw [copyLoop, chunks]
      split <;> rfl
  | succ fuel ih =>
      intro offset b
      rw [copyLoop, chunks]
      by_cases hmore : offset < toSize size
      · rw [if_pos hmore, if_pos hmore]
        dsimp only
        cases hcopy : copier b offset (chunk dstsize size offset) with
        | none =>
            cases chunks dstsize size fuel _ with
            | none => rfl
            | some cs =>
                rw [Option.map_some, Option.bind_some, List.foldlM_cons, hcopy]
                rfl
        | some b' =>
            rw [Option.bind_some, ih]
            cases chunks dstsize size fuel _ with
            | none => rfl
            | some cs =>
                rw [Option.map_some, Option.bind_some, Option.bind_some, List.foldlM_cons, hcopy]
                rfl
      · rw [if_neg hmore, if_neg hmore]
        rfl

/-- Chunks that follow one another from `offset` to the end, none empty or over size. -/
def Follow (dstsize : Int) (size : Nat) : Nat → List (Nat × Int) → Prop
  | offset, [] => offset = size
  | offset, (o, copy) :: cs =>
      o = offset ∧ 0 < copy ∧ copy ≤ dstsize ∧ Follow dstsize size (offset + copy.toNat) cs

/-- With a positive message size the loop ends, and its chunks follow one another. -/
theorem chunks_follow {dstsize size : Nat} (hdst : 0 < dstsize) (hsize : size < 2 ^ 31)
    (fuel : Nat) : ∀ offset, offset ≤ size → size ≤ offset + fuel →
      ∃ cs, chunks dstsize size fuel offset = some cs ∧ Follow dstsize size offset cs := by
  have htoSize : toSize size = size := toSize_natCast (by omega)
  induction fuel with
  | zero =>
      intro offset hle hfuel
      refine ⟨[], ?_, ?_⟩
      · rw [chunks, htoSize, if_neg (by omega)]
      · show offset = size
        omega
  | succ fuel ih =>
      intro offset hle hfuel
      rw [chunks, htoSize]
      by_cases hend : offset = size
      · refine ⟨[], ?_, hend⟩
        rw [if_neg (by omega)]
      · have hoffset : offset < size := by omega
        obtain ⟨cs, hcs, hfollow⟩ := ih (offset + min dstsize (size - offset)) (by omega) (by omega)
        refine ⟨(offset, (min dstsize (size - offset) : Nat)) :: cs, ?_, ?_⟩
        · rw [if_pos hoffset]
          dsimp only
          rw [chunk_eq hsize hoffset, toSize_natCast (by omega), Nat.mod_eq_of_lt (by omega), hcs]
          rfl
        · exact ⟨rfl, by omega, by omega, hfollow⟩

/-- The chunks of a source buffer, as the benchmark needs them. -/
structure CoversSource (dstsize : Int) (size : Nat) (cs : List (Nat × Int)) : Prop where
  start : ∀ c ∈ cs.head?, c.1 = 0
  contiguous : cs.IsChain fun c d => (d.1 : Int) = c.1 + c.2
  bounds : ∀ c ∈ cs, 0 < c.2 ∧ c.2 ≤ dstsize
  inside : ∀ c ∈ cs, (c.1 : Int) + c.2 ≤ size
  once : ∀ i < size, (cs.filter fun c => decide (c.1 ≤ i ∧ (i : Int) < c.1 + c.2)).length = 1

section Follow

variable {dstsize : Int} {size : Nat}

theorem Follow.bounds {cs : List (Nat × Int)} :
    ∀ {offset : Nat}, Follow dstsize size offset cs →
      offset ≤ size ∧ ∀ c ∈ cs, offset ≤ c.1 ∧ 0 < c.2 ∧ c.2 ≤ dstsize ∧
        (c.1 : Int) + c.2 ≤ size := by
  induction cs with
  | nil =>
      intro offset h
      exact ⟨le_of_eq h, fun c hc => absurd hc List.not_mem_nil⟩
  | cons c cs ih =>
      intro offset h
      obtain ⟨hoffset, hpos, hle, hrest⟩ := h
      obtain ⟨hend, hall⟩ := ih hrest
      refine ⟨by omega, fun d hd => ?_⟩
      rcases List.mem_cons.mp hd with rfl | hd
      · exact ⟨by omega, hpos, hle, by omega⟩
      · obtain ⟨hfrom, hmore⟩ := hall d hd
        exact ⟨by omega, hmore⟩

theorem Follow.contiguous {cs : List (Nat × Int)} :
    ∀ {offset : Nat}, Follow dstsize size offset cs →
      cs.IsChain fun c d => (d.1 : Int) = c.1 + c.2 := by
  induction cs with
  | nil =>
      intro offset _
      exact .nil
  | cons c cs ih =>
      intro offset h
      obtain ⟨hoffset, hpos, -, hrest⟩ := h
      cases cs with
      | nil => exact .singleton c
      | cons d cs =>
          refine List.isChain_cons_cons.mpr ⟨?_, ih hrest⟩
          have hnext := hrest.1
          omega

/-- A byte from `offset` on is in exactly one chunk. -/
theorem Follow.once {cs : List (Nat × Int)} :
    ∀ {offset : Nat}, Follow dstsize size offset cs → ∀ i, offset ≤ i → i < size →
      (cs.filter fun c => decide (c.1 ≤ i ∧ (i : Int) < c.1 + c.2)).length = 1 := by
  induction cs with
  | nil =>
      intro offset h i hle hlt
      have hend : offset = size := h
      omega
  | cons c cs ih =>
      intro offset h i hle hlt
      obtain ⟨hoffset, hpos, -, hrest⟩ := h
      rw [List.filter_cons]
      by_cases hin : c.1 ≤ i ∧ (i : Int) < c.1 + c.2
      · -- the chunks that follow start after the byte
        have hnone : cs.filter (fun d => decide (d.1 ≤ i ∧ (i : Int) < d.1 + d.2)) = [] := by
          refine List.filter_eq_nil_iff.mpr fun d hd hdin => ?_
          have hdin := of_decide_eq_true hdin
          have hfrom := (hrest.bounds.2 d hd).1
          omega
        rw [if_pos (decide_eq_true hin), hnone]
        rfl
      · rw [if_neg (by rw [decide_eq_true_eq]; exact hin)]
        exact ih hrest i (by omega) hlt

theorem coversSource_of_follow {cs : List (Nat × Int)} (h : Follow dstsize size 0 cs) :
    CoversSource dstsize size cs where
  start := by
    cases cs with
    | nil => simp
    | cons c cs =>
        intro d hd
        obtain rfl : c = d := Option.some.inj hd
        exact h.1
  contiguous := h.contiguous
  bounds c hc := ⟨(h.bounds.2 c hc).2.1, (h.bounds.2 c hc).2.2.1⟩
  inside c hc := (h.bounds.2 c hc).2.2.2
  once i hi := h.once i (Nat.zero_le i) hi

end Follow

/-- A message size that is zero or negative makes no chunk of a source buffer. -/
theorem chunks_nonpos {dstsize : Int} {size : Nat} (hdst : dstsize ≤ 0) (hpos : 0 < size)
    (hsize : size < 2 ^ 31) {fuel : Nat} {cs : List (Nat × Int)}
    (h : chunks dstsize size fuel 0 = some cs) : ¬ CoversSource dstsize size cs := by
  have hchunk : chunk dstsize size 0 = dstsize := by
    rw [chunk, Int.natCast_zero, Int.sub_zero, toSize_natCast (by omega), toInt_natCast hsize]
    exact if_neg (by omega)
  have hmore : 0 < toSize size := by
    rw [toSize_natCast (by omega)]
    exact hpos
  intro hcovers
  cases fuel with
  | zero =>
      rw [chunks, if_pos hmore] at h
      cases h
  | succ fuel =>
      rw [chunks, if_pos hmore] at h
      obtain ⟨rest, -, rfl⟩ := Option.map_eq_some_iff.mp h
      have hbounds := (hcovers.bounds _ List.mem_cons_self).1
      rw [hchunk] at hbounds
      exact absurd hbounds (by simp only; omega)

/-- **Where the chunk loop covers the source buffer**: exactly for the accepted sizes other
than zero that fit an `int`. -/
theorem chunks_cover_iff (size : BitVec 32) (haccepted : sizeAccepted size = true) (srcsize : Nat)
    (hpos : 0 < srcsize) (hsrc : srcsize < 2 ^ 31) :
    (∃ fuel cs, chunks (dstsizeOf size) srcsize fuel 0 = some cs ∧
        CoversSource (dstsizeOf size) srcsize cs) ↔
      size ≠ 0 ∧ size.toNat < 2 ^ 31 := by
  constructor
  · rintro ⟨fuel, cs, hcs, hcovers⟩
    have hdst : 0 < dstsizeOf size := by
      by_contra hneg
      exact chunks_nonpos (by omega) hpos hsrc hcs hcovers
    constructor
    · rintro rfl
      exact absurd hdst (by decide)
    · by_contra hbig
      have hlt := size.isLt
      rw [dstsizeOf, toInt, Int.bmod_def] at hdst
      omega
  · rintro ⟨hne, hlt⟩
    have hsize0 : 0 < size.toNat := by
      rw [Nat.pos_iff_ne_zero]
      intro hzero
      exact hne (BitVec.eq_of_toNat_eq hzero)
    have hdst : dstsizeOf size = size.toNat := toInt_natCast hlt
    obtain ⟨cs, hcs, hfollow⟩ :=
      chunks_follow hsize0 hsrc srcsize 0 (Nat.zero_le _) (by omega)
    rw [hdst]
    exact ⟨srcsize, cs, hcs, coversSource_of_follow hfollow⟩

/-- Messages of four bytes and a source of six. -/
theorem chunks_cover_sixBytes :
    ∃ fuel cs, chunks (dstsizeOf 4) 6 fuel 0 = some cs ∧ CoversSource (dstsizeOf 4) 6 cs :=
  (chunks_cover_iff 4 (by decide) 6 (by decide) (by decide)).mpr ⟨by decide, by decide⟩

/-- With `-s 0` the loop never ends, and with `-s 0x80000000` the first chunk is negative. -/
theorem chunks_not_cover :
    sizeAccepted 0 = true ∧ (∀ fuel, chunks (dstsizeOf 0) 1024 fuel 0 = none) ∧
      sizeAccepted 0x80000000 = true ∧ chunk (dstsizeOf 0x80000000) 1024 0 = -2 ^ 31 := by
  refine ⟨by decide, fun fuel => ?_, by decide, by decide⟩
  induction fuel with
  | zero => decide
  | succ fuel ih =>
      rw [chunks, if_pos (by decide)]
      show (chunks (dstsizeOf 0) 1024 fuel 0).map _ = none
      rw [ih]
      rfl

/-! ### The cycles -/

/-- The sum of some intervals, without a bound. -/
def cyclesOf (intervals : List UInt64) : Nat := (intervals.map UInt64.toNat).sum

/-- The intervals of the first `n` iterations. -/
def cyclesOfRun (intervals : Nat → List UInt64) (n : Nat) : Nat :=
  ((List.range n).map fun it => cyclesOf (intervals it)).sum

/-- The number of chunks of the first `n` iterations. -/
def chunksOfRun (intervals : Nat → List UInt64) (n : Nat) : Nat :=
  ((List.range n).map fun it => (intervals it).length).sum

/-- One chunk: the sum goes on modulo `2^64`. -/
theorem toNat_add_sub (sum interval calib : UInt64) :
    ((sum + (interval - calib)).toNat : Int) =
      ((sum.toNat : Int) + interval.toNat - calib.toNat) % 2 ^ 64 := by
  have hlt := calib.toNat_lt
  rw [UInt64.toNat_add, UInt64.toNat_sub]
  omega

theorem toNat_addIntervals (calib : UInt64) (intervals : List UInt64) :
    ∀ sum : UInt64, ((addIntervals calib sum intervals).toNat : Int) =
      ((sum.toNat : Int) + cyclesOf intervals - intervals.length * calib.toNat) % 2 ^ 64 := by
  induction intervals with
  | nil =>
      intro sum
      have hlt := sum.toNat_lt
      show (sum.toNat : Int) = ((sum.toNat : Int) + (0 : Nat) - (0 : Nat) * calib.toNat) % 2 ^ 64
      omega
  | cons interval intervals ih =>
      intro sum
      have hcycles : cyclesOf (interval :: intervals) = interval.toNat + cyclesOf intervals :=
        List.sum_cons
      have hregroup : (sum.toNat : Int) + (interval.toNat + cyclesOf intervals : Nat) -
          (intervals.length + 1 : Nat) * calib.toNat =
          ((sum.toNat : Int) + interval.toNat - calib.toNat) +
            ((cyclesOf intervals : Int) - intervals.length * calib.toNat) := by
        push_cast
        ring
      rw [addIntervals, List.foldl_cons]
      show ((addIntervals calib (sum + (interval - calib)) intervals).toNat : Int) = _
      rw [ih, toNat_add_sub, hcycles, List.length_cons, hregroup, add_sub_assoc,
        Int.emod_add_emod]

/-- The whole run: the sum modulo `2^64`, and the number of iterations. -/
theorem iterate_eq (calib : UInt64) (intervals : Nat → List UInt64) (iters : Int) :
    (iterate calib intervals iters).2 = iters.toNat ∧
      ((iterate calib intervals iters).1.toNat : Int) =
        ((cyclesOfRun intervals iters.toNat : Int) -
          chunksOfRun intervals iters.toNat * calib.toNat) % 2 ^ 64 := by
  rw [iterate]
  generalize iters.toNat = n
  induction n with
  | zero => exact ⟨rfl, by simp [cyclesOfRun, chunksOfRun]⟩
  | succ n ih =>
      obtain ⟨hcount, hsum⟩ := ih
      have hcycles : cyclesOfRun intervals (n + 1) =
          cyclesOfRun intervals n + cyclesOf (intervals n) := by
        rw [cyclesOfRun, List.range_succ, List.map_append, List.sum_append, List.map_singleton,
          List.sum_singleton]
        rfl
      have hchunks : chunksOfRun intervals (n + 1) =
          chunksOfRun intervals n + (intervals n).length := by
        rw [chunksOfRun, List.range_succ, List.map_append, List.sum_append, List.map_singleton,
          List.sum_singleton]
        rfl
      rw [List.range_succ, List.foldl_append, List.foldl_cons, List.foldl_nil]
      refine ⟨?_, ?_⟩
      · show _ + 1 = ((n + 1 : Nat) : Int)
        rw [hcount]
        push_cast
        ring
      · show ((addIntervals calib _ (intervals n)).toNat : Int) = _
        rw [toNat_addIntervals, hsum, add_sub_assoc, Int.emod_add_emod, hcycles, hchunks]
        congr 1
        push_cast
        ring

/-- The average of a run is defined, the calibration did not make the sum wrap around, and
the average is at most that of the intervals themselves. -/
def AverageSound (calib : UInt64) (intervals : Nat → List UInt64) (iters : Int) : Prop :=
  ∃ avg, averageCycles (iterate calib intervals iters).1 (iterate calib intervals iters).2 =
      some avg ∧
    ((iterate calib intervals iters).1.toNat : Int) =
      (cyclesOfRun intervals iters.toNat : Int) -
        chunksOfRun intervals iters.toNat * calib.toNat ∧
    avg.toNat * iters.toNat ≤ cyclesOfRun intervals iters.toNat

/-- **Where the cycle accounting is sound**: exactly where at least one iteration is run and
the calibration, once per chunk, does not exceed the intervals together. -/
theorem averageCycles_sound_iff (n : BitVec 64) (rounds : List UInt64)
    (intervals : Nat → List UInt64)
    (hsum : cyclesOfRun intervals (itersOf n).toNat < 2 ^ 64) :
    AverageSound (calibrate rounds) intervals (itersOf n) ↔
      0 < itersOf n ∧ chunksOfRun intervals (itersOf n).toNat * (calibrate rounds).toNat ≤
        cyclesOfRun intervals (itersOf n).toNat := by
  obtain ⟨hcount, htoNat⟩ := iterate_eq (calibrate rounds) intervals (itersOf n)
  have hiters : (itersOf n).toNat < 2 ^ 31 := by
    rw [itersOf, toInt, Int.bmod_def]
    omega
  rw [AverageSound, averageCycles, hcount, toSize_natCast (by omega)]
  constructor
  · rintro ⟨avg, havg, hexact, -⟩
    constructor
    · by_contra hneg
      rw [if_pos (by omega)] at havg
      cases havg
    · have hle : (chunksOfRun intervals (itersOf n).toNat : Int) * (calibrate rounds).toNat ≤
          cyclesOfRun intervals (itersOf n).toNat := by omega
      exact_mod_cast hle
  · rintro ⟨hpos, hle⟩
    have hle' : (chunksOfRun intervals (itersOf n).toNat : Int) * (calibrate rounds).toNat ≤
        cyclesOfRun intervals (itersOf n).toNat := by exact_mod_cast hle
    have hprod : 0 ≤ (chunksOfRun intervals (itersOf n).toNat : Int) * (calibrate rounds).toNat :=
      mul_nonneg (Int.natCast_nonneg _) (Int.natCast_nonneg _)
    rw [Int.emod_eq_of_lt (by omega) (by omega)] at htoNat
    refine ⟨_, if_neg (by omega), htoNat, ?_⟩
    rw [UInt64.toNat_div, UInt64.toNat_ofNat', Nat.mod_eq_of_lt (by omega)]
    have hdiv := Nat.div_mul_le_self
      (iterate (calibrate rounds) intervals (itersOf n)).1.toNat (itersOf n).toNat
    omega

theorem toNat_foldl_add (l : List UInt64) :
    ∀ sum : UInt64, (l.foldl (· + ·) sum).toNat = (sum.toNat + cyclesOf l) % 2 ^ 64 := by
  induction l with
  | nil =>
      intro sum
      exact (Nat.mod_eq_of_lt sum.toNat_lt).symm
  | cons x l ih =>
      intro sum
      have hcycles : cyclesOf (x :: l) = x.toNat + cyclesOf l := List.sum_cons
      rw [List.foldl_cons, ih, UInt64.toNat_add, hcycles, Nat.mod_add_mod, Nat.add_assoc]

/-- Rounds that all take the same time calibrate to it. -/
theorem calibrate_replicate {x : UInt64} (hx : 100000 * x.toNat < 2 ^ 64) :
    calibrate (List.replicate 100000 x) = x := by
  have hcycles : cyclesOf (List.replicate 100000 x) = 100000 * x.toNat := by
    rw [cyclesOf, List.map_replicate, List.sum_replicate]
    rfl
  refine UInt64.toNat_inj.mp ?_
  rw [calibrate, UInt64.toNat_div, toNat_foldl_add, hcycles]
  show (0 + 100000 * x.toNat) % 2 ^ 64 / 100000 = x.toNat
  omega

/-- One iteration of one chunk that takes fifty cycles, with a calibration of twenty. -/
theorem averageCycles_sound_once :
    AverageSound (calibrate (List.replicate 100000 20)) (fun _ => [50]) (itersOf 1) :=
  (averageCycles_sound_iff 1 _ (fun _ => [50]) (by decide)).mpr
    (by rw [calibrate_replicate (by decide)]; decide)

/-- With `-n 0` the average divides by zero.  With a calibration of twenty cycles, one chunk
that takes ten makes the sum wrap around. -/
theorem averageCycles_unsound :
    averageCycles (iterate 20 (fun _ => [50]) (itersOf 0)).1
        (iterate 20 (fun _ => [50]) (itersOf 0)).2 = none ∧
      calibrate (List.replicate 100000 20) = 20 ∧
      (iterate 20 (fun _ => [10]) (itersOf 1)).1.toNat = 2 ^ 64 - 10 := by
  refine ⟨by decide, calibrate_replicate (by decide), by decide⟩

end Nicmem
