/-
Recording the packet groups of a record.

An entry of the latency dictionary adds to five lists under one handler that swallows
every failure.  The average is appended before anything else is looked at, so whatever
fails after it leaves one sample in one list and none in the others.

A histogram counts packets by latency, and there are fewer than `2 ^ 40` of them, so that a
hundred times their number is still a whole number of the format.  Then every percentile is
found as if the arithmetic were exact, at a latency with packets, and the entry is recorded
as a whole exactly when it has packets at all.
-/
import Nicmem.Proofs.Percentiles
import Nicmem.Python.Double

namespace Nicmem

open Python

/-! ### All or nothing -/

section Outcome

variable {F : Type} [PyFloat F]

/-- One sample is appended to each of the five lists of a packet group. -/
structure OneEach (s s' : TrexSamples F) : Prop where
  latAvg : ∃ x, s'.latAvg = s.latAvg ++ [x]
  lat50th : ∃ x, s'.lat50th = s.lat50th ++ [x]
  lat90th : ∃ x, s'.lat90th = s.lat90th ++ [x]
  lat99th : ∃ x, s'.lat99th = s.lat99th ++ [x]
  latAvg2 : ∃ x, s'.latAvg2 = s.latAvg2 ++ [x]

/-- The five lists of a packet group are as they were. -/
structure Untouched (s s' : TrexSamples F) : Prop where
  latAvg : s'.latAvg = s.latAvg
  lat50th : s'.lat50th = s.lat50th
  lat90th : s'.lat90th = s.lat90th
  lat99th : s'.lat99th = s.lat99th
  latAvg2 : s'.latAvg2 = s.latAvg2

/-- The entry was processed, and recorded as a whole or not at all. -/
def EntryOutcome.Atomic (s : TrexSamples F) : EntryOutcome F → Prop
  | .read s' => OneEach s s' ∨ Untouched s s'
  | .failed s' => OneEach s s' ∨ Untouched s s'
  | .stuck => False

/-- An entry that fails never gets to the average of its percentiles. -/
theorem readHistogram_failed [Sorting] {fuel : Nat} {s s' : TrexSamples F} {hist : Obj F}
    (h : readHistogram fuel s hist = .failed s') :
    s'.latAvg = s.latAvg ∧ s'.latAvg2 = s.latAvg2 := by
  unfold readHistogram at h
  split at h
  · split at h
    · cases h
      exact ⟨rfl, rfl⟩
    · split at h
      · cases h
      · split at h
        · dsimp only at h
          split at h
          · cases h
          · cases h
            exact ⟨rfl, rfl⟩
        · cases h
          exact ⟨rfl, rfl⟩
  · cases h
    exact ⟨rfl, rfl⟩

/-- Once the average is appended, only an entry that is read is recorded as a whole. -/
theorem read_of_atomic [Sorting] {fuel : Nat} {s : TrexSamples F} {avg hist : Obj F}
    (h : (readHistogram fuel { s with latAvg := s.latAvg ++ [avg] } hist).Atomic s) :
    ∃ s', readHistogram fuel { s with latAvg := s.latAvg ++ [avg] } hist = .read s' := by
  match hout : readHistogram fuel { s with latAvg := s.latAvg ++ [avg] } hist with
  | .read s' => exact ⟨s', rfl⟩
  | .stuck =>
      rw [hout] at h
      exact h.elim
  | .failed s' =>
      rw [hout] at h
      obtain ⟨havg, havg2⟩ := readHistogram_failed hout
      rcases h with hone | hnone
      · obtain ⟨x, hx⟩ := hone.latAvg2
        rw [havg2] at hx
        exact absurd hx (by simp)
      · have hlat := hnone.latAvg
        rw [havg] at hlat
        exact absurd hlat (by simp)

theorem toList_getElem? {α : Type} {l : List α} {i : Nat} (h : i < l.length) :
    l[i]?.toList = [l[i]] := by
  rw [List.getElem?_eq_getElem h]
  rfl

theorem oneEach_recorded {s : TrexSamples F} {avg : Obj F} {ps : List (Obj F)} {xs : List F}
    (hlen : ps.length = 99) :
    OneEach s (recorded { s with latAvg := s.latAvg ++ [avg] } ps xs) where
  latAvg := ⟨avg, rfl⟩
  lat50th := ⟨ps[49], congrArg (s.lat50th ++ ·) (toList_getElem? (by omega))⟩
  lat90th := ⟨ps[89], congrArg (s.lat90th ++ ·) (toList_getElem? (by omega))⟩
  lat99th := ⟨ps[98], congrArg (s.lat99th ++ ·) (toList_getElem? (by omega))⟩
  latAvg2 := ⟨PyFloat.average xs, rfl⟩

end Outcome

/-! ### Histograms of packets -/

section Packets

variable {F : Type} [IeeeFloat F]

/-- Doubles stand for counts below `2 ^ 40`: a hundred times such a count is still exact. -/
theorem measures_counts {total : Nat} (htotal : total < 2 ^ 40) :
    Measures (fun (x : F) q => ∃ n : ℕ, q = n ∧ IeeeFloat.exact x = .fin n) total where
  zero := by
    refine ⟨0, Nat.cast_zero.symm, ?_⟩
    have hlit := IeeeFloat.exact_lit_nat (F := F) (n := 0) (by norm_num)
    rwa [Nat.cast_zero] at hlit ⊢
  add := by
    rintro x y _ _ ⟨m, rfl, hx⟩ ⟨n, rfl, hy⟩ hle
    rw [← Nat.cast_add] at hle ⊢
    have hle' : m + n ≤ total := by exact_mod_cast hle
    exact ⟨m + n, rfl, IeeeFloat.exact_add_nat hx hy (by omega)⟩
  lt := by
    rintro t x _ c ⟨m, hm, ht⟩ ⟨n, rfl, hx⟩ hle hc
    obtain rfl : m = total := by exact_mod_cast hm.symm
    have hle' : n ≤ m := by exact_mod_cast hle
    have hmul : m * c < 2 ^ 53 := by nlinarith
    have hhundred : IeeeFloat.exact (PyFloat.lit 100 : F) = .fin (100 : ℕ) := by
      have hlit := IeeeFloat.exact_lit_nat (F := F) (n := 100) (by norm_num)
      rwa [Nat.cast_ofNat] at hlit ⊢
    obtain ⟨r, hr, hnear⟩ := IeeeFloat.exact_div_nat
      (IeeeFloat.exact_mul_nat ht (IeeeFloat.exact_lit_nat (F := F) (n := c) (by omega)) hmul.le)
      hhundred hmul.le (by norm_num)
    have hcmp := (nearest_div_iff (c := n) hmul (by norm_num) (by norm_num) (by omega) hnear).2
    have hlt : PyFloat.lt (percentileBound t c) x = decide (r < n) := by
      rw [IeeeFloat.lt_eq, percentileBound, hr, hx]
      rfl
    rw [hlt, decide_eq_decide, ← not_le, hcmp, not_le, div_lt_iff₀ (by norm_num)]
    rw [mul_comm 100 n]
    exact_mod_cast Iff.rfl

/-- Packets by latency: fewer than `2 ^ 40` of them, and where there are any the latency is a
number. -/
structure PacketHistogram (F : Type) [PyFloat F] where
  entries : List (Obj F × Nat)
  few : (entries.map Prod.snd).sum < 2 ^ 40
  numbers : ∀ e ∈ entries, 0 < e.2 → e.1.number.isSome = true

namespace PacketHistogram

/-- The dictionary of the record. -/
def obj (h : PacketHistogram F) : Obj F := .dict (h.entries.map fun e => (e.1, .int e.2))

/-- The number of packets. -/
def total (h : PacketHistogram F) : Nat := (h.entries.map Prod.snd).sum

variable (h : PacketHistogram F)

theorem measured_entries :
    Measured (fun (x : F) q => ∃ n : ℕ, q = n ∧ IeeeFloat.exact x = .fin n)
      (h.entries.map fun e => (e.1, PyFloat.lit (e.2 : ℚ)))
      (h.entries.map fun e => (e.1, (e.2 : ℚ))) := by
  unfold Measured
  rw [List.forall₂_map_left_iff, List.forall₂_map_right_iff, List.forall₂_same]
  intro e he
  have hle : e.2 ≤ h.total := List.single_le_sum (by simp) _ (List.mem_map_of_mem he)
  have hfew : h.total < 2 ^ 40 := h.few
  exact ⟨rfl, e.2, rfl, IeeeFloat.exact_lit_nat (by omega)⟩

theorem entries_nonneg : ∀ e ∈ h.entries.map fun e => (e.1, (e.2 : ℚ)), 0 ≤ e.2 := by
  intro e he
  obtain ⟨e', -, rfl⟩ := List.mem_map.mp he
  exact Nat.cast_nonneg _

/-- A histogram with packets is read to the end. -/
theorem readHistogram_read [Sorting] (hpos : 0 < h.total) {fuel : Nat} (hfuel : 99 ≤ fuel)
    (s : TrexSamples F) :
    ∃ ps xs, ps.length = 99 ∧ readHistogram fuel s h.obj = .read (recorded s ps xs) := by
  have hweight := weight_counts h.entries
  obtain ⟨qs, ps, hperm, -, hps, hat, hlen, -⟩ := percentilesOf_spec h.measured_entries
    (by rw [hweight]; exact measures_counts h.few) h.entries_nonneg hfuel
  rw [hweight] at hat hlen
  have hlen : ps.length = 99 := hlen (Nat.cast_pos.mpr hpos)
  have hnumber : ∀ k ∈ ps, k.number = some (k.number.getD (PyFloat.lit 0)) := by
    intro k hk
    obtain ⟨i, hi, rfl⟩ := List.getElem_of_mem hk
    have hk := List.getElem?_eq_getElem hi
    rw [hat i (by omega)] at hk
    obtain ⟨v, hv, hmem⟩ := pos_of_firstAbove (by positivity) hk
    obtain ⟨e, he, heq⟩ := List.mem_map.mp (hperm.mem_iff.mp hmem)
    rw [Prod.mk.injEq] at heq
    obtain ⟨hkey, rfl⟩ := heq
    obtain ⟨x, hx⟩ := Option.isSome_iff_exists.mp (h.numbers e he (Nat.cast_pos.mp hv))
    rw [← hkey, hx, Option.getD_some]
  exact ⟨ps, _, hlen, Nicmem.readHistogram_read (buckets_counts h.entries) hps hlen
    (mapM_eq_some_map _ _ _ hnumber)⟩

/-- A histogram without packets fails the assertion on the number of percentiles. -/
theorem readHistogram_ne_read [Sorting] (hzero : h.total = 0) {fuel : Nat} (hfuel : 99 ≤ fuel)
    (s s' : TrexSamples F) : readHistogram fuel s h.obj ≠ .read s' := by
  intro hread
  have hweight := weight_counts h.entries
  obtain ⟨-, ps, -, -, hps, -, -, hnone⟩ := percentilesOf_spec h.measured_entries
    (by rw [hweight]; exact measures_counts h.few) h.entries_nonneg hfuel
  have hnone : ps = [] := hnone (by rw [hweight, ← total, hzero, Nat.cast_zero])
  simp only [readHistogram, obj, buckets_counts, hps, hnone, List.length_nil] at hread
  cases hread

end PacketHistogram

/-- There is no average to record, or there are packets. -/
def Recordable (lat : Obj F) : Prop :=
  (lat.item "latency").bind (·.item "average") = none ∨
    ∃ h : PacketHistogram F, (lat.item "latency").bind histogramOf = some h.obj ∧ 0 < h.total

theorem Recordable.atomic [Sorting] {lat : Obj F} (h : Recordable lat) {fuel : Nat}
    (hfuel : 99 ≤ fuel) (s : TrexSamples F) : (readLatency fuel s lat).Atomic s := by
  unfold readLatency
  rcases h with havg | ⟨h, hhist, hpos⟩
  · rw [havg]
    exact .inr ⟨rfl, rfl, rfl, rfl, rfl⟩
  · cases (lat.item "latency").bind (·.item "average") with
    | none => exact .inr ⟨rfl, rfl, rfl, rfl, rfl⟩
    | some avg =>
        obtain ⟨ps, xs, hlen, hread⟩ := h.readHistogram_read hpos hfuel
          { s with latAvg := s.latAvg ++ [avg] }
        simp only [hhist, hread]
        exact .inl (oneEach_recorded hlen)

/-- An entry with an average needs a histogram, and one with packets in it. -/
theorem recordable_of_atomic [Sorting] {s : TrexSamples F} {lat : Obj F} {fuel : Nat}
    (hfuel : 99 ≤ fuel)
    (hcounts : ∀ hist, (lat.item "latency").bind histogramOf = some hist →
      ∃ h : PacketHistogram F, hist = h.obj)
    (hatomic : (readLatency fuel s lat).Atomic s) : Recordable lat := by
  unfold readLatency at hatomic
  cases havg : (lat.item "latency").bind (·.item "average") with
  | none => exact .inl havg
  | some avg =>
      cases hhist : (lat.item "latency").bind histogramOf with
      | none =>
          simp only [havg, hhist] at hatomic
          rcases hatomic with hone | hnone
          · obtain ⟨x, hx⟩ := hone.latAvg2
            exact absurd hx (by simp)
          · exact absurd hnone.latAvg (by simp)
      | some hist =>
          obtain ⟨h, rfl⟩ := hcounts hist hhist
          simp only [havg, hhist] at hatomic
          obtain ⟨s', hread⟩ := read_of_atomic hatomic
          refine .inr ⟨h, hhist, Nat.pos_of_ne_zero fun hzero => ?_⟩
          exact h.readHistogram_ne_read hzero hfuel _ s' hread

end Packets

/-! ### Two packet groups -/

section Groups

open scoped Sorting.Insertion

/-- An entry of the latency dictionary with an average and one histogram. -/
def groupOf (hist : Obj Double) : Obj Double :=
  .dict [(.str "latency".toList, .dict [(.str "average".toList, .flt (PyFloat.lit 0)),
    (.str "histogram".toList, hist), (.str "histogram1us".toList, .dict []),
    (.str "histogram100ns".toList, .dict [])])]

/-- One packet in ten microseconds. -/
def onePacket : PacketHistogram Double where
  entries := [(.int 10, 1)]
  few := by decide
  numbers := by
    rintro e he -
    rw [List.mem_singleton.mp he]
    rfl

/-- A packet group of which no packet arrived: an average, and three empty histograms. -/
def noPackets : Obj Double := groupOf (.dict [])

end Groups

end Nicmem
