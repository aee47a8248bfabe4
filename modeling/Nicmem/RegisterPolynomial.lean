/-
What a linear feedback shift register computes.

A register is a polynomial over the field of two elements, the lowest bit being the
coefficient of the highest power.  A step multiplies by the variable, modulo the polynomial
of the taps.  So the digest of a message is the remainder of the message, moved up by the
width of the register, in a division of polynomials.
-/
import Nicmem.ShiftRegister
import Mathlib.Algebra.CharP.Two
import Mathlib.Algebra.Field.ZMod
import Mathlib.Algebra.Polynomial.Expand
import Mathlib.RingTheory.AdjoinRoot

namespace ShiftRegister

open Polynomial

noncomputable section

variable {w : Nat}

/-! ### Registers as polynomials -/

/-- The polynomial of a register. -/
def poly (c : BitVec w) : (ZMod 2)[X] :=
  ∑ i ∈ Finset.range w, if c.getLsbD i then X ^ (w - 1 - i) else 0

theorem poly_xor (a b : BitVec w) : poly (a ^^^ b) = poly a + poly b := by
  unfold poly
  rw [← Finset.sum_add_distrib]
  apply Finset.sum_congr rfl
  intro i _
  rw [BitVec.getLsbD_xor]
  cases a.getLsbD i with
  | false => simp
  | true =>
      cases b.getLsbD i with
      | false => simp
      | true => simp [CharTwo.add_self_eq_zero (X ^ (w - 1 - i) : (ZMod 2)[X])]

theorem degree_poly_lt (c : BitVec w) : (poly c).degree < w := by
  rw [← mem_degreeLT]
  apply Submodule.sum_mem
  intro i hi
  split
  · rw [mem_degreeLT, degree_X_pow]
    have hlt := Finset.mem_range.mp hi
    exact_mod_cast (by omega : w - 1 - i < w)
  · exact Submodule.zero_mem _

/-- A step moves the coefficients up; the one that falls out stands at the power `w`. -/
theorem X_mul_poly (c : BitVec w) :
    X * poly c = poly (c >>> 1) + if c.getLsbD 0 then X ^ w else 0 := by
  cases w with
  | zero => simp [poly]
  | succ n =>
      have hterm : ∀ i ∈ Finset.range (n + 1),
        (X * if c.getLsbD i then X ^ (n + 1 - 1 - i) else 0) =
          if c.getLsbD i then (X : (ZMod 2)[X]) ^ (n + 1 - i) else 0 := by
        intro i hi
        have hlt := Finset.mem_range.mp hi
        split
        · rw [← pow_succ', show n + 1 - 1 - i + 1 = n + 1 - i by omega]
        · exact mul_zero X
      unfold poly
      rw [Finset.mul_sum, Finset.sum_congr rfl hterm, Finset.sum_range_succ', Finset.sum_range_succ]
      simp [Nat.add_comm 1]

/-- The polynomial of the taps. -/
def generator (p : BitVec w) : (ZMod 2)[X] := X ^ w + poly p

theorem monic_generator (p : BitVec w) : (generator p).Monic := monic_X_pow_add (degree_poly_lt p)

theorem degree_generator (p : BitVec w) : (generator p).degree = w := by
  have hlt := degree_poly_lt p
  rw [← degree_X_pow (R := ZMod 2) w] at hlt
  rw [generator, degree_add_eq_left_of_degree_lt hlt, degree_X_pow]

variable (p : BitVec w)

theorem poly_feed (c : BitVec w) :
    poly (feed p c) = X * poly c + if c.getLsbD 0 then generator p else 0 := by
  unfold feed generator
  rw [X_mul_poly]
  cases c.getLsbD 0 with
  | false => simp
  | true =>
      have hchar : (X ^ w + X ^ w : (ZMod 2)[X]) = 0 := CharTwo.add_self_eq_zero _
      calc poly (c >>> 1 ^^^ p) = poly (c >>> 1) + poly p := poly_xor _ _
        _ = poly (c >>> 1) + (X ^ w + X ^ w) + poly p := by rw [hchar, add_zero]
        _ = poly (c >>> 1) + X ^ w + (X ^ w + poly p) := by ring

/-! ### Digests -/

/-- Steps multiply by the variable, modulo the polynomial of the taps. -/
theorem mk_poly_feeds (n : Nat) : ∀ c : BitVec w,
    AdjoinRoot.mk (generator p) (poly (feeds p n c)) =
      AdjoinRoot.mk (generator p) (X ^ n * poly c) := by
  induction n with
  | zero =>
      intro c
      simp [feeds]
  | succ n ih =>
      intro c
      have hfeed : AdjoinRoot.mk (generator p) (poly (feed p c)) =
          AdjoinRoot.mk (generator p) (X * poly c) := by
        rw [poly_feed, map_add]
        split
        · rw [AdjoinRoot.mk_self, add_zero]
        · rw [map_zero, add_zero]
      rw [feeds_succ, ih, map_mul, hfeed, ← map_mul, ← mul_assoc, ← pow_succ]

/-- The polynomial of a message in pieces of `k` bits, the first one with the highest
powers. -/
def message {k : Nat} (pieces : List (BitVec k)) : (ZMod 2)[X] :=
  pieces.foldl (fun m b => m * X ^ k + poly b) 0

theorem poly_setWidth {k : Nat} (hk : k ≤ w) (b : BitVec k) :
    poly (b.setWidth w) = poly b * X ^ (w - k) := by
  unfold poly
  rw [Finset.sum_mul, ← Finset.sum_subset (Finset.range_mono hk)]
  · apply Finset.sum_congr rfl
    intro i hi
    have hlt := Finset.mem_range.mp hi
    simp only [BitVec.getLsbD_setWidth, ite_mul, zero_mul, ← pow_add]
    rw [show k - 1 - i + (w - k) = w - 1 - i by omega, decide_eq_true (by omega : i < w),
      Bool.true_and]
  · intro i _ hi
    rw [Finset.mem_range, not_lt] at hi
    simp [BitVec.getLsbD_of_ge b i hi]

/-- The digest of a message follows its polynomial, moved up by the width. -/
theorem mk_poly_digest {k : Nat} (hk : k ≤ w) (pieces : List (BitVec k)) :
    ∀ (c : BitVec w) (m : (ZMod 2)[X]),
      AdjoinRoot.mk (generator p) (poly c) = AdjoinRoot.mk (generator p) (m * X ^ w) →
        AdjoinRoot.mk (generator p) (poly (digest p c pieces)) =
          AdjoinRoot.mk (generator p) (pieces.foldl (fun m b => m * X ^ k + poly b) m * X ^ w) := by
  induction pieces with
  | nil =>
      intro c m h
      exact h
  | cons b pieces ih =>
      intro c m h
      apply ih (absorb p c b) (m * X ^ k + poly b)
      have hpow : (X : (ZMod 2)[X]) ^ k * X ^ (w - k) = X ^ w := by
        rw [← pow_add, Nat.add_sub_cancel' hk]
      calc AdjoinRoot.mk (generator p) (poly (absorb p c b))
          = AdjoinRoot.mk (generator p) (X ^ k * (poly c + poly b * X ^ (w - k))) := by
            rw [absorb, mk_poly_feeds, poly_xor, poly_setWidth hk]
        _ = AdjoinRoot.mk (generator p) (X ^ k) * AdjoinRoot.mk (generator p) (poly c) +
              AdjoinRoot.mk (generator p) (poly b * (X ^ k * X ^ (w - k))) := by
            rw [← map_mul, ← map_add]
            exact congrArg _ (by ring)
        _ = AdjoinRoot.mk (generator p) ((m * X ^ k + poly b) * X ^ w) := by
            rw [h, hpow, ← map_mul, ← map_add]
            exact congrArg _ (by ring)

/-- The digest of a message is a remainder. -/
theorem poly_digest {k : Nat} (hk : k ≤ w) (pieces : List (BitVec k)) :
    poly (digest p 0 pieces) = (message pieces * X ^ w) %ₘ generator p := by
  have hmk := mk_poly_digest p hk pieces 0 0 (by simp [poly])
  rw [AdjoinRoot.mk_eq_mk] at hmk
  have hself : poly (digest p 0 pieces) %ₘ generator p = poly (digest p 0 pieces) := by
    rw [modByMonic_eq_self_iff (monic_generator p), degree_generator]
    exact degree_poly_lt _
  rw [← hself]
  exact modByMonic_eq_of_dvd_sub (monic_generator p) hmk

end

end ShiftRegister
