/-
Numbers of fifty-three binary digits, and what rounding to them does.

The numbers of the format are the `m * 2 ^ e` with a whole `m` below `2 ^ 53` and an
exponent from -1074 to 971.  `Nearest q r` says that no number of the format is closer to
`q` than `r` is; how ties are broken is left open, and nothing below needs it.  Three facts
about such an `r` are all that arithmetic on the format is judged by: a number of the format
is its own rounding, rounding never jumps over a number of the format, and below the limit
of the format the error is at most one part in `2 ^ 53`, or `2 ^ -1075` where the numbers
are at their closest.

`nearest` computes one, with ties to the even side.  The lattice it rounds to has the
spacing of the numbers around `q`; a number of the format with a smaller exponent is not on
that lattice, but it lies on the other side of the power of two that bounds `q` from below,
and that power is.
-/
import Mathlib.Algebra.Order.Field.Rat
import Mathlib.Algebra.Order.Round
import Mathlib.Data.Int.Log
import Mathlib.Data.Rat.Floor
import Mathlib.Tactic.FieldSimp
import Mathlib.Tactic.GCongr
import Mathlib.Tactic.Linarith
import Mathlib.Tactic.NormNum
import Mathlib.Tactic.Positivity
import Mathlib.Tactic.Ring

namespace Binary64

/-! ### The numbers of the format -/

/-- A number of the format. -/
def Representable (q : ℚ) : Prop :=
  ∃ m e : ℤ, |m| < 2 ^ 53 ∧ -1074 ≤ e ∧ e ≤ 971 ∧ q = m * (2 : ℚ) ^ e

/-- From here on a magnitude is rounded to an infinity. -/
def limit : ℚ := 2 ^ 1024 - 2 ^ 970

/-- One part in `2 ^ 53`, the relative error of rounding. -/
def unit : ℚ := 1 / 2 ^ 53

/-- The absolute error where the numbers of the format are closest. -/
def tiny : ℚ := (2 : ℚ) ^ (-1075 : ℤ)

theorem unit_pos : 0 < unit := by norm_num [unit]

theorem two_zpow_pos (e : ℤ) : (0 : ℚ) < 2 ^ e := zpow_pos (by norm_num) e

theorem tiny_pos : 0 < tiny := two_zpow_pos _

/-- Twice the absolute error is the least positive number of the format. -/
theorem two_mul_tiny : 2 * tiny = (2 : ℚ) ^ (-1074 : ℤ) := by
  rw [tiny, mul_comm, ← zpow_add_one₀ (by norm_num)]
  norm_num only

theorem representable_of_zpow {m e : ℤ} (hm : |m| ≤ 2 ^ 53) (he : -1074 ≤ e) (he' : e ≤ 970) :
    Representable (m * (2 : ℚ) ^ e) := by
  rcases lt_or_eq_of_le hm with hlt | heq
  · exact ⟨m, e, hlt, he, by omega, rfl⟩
  · -- the one case that needs the next exponent
    have hpow : (2 : ℚ) ^ (e + 1) = 2 ^ e * 2 := zpow_add_one₀ (by norm_num) e
    rcases (abs_eq (by norm_num)).mp heq with rfl | rfl
    · refine ⟨2 ^ 52, e + 1, by norm_num, by omega, by omega, ?_⟩
      rw [hpow]
      push_cast
      ring
    · refine ⟨-2 ^ 52, e + 1, by norm_num, by omega, by omega, ?_⟩
      rw [hpow]
      push_cast
      ring

/-- Whole numbers up to `2 ^ 53` are numbers of the format. -/
theorem representable_int {n : ℤ} (h : |n| ≤ 2 ^ 53) : Representable n := by
  have hrep := representable_of_zpow h (e := 0) (by norm_num) (by norm_num)
  rwa [zpow_zero, mul_one] at hrep

theorem representable_nat {n : ℕ} (h : n ≤ 2 ^ 53) : Representable n := by
  have hrep := representable_int (n := n) (by rw [Nat.abs_cast]; exact_mod_cast h)
  exact_mod_cast hrep

theorem Representable.neg {q : ℚ} (h : Representable q) : Representable (-q) := by
  obtain ⟨m, e, hm, he, he', rfl⟩ := h
  refine ⟨-m, e, by rwa [abs_neg], he, he', ?_⟩
  push_cast
  ring

theorem two_pow_lt_limit {k : ℕ} (hk : k ≤ 1023) : (2 : ℚ) ^ k < limit := by
  refine (pow_le_pow_right₀ (by norm_num) hk).trans_lt ?_
  have hpow : (1 : ℚ) ≤ 2 ^ 970 := one_le_pow₀ (by norm_num)
  rw [limit, show 1024 = 970 + 54 from rfl, show 1023 = 970 + 53 from rfl, pow_add, pow_add]
  generalize (2 : ℚ) ^ 970 = x at hpow
  norm_num
  linarith

theorem Representable.abs_lt_limit {q : ℚ} (h : Representable q) : |q| < limit := by
  obtain ⟨m, e, hm, -, he, rfl⟩ := h
  have hm' : |(m : ℚ)| ≤ 2 ^ 53 - 1 := by
    have hle : |m| ≤ 2 ^ 53 - 1 := by omega
    rw [← Int.cast_abs]
    exact_mod_cast hle
  have hpow : (2 : ℚ) ^ e ≤ 2 ^ 970 * 2 := by
    rw [← pow_succ, ← zpow_natCast]
    exact zpow_le_zpow_right₀ (by norm_num) (by exact_mod_cast he)
  have hpos : (0 : ℚ) < 2 ^ 970 := pow_pos (by norm_num) _
  rw [abs_mul, abs_of_pos (two_zpow_pos e), limit, show 1024 = 970 + 54 from rfl, pow_add]
  calc |(m : ℚ)| * 2 ^ e ≤ (2 ^ 53 - 1) * (2 ^ 970 * 2) :=
        mul_le_mul hm' hpow (two_zpow_pos e).le (by norm_num)
    _ < 2 ^ 970 * 2 ^ 54 - 2 ^ 970 := by
        generalize (2 : ℚ) ^ 970 = b at hpos
        linarith

/-- A number of the format is a multiple of the least one. -/
theorem Representable.multiple {q : ℚ} (h : Representable q) :
    ∃ k : ℤ, q = k * (2 : ℚ) ^ (-1074 : ℤ) := by
  obtain ⟨m, e, -, he, -, rfl⟩ := h
  refine ⟨m * 2 ^ (e + 1074).toNat, ?_⟩
  have hsplit : (2 : ℚ) ^ e = 2 ^ (e + 1074).toNat * 2 ^ (-1074 : ℤ) := by
    rw [← zpow_natCast, Int.toNat_of_nonneg (by omega), ← zpow_add₀ (by norm_num)]
    congr 1
    omega
  rw [hsplit, Int.cast_mul, Int.cast_pow, Int.cast_ofNat, mul_assoc]

/-! ### Rounding -/

/-- No number of the format is closer to `q` than `r`, which is one itself. -/
structure Nearest (q r : ℚ) : Prop where
  representable : Representable r
  closest : ∀ d, Representable d → |q - r| ≤ |q - d|

namespace Nearest

variable {q r d : ℚ}

/-- A number of the format is its own rounding. -/
theorem eq_of_representable (h : Nearest q r) (hq : Representable q) : r = q := by
  have hle := h.closest q hq
  rw [sub_self, abs_zero] at hle
  exact (sub_eq_zero.mp (abs_eq_zero.mp (le_antisymm hle (abs_nonneg _)))).symm

/-- Rounding does not jump over a number of the format. -/
theorem le_of_le (h : Nearest q r) (hd : Representable d) (hle : d ≤ q) : d ≤ r := by
  by_contra hlt
  rw [not_le] at hlt
  have hclose := h.closest d hd
  rw [abs_of_nonneg (by linarith), abs_of_nonneg (by linarith)] at hclose
  linarith

theorem le_of_ge (h : Nearest q r) (hd : Representable d) (hle : q ≤ d) : r ≤ d := by
  by_contra hlt
  rw [not_le] at hlt
  have hclose := h.closest d hd
  rw [abs_sub_comm q, abs_sub_comm q, abs_of_nonneg (by linarith), abs_of_nonneg (by linarith)]
    at hclose
  linarith

theorem neg (h : Nearest q r) : Nearest (-q) (-r) where
  representable := h.representable.neg
  closest d hd := by
    have hclose := h.closest (-d) hd.neg
    rwa [show -q - -r = -(q - r) by ring, abs_neg, show -q - d = -(q - -d) by ring, abs_neg]

end Nearest

/-! ### Computing it -/

/-- The nearest whole number, half to even. -/
def roundEven (q : ℚ) : ℤ :=
  let f := ⌊q⌋
  if q - f < 1 / 2 then f else if 1 / 2 < q - f then f + 1 else f + f % 2

theorem abs_sub_roundEven_le (q : ℚ) : |q - roundEven q| ≤ 1 / 2 := by
  have hlow := Int.floor_le q
  have hhigh := Int.lt_floor_add_one q
  unfold roundEven
  dsimp only
  split
  · rw [abs_le]
    constructor <;> linarith
  · split
    · push_cast
      rw [abs_le]
      constructor <;> linarith
    · rcases Int.emod_two_eq_zero_or_one ⌊q⌋ with hmod | hmod
      · rw [hmod, add_zero, abs_le]
        constructor <;> linarith
      · rw [hmod]
        push_cast
        rw [abs_le]
        constructor <;> linarith

/-- No whole number is closer. -/
theorem abs_sub_roundEven_le_abs_sub (q : ℚ) (k : ℤ) : |q - roundEven q| ≤ |q - k| := by
  by_cases hk : roundEven q = k
  · rw [hk]
  have hdist : (1 : ℚ) ≤ |(k : ℚ) - roundEven q| := by
    exact_mod_cast Int.one_le_abs (sub_ne_zero.mpr fun h => hk h.symm)
  have htri := abs_sub_le (k : ℚ) q (roundEven q)
  have hhalf := abs_sub_roundEven_le q
  rw [abs_sub_comm (k : ℚ) q] at htri
  linarith

/-- The exponent of the spacing of the format around a number. -/
def spacing (q : ℚ) : ℤ := max (Int.log 2 |q| - 52) (-1074)

/-- A nearest number of the format, half to even. -/
def nearest (q : ℚ) : ℚ := roundEven (q / 2 ^ spacing q) * 2 ^ spacing q

theorem nearest_zero : nearest 0 = 0 := by
  simp [nearest, roundEven]

/-- A number is less than `2 ^ 53` spacings. -/
theorem abs_lt_spacings (q : ℚ) : |q| < 2 ^ (spacing q + 53) := by
  refine (Int.lt_zpow_succ_log_self (b := 2) (by norm_num) |q|).trans_le ?_
  exact zpow_le_zpow_right₀ (by norm_num) (by unfold spacing; omega)

theorem abs_sub_nearest_le (q : ℚ) : |q - nearest q| ≤ 2 ^ spacing q / 2 := by
  have hpos := two_zpow_pos (spacing q)
  have hhalf := abs_sub_roundEven_le (q / 2 ^ spacing q)
  have hscale : q - nearest q =
      (q / 2 ^ spacing q - roundEven (q / 2 ^ spacing q)) * 2 ^ spacing q := by
    rw [nearest]
    field_simp
  rw [hscale, abs_mul, abs_of_pos hpos]
  calc _ ≤ 1 / 2 * (2 : ℚ) ^ spacing q := mul_le_mul_of_nonneg_right hhalf hpos.le
    _ = 2 ^ spacing q / 2 := by ring

/-- Nothing on the lattice is closer. -/
theorem abs_sub_nearest_le_lattice (q : ℚ) (k : ℤ) :
    |q - nearest q| ≤ |q - k * 2 ^ spacing q| := by
  have hpos := two_zpow_pos (spacing q)
  have hclose := abs_sub_roundEven_le_abs_sub (q / 2 ^ spacing q) k
  have hscale : ∀ j : ℤ, q - j * (2 : ℚ) ^ spacing q = (q / 2 ^ spacing q - j) * 2 ^ spacing q := by
    intro j
    field_simp
  rw [nearest, hscale, hscale, abs_mul, abs_mul, abs_of_pos hpos]
  exact mul_le_mul_of_nonneg_right hclose hpos.le

/-- The spacing of a number within the format is one of its exponents. -/
theorem spacing_le {q : ℚ} (h : |q| < limit) : spacing q ≤ 971 := by
  by_cases hq : q = 0
  · rw [hq, spacing, abs_zero, Int.log_zero_right]
    norm_num
  · have hlog : Int.log 2 |q| < 1024 := by
      rw [← Int.lt_zpow_iff_log_lt (by norm_num) (abs_pos.mpr hq)]
      refine h.trans_le ?_
      norm_num [limit]
    unfold spacing
    omega

theorem representable_nearest {q : ℚ} (h : |q| < limit) : Representable (nearest q) := by
  have hpos := two_zpow_pos (spacing q)
  have hlow : -1074 ≤ spacing q := le_max_right _ _
  have hhigh := spacing_le h
  have hdist := abs_sub_nearest_le q
  have hbound :
      |(roundEven (q / 2 ^ spacing q) : ℚ)| * 2 ^ spacing q ≤ |q| + 2 ^ spacing q / 2 := by
    have htri := abs_sub_abs_le_abs_sub (nearest q) q
    rw [abs_sub_comm] at htri
    rw [← abs_of_pos hpos, ← abs_mul, abs_of_pos hpos]
    change |nearest q| ≤ _
    linarith
  by_cases htop : spacing q = 971
  · -- the last exponent: below the limit the whole number does not reach `2 ^ 53`
    refine ⟨roundEven (q / 2 ^ spacing q), spacing q, ?_, hlow, hhigh, rfl⟩
    have hlt : |(roundEven (q / 2 ^ spacing q) : ℚ)| * 2 ^ spacing q < 2 ^ 53 * 2 ^ spacing q := by
      have hlim : limit + (2 : ℚ) ^ (971 : ℤ) / 2 = 2 ^ 53 * 2 ^ (971 : ℤ) := by
        rw [limit, zpow_ofNat, show 1024 = 53 + 971 from rfl, pow_add, pow_succ (2 : ℚ) 970]
        generalize (2 : ℚ) ^ 970 = x
        ring
      rw [htop] at hbound ⊢
      linarith
    have hlt' := lt_of_mul_lt_mul_right hlt hpos.le
    exact_mod_cast hlt'
  · refine representable_of_zpow ?_ hlow (by omega)
    have hlt : |(roundEven (q / 2 ^ spacing q) : ℚ)| * 2 ^ spacing q
        < (2 ^ 53 + 1) * 2 ^ spacing q := by
      have hq := abs_lt_spacings q
      rw [zpow_add₀ (by norm_num)] at hq
      have hcast : (2 : ℚ) ^ (53 : ℤ) = 2 ^ 53 := by norm_num
      rw [hcast] at hq
      linarith
    have hlt' : |(roundEven (q / 2 ^ spacing q) : ℚ)| < 2 ^ 53 + 1 :=
      lt_of_mul_lt_mul_right hlt hpos.le
    have hlt'' : |roundEven (q / 2 ^ spacing q)| < 2 ^ 53 + 1 := by exact_mod_cast hlt'
    omega

/-- A number of the format with an exponent below the spacing is less than `2 ^ 52` spacings. -/
theorem abs_lt_of_exponent_lt {m e u : ℤ} (hm : |m| < 2 ^ 53) (he : e < u) :
    |(m : ℚ) * 2 ^ e| < 2 ^ (u + 52) := by
  have hm' : |(m : ℚ)| < 2 ^ (53 : ℤ) := by exact_mod_cast hm
  rw [abs_mul, abs_of_pos (two_zpow_pos e)]
  calc |(m : ℚ)| * 2 ^ e < 2 ^ (53 : ℤ) * 2 ^ e := mul_lt_mul_of_pos_right hm' (two_zpow_pos e)
    _ = 2 ^ (53 + e) := (zpow_add₀ (by norm_num) _ _).symm
    _ ≤ 2 ^ (u + 52) := zpow_le_zpow_right₀ (by norm_num) (by omega)

theorem nearest_closest (q d : ℚ) (hd : Representable d) : |q - nearest q| ≤ |q - d| := by
  obtain ⟨m, e, hm, he, -, rfl⟩ := hd
  by_cases hzero : q = 0
  · rw [hzero, nearest_zero, sub_self, abs_zero]
    exact abs_nonneg _
  by_cases hcoarse : spacing q ≤ e
  · -- on the lattice
    have hsplit : (m : ℚ) * 2 ^ e = (m * 2 ^ (e - spacing q).toNat : ℤ) * 2 ^ spacing q := by
      have hpow : (2 : ℚ) ^ e = 2 ^ (e - spacing q).toNat * 2 ^ spacing q := by
        rw [← zpow_natCast, Int.toNat_of_nonneg (by omega), ← zpow_add₀ (by norm_num)]
        congr 1
        omega
      rw [hpow]
      push_cast
      ring
    rw [hsplit]
    exact abs_sub_nearest_le_lattice q _
  · -- beyond the power of two below `q`, which is on the lattice
    rw [not_le] at hcoarse
    have hlog : spacing q = Int.log 2 |q| - 52 := by
      unfold spacing at hcoarse ⊢
      omega
    have hpow : (2 : ℚ) ^ (spacing q + 52) ≤ |q| := by
      have hle := Int.zpow_log_le_self (b := 2) (by norm_num) (abs_pos.mpr hzero)
      rwa [show Int.log 2 |q| = spacing q + 52 by omega] at hle
    have hfine := abs_lt_of_exponent_lt hm hcoarse
    have hlattice : (2 : ℚ) ^ (spacing q + 52) = (2 ^ 52 : ℤ) * 2 ^ spacing q := by
      rw [zpow_add₀ (by norm_num), mul_comm]
      push_cast
      norm_num
    rw [abs_lt] at hfine
    rcases le_or_gt 0 q with hpos | hneg
    · rw [abs_of_nonneg hpos] at hpow
      have hclose := abs_sub_nearest_le_lattice q (2 ^ 52)
      rw [← hlattice, abs_of_nonneg (by linarith : 0 ≤ q - 2 ^ (spacing q + 52))] at hclose
      rw [abs_of_nonneg (by linarith : 0 ≤ q - m * 2 ^ e)]
      linarith
    · rw [abs_of_neg hneg] at hpow
      have hclose := abs_sub_nearest_le_lattice q (-2 ^ 52)
      rw [Int.cast_neg, neg_mul, ← hlattice,
        abs_of_nonpos (by linarith : q - -2 ^ (spacing q + 52) ≤ 0)] at hclose
      rw [abs_of_nonpos (by linarith : q - m * 2 ^ e ≤ 0)]
      linarith

/-- **The computed number is a nearest one.** -/
theorem nearest_spec {q : ℚ} (h : |q| < limit) : Nearest q (nearest q) :=
  ⟨representable_nearest h, nearest_closest q⟩

/-! ### The error -/

theorem half_spacing_le {q : ℚ} (hq : q ≠ 0) :
    (2 : ℚ) ^ spacing q / 2 ≤ max (|q| * unit) tiny := by
  by_cases hsub : spacing q = -1074
  · refine le_max_of_le_right ?_
    rw [hsub, ← two_mul_tiny]
    linarith
  · have hlog : spacing q = Int.log 2 |q| - 52 := by
      unfold spacing at hsub ⊢
      omega
    refine le_max_of_le_left ?_
    have hle := Int.zpow_log_le_self (b := 2) (by norm_num) (abs_pos.mpr hq)
    have hsplit : ((2 : ℕ) : ℚ) ^ Int.log 2 |q| = 2 ^ spacing q * 2 ^ 52 := by
      rw [hlog, zpow_sub₀ (by norm_num)]
      norm_num
    rw [hsplit] at hle
    rw [unit]
    linarith

/-- The error of rounding, wherever a result is finite. -/
theorem Nearest.error {q r : ℚ} (h : Nearest q r) (hq : |q| < limit) :
    |q - r| ≤ max (|q| * unit) tiny := by
  by_cases hzero : q = 0
  · rw [h.eq_of_representable (hzero ▸ representable_int (n := 0) (by norm_num)), sub_self,
      abs_zero]
    exact le_max_of_le_right tiny_pos.le
  · exact (h.closest _ (representable_nearest hq)).trans
      ((abs_sub_nearest_le q).trans (half_spacing_le hzero))

/-- Sums that are small are numbers of the format themselves. -/
theorem representable_add {p q : ℚ} (hp : Representable p) (hq : Representable q)
    (hsmall : |p + q| * unit ≤ tiny) : Representable (p + q) := by
  obtain ⟨j, hj⟩ := hp.multiple
  obtain ⟨k, hk⟩ := hq.multiple
  have hsum : p + q = ((j + k : ℤ) : ℚ) * 2 ^ (-1074 : ℤ) := by
    rw [hj, hk, Int.cast_add, add_mul]
  rw [hsum]
  refine representable_of_zpow ?_ (le_refl _) (by norm_num)
  have hpos := two_zpow_pos (-1074)
  have htiny := two_mul_tiny
  rw [hsum, abs_mul, abs_of_pos hpos, unit] at hsmall
  have hle : |((j + k : ℤ) : ℚ)| * 2 ^ (-1074 : ℤ) ≤ 2 ^ 52 * 2 ^ (-1074 : ℤ) := by linarith
  have hle' : |((j + k : ℤ) : ℚ)| ≤ 2 ^ 52 := le_of_mul_le_mul_right hle hpos
  have hle'' : |j + k| ≤ 2 ^ 52 := by exact_mod_cast hle'
  omega

/-- A rounded sum of two numbers of the format has a relative error only. -/
theorem Nearest.error_add {p q r : ℚ} (hp : Representable p) (hq : Representable q)
    (h : Nearest (p + q) r) (hlim : |p + q| < limit) : |p + q - r| ≤ |p + q| * unit := by
  rcases le_total (|p + q| * unit) tiny with hsmall | hlarge
  · rw [h.eq_of_representable (representable_add hp hq hsmall), sub_self, abs_zero]
    exact mul_nonneg (abs_nonneg _) unit_pos.le
  · have herr := h.error hlim
    rwa [max_eq_left hlarge] at herr

end Binary64
