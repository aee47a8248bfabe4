/-
Floating-point numbers that round.

`IeeeFloat` says of a floating-point type what IEEE 754 says of doubles: every operation is
the exact one, rounded to a nearest number of the format, with an infinity from the limit of
the format on, and comparisons are those of the exact numbers.  `np.average` adds the
samples in an order and a grouping of its own, which is left open, and divides by their
number.

Two consequences carry the properties that are about values.  Whole numbers below `2 ^ 53`
are computed with exactly, and the quotient of two of them, though rounded, still compares
to a whole number as it should.  And a mean is off by a number of roundings that the number
of samples bounds, whatever the order they are added in.
-/
import Mathlib.Algebra.BigOperators.Ring.List
import Mathlib.Algebra.Order.BigOperators.Group.List
import Nicmem.Binary64
import Nicmem.Python.Exact

namespace Python

open Binary64

/-- The second number is the first, rounded. -/
inductive Rounded : Exact → Exact → Prop
  | nan : Rounded .nan .nan
  | inf (neg : Bool) : Rounded (.inf neg) (.inf neg)
  | near {q r : ℚ} (hlim : |q| < limit) (h : Nearest q r) : Rounded (.fin q) (.fin r)
  | beyond {q : ℚ} (hlim : limit ≤ |q|) : Rounded (.fin q) (.inf (decide (q < 0)))

/-- The numbers of a list added up in some order and grouping, from zero or from the first. -/
inductive Summed {F : Type} [PyFloat F] : List F → F → Prop
  | one (x : F) : Summed [x] x
  | zero {l : List F} {s : F} (h : Summed l s) : Summed l (PyFloat.add (PyFloat.lit 0) s)
  | add {l l' : List F} {s s' : F} (h : Summed l s) (h' : Summed l' s') :
      Summed (l ++ l') (PyFloat.add s s')
  | perm {l l' : List F} {s : F} (hperm : l.Perm l') (h : Summed l s) : Summed l' s

/-- Floating-point numbers whose operations are the exact ones, rounded. -/
class IeeeFloat (F : Type) extends PyFloat F where
  /-- The number a float stands for; the two zeros stand for the same. -/
  exact : F → Exact
  representable : ∀ {x q}, exact x = .fin q → Representable q
  lt_eq : ∀ x y, lt x y = Exact.lt (exact x) (exact y)
  le_eq : ∀ x y, le x y = Exact.le (exact x) (exact y)
  trunc_eq : ∀ x, trunc x = Exact.trunc (exact x)
  lit_rounded : ∀ q, Rounded (.fin q) (exact (lit q))
  add_rounded : ∀ x y, Rounded (Exact.add (exact x) (exact y)) (exact (add x y))
  mul_rounded : ∀ x y, Rounded (Exact.mul (exact x) (exact y)) (exact (mul x y))
  div_rounded : ∀ x y, exact y ≠ .fin 0 →
    Rounded (Exact.div (exact x) (exact y)) (exact (div x y))
  average_summed : ∀ l, l ≠ [] → ∃ s, Summed l s ∧ average l = div s (lit l.length)

/-! ### Whole numbers -/

theorem Summed.ne_nil {F : Type} [PyFloat F] {l : List F} {s : F} (h : Summed l s) : l ≠ [] := by
  induction h with
  | one x => exact List.cons_ne_nil x []
  | zero _ ih => exact ih
  | add _ _ ih _ => exact List.append_ne_nil_of_left_ne_nil ih _
  | perm hperm _ ih => exact fun hnil => ih (hnil ▸ hperm).eq_nil

theorem Rounded.eq_nan {y : Exact} (h : Rounded .nan y) : y = .nan := by
  cases h
  rfl

theorem Rounded.of_representable {q : ℚ} {y : Exact} (h : Rounded (.fin q) y)
    (hq : Representable q) : y = .fin q := by
  cases h with
  | near _ hr => rw [hr.eq_of_representable hq]
  | beyond hlim => exact absurd hlim (not_le.mpr hq.abs_lt_limit)

theorem Rounded.nat {n : ℕ} {y : Exact} (h : Rounded (.fin n) y) (hn : n ≤ 2 ^ 53) :
    y = .fin n := by
  cases h with
  | near _ hr => rw [hr.eq_of_representable (representable_nat hn)]
  | beyond hlim =>
      have hcast : (n : ℚ) ≤ 2 ^ 53 := by exact_mod_cast hn
      rw [abs_of_nonneg (Nat.cast_nonneg n)] at hlim
      exact absurd (hlim.trans hcast) (not_le.mpr (two_pow_lt_limit (by norm_num)))

theorem Rounded.fin {q : ℚ} {y : Exact} (h : Rounded (.fin q) y) (hq : |q| < limit) :
    ∃ r, y = .fin r ∧ Nearest q r := by
  cases h with
  | near _ hr => exact ⟨_, rfl, hr⟩
  | beyond hlim => exact absurd hlim (not_le.mpr hq)

/-- The error of a quotient of whole numbers is less than its distance to the next whole number. -/
theorem nearest_div_error {p n : ℕ} {r : ℚ} (hp : p < 2 ^ 53) (hn : 0 < n) (hn' : n ≤ 2 ^ 53)
    (h : Nearest ((p : ℚ) / n) r) : |(p : ℚ) / n - r| < 1 / n := by
  have hnpos : (0 : ℚ) < n := by exact_mod_cast hn
  have hp' : (p : ℚ) < 2 ^ 53 := by exact_mod_cast hp
  have hquot : (0 : ℚ) ≤ (p : ℚ) / n := by positivity
  have hlim : |(p : ℚ) / n| < limit := by
    rw [abs_of_nonneg hquot, div_lt_iff₀ hnpos]
    have hone : (1 : ℚ) ≤ n := by exact_mod_cast hn
    have hlim0 : 0 < limit := lt_trans (by norm_num) (two_pow_lt_limit (k := 53) (by norm_num))
    nlinarith [two_pow_lt_limit (k := 53) (by norm_num)]
  refine (h.error hlim).trans_lt (max_lt ?_ ?_)
  · rw [abs_of_nonneg hquot, unit, div_mul_eq_mul_div, div_lt_div_iff_of_pos_right hnpos]
    rw [mul_one_div, div_lt_one (by norm_num)]
    exact hp'
  · have hcast : (n : ℚ) ≤ 2 ^ 53 := by exact_mod_cast hn'
    have htiny : tiny < 1 / 2 ^ 53 := by
      have hpow : (2 : ℚ) ^ (-1075 : ℤ) < 2 ^ (-53 : ℤ) :=
        zpow_lt_zpow_right₀ (by norm_num) (by norm_num)
      rw [tiny]
      exact hpow.trans_le (by norm_num)
    exact htiny.trans_le (one_div_le_one_div_of_le hnpos hcast)

/-- A rounded quotient of whole numbers compares to a whole number as the quotient does. -/
theorem nearest_div_iff {p n c : ℕ} {r : ℚ} (hp : p < 2 ^ 53) (hn : 0 < n) (hn' : n ≤ 2 ^ 53)
    (hc : c ≤ 2 ^ 53) (h : Nearest ((p : ℚ) / n) r) :
    (r ≤ c ↔ p ≤ n * c) ∧ ((c : ℚ) ≤ r ↔ n * c ≤ p) := by
  have hnpos : (0 : ℚ) < n := by exact_mod_cast hn
  have hrep : Representable (c : ℚ) := representable_nat hc
  have herr := nearest_div_error hp hn hn' h
  rw [abs_lt] at herr
  constructor
  · constructor
    · intro hle
      by_contra hlt
      have hnat : n * c + 1 ≤ p := by omega
      have hcast : (n : ℚ) * c + 1 ≤ p := by exact_mod_cast hnat
      have hquo : (c : ℚ) + 1 / n ≤ (p : ℚ) / n := by
        rw [le_div_iff₀ hnpos, add_mul, one_div, inv_mul_cancel₀ hnpos.ne', mul_comm]
        exact hcast
      linarith
    · intro hle
      refine h.le_of_ge hrep ?_
      rw [div_le_iff₀ hnpos, mul_comm]
      exact_mod_cast hle
  · constructor
    · intro hle
      by_contra hlt
      have hnat : p + 1 ≤ n * c := by omega
      have hcast : (p : ℚ) + 1 ≤ n * c := by exact_mod_cast hnat
      have hquo : (p : ℚ) / n + 1 / n ≤ c := by
        rw [← add_div, div_le_iff₀ hnpos, mul_comm]
        exact hcast
      linarith
    · intro hle
      refine h.le_of_le hrep ?_
      rw [le_div_iff₀ hnpos, mul_comm]
      exact_mod_cast hle

namespace IeeeFloat

variable {F : Type} [IeeeFloat F] {x y : F}

theorem exact_lit_nat {n : ℕ} (hn : n ≤ 2 ^ 53) : exact (PyFloat.lit n : F) = .fin n :=
  (lit_rounded (n : ℚ)).nat hn

theorem exact_add_nat {m n : ℕ} (hx : exact x = .fin m) (hy : exact y = .fin n)
    (h : m + n ≤ 2 ^ 53) : exact (PyFloat.add x y) = .fin (m + n : ℕ) := by
  have hadd := add_rounded x y
  rw [hx, hy, Exact.add, ← Nat.cast_add] at hadd
  exact hadd.nat h

theorem exact_mul_nat {m n : ℕ} (hx : exact x = .fin m) (hy : exact y = .fin n)
    (h : m * n ≤ 2 ^ 53) : exact (PyFloat.mul x y) = .fin (m * n : ℕ) := by
  have hmul := mul_rounded x y
  rw [hx, hy, Exact.mul, ← Nat.cast_mul] at hmul
  exact hmul.nat h

/-- The quotient of two whole numbers is one rounding away. -/
theorem exact_div_nat {p n : ℕ} (hx : exact x = .fin p) (hy : exact y = .fin n) (hp : p ≤ 2 ^ 53)
    (hn : 0 < n) : ∃ r, exact (PyFloat.div x y) = .fin r ∧ Nearest ((p : ℚ) / n) r := by
  have hnpos : (0 : ℚ) < n := by exact_mod_cast hn
  have hdiv := div_rounded x y (by rw [hy, Ne, Exact.fin.injEq]; exact hnpos.ne')
  rw [hx, hy, Exact.div, if_neg hnpos.ne'] at hdiv
  refine hdiv.fin ?_
  have hp' : (p : ℚ) ≤ 2 ^ 53 := by exact_mod_cast hp
  have hone : (1 : ℚ) ≤ n := by exact_mod_cast hn
  rw [abs_of_nonneg (by positivity)]
  exact ((div_le_self (Nat.cast_nonneg p) hone).trans hp').trans_lt (two_pow_lt_limit (by norm_num))

/-- Whole numbers whose total is below `2 ^ 53` are added up exactly, in any order. -/
theorem exact_summed_nat {l : List F} {s : F} (h : Summed l s) :
    ∀ {ns : List ℕ}, List.Forall₂ (fun x n => exact x = .fin (n : ℕ)) l ns → ns.sum ≤ 2 ^ 53 →
      exact s = .fin (ns.sum : ℕ) := by
  induction h with
  | one x =>
      intro ns hns _
      cases hns with
      | cons hx hnil =>
          cases hnil
          rw [List.sum_singleton]
          exact hx
  | zero _ ih =>
      intro ns hns hle
      have hzero : exact (PyFloat.lit 0 : F) = .fin ((0 : ℕ) : ℚ) := by
        have hlit := exact_lit_nat (F := F) (n := 0) (by norm_num)
        rwa [Nat.cast_zero] at hlit ⊢
      rw [exact_add_nat hzero (ih hns hle) (by omega), Nat.zero_add]
  | @add l l' _ _ _ _ ih ih' =>
      intro ns hns hle
      obtain ⟨hleft, hright⟩ : List.Forall₂ _ l (ns.take l.length) ∧
          List.Forall₂ _ l' (ns.drop l.length) := by
        have htake := List.forall₂_take l.length hns
        have hdrop := List.forall₂_drop l.length hns
        rw [List.take_left] at htake
        rw [List.drop_left] at hdrop
        exact ⟨htake, hdrop⟩
      have hsum : (ns.take l.length).sum + (ns.drop l.length).sum = ns.sum := by
        rw [← List.sum_append, List.take_append_drop]
      rw [← hsum]
      exact exact_add_nat (ih hleft (by omega)) (ih' hright (by omega)) (by omega)
  | perm hperm _ ih =>
      intro ns hns hle
      obtain ⟨ns', hns', hperm'⟩ := List.perm_comp_forall₂ hperm hns
      rw [← hperm'.sum_eq]
      exact ih hns' (by rw [hperm'.sum_eq]; exact hle)

/-- The mean of whole numbers whose total is below `2 ^ 53`, truncated. -/
theorem trunc_average_nat {l : List F} {ns : List ℕ}
    (h : List.Forall₂ (fun x n => exact x = .fin (n : ℕ)) l ns) (hne : ns ≠ [])
    (hsum : ns.sum < 2 ^ 53) (hlen : ns.length ≤ 2 ^ 53) :
    PyFloat.trunc (PyFloat.average l) = some ((ns.sum / ns.length : ℕ) : ℤ) := by
  have hlenl : l.length = ns.length := h.length_eq
  have hpos : 0 < ns.length := List.length_pos_iff.mpr hne
  obtain ⟨s, hs, havg⟩ := average_summed l (List.length_pos_iff.mp (by omega))
  obtain ⟨r, hr, hnear⟩ := exact_div_nat (exact_summed_nat hs h hsum.le)
    (exact_lit_nat (F := F) (n := l.length) (by omega)) hsum.le (by omega)
  rw [havg, trunc_eq, hr]
  rw [hlenl] at hnear
  -- the quotient is between two whole numbers, and so is what it is rounded to
  have hquot : ns.sum / ns.length ≤ 2 ^ 53 := (Nat.div_le_self _ _).trans hsum.le
  have hquot' : ns.sum / ns.length < 2 ^ 53 := (Nat.div_le_self _ _).trans_lt hsum
  have hlow := (nearest_div_iff hsum hpos hlen hquot hnear).2.mpr (Nat.mul_div_le _ _)
  have hhigh : r < (ns.sum / ns.length + 1 : ℕ) := by
    refine not_le.mp fun hle => ?_
    have hmul := (nearest_div_iff hsum hpos hlen (by omega) hnear).2.mp hle
    exact absurd hmul (not_le.mpr (Nat.lt_mul_div_succ _ hpos))
  have hfloor : ⌊r⌋ = ((ns.sum / ns.length : ℕ) : ℤ) := by
    rw [Nat.cast_add, Nat.cast_one] at hhigh
    rw [Int.floor_eq_iff, Int.cast_natCast]
    exact ⟨hlow, hhigh⟩
  have hnum : 0 ≤ r.num := Rat.num_nonneg.mpr ((Nat.cast_nonneg _).trans hlow)
  rw [Exact.trunc, Int.tdiv_eq_ediv_of_nonneg hnum, ← Rat.floor_def', hfloor]

/-! ### Not-a-number -/

theorem exact_lit_ne_zero {n : ℕ} (hn : 0 < n) : exact (PyFloat.lit n : F) ≠ .fin 0 := by
  intro hzero
  have hlit := lit_rounded (F := F) (n : ℚ)
  rw [hzero] at hlit
  cases hlit with
  | near _ hnear =>
      -- one is a number of the format, and closer
      have hone : Representable (1 : ℚ) := by
        have hrep := representable_nat (n := 1) (by norm_num)
        rwa [Nat.cast_one] at hrep
      have hcast : (1 : ℚ) ≤ n := by exact_mod_cast hn
      exact absurd (hnear.le_of_le hone hcast) (by norm_num)

theorem exact_summed_nan {l : List F} {s : F} (h : Summed l s) (hnan : ∃ x ∈ l, exact x = .nan) :
    exact s = .nan := by
  induction h with
  | one x =>
      obtain ⟨y, hy, hynan⟩ := hnan
      rw [List.mem_singleton] at hy
      rw [← hy]
      exact hynan
  | @zero l s _ ih =>
      have hadd := add_rounded (PyFloat.lit 0) s
      rw [ih hnan, Exact.add_nan] at hadd
      exact hadd.eq_nan
  | @add l l' s s' _ _ ih ih' =>
      have hadd := add_rounded s s'
      have hsum : Exact.add (exact s) (exact s') = .nan := by
        obtain ⟨x, hx, hxnan⟩ := hnan
        rcases List.mem_append.mp hx with hx | hx
        · rw [ih ⟨x, hx, hxnan⟩, Exact.nan_add]
        · rw [ih' ⟨x, hx, hxnan⟩, Exact.add_nan]
      rw [hsum] at hadd
      exact hadd.eq_nan
  | perm hperm _ ih =>
      obtain ⟨x, hx, hxnan⟩ := hnan
      exact ih ⟨x, hperm.mem_iff.mpr hx, hxnan⟩

/-- The mean of samples with not-a-number among them is not a number. -/
theorem exact_average_nan {l : List F} (h : ∃ x ∈ l, exact x = .nan) :
    exact (PyFloat.average l) = .nan := by
  obtain ⟨x, hx, -⟩ := id h
  have hne := List.ne_nil_of_mem hx
  obtain ⟨s, hs, havg⟩ := average_summed l hne
  have hdiv := div_rounded s (PyFloat.lit l.length)
    (exact_lit_ne_zero (List.length_pos_iff.mpr hne))
  rw [exact_summed_nan hs h, Exact.nan_div] at hdiv
  rw [havg]
  exact hdiv.eq_nan

/-! ### The error of a mean -/

/-- The value of a finite float. -/
def val (x : F) : ℚ :=
  match exact x with
  | .fin q => q
  | _ => 0

/-- Neither an infinity nor not-a-number. -/
def Finite (x : F) : Prop := ∃ q, exact x = .fin q

theorem val_eq {q : ℚ} (h : exact x = .fin q) : val x = q := by
  rw [val, h]

theorem Finite.exact_eq (h : Finite x) : exact x = .fin (val x) := by
  obtain ⟨q, hq⟩ := h
  rw [val_eq hq, hq]

theorem Finite.representable (h : Finite x) : Representable (val x) :=
  IeeeFloat.representable h.exact_eq

/-- The sum of the magnitudes. -/
def mass (l : List F) : ℚ := (l.map fun x => |val x|).sum

theorem mass_append (l l' : List F) : mass (l ++ l') = mass l + mass l' := by
  simp [mass]

theorem mass_nonneg (l : List F) : 0 ≤ mass l := by
  refine List.sum_nonneg fun a ha => ?_
  obtain ⟨x, -, rfl⟩ := List.mem_map.mp ha
  exact abs_nonneg _

theorem abs_sum_val_le (l : List F) : |(l.map val).sum| ≤ mass l := by
  induction l with
  | nil => simp [mass]
  | cons x l ih =>
      rw [mass, List.map_cons, List.map_cons, List.sum_cons, List.sum_cons]
      exact (abs_add_le _ _).trans (add_le_add le_rfl ih)

/-- The factor by which `k` roundings may enlarge a magnitude. -/
def growth (k : ℕ) : ℚ := (1 + unit) ^ k

theorem one_le_growth (k : ℕ) : 1 ≤ growth k :=
  one_le_pow₀ (by linarith [unit_pos])

theorem growth_succ (k : ℕ) : growth (k + 1) = growth k * (1 + unit) := pow_succ _ _

/-- One addition on top of two sums. -/
theorem abs_add_sub_le {p p' q q' r a a' g : ℚ} (hp : |p - q| ≤ (g - 1) * a)
    (hp' : |p' - q'| ≤ (g - 1) * a') (hq : |q| ≤ a) (hq' : |q'| ≤ a')
    (hr : |(p + p') - r| ≤ |p + p'| * unit) :
    |p + p'| ≤ g * (a + a') ∧ |r - (q + q')| ≤ (g * (1 + unit) - 1) * (a + a') := by
  rw [abs_le] at hp hp' hq hq'
  have hsum : |p + p'| ≤ g * (a + a') := by
    rw [abs_le]
    constructor <;> linarith
  have hround : |(p + p') - r| ≤ g * (a + a') * unit :=
    hr.trans (mul_le_mul_of_nonneg_right hsum unit_pos.le)
  rw [abs_le] at hround
  refine ⟨hsum, abs_le.mpr ?_⟩
  constructor <;> linarith

/-- Adding to zero rounds nothing. -/
theorem Finite.exact_zero_add {s : F} (hs : Finite s) :
    exact (PyFloat.add (PyFloat.lit 0) s) = .fin (val s) := by
  have hzero : exact (PyFloat.lit 0 : F) = .fin 0 := by
    have hlit := exact_lit_nat (F := F) (n := 0) (by norm_num)
    rwa [Nat.cast_zero] at hlit
  have hadd := add_rounded (PyFloat.lit 0) s
  rw [hzero, hs.exact_eq, Exact.add, zero_add] at hadd
  exact hadd.of_representable hs.representable

/--
A sum of finite numbers in any order: with `k + 1` numbers at most, the error is that of `k`
roundings.
-/
theorem exact_summed {l : List F} {s : F} (h : Summed l s) :
    ∀ {k : ℕ}, l.length ≤ k + 1 → (∀ x ∈ l, Finite x) → growth k * mass l < limit →
      Finite s ∧ |val s - (l.map val).sum| ≤ (growth k - 1) * mass l := by
  induction h with
  | one x =>
      intro k _ hfin _
      refine ⟨hfin x List.mem_cons_self, ?_⟩
      rw [List.map_singleton, List.sum_singleton, sub_self, abs_zero]
      exact mul_nonneg (sub_nonneg.mpr (one_le_growth k)) (mass_nonneg _)
  | @zero l s _ ih =>
      intro k hlen hfin hlim
      obtain ⟨hs, herr⟩ := ih hlen hfin hlim
      exact ⟨⟨_, hs.exact_zero_add⟩, by rw [val_eq hs.exact_zero_add]; exact herr⟩
  | @add l l' s s' hsum hsum' ih ih' =>
      intro k hlen hfin hlim
      have hpos := List.length_pos_iff.mpr hsum.ne_nil
      have hpos' := List.length_pos_iff.mpr hsum'.ne_nil
      rw [List.length_append] at hlen
      obtain ⟨k, rfl⟩ : ∃ j, k = j + 1 := ⟨k - 1, by omega⟩
      rw [mass_append, growth_succ] at hlim ⊢
      have hmass := mass_nonneg l
      have hmass' := mass_nonneg l'
      have hone := one_le_growth k
      have hstep : growth k * (mass l + mass l') < limit := by
        refine lt_of_le_of_lt ?_ hlim
        rw [mul_right_comm]
        refine le_mul_of_one_le_right (by positivity) ?_
        linarith [unit_pos]
      have hpart : growth k * mass l < limit := by nlinarith
      have hpart' : growth k * mass l' < limit := by nlinarith
      obtain ⟨hs, herr⟩ :=
        ih (by omega) (fun x hx => hfin x (List.mem_append_left _ hx)) hpart
      obtain ⟨hs', herr'⟩ :=
        ih' (by omega) (fun x hx => hfin x (List.mem_append_right _ hx)) hpart'
      have hadd := add_rounded s s'
      rw [hs.exact_eq, hs'.exact_eq, Exact.add] at hadd
      have hbound : |val s + val s'| < limit := by
        refine lt_of_le_of_lt (abs_add_sub_le (r := val s + val s') herr herr'
          (abs_sum_val_le l) (abs_sum_val_le l') ?_).1 hstep
        rw [sub_self, abs_zero]
        exact mul_nonneg (abs_nonneg _) unit_pos.le
      obtain ⟨r, hr, hnear⟩ := hadd.fin hbound
      have hround := hnear.error_add hs.representable hs'.representable hbound
      refine ⟨⟨r, hr⟩, ?_⟩
      rw [val_eq hr, List.map_append, List.sum_append]
      exact (abs_add_sub_le herr herr' (abs_sum_val_le l) (abs_sum_val_le l') hround).2
  | @perm l l' s hperm _ ih =>
      intro k hlen hfin hlim
      have hmass : mass l = mass l' := (hperm.map _).sum_eq
      rw [← hperm.length_eq] at hlen
      rw [← hmass] at hlim ⊢
      rw [← (hperm.map val).sum_eq]
      exact ih hlen (fun x hx => hfin x (hperm.mem_iff.mp hx)) hlim

theorem mass_le {l : List F} {M : ℚ} (h : ∀ x ∈ l, |val x| ≤ M) : mass l ≤ l.length * M := by
  have hle := List.sum_le_card_nsmul (l.map fun x => |val x|) M fun a ha => by
    obtain ⟨x, hx, rfl⟩ := List.mem_map.mp ha
    exact h x hx
  rwa [List.length_map, nsmul_eq_mul] at hle

/-- One rounding after a division by the number of samples. -/
theorem abs_div_sub_le {s q r n g M : ℚ} (hn : 0 < n) (hs : |s - q| ≤ (g - 1) * (n * M))
    (hq : |q| ≤ n * M) (hr : |s / n - r| ≤ max (|s / n| * unit) tiny) :
    |r - q / n| ≤ (g * (1 + unit) - 1) * M + tiny := by
  have hquot : ∀ x b : ℚ, |x| ≤ b * (n * M) → |x / n| ≤ b * M := by
    intro x b hx
    rw [abs_div, abs_of_pos hn, div_le_iff₀ hn]
    linarith
  have hmean : |s / n| ≤ g * M := by
    refine hquot s g ?_
    rw [abs_le] at hs hq ⊢
    constructor <;> linarith
  have hdiff : |(s - q) / n| ≤ (g - 1) * M := hquot _ _ hs
  have hround : |s / n - r| ≤ g * M * unit + tiny := by
    refine hr.trans (max_le ?_ ?_)
    · have hmul := mul_le_mul_of_nonneg_right hmean unit_pos.le
      linarith [tiny_pos]
    · have hmul : 0 ≤ g * M * unit :=
        mul_nonneg ((abs_nonneg _).trans hmean) unit_pos.le
      linarith
  rw [sub_div, abs_le] at hdiff
  rw [abs_le] at hround ⊢
  constructor <;> linarith

/--
The mean of finite samples in any order of summation: the error is that of as many roundings
as there are samples.
-/
theorem exact_average {l : List F} {M : ℚ} (hne : l ≠ []) (hlen : l.length ≤ 2 ^ 53)
    (hfin : ∀ x ∈ l, Finite x) (hM : ∀ x ∈ l, |val x| ≤ M)
    (hlim : growth l.length * (l.length * M) < limit) :
    Finite (PyFloat.average l) ∧
      |val (PyFloat.average l) - (l.map val).sum / l.length| ≤
        (growth l.length - 1) * M + tiny := by
  obtain ⟨s, hs, havg⟩ := average_summed l hne
  have hpos : 0 < l.length := List.length_pos_iff.mpr hne
  have hcast : (0 : ℚ) < l.length := by exact_mod_cast hpos
  obtain ⟨k, hk⟩ : ∃ k, l.length = k + 1 := ⟨l.length - 1, by omega⟩
  have hgrow : growth l.length = growth k * (1 + unit) := by rw [hk, growth_succ]
  have hmass := mass_le hM
  have hone := one_le_growth k
  have hnonneg : 0 ≤ (l.length : ℚ) * M := (mass_nonneg l).trans hmass
  have hlim' : growth k * (l.length * M) < limit := by
    refine lt_of_le_of_lt ?_ hlim
    rw [hgrow]
    refine mul_le_mul_of_nonneg_right ?_ hnonneg
    nlinarith [unit_pos]
  obtain ⟨hsfin, herr⟩ := exact_summed hs hk.le hfin
    (lt_of_le_of_lt (mul_le_mul_of_nonneg_left hmass (by linarith)) hlim')
  have herr' : |val s - (l.map val).sum| ≤ (growth k - 1) * (l.length * M) :=
    herr.trans (mul_le_mul_of_nonneg_left hmass (by linarith))
  have hsum : |(l.map val).sum| ≤ l.length * M := (abs_sum_val_le l).trans hmass
  have hdiv := div_rounded s (PyFloat.lit l.length) (exact_lit_ne_zero hpos)
  rw [hsfin.exact_eq, exact_lit_nat hlen, Exact.div, if_neg hcast.ne'] at hdiv
  have hquot : |val s / l.length| < limit := by
    have hval : |val s| ≤ growth k * (l.length * M) := by
      rw [abs_le] at herr' hsum ⊢
      constructor <;> linarith
    have hone' : (1 : ℚ) ≤ l.length := by exact_mod_cast hpos
    rw [abs_div, abs_of_pos hcast]
    exact ((div_le_self (abs_nonneg _) hone').trans hval).trans_lt hlim'
  obtain ⟨r, hr, hnear⟩ := hdiv.fin hquot
  rw [havg, val_eq hr, hgrow]
  exact ⟨⟨r, hr⟩, abs_div_sub_le hcast herr' hsum (hnear.error hquot)⟩

end IeeeFloat

end Python
