/-
Floating-point numbers without rounding.

`Exact` is what a double would be if its significand had no end: the rational
numbers, the two infinities, and not-a-number.  Arithmetic, averages, comparison,
`'%.2f'` and `'%d'` are computed exactly, rounding half to even when two decimals are
printed.  The one operation that leaves the rationals is the square root of `np.std`,
taken to twenty decimals.

It is the number model of every property that speaks of values, and the instance on
which the parametric ones are seen not to be empty.
-/
import Mathlib.Algebra.BigOperators.Group.List.Basic
import Mathlib.Tactic.Linarith
import Nicmem.Python.Number

namespace Python

/-- The rational numbers, the infinities, and not-a-number. -/
inductive Exact where
  | nan
  | inf (neg : Bool)
  | fin (q : ℚ)
  deriving DecidableEq, Repr

namespace Exact

/-! ### Arithmetic -/

def neg : Exact → Exact
  | nan => nan
  | inf s => inf (!s)
  | fin q => fin (-q)

def add : Exact → Exact → Exact
  | fin p, fin q => fin (p + q)
  | inf s, inf t => if s = t then inf s else nan
  | inf s, fin _ => inf s
  | fin _, inf s => inf s
  | _, _ => nan

/-- The sign of a number; zero counts as positive. -/
def isNeg : Exact → Bool
  | nan => false
  | inf s => s
  | fin q => decide (q < 0)

def mul : Exact → Exact → Exact
  | fin p, fin q => fin (p * q)
  | nan, _ => nan
  | _, nan => nan
  | x, y => if x = fin 0 ∨ y = fin 0 then nan else inf (x.isNeg != y.isNeg)

def div : Exact → Exact → Exact
  | fin p, fin q => if q = 0 then nan else fin (p / q)
  | inf s, fin q => inf (s != decide (q < 0))
  | fin _, inf _ => fin 0
  | _, _ => nan

def lt : Exact → Exact → Bool
  | fin p, fin q => decide (p < q)
  | inf s, inf t => s && !t
  | inf s, fin _ => s
  | fin _, inf s => !s
  | _, _ => false

def le : Exact → Exact → Bool
  | fin p, fin q => decide (p ≤ q)
  | inf s, inf t => s || !t
  | inf s, fin _ => s
  | fin _, inf s => !s
  | _, _ => false

theorem nan_add (x : Exact) : add nan x = nan := by cases x <;> rfl

theorem add_nan (x : Exact) : add x nan = nan := by cases x <;> rfl

theorem nan_div (x : Exact) : div nan x = nan := by cases x <;> rfl

/-- The sum of a list, from the left. -/
def sum (l : List Exact) : Exact := l.foldl add (fin 0)

/-- `np.average`; the mean of no samples is not a number. -/
def average (l : List Exact) : Exact :=
  if l.isEmpty then nan else div (sum l) (fin l.length)

/-- The square root to twenty decimals. -/
def sqrt : Exact → Exact
  | fin q => if q < 0 then nan else
      fin ((Nat.sqrt (⌊q * 10 ^ 40⌋.toNat) : ℚ) / 10 ^ 20)
  | inf false => inf false
  | _ => nan

/-- `np.std`: the root of the mean square distance to the average. -/
def std (l : List Exact) : Exact :=
  let m := average l
  sqrt (average (l.map fun x => let d := add x (neg m); mul d d))

/-! ### Sums

Without rounding the order of a sum does not matter, infinities and not-a-number
included. -/

instance : Zero Exact := ⟨fin 0⟩

instance : Add Exact := ⟨add⟩

instance : AddCommMonoid Exact where
  nsmul := nsmulRec
  add_assoc := by
    rintro (_ | (_ | _) | p) (_ | (_ | _) | q) (_ | (_ | _) | r) <;>
      first | rfl | exact congrArg fin (add_assoc p q r)
  zero_add := by
    rintro (_ | s | q)
    · rfl
    · rfl
    · exact congrArg fin (zero_add q)
  add_zero := by
    rintro (_ | s | q)
    · rfl
    · rfl
    · exact congrArg fin (add_zero q)
  add_comm := by
    rintro (_ | (_ | _) | p) (_ | (_ | _) | q) <;>
      first | rfl | exact congrArg fin (add_comm p q)

theorem foldl_add_eq (l : List Exact) : ∀ x, l.foldl add x = x + l.sum := by
  induction l with
  | nil => intro x; exact (add_zero x).symm
  | cons y rest ih =>
      intro x
      rw [List.foldl_cons, ih, List.sum_cons, ← add_assoc]
      rfl

/-- The rational number a finite one is. -/
def value : Exact → ℚ
  | fin q => q
  | _ => 0

theorem sum_map_fin (l : List ℚ) : (l.map fin).sum = fin l.sum := by
  induction l with
  | nil => rfl
  | cons q rest ih =>
      rw [List.map_cons, List.sum_cons, ih, List.sum_cons]
      rfl

/-- Several copies of a number add up to the number when, and only when, two do. -/
theorem nsmul_eq_self_iff {n : Nat} (hn : 2 ≤ n) (x : Exact) : n • x = x ↔ x + x = x := by
  have hidem : x + x = x → ∀ m, (m + 1) • x = x := by
    intro h m
    induction m with
    | zero => exact one_nsmul x
    | succ m ih => rw [succ_nsmul, ih, h]
  constructor
  · intro h
    match x with
    | nan => rfl
    | inf true => rfl
    | inf false => rfl
    | fin q =>
        have hfin : ∀ m : Nat, m • fin q = fin (m * q) := by
          intro m
          induction m with
          | zero => rw [zero_nsmul, Nat.cast_zero, zero_mul]; rfl
          | succ m ih =>
              rw [succ_nsmul, ih, Nat.cast_succ, add_mul, one_mul]
              rfl
        rw [hfin, fin.injEq] at h
        have hq : ((n : ℚ) - 1) * q = 0 := by linarith
        have hn1 : (n : ℚ) - 1 ≠ 0 := by
          have : (2 : ℚ) ≤ n := by exact_mod_cast hn
          linarith
        rw [(mul_eq_zero.mp hq).resolve_left hn1]
        exact congrArg fin (add_zero 0)
  · intro h
    obtain ⟨m, rfl⟩ := Nat.exists_eq_add_of_le' (show 1 ≤ n by omega)
    exact hidem h m

/-! ### Printing -/

/-- The nearest natural number to a non-negative rational, half to even. -/
def roundEven (q : ℚ) : Nat :=
  let f := q.num.toNat / q.den
  let r := q.num.toNat % q.den
  if 2 * r < q.den then f else if q.den < 2 * r then f + 1 else f + f % 2

/-- `'%.2f'` of a number of hundredths. -/
def hundredths (n : Nat) : Str :=
  natStr (n / 100) ++ ['.', Nat.digitChar (n / 10 % 10), Nat.digitChar (n % 10)]

def sign (q : ℚ) : Str := if q < 0 then ['-'] else []

def fmt2 : Exact → Str
  | nan => "nan".toList
  | inf false => "inf".toList
  | inf true => "-inf".toList
  | fin q => sign q ++ hundredths (roundEven (|q| * 100))

/-- `'%d'`: the part before the point. -/
def trunc : Exact → Option Int
  | fin q => some (q.num.tdiv q.den)
  | _ => none

/-- A power of ten with an exponent of at least two digits. -/
def exponent (e : Int) : Str :=
  'e' :: (if e < 0 then '-' else '+') :: (natStr e.natAbs).leftpad 2 '0'

/-- Twelve significant digits of a positive number, with the position of the point. -/
def digits12 (q : ℚ) : Str × Int :=
  let e := Int.log 10 q
  let m := roundEven (q / (10 : ℚ) ^ (e - 11))
  if m = 10 ^ 12 then (['1'], e + 2)
  else ((natStr m).rdropWhile (· == '0'), e + 1)

/-- `'%.12g'` with a point, as `str` prints a float. -/
def strPos (ds : Str) (point : Int) : Str :=
  if point ≤ -4 ∨ 11 < point then
    ds.take 1 ++ (if ds.length ≤ 1 then [] else '.' :: ds.drop 1) ++ exponent (point - 1)
  else if point ≤ 0 then '0' :: '.' :: List.replicate (-point).toNat '0' ++ ds
  else if ds.length ≤ point.toNat then
    ds ++ List.replicate (point.toNat - ds.length) '0' ++ ['.', '0']
  else ds.take point.toNat ++ '.' :: ds.drop point.toNat

def str : Exact → Str
  | nan => "nan".toList
  | inf false => "inf".toList
  | inf true => "-inf".toList
  | fin q =>
    if q = 0 then "0.0".toList
    else sign q ++ let (ds, point) := digits12 |q|; strPos ds point

/-! ### Parsing -/

def ofNumeral : Numeral → Exact
  | .nan => nan
  | .inf neg => inf neg
  | .decimal neg q => fin (if neg then -q else q)

/-- `float(s)`. -/
def ofStr (s : Str) : Option Exact := (parseNumeral s).map ofNumeral

/-! ### What is printed is plain -/

private theorem plain_append {s t : Str} (hs : ∀ c ∈ s, plainChar c = true)
    (ht : plain t = true) : plain (s ++ t) = true := by
  simp only [plain, Bool.and_eq_true, Bool.not_eq_true', List.isEmpty_eq_false_iff,
    List.all_eq_true] at ht ⊢
  refine ⟨by simp [ht.1], fun c hc => ?_⟩
  rcases List.mem_append.mp hc with h | h
  · exact hs c h
  · exact ht.2 c h

private theorem plainChar_sign {q : ℚ} : ∀ c ∈ sign q, plainChar c = true := by
  intro c hc
  unfold sign at hc
  split at hc
  · rw [List.mem_singleton.mp hc]
    decide
  · simp at hc

private theorem isDigit_digitChar_mod (n : Nat) : (Nat.digitChar (n % 10)).isDigit = true := by
  rw [Nat.isDigit_digitChar]
  exact decide_eq_true (Nat.mod_lt _ (by decide))

theorem plain_hundredths (n : Nat) : plain (hundredths n) = true := by
  refine plain_append (fun c hc => plainChar_of_isDigit (isDigit_of_mem_natStr hc)) ?_
  have h₁ := plainChar_of_isDigit (isDigit_digitChar_mod (n / 10))
  have h₂ := plainChar_of_isDigit (isDigit_digitChar_mod n)
  simp [plain, h₁, h₂, show plainChar '.' = true by decide]

theorem plain_fmt2 (x : Exact) : plain x.fmt2 = true := by
  match x with
  | nan => decide
  | inf false => decide
  | inf true => decide
  | fin q => exact plain_append plainChar_sign (plain_hundredths _)

private theorem digits12_digits (q : ℚ) : ∀ c ∈ (digits12 q).1, c.isDigit = true := by
  intro c hc
  unfold digits12 at hc
  simp only at hc
  split at hc
  · rw [List.mem_singleton.mp hc]
    decide
  · exact isDigit_of_mem_natStr ((List.rdropWhile_prefix _ _).subset hc)

private theorem exponent_plain (e : Int) : ∀ c ∈ exponent e, plainChar c = true := by
  intro c hc
  simp only [exponent, List.leftpad, List.mem_cons, List.mem_append, List.mem_replicate] at hc
  rcases hc with rfl | rfl | ⟨-, rfl⟩ | hc
  · decide
  · split <;> decide
  · decide
  · exact plainChar_of_isDigit (isDigit_of_mem_natStr hc)

theorem plain_strPos {ds : Str} (h : ∀ c ∈ ds, c.isDigit = true) (point : Int) :
    plain (strPos ds point) = true := by
  have hds : ∀ c ∈ ds, plainChar c = true := fun c hc => plainChar_of_isDigit (h c hc)
  have hall : ∀ c ∈ strPos ds point, plainChar c = true := by
    intro c hc
    unfold strPos at hc
    split at hc
    · simp only [List.mem_append] at hc
      rcases hc with (hc | hc) | hc
      · exact hds c (List.mem_of_mem_take hc)
      · split at hc
        · simp at hc
        · rcases List.mem_cons.mp hc with rfl | hc
          · decide
          · exact hds c (List.mem_of_mem_drop hc)
      · exact exponent_plain _ c hc
    · split at hc
      · simp only [List.cons_append, List.mem_cons, List.mem_append, List.mem_replicate] at hc
        rcases hc with rfl | rfl | ⟨-, rfl⟩ | hc
        · decide
        · decide
        · decide
        · exact hds c hc
      · split at hc
        · simp only [List.mem_append, List.mem_replicate, List.mem_cons, List.not_mem_nil,
            or_false] at hc
          rcases hc with (hc | ⟨-, rfl⟩) | rfl | rfl
          · exact hds c hc
          · decide
          · decide
          · decide
        · rcases List.mem_append.mp hc with hc | hc
          · exact hds c (List.mem_of_mem_take hc)
          · rcases List.mem_cons.mp hc with rfl | hc
            · decide
            · exact hds c (List.mem_of_mem_drop hc)
  have hne : strPos ds point ≠ [] := by
    unfold strPos exponent
    split
    · simp
    · split
      · simp
      · split <;> simp
  simp only [plain, Bool.and_eq_true, Bool.not_eq_true', List.isEmpty_eq_false_iff,
    List.all_eq_true]
  exact ⟨hne, hall⟩

theorem plain_str (x : Exact) : plain x.str = true := by
  match x with
  | nan => decide
  | inf false => decide
  | inf true => decide
  | fin q =>
      show plain (if q = 0 then "0.0".toList
        else sign q ++ strPos (digits12 |q|).1 (digits12 |q|).2) = true
      split
      · decide
      · exact plain_append plainChar_sign (plain_strPos (digits12_digits _) _)

/-! ### What is printed can be read back -/

/-- Two digits behind the point make a numeral, with or without a minus sign. -/
theorem parseNumeral_hundredths (n : Nat) :
    ∃ q, parseNumeral (hundredths n) = some (.decimal false q) ∧
      parseNumeral ('-' :: hundredths n) = some (.decimal true q) := by
  have hdigits : ∀ c ∈ [Nat.digitChar (n / 10 % 10), Nat.digitChar (n % 10)], c.isDigit = true := by
    intro c hc
    rcases List.mem_cons.mp hc with rfl | hc
    · exact isDigit_digitChar_mod (n / 10)
    · rw [List.mem_singleton.mp hc]
      exact isDigit_digitChar_mod n
  exact ⟨_, parseNumeral_point (natStr_ne_nil _) (fun c hc => isDigit_of_mem_natStr hc) hdigits⟩

theorem ofStr_fmt2 (x : Exact) : (ofStr x.fmt2).isSome = true := by
  match x with
  | nan => decide
  | inf false => decide
  | inf true => decide
  | fin q =>
      obtain ⟨p, hpos, hneg⟩ := parseNumeral_hundredths (roundEven (|q| * 100))
      rw [ofStr, fmt2, sign]
      split
      · rw [List.singleton_append, hneg]
        rfl
      · rw [List.nil_append, hpos]
        rfl

theorem isSome_ofStr (s : Str) : (ofStr s).isSome = (parseNumeral s).isSome := by
  rw [ofStr, Option.isSome_map]

theorem ofStr_numeral (s : Str) (neg : Bool) (q : ℚ)
    (h : parseNumeral s = some (.decimal neg q)) :
    ofStr s = some (fin (if neg then -q else q)) := by
  rw [ofStr, h]
  rfl

theorem lt_asymm {x y : Exact} (h : lt x y = true) : lt y x = false := by
  rcases x with _ | (_ | _) | p <;> rcases y with _ | (_ | _) | q <;> simp [lt] at h ⊢
  exact h.le

end Exact

instance : PyFloat Exact where
  ofStr := Exact.ofStr
  lit := Exact.fin
  str := Exact.str
  fmt2 := Exact.fmt2
  trunc := Exact.trunc
  lt := Exact.lt
  le := Exact.le
  add := Exact.add
  sub x y := Exact.add x (Exact.neg y)
  mul := Exact.mul
  div := Exact.div
  average := Exact.average
  std := Exact.std
  plain_fmt2 := Exact.plain_fmt2
  plain_str := Exact.plain_str
  ofStr_fmt2 := Exact.ofStr_fmt2
  isSome_ofStr := Exact.isSome_ofStr
  ofStr_decimal s neg q h _ := Exact.ofStr_numeral s neg q h
  lt_asymm _ _ := Exact.lt_asymm

end Python
