/-
Doubles that compute.

The numbers of the format with the two zeros, the infinities and not-a-number, and on them
the operations that round: each is the exact operation, rounded to the nearest number with
ties to the even side, and the sign that a zero gets is the one IEEE 754 gives it.
`np.average` adds from the left here, which is what it does for fewer than eight samples.
-/
import Nicmem.Python.Ieee

namespace Python

open Binary64

/-- A double: magnitudes are numbers of the format. -/
inductive Double where
  | nan
  | inf (neg : Bool)
  | fin (neg : Bool) (m : ℚ) (hm : 0 ≤ m ∧ Representable m)
  deriving DecidableEq

namespace Double

/-- The number a double stands for. -/
def toExact : Double → Exact
  | nan => .nan
  | inf neg => .inf neg
  | fin neg m _ => .fin (if neg then -m else m)

/-- The sign bit. -/
def sign : Double → Bool
  | nan => false
  | inf neg => neg
  | fin neg _ _ => neg

theorem nearest_abs {q : ℚ} (h : |q| < limit) : 0 ≤ nearest |q| ∧ Representable (nearest |q|) := by
  have hnear := nearest_spec (q := |q|) (by rwa [abs_abs])
  have hzero : Representable (0 : ℚ) := by
    have hrep := representable_nat (n := 0) (by norm_num)
    rwa [Nat.cast_zero] at hrep
  exact ⟨hnear.le_of_le hzero (abs_nonneg q), hnear.representable⟩

/-- A rational number rounded; zero gets the given sign. -/
def ofRat (neg : Bool) (q : ℚ) : Double :=
  if h : |q| < limit then
    fin (if q = 0 then neg else decide (q < 0)) (nearest |q|) (nearest_abs h)
  else inf (decide (q < 0))

/-- A number rounded. -/
def round (neg : Bool) : Exact → Double
  | .nan => nan
  | .inf s => inf s
  | .fin q => ofRat neg q

def negate : Double → Double
  | nan => nan
  | inf neg => inf !neg
  | fin neg m hm => fin (!neg) m hm

def add (x y : Double) : Double := round (x.sign && y.sign) (Exact.add x.toExact y.toExact)

def mul (x y : Double) : Double := round (x.sign != y.sign) (Exact.mul x.toExact y.toExact)

def div (x y : Double) : Double := round (x.sign != y.sign) (Exact.div x.toExact y.toExact)

def sum (l : List Double) : Double := l.foldl add (ofRat false 0)

def average (l : List Double) : Double :=
  if l.isEmpty then nan else div (sum l) (ofRat false l.length)

def std (l : List Double) : Double := round false (Exact.std (l.map toExact))

def ofNumeral : Numeral → Double
  | .nan => nan
  | .inf neg => inf neg
  | .decimal neg q => ofRat neg (if neg then -q else q)

/-- Zero with a minus sign, which prints it. -/
def negZero (x : Double) : Bool := x.sign && x.toExact == .fin 0

def str (x : Double) : Str := if x.negZero then "-0.0".toList else x.toExact.str

def fmt2 (x : Double) : Str := if x.negZero then "-0.00".toList else x.toExact.fmt2

/-! ### The laws -/

theorem plain_str (x : Double) : plain x.str = true := by
  unfold str
  split
  · decide
  · exact Exact.plain_str _

theorem plain_fmt2 (x : Double) : plain x.fmt2 = true := by
  unfold fmt2
  split
  · decide
  · exact Exact.plain_fmt2 _

theorem isSome_parseNumeral_fmt2 (x : Double) : (parseNumeral x.fmt2).isSome = true := by
  unfold fmt2
  split
  · decide
  · rw [← Exact.isSome_ofStr]
    exact Exact.ofStr_fmt2 _

theorem ofRat_of_ne_zero {q : ℚ} (h : q ≠ 0) (neg neg' : Bool) : ofRat neg q = ofRat neg' q := by
  rw [ofRat, ofRat]
  simp only [if_neg h]

theorem rounded_ofRat (neg : Bool) (q : ℚ) : Rounded (.fin q) (ofRat neg q).toExact := by
  unfold ofRat
  split
  · rename_i hlim
    refine .near hlim ?_
    rcases lt_trichotomy q 0 with hneg | rfl | hpos
    · have hnear := (nearest_spec (q := |q|) (by rwa [abs_abs])).neg
      rw [if_neg hneg.ne, decide_eq_true hneg, if_pos rfl]
      rw [abs_of_neg hneg] at hnear ⊢
      rwa [neg_neg] at hnear
    · have hnear := nearest_spec hlim
      rw [abs_zero, nearest_zero, neg_zero, ite_self]
      rwa [nearest_zero] at hnear
    · have hnear := nearest_spec hlim
      rw [if_neg hpos.ne', decide_eq_false (not_lt.mpr hpos.le), if_neg Bool.false_ne_true]
      rwa [abs_of_pos hpos]
  · rename_i hlim
    exact .beyond (not_lt.mp hlim)

theorem rounded_round (neg : Bool) (x : Exact) : Rounded x (round neg x).toExact := by
  cases x with
  | nan => exact .nan
  | inf s => exact .inf s
  | fin q => exact rounded_ofRat neg q

theorem representable_of_toExact {x : Double} {q : ℚ} (h : x.toExact = .fin q) :
    Representable q := by
  match x with
  | fin neg m hm =>
      rw [toExact, Exact.fin.injEq] at h
      rw [← h]
      split
      · exact hm.2.neg
      · exact hm.2

instance : PyFloat Double where
  ofStr s := (parseNumeral s).map ofNumeral
  lit := ofRat false
  str := str
  fmt2 := fmt2
  trunc x := x.toExact.trunc
  lt x y := Exact.lt x.toExact y.toExact
  le x y := Exact.le x.toExact y.toExact
  add := add
  sub x y := add x y.negate
  mul := mul
  div := div
  average := average
  std := std
  plain_fmt2 := plain_fmt2
  plain_str := plain_str
  ofStr_fmt2 x := by
    rw [Option.isSome_map]
    exact isSome_parseNumeral_fmt2 x
  isSome_ofStr s := Option.isSome_map
  ofStr_decimal s neg q h hzero := by
    rw [h, Option.map_some, ofNumeral]
    cases neg with
    | false => rfl
    | true => rw [if_pos rfl, ofRat_of_ne_zero (neg_ne_zero.mpr (hzero rfl)) true false]
  lt_asymm _ _ := Exact.lt_asymm

/-- Adding from the left adds in some order. -/
theorem summed_foldl {l : List Double} {s : Double} (h : Summed l s) (rest : List Double) :
    Summed (l ++ rest) (rest.foldl add s) := by
  induction rest generalizing l s with
  | nil =>
      rw [List.append_nil]
      exact h
  | cons x rest ih =>
      have hstep := ih (h.add (.one x))
      rw [List.append_assoc] at hstep
      exact hstep

theorem summed_sum {l : List Double} (h : l ≠ []) : Summed l (sum l) := by
  cases l with
  | nil => exact absurd rfl h
  | cons x rest => exact summed_foldl (Summed.one x).zero rest

instance : IeeeFloat Double where
  exact := toExact
  representable := representable_of_toExact
  lt_eq _ _ := rfl
  le_eq _ _ := rfl
  trunc_eq _ := rfl
  lit_rounded q := rounded_ofRat false q
  add_rounded x y := rounded_round _ _
  mul_rounded x y := rounded_round _ _
  div_rounded x y _ := rounded_round _ _
  average_summed l h := by
    refine ⟨sum l, summed_sum h, ?_⟩
    show average l = _
    rw [average, if_neg (by simpa using h)]
    rfl

-- `2 ^ 53 + 1` is the first whole number that is not a double
example : PyFloat.trunc (PyFloat.lit 9007199254740993 : Double) = some 9007199254740992 := by
  decide +kernel

end Double

end Python
