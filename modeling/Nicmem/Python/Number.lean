/-
Numbers, their texts, and the floating-point arithmetic as a parameter.

The scripts parse decimal text, average it and print it again.  Which texts are numbers,
and which number a text denotes, is the language's; `parseNumeral` says it.  What the
properties of the text pipeline need of the floating-point numbers is little beyond that: a
printed number holds no comma and no blank and can be read back, a numeral is read as the
float of the number it denotes, and of two numbers at most one is less than the other.
`PyFloat` asks for exactly that and leaves the arithmetic open, so that a result
proved for every `PyFloat` holds of IEEE doubles and of the array library's own
summation order.

Where a property is about the *values*, it is stated over `IeeeFloat`, whose operations are
the exact ones rounded, or over `Exact`, the instance that computes with rational numbers.
-/
import Mathlib.Algebra.Order.Field.Rat
import Mathlib.Data.Int.Log
import Mathlib.Data.Rat.Floor
import Mathlib.Tactic.Positivity
import Nicmem.Python.Text

namespace Python

/-! ### Integers -/

/-- `str(n)` for a non-negative integer. -/
def natStr (n : Nat) : Str := Nat.toDigits 10 n

/-- `str(n)`. -/
def intStr : Int → Str
  | .ofNat n => natStr n
  | .negSucc n => '-' :: natStr (n + 1)

/-- The value of a text of digits. -/
def natVal (s : Str) : Nat := Nat.ofDigitChars 10 s 0

/-- Only digits, and at least one. -/
def isDigits (s : Str) : Bool := !s.isEmpty && s.all Char.isDigit

/-- `int(s)`; `none` is the `ValueError`. -/
def parseInt (s : Str) : Option Int :=
  match strip s with
  | '-' :: u => if isDigits u then some (-(natVal u : Int)) else none
  | '+' :: u => if isDigits u then some (natVal u : Int) else none
  | u => if isDigits u then some (natVal u : Int) else none

/-! ### Numerals -/

/-- What a text that `float` accepts denotes: the sign is kept apart, since zero has one. -/
inductive Numeral where
  | nan
  | inf (neg : Bool)
  | decimal (neg : Bool) (q : ℚ)
  deriving DecidableEq, Repr

/-- The exponent of a decimal text. -/
def parseExponent : Str → Option Int
  | '-' :: u => if isDigits u then some (-(natVal u : Int)) else none
  | '+' :: u => if isDigits u then some (natVal u : Int) else none
  | u => if isDigits u then some (natVal u : Int) else none

/-- Digits, an optional fraction, an optional exponent. -/
def parseDecimal (s : Str) : Option ℚ :=
  let whole := s.takeWhile Char.isDigit
  let rest := s.dropWhile Char.isDigit
  let frac := if rest.head? = some '.' then (rest.drop 1).takeWhile Char.isDigit else []
  let tail := if rest.head? = some '.' then (rest.drop 1).dropWhile Char.isDigit else rest
  let m : ℚ := (natVal (whole ++ frac) : ℚ) / 10 ^ frac.length
  if whole.isEmpty && frac.isEmpty then none
  else match tail with
    | [] => some m
    | e :: u =>
      if e = 'e' ∨ e = 'E' then (parseExponent u).map fun k => m * (10 : ℚ) ^ k else none

def parseUnsigned (neg : Bool) (s : Str) : Option Numeral :=
  if lower s = "nan".toList then some .nan
  else if lower s = "inf".toList ∨ lower s = "infinity".toList then some (.inf neg)
  else (parseDecimal s).map (.decimal neg)

/-- The numeral a text is, as `float` reads it; `none` is the `ValueError`. -/
def parseNumeral (s : Str) : Option Numeral :=
  match strip s with
  | '-' :: u => parseUnsigned true u
  | '+' :: u => parseUnsigned false u
  | u => parseUnsigned false u

/-! ### The floating-point numbers -/

/-- A character a printed number may hold: neither a comma nor a blank. -/
def plainChar (c : Char) : Bool := c != ',' && !isSpace c

/-- A text such as a printed number. -/
def plain (s : Str) : Bool := !s.isEmpty && s.all plainChar

/-- Floating-point numbers: the arithmetic is left open, printing and parsing agree. -/
class PyFloat (F : Type) where
  /-- `float(s)`; `none` is the `ValueError`. -/
  ofStr : Str → Option F
  /-- The number a literal or an integer denotes. -/
  lit : ℚ → F
  /-- `str(x)`. -/
  str : F → Str
  /-- `'%.2f' % x`. -/
  fmt2 : F → Str
  /-- The integer `'%d' % x` prints; `none` for the infinities and not-a-number. -/
  trunc : F → Option Int
  lt : F → F → Bool
  le : F → F → Bool
  add : F → F → F
  sub : F → F → F
  mul : F → F → F
  div : F → F → F
  /-- `np.average`. -/
  average : List F → F
  /-- `np.std`. -/
  std : List F → F
  plain_fmt2 : ∀ x, plain (fmt2 x) = true
  plain_str : ∀ x, plain (str x) = true
  ofStr_fmt2 : ∀ x, (ofStr (fmt2 x)).isSome = true
  /-- The numerals are the texts that are accepted. -/
  isSome_ofStr : ∀ s, (ofStr s).isSome = (parseNumeral s).isSome
  /-- A numeral is read as the number it denotes, zero with a minus sign apart. -/
  ofStr_decimal : ∀ s neg q, parseNumeral s = some (.decimal neg q) → (neg = true → q ≠ 0) →
    ofStr s = some (lit (if neg then -q else q))
  lt_asymm : ∀ x y, lt x y = true → lt y x = false

/-- `float(n)` of an integer; `none` is the `OverflowError`. -/
def PyFloat.ofInt {F : Type} [PyFloat F] (n : Int) : Option F :=
  if (PyFloat.trunc (PyFloat.lit n : F)).isSome then some (PyFloat.lit n) else none

/-- A value of a result dictionary. -/
inductive Value (F : Type) where
  | str (s : Str)
  | int (n : Int)
  | flt (x : F)
  deriving DecidableEq, Repr

namespace Value

variable {F : Type} [PyFloat F]

/-- `str(v)`. -/
def toStr : Value F → Str
  | .str s => s
  | .int n => intStr n
  | .flt x => PyFloat.str x

/-- `float(v)`. -/
def toFloat : Value F → Option F
  | .str s => PyFloat.ofStr s
  | .int n => some (PyFloat.lit n)
  | .flt x => some x

end Value

/-! ### Printed integers -/

theorem plainChar_of_isDigit {c : Char} (h : c.isDigit = true) : plainChar c = true := by
  have hne : ∀ d : Char, d.isDigit = false → c ≠ d := by
    rintro d hd rfl
    simp [h] at hd
  simp [plainChar, isSpace, hne ',' (by decide), hne ' ' (by decide), hne '\t' (by decide),
    hne '\n' (by decide), hne '\r' (by decide), hne '\x0b' (by decide), hne '\x0c' (by decide)]

theorem isSpace_of_isDigit {c : Char} (h : c.isDigit = true) : isSpace c = false := by
  have hplain := plainChar_of_isDigit h
  rw [plainChar, Bool.and_eq_true, Bool.not_eq_true'] at hplain
  exact hplain.2

theorem isDigit_of_mem_natStr {n : Nat} {c : Char} (h : c ∈ natStr n) : c.isDigit = true :=
  Nat.isDigit_of_mem_toDigits (by decide) (by decide) h

theorem natStr_ne_nil (n : Nat) : natStr n ≠ [] := Nat.toDigits_ne_nil

theorem natVal_natStr (n : Nat) : natVal (natStr n) = n := Nat.ofDigitChars_ten_toDigits

theorem natVal_append_zeros (s : Str) (n : Nat) :
    natVal (s ++ List.replicate n '0') = natVal s * 10 ^ n := by
  rw [natVal, Nat.ofDigitChars_append, ← natVal]
  induction n with
  | zero => exact (Nat.mul_one _).symm
  | succ n ih =>
      rw [List.replicate_succ', Nat.ofDigitChars_append, ih, Nat.ofDigitChars_cons,
        Nat.ofDigitChars_nil, Nat.pow_succ]
      exact (Nat.mul_comm _ _).trans (Nat.mul_assoc _ _ _)

theorem plain_natStr (n : Nat) : plain (natStr n) = true := by
  simp only [plain, Bool.and_eq_true, Bool.not_eq_true', List.isEmpty_eq_false_iff,
    List.all_eq_true]
  exact ⟨natStr_ne_nil n, fun c hc => plainChar_of_isDigit (isDigit_of_mem_natStr hc)⟩

theorem plain_intStr (n : Int) : plain (intStr n) = true := by
  cases n with
  | ofNat n => exact plain_natStr n
  | negSucc n =>
      have h := plain_natStr (n + 1)
      simp only [plain, Bool.and_eq_true] at h
      simpa [plain, intStr, plainChar, isSpace] using h.2

/-! ### Plain texts -/

theorem plain_mem {s : Str} (h : plain s = true) {c : Char} (hc : c ∈ s) : plainChar c = true := by
  simp only [plain, Bool.and_eq_true, List.all_eq_true] at h
  exact h.2 c hc

theorem plain_not_mem {s : Str} (h : plain s = true) {c : Char} (hc : plainChar c = false) :
    c ∉ s := by
  intro hmem
  rw [plain_mem h hmem] at hc
  exact Bool.noConfusion hc

theorem append_plain {s t : Str} (hs : plain s = true) (ht : plain t = true) :
    plain (s ++ t) = true := by
  simp only [plain, Bool.and_eq_true, Bool.not_eq_true', List.isEmpty_eq_false_iff,
    List.all_eq_true, List.mem_append] at hs ht ⊢
  refine ⟨by simp [hs.1], fun c hc => ?_⟩
  rcases hc with hc | hc
  · exact hs.2 c hc
  · exact ht.2 c hc

theorem trimmed_of_plain {s : Str} (h : plain s = true) : trimmed s = true := by
  have hsp : ∀ c ∈ s, isSpace c = false := by
    intro c hc
    have := plain_mem h hc
    simp only [plainChar, Bool.and_eq_true, Bool.not_eq_true'] at this
    exact this.2
  simp only [trimmed, Bool.and_eq_true, Option.all_eq_true, Bool.not_eq_true']
  exact ⟨fun c hc => hsp c (List.mem_of_mem_head? hc),
    fun c hc => hsp c (List.mem_of_mem_getLast? hc)⟩

theorem strip_of_plain {s : Str} (h : plain s = true) : strip s = s :=
  strip_replicate_append (trimmed_of_plain h) 0

theorem plain_minus {s : Str} (h : plain s = true) : plain ('-' :: s) = true := by
  simp only [plain, Bool.and_eq_true, Bool.not_eq_true', List.isEmpty_eq_false_iff,
    List.all_eq_true] at h ⊢
  refine ⟨List.cons_ne_nil _ _, fun c hc => ?_⟩
  rcases List.mem_cons.mp hc with rfl | hc
  · decide
  · exact h.2 c hc

/-! ### Reading numerals -/

theorem parseNumeral_digit {c : Char} {s : Str} (hc : c.isDigit = true)
    (hp : plain (c :: s) = true) : parseNumeral (c :: s) = parseUnsigned false (c :: s) := by
  unfold parseNumeral
  rw [strip_of_plain hp]
  split
  · rename_i heq
    rw [(List.cons.inj heq).1] at hc
    exact absurd hc (by decide)
  · rename_i heq
    rw [(List.cons.inj heq).1] at hc
    exact absurd hc (by decide)
  · rfl

theorem parseNumeral_minus {s : Str} (hp : plain ('-' :: s) = true) :
    parseNumeral ('-' :: s) = parseUnsigned true s := by
  unfold parseNumeral
  rw [strip_of_plain hp]
  rfl

private theorem toLower_of_isDigit {c : Char} (h : c.isDigit = true) : c.toLower = c := by
  simp only [Char.isDigit, Bool.and_eq_true, decide_eq_true_eq] at h
  unfold Char.toLower
  rw [dif_neg]
  rintro ⟨hA, -⟩
  exact absurd (UInt32.le_trans hA h.2) (by decide)

/-- A text of digits and points is none of the words for special numbers. -/
theorem parseUnsigned_numeric {s : Str} (h : ∀ c ∈ s, c.isDigit = true ∨ c = '.') (neg : Bool) :
    parseUnsigned neg s = (parseDecimal s).map (.decimal neg) := by
  have hlower : ∀ t : Str, (∃ c ∈ t, c.isDigit = false ∧ c ≠ '.') → lower s ≠ t := by
    rintro t ⟨c, hc, hcd, hcp⟩ rfl
    obtain ⟨d, hd, rfl⟩ := List.mem_map.mp hc
    rcases h d hd with hdigit | rfl
    · rw [toLower_of_isDigit hdigit, hdigit] at hcd
      exact Bool.noConfusion hcd
    · exact hcp rfl
  unfold parseUnsigned
  rw [if_neg (hlower _ ⟨'n', by decide⟩), if_neg (by
    rw [not_or]
    exact ⟨hlower _ ⟨'i', by decide⟩, hlower _ ⟨'i', by decide⟩⟩)]

theorem takeWhile_digits {s : Str} (h : ∀ c ∈ s, c.isDigit = true) (t : Str)
    (ht : t.head?.all (fun c => !c.isDigit) = true) :
    (s ++ t).takeWhile Char.isDigit = s ∧ (s ++ t).dropWhile Char.isDigit = t := by
  have hstop : t.takeWhile Char.isDigit = [] ∧ t.dropWhile Char.isDigit = t := by
    cases t with
    | nil => exact ⟨rfl, rfl⟩
    | cons d rest =>
        have hd : d.isDigit = false := by simpa using ht
        simp [hd]
  rw [List.takeWhile_append_of_pos h, List.dropWhile_append_of_pos h, hstop.1, hstop.2]
  simp

theorem parseDecimal_digits {w : Str} (hne : w ≠ []) (hw : ∀ c ∈ w, c.isDigit = true) :
    parseDecimal w = some (natVal w : ℚ) := by
  obtain ⟨htake, hdrop⟩ := takeWhile_digits hw [] rfl
  rw [List.append_nil] at htake hdrop
  unfold parseDecimal
  simp [htake, hdrop, hne]

/-- Digits, a point and digits. -/
theorem parseDecimal_point {w f : Str} (hne : w ≠ []) (hw : ∀ c ∈ w, c.isDigit = true)
    (hf : ∀ c ∈ f, c.isDigit = true) :
    parseDecimal (w ++ '.' :: f) = some ((natVal (w ++ f) : ℚ) / 10 ^ f.length) := by
  obtain ⟨htake, hdrop⟩ := takeWhile_digits hw ('.' :: f) rfl
  obtain ⟨hftake, hfdrop⟩ := takeWhile_digits hf [] rfl
  rw [List.append_nil] at hftake hfdrop
  unfold parseDecimal
  simp [htake, hdrop, hftake, hfdrop, hne]

/-- A text of digits and points that starts with a digit, with or without a minus sign. -/
theorem parseNumeral_numeric {c : Char} {s : Str} (hc : c.isDigit = true)
    (h : ∀ d ∈ s, d.isDigit = true ∨ d = '.') :
    parseNumeral (c :: s) = (parseDecimal (c :: s)).map (.decimal false) ∧
      parseNumeral ('-' :: c :: s) = (parseDecimal (c :: s)).map (.decimal true) := by
  have hall : ∀ d ∈ c :: s, d.isDigit = true ∨ d = '.' := by
    intro d hd
    rcases List.mem_cons.mp hd with rfl | hd
    · exact .inl hc
    · exact h d hd
  have hplain : plain (c :: s) = true := by
    simp only [plain, List.isEmpty_cons, Bool.not_false, Bool.true_and, List.all_eq_true]
    intro d hd
    rcases hall d hd with hdigit | rfl
    · exact plainChar_of_isDigit hdigit
    · decide
  rw [parseNumeral_digit hc hplain, parseNumeral_minus (plain_minus hplain),
    parseUnsigned_numeric hall, parseUnsigned_numeric hall]
  exact ⟨rfl, rfl⟩

theorem parseNumeral_digits {w : Str} (hne : w ≠ []) (hw : ∀ c ∈ w, c.isDigit = true) :
    parseNumeral w = some (.decimal false (natVal w)) ∧
      parseNumeral ('-' :: w) = some (.decimal true (natVal w)) := by
  have hparse := parseDecimal_digits hne hw
  obtain ⟨c, s, rfl⟩ := List.exists_cons_of_ne_nil hne
  obtain ⟨hpos, hneg⟩ := parseNumeral_numeric (hw c List.mem_cons_self) fun d hd =>
    .inl (hw d (List.mem_cons_of_mem c hd))
  rw [hpos, hneg, hparse]
  exact ⟨rfl, rfl⟩

theorem parseNumeral_point {w f : Str} (hne : w ≠ []) (hw : ∀ c ∈ w, c.isDigit = true)
    (hf : ∀ c ∈ f, c.isDigit = true) :
    parseNumeral (w ++ '.' :: f) =
        some (.decimal false ((natVal (w ++ f) : ℚ) / 10 ^ f.length)) ∧
      parseNumeral ('-' :: (w ++ '.' :: f)) =
        some (.decimal true ((natVal (w ++ f) : ℚ) / 10 ^ f.length)) := by
  have hparse := parseDecimal_point hne hw hf
  obtain ⟨c, s, rfl⟩ := List.exists_cons_of_ne_nil hne
  have hrest : ∀ d ∈ s ++ '.' :: f, d.isDigit = true ∨ d = '.' := by
    intro d hd
    rcases List.mem_append.mp hd with hd | hd
    · exact .inl (hw d (List.mem_cons_of_mem c hd))
    · rcases List.mem_cons.mp hd with rfl | hd
      · exact .inr rfl
      · exact .inl (hf d hd)
  obtain ⟨hpos, hneg⟩ := parseNumeral_numeric (hw c List.mem_cons_self) hrest
  rw [List.cons_append] at hparse ⊢
  rw [hpos, hneg, hparse]
  exact ⟨rfl, rfl⟩

namespace PyFloat

variable {F : Type} [PyFloat F]

/-- `float` of a text of digits. -/
theorem ofStr_digits {w : Str} (hne : w ≠ []) (hw : ∀ c ∈ w, c.isDigit = true) :
    (ofStr w : Option F) = some (lit (natVal w)) :=
  ofStr_decimal w false _ (parseNumeral_digits hne hw).1 (by simp)

/-- `float` of a text of digits, a point and digits. -/
theorem ofStr_point {w f : Str} (hne : w ≠ []) (hw : ∀ c ∈ w, c.isDigit = true)
    (hf : ∀ c ∈ f, c.isDigit = true) :
    (ofStr (w ++ '.' :: f) : Option F) = some (lit ((natVal (w ++ f) : ℚ) / 10 ^ f.length)) :=
  ofStr_decimal _ false _ (parseNumeral_point hne hw hf).1 (by simp)

theorem ofStr_intStr (n : Int) : (ofStr (intStr n) : Option F) = some (lit n) := by
  have hdigits : ∀ m : Nat, ∀ c ∈ natStr m, c.isDigit = true :=
    fun m c hc => isDigit_of_mem_natStr hc
  cases n with
  | ofNat n =>
      rw [intStr, ofStr_digits (natStr_ne_nil n) (hdigits n), natVal_natStr]
      rfl
  | negSucc n =>
      have hparse := (parseNumeral_digits (natStr_ne_nil (n + 1)) (hdigits (n + 1))).2
      rw [natVal_natStr] at hparse
      rw [intStr, ofStr_decimal _ true _ hparse fun _ => by positivity]
      simp [Int.negSucc_eq]

end PyFloat

/-! ### Reading integers -/

theorem isDigits_iff {s : Str} : isDigits s = true ↔ s ≠ [] ∧ ∀ c ∈ s, c.isDigit = true := by
  simp [isDigits]

theorem plain_of_digits {s : Str} (hne : s ≠ []) (hs : ∀ c ∈ s, c.isDigit = true) :
    plain s = true := by
  simp only [plain, Bool.and_eq_true, Bool.not_eq_true', List.isEmpty_eq_false_iff,
    List.all_eq_true]
  exact ⟨hne, fun c hc => plainChar_of_isDigit (hs c hc)⟩

/-- `int` of a text of digits. -/
theorem parseInt_digits {s : Str} (hne : s ≠ []) (hs : ∀ c ∈ s, c.isDigit = true) :
    parseInt s = some (natVal s : Int) := by
  have hdigits := isDigits_iff.mpr ⟨hne, hs⟩
  unfold parseInt
  rw [strip_of_plain (plain_of_digits hne hs)]
  split
  · exact absurd (hs '-' List.mem_cons_self) (by decide)
  · exact absurd (hs '+' List.mem_cons_self) (by decide)
  · rw [if_pos hdigits]

theorem parseInt_minus {s : Str} (hne : s ≠ []) (hs : ∀ c ∈ s, c.isDigit = true) :
    parseInt ('-' :: s) = some (-(natVal s : Int)) := by
  unfold parseInt
  rw [strip_of_plain (plain_minus (plain_of_digits hne hs))]
  exact if_pos (isDigits_iff.mpr ⟨hne, hs⟩)

/-- A decimal point is no part of an integer. -/
theorem parseInt_eq_none {s : Str} (hp : plain s = true) (hpoint : '.' ∈ s) :
    parseInt s = none := by
  have hnot : ∀ u : Str, '.' ∈ u → ¬ isDigits u = true := by
    intro u hu h
    exact absurd ((isDigits_iff.mp h).2 '.' hu) (by decide)
  unfold parseInt
  rw [strip_of_plain hp]
  split
  · exact if_neg (hnot _ (by simpa using hpoint))
  · exact if_neg (hnot _ (by simpa using hpoint))
  · exact if_neg (hnot _ hpoint)

end Python
