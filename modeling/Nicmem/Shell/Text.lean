/-
The text tools the plot scripts are pipelines of.

`grep` with a fixed text keeps the lines that contain it.  `awk` splits a line into
fields and compares two texts as numbers when both look like one; which number it reads, a
rounded one, is a parameter.  `sort -n` orders lines by the number a field starts with,
taking zero where there is none, and breaks ties by comparing whole lines in the order of
the locale, which is a parameter as well.  `paste` joins two files line by line, whatever
the lines say.
-/
import Mathlib.Data.List.Sort
import Nicmem.Python.Exact

namespace Shell

open Python

/-! ### echo -/

/-- The words the shell makes of an unquoted text; none of them is a pattern of file names. -/
def words (s : Str) : List Str :=
  (s.splitOnP fun c => c == ' ' || c == '\t' || c == '\n').filter fun w => !w.isEmpty

/-- `echo` of some words. -/
def echo (ws : List Str) : Str := [' '].intercalate ws

/-! ### grep -/

/-- `grep pat`. -/
def grep (pat : Str) (ls : List Str) : List Str := ls.filter (hasSub pat)

/-- `grep -v pat`. -/
def grepV (pat : Str) (ls : List Str) : List Str := ls.filter fun l => !hasSub pat l

/-! ### awk -/

/-- The fields of a line under `-F '"*,"*'`: quotes next to a comma belong to the separator. -/
def awkFields (l : Str) : List Str :=
  let pieces := l.splitOn ','
  pieces.mapIdx fun i piece =>
    let piece := if 0 < i then piece.dropWhile (· == '"') else piece
    if i + 1 < pieces.length then piece.rdropWhile (· == '"') else piece

/-- `$n`; a field that is not there is empty. -/
def awkField (n : Nat) (l : Str) : Str := ((awkFields l)[n - 1]?).getD []

/-- The comparison operators. -/
inductive Op where
  | lt | le | gt | ge
  deriving DecidableEq, Repr

/-- An operator on two values, given whether the first is below and above the second. -/
def Op.holds (op : Op) (below above : Bool) : Bool :=
  match op with
  | .lt => below
  | .ge => !below
  | .gt => above
  | .le => !above

section Awk

variable {N : Type} [LinearOrder N] (number : Str → Option N)

/-- `x op y`: as numbers where both look like one, as texts otherwise. -/
def awkCompare (op : Op) (x y : Str) : Bool :=
  match number x, number y with
  | some a, some b => op.holds (decide (a < b)) (decide (b < a))
  | _, _ => op.holds (decide (x < y)) (decide (y < x))

/-- `awk '$n op y'`. -/
def awk (n : Nat) (op : Op) (y : Str) (ls : List Str) : List Str :=
  ls.filter fun l => awkCompare number op (awkField n l) y

end Awk

/-! ### sort -/

/-- The order in which the locale compares whole lines. -/
structure Collation where
  le : Str → Str → Bool
  trans : ∀ x y z, le x y → le y z → le x z
  total : ∀ x y, le x y ∨ le y x

/-- The order of the C locale. -/
def Collation.bytes : Collation where
  le x y := decide (List.le x y)
  trans x y z hxy hyz := by
    simp only [decide_eq_true_eq] at hxy hyz ⊢
    exact List.le_trans hxy hyz
  total x y := by
    simp only [decide_eq_true_eq]
    exact List.le_total x y

/-- The digits and fraction a text starts with. -/
def leadingDecimal (s : Str) : ℚ :=
  let whole := s.takeWhile Char.isDigit
  let rest := s.dropWhile Char.isDigit
  let frac := if rest.head? = some '.' then (rest.drop 1).takeWhile Char.isDigit else []
  (natVal (whole ++ frac) : ℚ) / 10 ^ frac.length

/-- The number a key starts with; zero where there is none. -/
def leadingNumber (s : Str) : ℚ :=
  match s.dropWhile fun c => c == ' ' || c == '\t' with
  | '-' :: u => -leadingDecimal u
  | u => leadingDecimal u

/-- The key `-t, -kn,n`. -/
def keyAt (n : Nat) (l : Str) : Str := ((l.splitOn ',')[n - 1]?).getD []

/-- The key `-t, -kn`, which goes on to the end of the line. -/
def keyFrom (n : Nat) (l : Str) : Str := [','].intercalate ((l.splitOn ',').drop (n - 1))

/-- Numeric order by a key, ties broken by the whole line. -/
def numericLe (C : Collation) (key : Str → Str) (x y : Str) : Prop :=
  leadingNumber (key x) < leadingNumber (key y) ∨
    leadingNumber (key x) = leadingNumber (key y) ∧ C.le x y = true

instance (C : Collation) (key : Str → Str) : DecidableRel (numericLe C key) := fun _ _ =>
  inferInstanceAs (Decidable (_ ∨ _))

/-- `sort -n` by a key. -/
def sortNumeric (C : Collation) (key : Str → Str) (ls : List Str) : List Str :=
  ls.insertionSort (numericLe C key)

theorem numericLe_total (C : Collation) (key : Str → Str) : Std.Total (numericLe C key) := by
  refine ⟨fun x y => ?_⟩
  rcases lt_trichotomy (leadingNumber (key x)) (leadingNumber (key y)) with h | h | h
  · exact .inl (.inl h)
  · exact (C.total x y).imp (fun hc => .inr ⟨h, hc⟩) fun hc => .inr ⟨h.symm, hc⟩
  · exact .inr (.inl h)

theorem numericLe_trans (C : Collation) (key : Str → Str) : IsTrans Str (numericLe C key) := by
  refine ⟨fun x y z hxy hyz => ?_⟩
  rcases hxy with hxy | ⟨hxy, hcxy⟩
  · rcases hyz with hyz | ⟨hyz, -⟩
    · exact .inl (hxy.trans hyz)
    · exact .inl (hyz ▸ hxy)
  · rcases hyz with hyz | ⟨hyz, hcyz⟩
    · exact .inl (hxy ▸ hyz)
    · exact .inr ⟨hxy.trans hyz, C.trans x y z hcxy hcyz⟩

theorem sortNumeric_perm (C : Collation) (key : Str → Str) (ls : List Str) :
    (sortNumeric C key ls).Perm ls := List.perm_insertionSort _ _

/-- The keys come out in numeric order. -/
theorem sortNumeric_sorted (C : Collation) (key : Str → Str) (ls : List Str) :
    ((sortNumeric C key ls).map fun l => leadingNumber (key l)).Pairwise (· ≤ ·) := by
  have := numericLe_total C key
  have := numericLe_trans C key
  rw [List.pairwise_map]
  refine (List.pairwise_insertionSort (numericLe C key) ls).imp ?_
  rintro x y (h | ⟨h, -⟩)
  · exact h.le
  · exact h.le

/-! ### paste -/

/-- `paste a b`: the lines the two files have at the same place, before they are joined. -/
def pasteRows : List Str → List Str → List (Option Str × Option Str)
  | [], ys => ys.map fun y => (none, some y)
  | x :: xs, ys => (some x, ys.head?) :: pasteRows xs ys.tail

/-- The lines that carry both halves are the pairs of the two files. -/
theorem mem_pasteRows_both {x y : Str} (xs ys : List Str) :
    (some x, some y) ∈ pasteRows xs ys ↔ (x, y) ∈ xs.zip ys := by
  induction xs generalizing ys with
  | nil => simp [pasteRows]
  | cons a xs ih =>
      rw [pasteRows, List.mem_cons, ih]
      cases ys with
      | nil => simp
      | cons b ys => simp

end Shell
