/-
Does the comparison compare like with like?

The base rows and the nic rows of one hot area are sorted by their ratio column and
pasted place by place.  Where that column orders the rows as the ratios in their names do,
as it does when every row has its own ratio there, the ratios of each half come out in
order, and two ordered lists agree place by place exactly when below every bound they have
equally many elements, as far as the shorter one reaches.  So one missing run shifts all
the rows after it.
-/
import Nicmem.Plot
import Nicmem.Shell.Places

namespace Nicmem

open Python Shell

/-! ### Ratios -/

/-- The ratio in the name of a row: what follows the last dash of its first cell. -/
def ratioOf (l : Str) : ℚ := leadingNumber ((((keyAt 1 l).splitOn '-').getLast?).getD [])

/-- The row has the ratio of its name in the column it is sorted by. -/
def OwnRatio (l : Str) : Prop := leadingNumber (keyAt 16 l) = ratioOf l

instance (l : Str) : Decidable (OwnRatio l) := inferInstanceAs (Decidable (_ = _))

/-- The column orders the rows as their ratios do. -/
def InOrder (rows : List Str) : Prop :=
  ∀ l ∈ rows, ∀ l' ∈ rows, leadingNumber (keyAt 16 l) ≤ leadingNumber (keyAt 16 l') →
    ratioOf l ≤ ratioOf l'

theorem inOrder_of_ownRatio {rows : List Str} (h : ∀ l ∈ rows, OwnRatio l) : InOrder rows := by
  intro l hl l' hl' hle
  rwa [h l hl, h l' hl'] at hle

/-- How many of the rows have a ratio up to `r`. -/
def upTo (r : ℚ) (rows : List Str) : Nat := rows.countP fun l => ratioOf l ≤ r

/-- The number of lines that carry both halves. -/
def bothHalves (size : HotArea) (csv : List Str) : Nat :=
  min (baseSelection size csv).length (nicSelection size csv).length

/-- In every line after the header that carries both halves, they have the same ratio. -/
def Aligned (C : Collation) (size : HotArea) (csv : List Str) : Prop :=
  ∀ b n, (some b, some n) ∈ (latAllRows C size csv).tail → ratioOf b = ratioOf n

/-- Such rows come out of the sort with their ratios in order. -/
theorem sortNumeric_ratios (C : Collation) {rows : List Str} (h : InOrder rows) :
    ((sortNumeric C (keyAt 16) rows).map ratioOf).Pairwise (· ≤ ·) := by
  have hmem : ∀ {l}, l ∈ sortNumeric C (keyAt 16) rows → l ∈ rows :=
    fun hl => (sortNumeric_perm C _ rows).mem_iff.mp hl
  rw [List.pairwise_map]
  refine (List.pairwise_map.mp (sortNumeric_sorted C (keyAt 16) rows)).imp_of_mem ?_
  intro l l' hl hl' hle
  exact h l (hmem hl) l' (hmem hl') hle

theorem countP_sortNumeric (C : Collation) (rows : List Str) (r : ℚ) :
    ((sortNumeric C (keyAt 16) rows).map ratioOf).countP (· ≤ r) = upTo r rows := by
  rw [List.countP_map, (sortNumeric_perm C _ rows).countP_eq]
  rfl

/-- Runs at the same ratios are equally many up to every ratio. -/
theorem upTo_of_perm {rows rows' : List Str} (h : (rows.map ratioOf).Perm (rows'.map ratioOf))
    (r : ℚ) : upTo r rows = upTo r rows' := by
  have hcount := h.countP_eq (· ≤ r)
  rw [List.countP_map, List.countP_map] at hcount
  exact hcount

/-- The lines with both halves are the pairs of the sorted selections. -/
theorem aligned_iff_zip (C : Collation) (size : HotArea) (csv : List Str) :
    Aligned C size csv ↔
      ∀ p ∈ (baseRows C size csv).zip (nicRows C size csv), ratioOf p.1 = ratioOf p.2 := by
  unfold Aligned latAllRows
  simp only [pasteRows, List.head?_cons, List.tail_cons, mem_pasteRows_both]
  constructor
  · intro h p hp
    exact h p.1 p.2 hp
  · intro h b n hmem
    exact h (b, n) hmem

/--
**When the comparison is aligned.**  Where the ratio column orders the rows of both halves as
the ratios in their names do: exactly when for every ratio `r` there are equally many base
rows and nic rows with a ratio up to `r`, or of both at least as many as there are lines
with both halves.
-/
theorem aligned_iff (C : Collation) (size : HotArea) (csv : List Str)
    (hbase : InOrder (baseSelection size csv)) (hnic : InOrder (nicSelection size csv)) :
    Aligned C size csv ↔
      ∀ r, min (upTo r (baseSelection size csv)) (bothHalves size csv) =
        min (upTo r (nicSelection size csv)) (bothHalves size csv) := by
  have hzip : Aligned C size csv ↔ ∀ p ∈ ((baseRows C size csv).map ratioOf).zip
      ((nicRows C size csv).map ratioOf), p.1 = p.2 := by
    rw [aligned_iff_zip, List.zip_map, List.forall_mem_map]
    rfl
  have hsortedBase : ((baseRows C size csv).map ratioOf).Pairwise (· ≤ ·) :=
    sortNumeric_ratios C hbase
  have hsortedNic : ((nicRows C size csv).map ratioOf).Pairwise (· ≤ ·) :=
    sortNumeric_ratios C hnic
  have hlen : min ((baseRows C size csv).map ratioOf).length
      ((nicRows C size csv).map ratioOf).length = bothHalves size csv := by
    rw [List.length_map, List.length_map, baseRows, nicRows, (sortNumeric_perm C _ _).length_eq,
      (sortNumeric_perm C _ _).length_eq]
    rfl
  rw [hzip, zip_eq_iff_countP hsortedBase hsortedNic, hlen]
  refine forall_congr' fun r => ?_
  rw [baseRows, nicRows, countP_sortNumeric, countP_sortNumeric]

/-- A row of the key-value store: its name ends in `ratio`, its ratio column says `column`. -/
def micaRow (memtype ratio column : String) : Str :=
  [','].intercalate
    (("mica_get-".toList ++ memtype.toList ++ "-4-16-0.0-256-".toList ++ ratio.toList)
    :: List.replicate 14 ['1'] ++ [column.toList, ['1']])

/-- Both memory types ran at the same ratios. -/
def completeRuns : List Str :=
  [micaRow "base" "0" "0", micaRow "base" "20" "20", micaRow "nic" "20" "20", micaRow "nic" "0" "0"]

theorem aligned_completeRuns :
    bothHalves .k256 completeRuns = 2 ∧ Aligned .bytes .k256 completeRuns := by
  have hbase : InOrder (baseSelection .k256 completeRuns) :=
    inOrder_of_ownRatio (by decide +kernel)
  have hnic : InOrder (nicSelection .k256 completeRuns) :=
    inOrder_of_ownRatio (by decide +kernel)
  have hratios : ((baseSelection .k256 completeRuns).map ratioOf).Perm
      ((nicSelection .k256 completeRuns).map ratioOf) := by
    decide +kernel
  refine ⟨by decide +kernel, (aligned_iff .bytes .k256 completeRuns hbase hnic).mpr fun r => ?_⟩
  rw [upTo_of_perm hratios]

/-- One run of the nic is missing. -/
def missingRun : List Str :=
  [micaRow "base" "0" "0", micaRow "base" "20" "20", micaRow "nic" "20" "20"]

/-- All runs are there, but one has no ratio in its environment, and zero stands in the column. -/
def missingRatio : List Str :=
  [micaRow "base" "0" "0", micaRow "base" "20" "20", micaRow "base" "100" "100",
    micaRow "nic" "0" "0", micaRow "nic" "20" "20", micaRow "nic" "100" "0"]

/-- A missing run, or a missing ratio, pairs rows of different ratios. -/
theorem not_aligned :
    ((some (micaRow "base" "0" "0"), some (micaRow "nic" "20" "20")) ∈
        (latAllRows .bytes .k256 missingRun).tail ∧
      ratioOf (micaRow "base" "0" "0") ≠ ratioOf (micaRow "nic" "20" "20")) ∧
    (some (micaRow "base" "20" "20"), some (micaRow "nic" "100" "0")) ∈
        (latAllRows .bytes .k256 missingRatio).tail ∧
      ratioOf (micaRow "base" "20" "20") ≠ ratioOf (micaRow "nic" "100" "0") := by
  decide +kernel

end Nicmem
