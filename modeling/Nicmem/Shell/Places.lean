/-
What two sorted lists have in common, place by place.

In a sorted list the elements up to a bound come first, so how many there are says which
places they have.  Two sorted lists laid side by side therefore agree exactly when below
every bound they have equally many elements.
-/
import Mathlib.Data.List.Sort
import Mathlib.Algebra.Order.Ring.Rat

namespace Shell

/-! ### Places in a sorted list -/

section Places

variable {α : Type} {r : α → α → Prop}

/-- In a sorted list the elements with a property that passes to smaller ones come first. -/
theorem getElem_iff_lt_countP {xs : List α} (h : xs.Pairwise r) {q : α → Prop} [DecidablePred q]
    (hq : ∀ x y, r x y → q y → q x) {i : Nat} (hi : i < xs.length) :
    q xs[i] ↔ i < xs.countP (fun x => q x) := by
  induction xs generalizing i with
  | nil => simp at hi
  | cons x xs ih =>
      rw [List.pairwise_cons] at h
      by_cases hx : q x
      · rw [List.countP_cons_of_pos (by simpa using hx)]
        cases i with
        | zero => simpa using hx
        | succ i =>
            rw [List.getElem_cons_succ, ih h.2, Nat.add_lt_add_iff_right]
      · have hall : ∀ y ∈ x :: xs, ¬ q y := by
          intro y hy hqy
          rcases List.mem_cons.mp hy with rfl | hy
          · exact hx hqy
          · exact hx (hq x y (h.1 y hy) hqy)
        have hzero : (x :: xs).countP (fun x => q x) = 0 := by
          rw [List.countP_eq_zero]
          intro y hy
          simpa using hall y hy
        rw [hzero]
        exact ⟨fun hle => absurd hle (hall _ (List.getElem_mem hi)), fun hlt => by omega⟩

end Places

/-! ### Two sorted lists, place by place -/

theorem forall_mem_zip {α β : Type} {P : α → β → Prop} {xs : List α} {ys : List β} :
    (∀ p ∈ xs.zip ys, P p.1 p.2) ↔
      ∀ i (hi : i < xs.length) (hj : i < ys.length), P xs[i] ys[i] := by
  constructor
  · intro h i hi hj
    have hlen : i < (xs.zip ys).length := by rw [List.length_zip]; omega
    have hp := h _ (List.getElem_mem hlen)
    rwa [List.getElem_zip] at hp
  · intro h p hp
    obtain ⟨i, hi, rfl⟩ := List.getElem_of_mem hp
    rw [List.length_zip] at hi
    rw [List.getElem_zip]
    exact h i (by omega) (by omega)

/-- In a sorted list the elements up to a bound are the first ones. -/
theorem getElem_le_iff {xs : List ℚ} (h : xs.Pairwise (· ≤ ·)) {i : Nat} (hi : i < xs.length)
    (r : ℚ) : xs[i] ≤ r ↔ i < xs.countP (· ≤ r) :=
  getElem_iff_lt_countP h (fun _ _ hxy hy => hxy.trans hy) hi

/--
Two sorted lists agree place by place, as far as both reach, exactly when below every
bound they have equally many elements, counted up to the length of the shorter one.
-/
theorem zip_eq_iff_countP {xs ys : List ℚ} (hx : xs.Pairwise (· ≤ ·)) (hy : ys.Pairwise (· ≤ ·)) :
    (∀ p ∈ xs.zip ys, p.1 = p.2) ↔
      ∀ r, min (xs.countP (· ≤ r)) (min xs.length ys.length) =
        min (ys.countP (· ≤ r)) (min xs.length ys.length) := by
  rw [forall_mem_zip (P := fun x y => x = y)]
  constructor
  · intro h r
    refine Nat.le_antisymm ?_ ?_
    · by_contra hlt
      -- the first place at which only the first list is still below the bound
      have hi : min (ys.countP (· ≤ r)) (min xs.length ys.length) < xs.length := by omega
      have hj : min (ys.countP (· ≤ r)) (min xs.length ys.length) < ys.length := by omega
      have hxr := (getElem_le_iff hx hi r).mpr (by omega)
      rw [h _ hi hj] at hxr
      have := (getElem_le_iff hy hj r).mp hxr
      omega
    · by_contra hlt
      have hi : min (xs.countP (· ≤ r)) (min xs.length ys.length) < xs.length := by omega
      have hj : min (xs.countP (· ≤ r)) (min xs.length ys.length) < ys.length := by omega
      have hyr := (getElem_le_iff hy hj r).mpr (by omega)
      rw [← h _ hi hj] at hyr
      have := (getElem_le_iff hx hi r).mp hyr
      omega
  · intro h i hi hj
    have hiff : ∀ r, xs[i] ≤ r ↔ ys[i] ≤ r := by
      intro r
      have hr := h r
      rw [getElem_le_iff hx hi, getElem_le_iff hy hj]
      omega
    exact le_antisymm ((hiff _).mpr le_rfl) ((hiff _).mp le_rfl)

end Shell
