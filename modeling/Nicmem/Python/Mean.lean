/-
Means of exact numbers, and their order.

Without rounding the mean of a list depends on the numbers in it and not on their order.
It is not a number exactly when one of them is not, or when infinities of both signs are
among them.

Not-a-number compares to nothing, so `<` orders only lists without it.  On those it agrees
with `below`, which puts not-a-number first and is a total order.
-/
import Mathlib.Algebra.Order.BigOperators.Group.List
import Nicmem.Python.Exact

namespace Python

namespace Exact

/-! ### Comparison -/

theorem le_trans' {x y z : Exact} (hxy : le x y = true) (hyz : le y z = true) : le x z = true := by
  rcases x with _ | (_ | _) | p <;> rcases y with _ | (_ | _) | q <;>
    rcases z with _ | (_ | _) | r <;> simp [le] at hxy hyz ⊢
  exact le_trans hxy hyz

theorem le_antisymm' {x y : Exact} (hxy : le x y = true) (hyx : le y x = true) : x = y := by
  match x, y, hxy, hyx with
  | fin p, fin q, hxy, hyx =>
      exact congrArg fin (le_antisymm (of_decide_eq_true hxy) (of_decide_eq_true hyx))
  | inf true, inf true, _, _ => rfl
  | inf false, inf false, _, _ => rfl

/-- Of two numbers the second is not below the first exactly when the first is at most it. -/
theorem not_lt_eq_le {x y : Exact} (hx : x ≠ nan) (hy : y ≠ nan) : (!lt y x) = le x y := by
  match x, y, hx, hy with
  | fin p, fin q, _, _ =>
      show (!decide (q < p)) = decide (p ≤ q)
      rw [← decide_not, decide_eq_decide, not_lt]
  | fin _, inf true, _, _ => rfl
  | fin _, inf false, _, _ => rfl
  | inf true, fin _, _, _ => rfl
  | inf false, fin _, _, _ => rfl
  | inf true, inf true, _, _ => rfl
  | inf true, inf false, _, _ => rfl
  | inf false, inf true, _, _ => rfl
  | inf false, inf false, _, _ => rfl

theorem not_lt_nan (x : Exact) : lt nan x = false ∧ lt x nan = false := by
  match x with
  | nan => exact ⟨rfl, rfl⟩
  | inf true => exact ⟨rfl, rfl⟩
  | inf false => exact ⟨rfl, rfl⟩
  | fin _ => exact ⟨rfl, rfl⟩

theorem le_total' {x y : Exact} (hx : x ≠ nan) (hy : y ≠ nan) : le x y = true ∨ le y x = true := by
  match x, y, hx, hy with
  | fin p, fin q, _, _ =>
      exact (le_total p q).imp (fun h => decide_eq_true h) fun h => decide_eq_true h
  | fin _, inf true, _, _ => exact .inr rfl
  | fin _, inf false, _, _ => exact .inl rfl
  | inf true, fin _, _, _ => exact .inl rfl
  | inf false, fin _, _, _ => exact .inr rfl
  | inf true, inf true, _, _ => exact .inl rfl
  | inf true, inf false, _, _ => exact .inl rfl
  | inf false, inf true, _, _ => exact .inr rfl
  | inf false, inf false, _, _ => exact .inl rfl

/-- A total order on all of them: not-a-number comes first. -/
def below (x y : Exact) : Bool := x == nan || le x y

theorem below_trans (x y z : Exact) (hxy : below x y = true) (hyz : below y z = true) :
    below x z = true := by
  unfold below at hxy hyz ⊢
  rw [Bool.or_eq_true, beq_iff_eq] at hxy hyz ⊢
  rcases hxy with hx | hxy
  · exact .inl hx
  · rcases hyz with rfl | hyz
    · -- nothing is at most not-a-number
      match x, hxy with
      | nan, hxy => cases hxy
      | inf _, hxy => cases hxy
      | fin _, hxy => cases hxy
    · exact .inr (le_trans' hxy hyz)

theorem below_total (x y : Exact) : (below x y || below y x) = true := by
  unfold below
  by_cases hx : x = nan
  · simp [hx]
  by_cases hy : y = nan
  · simp [hy]
  · rcases le_total' hx hy with h | h <;> simp [h]

/-! ### Sums and means -/

theorem average_eq (l : List Exact) :
    average l = if l = [] then nan else div l.sum (fin l.length) := by
  unfold average sum
  rw [foldl_add_eq, show (fin 0 : Exact) = 0 from rfl, zero_add]
  simp only [List.isEmpty_iff]

/-- The mean does not depend on the order of the samples. -/
theorem average_perm {l l' : List Exact} (h : l.Perm l') : average l = average l' := by
  rw [average_eq, average_eq, h.sum_eq, h.length_eq]
  by_cases hl : l = []
  · rw [if_pos hl, if_pos (by rw [← List.perm_nil, ← hl]; exact h.symm)]
  · rw [if_neg hl, if_neg fun hl' => hl (by rw [← List.perm_nil, ← hl']; exact h)]

theorem std_perm {l l' : List Exact} (h : l.Perm l') : std l = std l' := by
  unfold std
  rw [average_perm h]
  exact congrArg sqrt (average_perm (h.map _))

theorem add_eq_nan_iff {x y : Exact} :
    x + y = nan ↔ x = nan ∨ y = nan ∨ ∃ s, x = inf s ∧ y = inf (!s) := by
  show add x y = nan ↔ _
  rcases x with _ | (_ | _) | p <;> rcases y with _ | (_ | _) | q <;> simp [add]

theorem add_eq_inf_iff {x y : Exact} {s : Bool} :
    x + y = inf s ↔ (x = inf s ∨ y = inf s) ∧ x + y ≠ nan := by
  show add x y = inf s ↔ _ ∧ add x y ≠ nan
  rcases x with _ | (_ | _) | p <;> rcases y with _ | (_ | _) | q <;> cases s <;> simp [add]

/-- A sum that is infinite has an infinite summand. -/
theorem inf_mem_of_sum {s : Bool} {l : List Exact} (h : l.sum = inf s) : inf s ∈ l := by
  induction l with
  | nil => cases h
  | cons x rest ih =>
      rw [List.sum_cons, add_eq_inf_iff] at h
      rcases h.1 with rfl | hrest
      · exact List.mem_cons_self
      · exact List.mem_cons_of_mem x (ih hrest)

/-- An infinite summand makes the sum infinite, or no number. -/
theorem sum_of_inf_mem {s : Bool} {l : List Exact} (h : inf s ∈ l) :
    l.sum = inf s ∨ l.sum = nan := by
  induction l with
  | nil => cases h
  | cons x rest ih =>
      rw [List.sum_cons]
      by_cases hnan : x + rest.sum = nan
      · exact .inr hnan
      · rw [add_eq_inf_iff]
        rcases List.mem_cons.mp h with rfl | hrest
        · exact .inl ⟨.inl rfl, hnan⟩
        · rcases ih hrest with hsum | hsum
          · exact .inl ⟨.inr hsum, hnan⟩
          · exact absurd (add_eq_nan_iff.mpr (.inr (.inl hsum))) hnan

/-- A sum is no number when a summand is none, or when infinities of both signs are there. -/
theorem sum_eq_nan_iff (l : List Exact) : l.sum = nan ↔ nan ∈ l ∨ ∀ s, inf s ∈ l := by
  induction l with
  | nil =>
      have h : ([] : List Exact).sum = fin 0 := rfl
      simp [h]
  | cons x rest ih =>
      rw [List.sum_cons, add_eq_nan_iff]
      constructor
      · rintro (rfl | hrest | ⟨s, rfl, hrest⟩)
        · exact .inl List.mem_cons_self
        · rcases ih.mp hrest with hnan | hinf
          · exact .inl (List.mem_cons_of_mem x hnan)
          · exact .inr fun s => List.mem_cons_of_mem x (hinf s)
        · refine .inr fun t => ?_
          by_cases hts : t = s
          · rw [hts]
            exact List.mem_cons_self
          · rw [show t = !s by cases t <;> cases s <;> simp_all]
            exact List.mem_cons_of_mem _ (inf_mem_of_sum hrest)
      · rintro (hnan | hinf)
        · rcases List.mem_cons.mp hnan with rfl | hnan
          · exact .inl rfl
          · exact .inr (.inl (ih.mpr (.inl hnan)))
        · by_cases hx : ∃ s, x = inf s
          · obtain ⟨s, rfl⟩ := hx
            have hrest : inf (!s) ∈ rest := by simpa using hinf (!s)
            rcases sum_of_inf_mem hrest with hsum | hsum
            · exact .inr (.inr ⟨s, rfl, hsum⟩)
            · exact .inr (.inl hsum)
          · refine .inr (.inl (ih.mpr (.inr fun s => ?_)))
            exact (List.mem_cons.mp (hinf s)).resolve_left fun h => hx ⟨s, h.symm⟩

theorem average_eq_nan_iff {l : List Exact} (hne : l ≠ []) :
    average l = nan ↔ nan ∈ l ∨ ∀ s, inf s ∈ l := by
  have hlen : (l.length : ℚ) ≠ 0 := by
    rw [Nat.cast_ne_zero]
    exact fun h => hne (List.eq_nil_of_length_eq_zero h)
  rw [← sum_eq_nan_iff, average_eq, if_neg hne]
  cases l.sum with
  | nan => simp [div]
  | inf s => simp [div]
  | fin q => simp [div, hlen]

end Exact

end Python
