/-
Counting with a dictionary.

`d[k] = d.get(k, 0) + v` for each pair of a list leaves, under every key, the sum of the
values listed with it.  The statement that carries the loop is about any weights of the keys
at once: the dictionary has the weighted sum that the list has.  A set of keys is the case of
weights zero and one.
-/
import Mathlib.Algebra.BigOperators.Group.List.Basic
import Mathlib.Algebra.Order.Ring.Nat
import Nicmem.Python.Dict

namespace Python

variable {K : Type}

/-- What is listed with the keys that pass. -/
def tally (q : K → Bool) (l : List (K × Nat)) : Nat :=
  ((l.filter fun e => q e.1).map Prod.snd).sum

theorem tally_cons (q : K → Bool) (e : K × Nat) (l : List (K × Nat)) :
    tally q (e :: l) = (if q e.1 then e.2 else 0) + tally q l := by
  rw [tally, List.filter_cons]
  split
  · rw [List.map_cons, List.sum_cons]
    rfl
  · rw [Nat.zero_add]
    rfl

/-- The values, each times the weight of its key. -/
def weighted (w : K → Nat) (l : List (K × Nat)) : Nat := (l.map fun e => w e.1 * e.2).sum

theorem weighted_cons (w : K → Nat) (e : K × Nat) (l : List (K × Nat)) :
    weighted w (e :: l) = w e.1 * e.2 + weighted w l := by
  rw [weighted, List.map_cons, List.sum_cons]
  rfl

theorem weighted_append (w : K → Nat) (l l' : List (K × Nat)) :
    weighted w (l ++ l') = weighted w l + weighted w l' := by
  rw [weighted, List.map_append, List.sum_append]
  rfl

theorem weighted_perm {w : K → Nat} {l l' : List (K × Nat)} (h : l.Perm l') :
    weighted w l = weighted w l' := (h.map _).sum_eq

theorem tally_eq_weighted (q : K → Bool) (l : List (K × Nat)) :
    tally q l = weighted (fun k => if q k then 1 else 0) l := by
  induction l with
  | nil => rfl
  | cons e l ih =>
      rw [tally_cons, weighted_cons, ih]
      split
      · rw [Nat.one_mul]
      · rw [Nat.zero_mul]

theorem tally_perm {q : K → Bool} {l l' : List (K × Nat)} (h : l.Perm l') :
    tally q l = tally q l' := ((h.filter _).map _).sum_eq

/-- More keys, a greater tally. -/
theorem tally_mono {q q' : K → Bool} (h : ∀ k, q k = true → q' k = true) (l : List (K × Nat)) :
    tally q l ≤ tally q' l := by
  induction l with
  | nil => exact Nat.le_refl _
  | cons e l ih =>
      rw [tally_cons, tally_cons]
      by_cases hq : q e.1 = true
      · rw [if_pos hq, if_pos (h _ hq)]
        omega
      · rw [if_neg hq]
        omega

/-- Keys that pass at most one of two tests count at most once. -/
theorem tally_add_le {q q' : K → Bool} (h : ∀ k, q k = true → q' k = false) (l : List (K × Nat)) :
    tally q l + tally q' l ≤ tally (fun _ => true) l := by
  induction l with
  | nil => exact Nat.le_refl _
  | cons e l ih =>
      rw [tally_cons, tally_cons, tally_cons, if_pos rfl]
      by_cases hq : q e.1 = true
      · rw [if_pos hq, h _ hq, if_neg Bool.false_ne_true]
        omega
      · rw [if_neg hq]
        split <;> omega

theorem tally_all (l : List (K × Nat)) : tally (fun _ => true) l = (l.map Prod.snd).sum := by
  rw [tally, List.filter_eq_self.mpr fun _ _ => rfl]

namespace Dict

variable [DecidableEq K]

/-- `d[k] = d.get(k, 0) + v`. -/
def count (d : Dict K Nat) (e : K × Nat) : Dict K Nat := d.set e.1 ((d.get? e.1).getD 0 + e.2)

theorem weighted_count (w : K → Nat) (d : Dict K Nat) (e : K × Nat) :
    weighted w (d.count e).entries = weighted w d.entries + w e.1 * e.2 := by
  rw [count]
  cases h : d.get? e.1 with
  | none =>
      rw [entries_set_of_not_mem (get?_eq_none_iff.mp h), weighted_append, weighted_cons]
      show _ + (w e.1 * (0 + e.2) + 0) = _
      rw [Nat.zero_add, Nat.add_zero]
  | some c =>
      obtain ⟨pre, post, hsplit, hset⟩ := entries_set_of_get? h (c + e.2)
      show weighted w (d.set e.1 (c + e.2)).entries = _
      rw [hset, hsplit, weighted_append, weighted_append, weighted_cons, weighted_cons]
      dsimp only
      rw [Nat.mul_add]
      omega

theorem weighted_foldl_count (w : K → Nat) (l : List (K × Nat)) :
    ∀ d : Dict K Nat,
      weighted w (l.foldl count d).entries = weighted w d.entries + weighted w l := by
  induction l with
  | nil =>
      intro d
      rfl
  | cons e l ih =>
      intro d
      rw [List.foldl_cons, ih, weighted_count, weighted_cons, Nat.add_assoc]

theorem mem_keys_foldl_count {k : K} (l : List (K × Nat)) :
    ∀ d : Dict K Nat, k ∈ (l.foldl count d).keys ↔ k ∈ d.keys ∨ k ∈ l.map Prod.fst := by
  induction l with
  | nil =>
      intro d
      simp
  | cons e l ih =>
      intro d
      rw [List.foldl_cons, ih, count, mem_keys_set, List.map_cons, List.mem_cons, or_assoc,
        or_left_comm]

/-- The dictionary of the sums. -/
def counted (l : List (K × Nat)) : Dict K Nat := l.foldl count empty

theorem weighted_counted (w : K → Nat) (l : List (K × Nat)) :
    weighted w (counted l).entries = weighted w l := by
  rw [counted, weighted_foldl_count]
  exact Nat.zero_add _

theorem tally_counted (q : K → Bool) (l : List (K × Nat)) :
    tally q (counted l).entries = tally q l := by
  rw [tally_eq_weighted, weighted_counted, tally_eq_weighted]

theorem mem_keys_counted {k : K} {l : List (K × Nat)} :
    k ∈ (counted l).keys ↔ k ∈ l.map Prod.fst := by
  rw [counted, mem_keys_foldl_count, keys_empty]
  simp

end Dict

end Python
