/-
Arrays of C: the list of the elements.

Reading or writing outside an array is undefined behaviour and has no result, as for the
buffers of `C.Memory`.  An element is read with `[i]?`; `updateAt` changes one in place.
A loop over the indices is a fold in `Option`.
-/
import Mathlib.Data.List.GetD

namespace C

variable {α : Type*}

/-- An element of an array, changed in place. -/
def updateAt (array : List α) (i : Nat) (f : α → Option α) : Option (List α) :=
  (array[i]?).bind fun x => (f x).map (array.set i)

/-- `array[i] = x`. -/
def store (array : List α) (i : Nat) (x : α) : Option (List α) := updateAt array i fun _ => some x

theorem getElem?_eq_getD {array : List α} {i : Nat} (d : α) (h : i < array.length) :
    array[i]? = some (array.getD i d) := by
  rw [List.getElem?_eq_getElem h, List.getD_eq_getElem _ _ h]

theorem getD_set {array : List α} {i : Nat} (x d : α) (h : i < array.length) (j : Nat) :
    (array.set i x).getD j d = if j = i then x else array.getD j d := by
  rw [List.getD_eq_getElem?_getD, List.getD_eq_getElem?_getD, List.getElem?_set]
  rcases eq_or_ne i j with rfl | hne
  · rw [if_pos rfl, if_pos rfl, if_pos h, Option.getD_some]
  · rw [if_neg hne, if_neg (Ne.symm hne)]

/-- Inside the array the element is replaced and the others stay. -/
theorem updateAt_spec {array : List α} {i : Nat} {y : α} (f : α → Option α) (d : α)
    (h : i < array.length) (hf : f (array.getD i d) = some y) :
    ∃ array', updateAt array i f = some array' ∧ array'.length = array.length ∧
      ∀ j, array'.getD j d = if j = i then y else array.getD j d := by
  refine ⟨array.set i y, ?_, List.length_set, getD_set y d h⟩
  rw [updateAt, getElem?_eq_getD d h, Option.bind_some, hf, Option.map_some]

/-- A loop that counts up to `n`: the rounds are defined and keep an invariant of the count. -/
theorem foldlM_range {σ : Type*} {f : σ → Nat → Option σ} {I : Nat → σ → Prop} {n : Nat}
    (h : ∀ k, k < n → ∀ s, I k s → ∃ s', f s k = some s' ∧ I (k + 1) s') {s : σ} (hs : I 0 s) :
    ∃ s', (List.range n).foldlM f s = some s' ∧ I n s' := by
  induction n with
  | zero => exact ⟨s, rfl, hs⟩
  | succ n ih =>
      obtain ⟨s₁, hloop, hs₁⟩ := ih fun k hk => h k (by omega)
      obtain ⟨s', hround, hs'⟩ := h n (by omega) s₁ hs₁
      refine ⟨s', ?_, hs'⟩
      rw [List.range_succ, List.foldlM_append, hloop]
      simp [hround]

end C
