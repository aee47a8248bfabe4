/-
`sorted`, as far as a program may rely on it.

The language says what `sorted` does with values whose comparison orders them: it permutes
them into ascending order.  With not-a-number among the values the comparison orders
nothing, and what comes out depends on the algorithm.  The interpreter looks for a run that
does not descend at the front of the list, so a list that is one such run comes back as it
is; nothing more is said of the others than that they are permuted.  A program takes the
sort as an argument, and a result proved for every `Sorting` holds for the interpreter's.

Insertion sort is one, and what short lists are in fact sorted by, but for the search of the
place.
-/
import Mathlib.Data.List.Chain
import Mathlib.Data.List.Perm.Basic

namespace Python

variable {α β : Type}

/-- The comparison orders the members of the list, some of which it may not tell apart. -/
structure Consistent (lt : α → α → Bool) (l : List α) : Prop where
  asymm : ∀ x ∈ l, ∀ y ∈ l, lt x y = true → lt y x = false
  trans : ∀ x ∈ l, ∀ y ∈ l, ∀ z ∈ l, lt y x = false → lt z y = false → lt z x = false

theorem Consistent.mono {lt : α → α → Bool} {l l' : List α} (h : Consistent lt l)
    (hsub : ∀ x ∈ l', x ∈ l) : Consistent lt l' where
  asymm x hx y hy := h.asymm x (hsub x hx) y (hsub y hy)
  trans x hx y hy z hz := h.trans x (hsub x hx) y (hsub y hy) z (hsub z hz)

/-- A way to sort: `sorted` with the comparison `lt`. -/
class Sorting where
  sorted : {α : Type} → (α → α → Bool) → List α → List α
  perm : ∀ {α : Type} (lt : α → α → Bool) (l : List α), (sorted lt l).Perm l
  /-- A list that nowhere descends is left as it is. -/
  ascending : ∀ {α : Type} {lt : α → α → Bool} {l : List α},
    l.IsChain (fun x y => lt y x = false) → sorted lt l = l
  pairwise : ∀ {α : Type} {lt : α → α → Bool} {l : List α}, Consistent lt l →
    (sorted lt l).Pairwise fun x y => lt y x = false

namespace Sorting

section Sorted

variable [Sorting] {lt : α → α → Bool} {l l' : List α}

theorem length_sorted (lt : α → α → Bool) (l : List α) : (sorted lt l).length = l.length :=
  (perm lt l).length_eq

theorem mem_sorted {x : α} : x ∈ sorted lt l ↔ x ∈ l := (perm lt l).mem_iff

/-- Sorted through a function into an order, the list is the sorted list of the images. -/
theorem eq_map_sorted {f : α → β} {le : β → β → Prop} {s : List β} (h : Consistent lt l)
    (hle : ∀ x ∈ l, ∀ y ∈ l, lt y x = false → le (f x) (f y))
    (hanti : ∀ a b, le a b → le b a → a = b) (hperm : s.Perm (l.map f)) (hs : s.Pairwise le) :
    (sorted lt l).map f = s := by
  refine List.Perm.eq_of_pairwise (fun a b _ _ => hanti a b) ?_ hs
    (((perm lt l).map f).trans hperm.symm)
  rw [List.pairwise_map]
  exact (pairwise h).imp_of_mem fun hx hy hxy => hle _ (mem_sorted.mp hx) _ (mem_sorted.mp hy) hxy

end Sorted

/-! ### Insertion sort -/

section Insertion

variable {lt : α → α → Bool} {x : α} {l : List α}

/-- `x` put into a descending list, behind what is greater. -/
def insert (lt : α → α → Bool) (x : α) : List α → List α
  | [] => [x]
  | y :: l => if lt x y then y :: insert lt x l else x :: y :: l

/-- The list in descending order. -/
def descending (lt : α → α → Bool) : List α → List α → List α
  | acc, [] => acc
  | acc, x :: l => descending lt (insert lt x acc) l

theorem insert_perm (lt : α → α → Bool) (x : α) (l : List α) :
    (insert lt x l).Perm (x :: l) := by
  induction l with
  | nil => exact .refl _
  | cons y l ih =>
      rw [insert]
      split
      · exact (ih.cons y).trans (.swap x y l)
      · exact .refl _

theorem descending_perm (lt : α → α → Bool) (l : List α) :
    ∀ acc, (descending lt acc l).Perm (l.reverse ++ acc) := by
  induction l with
  | nil =>
      intro acc
      exact .refl _
  | cons x l ih =>
      intro acc
      rw [descending, List.reverse_cons, List.append_assoc]
      exact (ih _).trans ((insert_perm lt x acc).append_left _)

/-- Nothing moves in a list that nowhere descends. -/
theorem descending_of_chain (l : List α) :
    ∀ acc, (acc.reverse ++ l).IsChain (fun x y => lt y x = false) →
      descending lt acc l = l.reverse ++ acc := by
  induction l with
  | nil =>
      intro acc _
      rfl
  | cons x l ih =>
      intro acc h
      have hinsert : insert lt x acc = x :: acc := by
        cases acc with
        | nil => rfl
        | cons y acc =>
            rw [List.reverse_cons, List.append_assoc, List.singleton_append,
              List.isChain_append_cons_cons] at h
            rw [insert, h.2.1, if_neg Bool.false_ne_true]
      rw [descending, hinsert, ih _ (by simpa using h), List.reverse_cons, List.append_assoc]
      rfl

theorem insert_pairwise (h : Consistent lt (x :: l))
    (hl : l.Pairwise fun a b => lt a b = false) :
    (insert lt x l).Pairwise fun a b => lt a b = false := by
  induction l with
  | nil => exact List.pairwise_singleton _ _
  | cons y l ih =>
      obtain ⟨hy, hl⟩ := List.pairwise_cons.mp hl
      have hsub : ∀ z ∈ x :: l, z ∈ x :: y :: l := by
        intro z hz
        rcases List.mem_cons.mp hz with rfl | hz
        · exact List.mem_cons_self
        · exact List.mem_cons_of_mem _ (List.mem_cons_of_mem _ hz)
      have hxin : x ∈ x :: y :: l := List.mem_cons_self
      have hyin : y ∈ x :: y :: l := List.mem_cons_of_mem _ List.mem_cons_self
      rw [insert]
      split
      · rename_i hxy
        rw [List.pairwise_cons]
        refine ⟨fun z hz => ?_, ih (h.mono hsub) hl⟩
        rcases List.mem_cons.mp ((insert_perm lt x l).mem_iff.mp hz) with rfl | hz
        · exact h.asymm _ hxin _ hyin hxy
        · exact hy z hz
      · rename_i hxy
        rw [List.pairwise_cons]
        have hxy' := eq_false_of_ne_true hxy
        refine ⟨fun z hz => ?_, List.pairwise_cons.mpr ⟨hy, hl⟩⟩
        rcases List.mem_cons.mp hz with rfl | hz'
        · exact hxy'
        · exact h.trans z (List.mem_cons_of_mem _ hz) y hyin x hxin (hy z hz') hxy'

theorem descending_pairwise (l : List α) :
    ∀ acc, Consistent lt (l ++ acc) → acc.Pairwise (fun a b => lt a b = false) →
      (descending lt acc l).Pairwise fun a b => lt a b = false := by
  induction l with
  | nil =>
      intro acc _ hacc
      exact hacc
  | cons x l ih =>
      intro acc h hacc
      have hmem : ∀ z ∈ l ++ insert lt x acc, z ∈ x :: l ++ acc := by
        intro z hz
        rw [List.mem_append, (insert_perm lt x acc).mem_iff, List.mem_cons] at hz
        rw [List.cons_append, List.mem_cons, List.mem_append]
        tauto
      have hacc' : ∀ z ∈ x :: acc, z ∈ x :: l ++ acc := by
        intro z hz
        rcases List.mem_cons.mp hz with rfl | hz
        · exact List.mem_cons_self
        · exact List.mem_append_right _ hz
      exact ih _ (h.mono hmem) (insert_pairwise (h.mono hacc') hacc)

end Insertion

namespace Insertion

/-- Sorting by insertion from the right. -/
scoped instance insertion : Sorting where
  sorted lt l := (descending lt [] l).reverse
  perm lt l := (List.reverse_perm _).trans
    ((descending_perm lt l []).trans (by rw [List.append_nil]; exact List.reverse_perm l))
  ascending h := by
    rw [descending_of_chain _ [] (by simpa using h), List.append_nil, List.reverse_reverse]
  pairwise h := by
    rw [List.pairwise_reverse]
    exact descending_pairwise _ [] (by simpa using h) List.Pairwise.nil

end Insertion

end Sorting

end Python
