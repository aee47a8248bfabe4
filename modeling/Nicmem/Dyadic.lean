/-
Dyadic blocks of the natural numbers and the free blocks of a partly covered line.

The block of order `o` and index `i` holds the `2 ^ o` cells from `i * 2 ^ o` on.  Two
blocks are nested or disjoint, and a block and its buddy, the one whose index differs in
the last bit, make up their parent.  Given a set of covered cells, the free blocks that
are inside no larger free block are the maximal ones.  Covering one of them, or
uncovering a block whose buddy is not free, changes the maximal free blocks by that one
block only: `maxFree_cover` and `maxFree_uncover`.  A buddy allocator keeps exactly this
set, and its splits and merges are runs of these two steps.
-/
import Mathlib.Data.Set.Basic
import Mathlib.Data.Set.BooleanAlgebra
import Mathlib.Data.Set.Disjoint
import Mathlib.Order.CompletePartialOrder
import Mathlib.Algebra.Order.Group.Nat
import Mathlib.Algebra.Order.Ring.Nat
import Mathlib.Data.Nat.Bitwise

namespace Dyadic

/-- The cells of the block of order `o` and index `i`. -/
def block (o i : Nat) : Set Nat := {c | c / 2 ^ o = i}

@[simp] theorem mem_block {o i c : Nat} : c ∈ block o i ↔ c / 2 ^ o = i := Iff.rfl

theorem mem_block_iff_range {o i c : Nat} :
    c ∈ block o i ↔ i * 2 ^ o ≤ c ∧ c < (i + 1) * 2 ^ o := by
  rw [mem_block, Nat.div_eq_iff (Nat.two_pow_pos o), Nat.lt_iff_le_pred, Nat.add_mul, Nat.one_mul]
  exact Nat.mul_pos (Nat.succ_pos i) (Nat.two_pow_pos o)

theorem start_mem (o i : Nat) : i * 2 ^ o ∈ block o i := by
  rw [mem_block]
  exact Nat.mul_div_cancel i (Nat.two_pow_pos o)

/-- The block of order `o` that holds a block of order `p`. -/
theorem block_subset {p o : Nat} (h : p ≤ o) (j : Nat) : block p j ⊆ block o (j / 2 ^ (o - p)) := by
  intro c hc
  rw [mem_block] at hc ⊢
  rw [← hc, Nat.div_div_eq_div_mul, ← Nat.pow_add, Nat.add_sub_cancel' h]

theorem block_subset_parent (o i : Nat) : block o i ⊆ block (o + 1) (i / 2) := by
  have h := block_subset (Nat.le_succ o) i
  rwa [Nat.succ_sub (Nat.le_refl o), Nat.sub_self, Nat.pow_one] at h

/-- Blocks that share a cell are nested. -/
theorem block_nested {p o j i c : Nat} (h : p ≤ o) (hp : c ∈ block p j) (ho : c ∈ block o i) :
    block p j ⊆ block o i := by
  have hsub := block_subset h j
  have heq : j / 2 ^ (o - p) = i := (hsub hp).symm.trans ho
  rwa [heq] at hsub

/-- A block strictly inside another has its parent inside it as well. -/
theorem parent_subset {p o j i c : Nat} (h : p < o) (hp : c ∈ block p j) (ho : c ∈ block o i) :
    block (p + 1) (j / 2) ⊆ block o i :=
  block_nested h (block_subset_parent p j hp) ho

theorem eq_of_mem {o i j c : Nat} (hi : c ∈ block o i) (hj : c ∈ block o j) : i = j :=
  hi.symm.trans hj

/-! ### Buddies -/

theorem xor_one_div (i : Nat) : (i ^^^ 1) / 2 = i / 2 := by
  rw [Nat.xor_div_two]
  simp

theorem xor_one_ne (i : Nat) : i ^^^ 1 ≠ i := by
  intro h
  have := congrArg (i ^^^ ·) h
  simp at this

@[simp] theorem xor_one_xor_one (i : Nat) : i ^^^ 1 ^^^ 1 = i := by
  rw [Nat.xor_assoc, Nat.xor_self, Nat.xor_zero]

theorem eq_or_eq_xor_one {i j : Nat} (h : j / 2 = i / 2) : j = i ∨ j = i ^^^ 1 := by
  have hmod : (i ^^^ 1) % 2 = (i + 1) % 2 := Nat.xor_mod_two_eq
  have hdiv := xor_one_div i
  omega

/-- A parent is made up of the two buddies. -/
theorem mem_parent_iff {o i c : Nat} :
    c ∈ block (o + 1) (i / 2) ↔ c ∈ block o i ∨ c ∈ block o (i ^^^ 1) := by
  refine ⟨fun h => ?_, ?_⟩
  · have h' : c / 2 ^ o / 2 = i / 2 := by
      rw [Nat.div_div_eq_div_mul, ← Nat.pow_succ]
      exact h
    exact eq_or_eq_xor_one h'
  · rintro (h | h)
    · exact block_subset_parent o i h
    · have := block_subset_parent o (i ^^^ 1) h
      rwa [xor_one_div] at this

/-! ### Free blocks -/

variable {C : Set Nat}

/-- No cell of the block is covered. -/
def Free (C : Set Nat) (o i : Nat) : Prop := ∀ c ∈ block o i, c ∉ C

/-- The block is free and its parent is not. -/
def MaxFree (C : Set Nat) (o i : Nat) : Prop := Free C o i ∧ ¬ Free C (o + 1) (i / 2)

theorem Free.mono {p o j i : Nat} (h : Free C o i) (hsub : block p j ⊆ block o i) : Free C p j :=
  fun c hc => h c (hsub hc)

/-- Maximal free blocks that share a cell are one. -/
theorem MaxFree.eq_of_mem {p o j i c : Nat} (hj : MaxFree C p j) (hi : MaxFree C o i)
    (hcj : c ∈ block p j) (hci : c ∈ block o i) : p = o ∧ j = i := by
  rcases Nat.lt_trichotomy p o with hlt | rfl | hgt
  · exact absurd (hi.1.mono (parent_subset hlt hcj hci)) hj.2
  · exact ⟨rfl, Dyadic.eq_of_mem hcj hci⟩
  · exact absurd (hj.1.mono (parent_subset hgt hci hcj)) hi.2

/-- Covering a maximal free block takes that block out of the maximal ones. -/
theorem maxFree_cover {o i : Nat} (h : MaxFree C o i) (p j : Nat) :
    MaxFree (C ∪ block o i) p j ↔ MaxFree C p j ∧ ¬ (p = o ∧ j = i) := by
  refine ⟨fun hmax => ?_, fun ⟨hmax, hne⟩ => ⟨fun c hc hcov => ?_, fun hfree => ?_⟩⟩
  · have hfree : Free C p j := fun c hc hcov => hmax.1 c hc (Or.inl hcov)
    have hdisj : ∀ c ∈ block p j, c ∉ block o i := fun c hc hcov => hmax.1 c hc (Or.inr hcov)
    refine ⟨⟨hfree, fun hparent => hmax.2 fun c hc hcov => ?_⟩, ?_⟩
    · -- a covered cell of the free parent is in the new block, which the parent cannot hold
      rcases hcov with hcov | hcov
      · exact hparent c hc hcov
      · rcases Nat.lt_or_ge p o with hlt | hge
        · exact hdisj _ (start_mem p j)
            (block_nested hlt hc hcov (block_subset_parent p j (start_mem p j)))
        · exact h.2 (hparent.mono (parent_subset (Nat.lt_succ_of_le hge) hcov hc))
    · rintro ⟨rfl, rfl⟩
      exact hdisj _ (start_mem p j) (start_mem p j)
  · rcases hcov with hcov | hcov
    · exact hmax.1 c hc hcov
    · exact hne (hmax.eq_of_mem h hc hcov)
  · exact hmax.2 fun c hc hcov => hfree c hc (Or.inl hcov)

/-- Uncovering a block whose buddy is not free makes that block maximal. -/
theorem maxFree_uncover {o i : Nat} (hcov : block o i ⊆ C) (hbuddy : ¬ Free C o (i ^^^ 1))
    (p j : Nat) : MaxFree (C \ block o i) p j ↔ MaxFree C p j ∨ (p = o ∧ j = i) := by
  have hself : MaxFree (C \ block o i) o i := by
    refine ⟨fun c hc hmem => hmem.2 hc, fun hparent => hbuddy fun c hc hmem => ?_⟩
    have hout : c ∉ block o i := fun hi => xor_one_ne i (eq_of_mem hc hi)
    exact hparent c (mem_parent_iff.mpr (Or.inr hc)) ⟨hmem, hout⟩
  have hback : C \ block o i ∪ block o i = C := Set.sdiff_union_of_subset hcov
  have hcover := maxFree_cover hself p j
  rw [hback] at hcover
  refine ⟨fun h => ?_, ?_⟩
  · by_cases heq : p = o ∧ j = i
    · exact Or.inr heq
    · exact Or.inl (hcover.mpr ⟨h, heq⟩)
  · rintro (h | ⟨rfl, rfl⟩)
    · exact (hcover.mp h).1
    · exact hself

/-- A free block lies in a maximal one, as long as some cell above it is covered. -/
theorem Free.exists_maxFree {M : Nat} (hM : ∀ o, M < o → ∀ i, ¬ Free C o i) :
    ∀ (n o i : Nat), M + 1 - o = n → Free C o i →
      ∃ p, o ≤ p ∧ p ≤ M ∧ MaxFree C p (i / 2 ^ (p - o)) := by
  intro n
  induction n with
  | zero =>
      intro o i hn hfree
      exact absurd hfree (hM o (by omega) i)
  | succ n ih =>
      intro o i hn hfree
      by_cases hparent : Free C (o + 1) (i / 2)
      · obtain ⟨p, hp, hpM, hmax⟩ := ih (o + 1) (i / 2) (by omega) hparent
        refine ⟨p, by omega, hpM, ?_⟩
        rwa [Nat.div_div_eq_div_mul, ← Nat.pow_succ',
          show (p - (o + 1)).succ = p - o by omega] at hmax
      · refine ⟨o, Nat.le_refl o, by omega, ?_⟩
        rw [Nat.sub_self, Nat.pow_zero, Nat.div_one]
        exact ⟨hfree, hparent⟩

/-! ### Halving and joining -/

/-- Of a block that is free in `C`, all but one half is given back. -/
theorem cover_parent_diff_buddy {o i : Nat} (h : Free C (o + 1) (i / 2)) :
    (C ∪ block (o + 1) (i / 2)) \ block o (i ^^^ 1) = C ∪ block o i := by
  ext c
  simp only [Set.mem_sdiff, Set.mem_union, mem_parent_iff]
  refine ⟨?_, ?_⟩
  · rintro ⟨hC | hi | hb, hout⟩
    · exact Or.inl hC
    · exact Or.inr hi
    · exact absurd hb hout
  · rintro (hC | hi)
    · exact ⟨Or.inl hC, fun hb => h c (mem_parent_iff.mpr (Or.inr hb)) hC⟩
    · exact ⟨Or.inr (Or.inl hi), fun hb => xor_one_ne i (eq_of_mem hb hi)⟩

/-- A free buddy is covered and the parent uncovered. -/
theorem cover_buddy_diff_parent {o i : Nat} (h : Free C o (i ^^^ 1)) :
    (C ∪ block o (i ^^^ 1)) \ block (o + 1) (i / 2) = C \ block o i := by
  ext c
  simp only [Set.mem_sdiff, Set.mem_union, mem_parent_iff, not_or]
  refine ⟨?_, ?_⟩
  · rintro ⟨hC | hb, hi, hb'⟩
    · exact ⟨hC, hi⟩
    · exact absurd hb hb'
  · rintro ⟨hC, hi⟩
    exact ⟨Or.inl hC, hi, fun hb => h c hb hC⟩

/-- A free block ends before the covered cells that follow the line. -/
theorem Free.le_two_pow {M o i : Nat} (hout : ∀ c, 2 ^ M ≤ c → c ∈ C) (h : Free C o i) :
    (i + 1) * 2 ^ o ≤ 2 ^ M := by
  have hpos := Nat.two_pow_pos o
  by_contra hlt
  rw [Nat.add_mul, Nat.one_mul] at hlt
  refine h (i * 2 ^ o + (2 ^ o - 1)) ?_ (hout _ (by omega))
  rw [mem_block_iff_range, Nat.add_mul, Nat.one_mul]
  omega

theorem Free.order_le {M o i : Nat} (hout : ∀ c, 2 ^ M ≤ c → c ∈ C) (h : Free C o i) : o ≤ M := by
  have hle := h.le_two_pow hout
  rw [Nat.add_mul, Nat.one_mul] at hle
  exact (Nat.pow_le_pow_iff_right (Nat.lt_succ_self 1)).mp (Nat.le_trans (Nat.le_add_left _ _) hle)

theorem Free.index_lt {M o i : Nat} (hout : ∀ c, 2 ^ M ≤ c → c ∈ C) (h : Free C o i) :
    i < 2 ^ (M - o) := by
  have hle := h.le_two_pow hout
  rw [← Nat.pow_sub_mul_pow 2 (h.order_le hout)] at hle
  exact Nat.le_of_mul_le_mul_right hle (Nat.two_pow_pos o)

/-- On an empty line of `2 ^ M` cells the whole line is the only maximal free block. -/
theorem maxFree_empty {M : Nat} (o i : Nat) :
    MaxFree {c | 2 ^ M ≤ c} o i ↔ o = M ∧ i = 0 := by
  have hwhole : MaxFree {c | 2 ^ M ≤ c} M 0 := by
    refine ⟨fun c hc => ?_, fun h => ?_⟩
    · rw [mem_block_iff_range] at hc
      simpa using hc.2
    · refine h (2 ^ M) ?_ (Nat.le_refl (2 ^ M))
      rw [mem_block_iff_range, Nat.pow_succ]
      have := Nat.two_pow_pos M
      omega
  refine ⟨fun h => ?_, ?_⟩
  · refine h.eq_of_mem hwhole (start_mem o i) ?_
    have hlt : i * 2 ^ o < 2 ^ M := by
      have hnot := h.1 _ (start_mem o i)
      simpa using hnot
    rw [mem_block_iff_range]
    omega
  · rintro ⟨rfl, rfl⟩
    exact hwhole

end Dyadic
