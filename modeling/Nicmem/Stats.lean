/-
Running sums over weighted values and the quantiles they define; trimmed means.

A histogram is a list of values with their weights.  Walking it from the left, the
first entry at which the running sum exceeds a bound is found by `firstAbove`.  When the
list is sorted and no weight is negative, that entry holds the least value up to which
more than the bound has been collected, which is what a percentile is.

A trimmed mean leaves the least and the greatest sample out.  Samples that are place by
place at most others are so when both are sorted, because below every bound there are
more of them, and then their trimmed means compare as well.
-/
import Mathlib.Algebra.BigOperators.Group.List.Basic
import Mathlib.Algebra.Order.BigOperators.Group.List
import Mathlib.Algebra.Order.Field.Rat
import Mathlib.Data.Finset.Max
import Mathlib.Order.Bounds.Basic
import Mathlib.Tactic.Linarith
import Nicmem.Shell.Places

namespace Stats

variable {α : Type}

/-! ### Running sums -/

/-- The weight of a list of entries. -/
def weight (bs : List (α × ℚ)) : ℚ := (bs.map Prod.snd).sum

@[simp] theorem weight_nil : weight ([] : List (α × ℚ)) = 0 := rfl

@[simp] theorem weight_cons (e : α × ℚ) (bs : List (α × ℚ)) :
    weight (e :: bs) = e.2 + weight bs := List.sum_cons

/-- The value at which the running sum, started at `sum`, first exceeds the bound. -/
def firstAbove (bound : ℚ) : ℚ → List (α × ℚ) → Option α
  | _, [] => none
  | sum, e :: bs => if bound < sum + e.2 then some e.1 else firstAbove bound (sum + e.2) bs

/-- Nothing is found exactly when no running sum exceeds the bound. -/
theorem firstAbove_eq_none_iff {bound : ℚ} (bs : List (α × ℚ)) :
    ∀ {sum : ℚ}, sum ≤ bound →
      (firstAbove bound sum bs = none ↔ ∀ pre, pre <+: bs → sum + weight pre ≤ bound) := by
  induction bs with
  | nil =>
      intro sum hsum
      simp [firstAbove, hsum]
  | cons e bs ih =>
      intro sum hsum
      rw [firstAbove]
      by_cases hab : bound < sum + e.2
      · rw [if_pos hab]
        constructor
        · intro h
          cases h
        · intro h
          have hone := h [e] ⟨bs, rfl⟩
          rw [weight_cons, weight_nil, add_zero] at hone
          exact absurd hone (not_le.mpr hab)
      · rw [if_neg hab, ih (not_lt.mp hab)]
        constructor
        · intro h pre hpre
          cases pre with
          | nil =>
              rw [weight_nil, add_zero]
              exact hsum
          | cons e' pre =>
              obtain ⟨rfl, htail⟩ := List.cons_prefix_cons.mp hpre
              rw [weight_cons, ← add_assoc]
              exact h pre htail
        · intro h pre hpre
          have hcons := h (e :: pre) (List.cons_prefix_cons.mpr ⟨rfl, hpre⟩)
          rwa [weight_cons, ← add_assoc] at hcons

/-- What is found, with the entries in front of it, which stay within the bound. -/
theorem firstAbove_eq_some {bound : ℚ} (bs : List (α × ℚ)) :
    ∀ {sum : ℚ} {k : α}, sum ≤ bound → firstAbove bound sum bs = some k →
      ∃ pre v post, bs = pre ++ (k, v) :: post ∧ sum + weight pre ≤ bound ∧
        bound < sum + weight pre + v := by
  induction bs with
  | nil =>
      intro sum k _ h
      cases h
  | cons e bs ih =>
      intro sum k hsum h
      rw [firstAbove] at h
      by_cases hab : bound < sum + e.2
      · rw [if_pos hab, Option.some.injEq] at h
        refine ⟨[], e.2, bs, ?_, ?_, ?_⟩
        · rw [← h]
          rfl
        · rw [weight_nil, add_zero]
          exact hsum
        · rw [weight_nil, add_zero]
          exact hab
      · rw [if_neg hab] at h
        obtain ⟨pre, v, post, rfl, hle, hlt⟩ := ih (not_lt.mp hab) h
        refine ⟨e :: pre, v, post, rfl, ?_, ?_⟩
        · rw [weight_cons, ← add_assoc]
          exact hle
        · rw [weight_cons, ← add_assoc]
          exact hlt

/-! ### Quantiles -/

/-- The weight of the entries with a value up to `q`. -/
def weightUpTo (value : α → ℚ) (bs : List (α × ℚ)) (q : ℚ) : ℚ :=
  weight (bs.filter fun e => value e.1 ≤ q)

theorem weightUpTo_perm {value : α → ℚ} {bs bs' : List (α × ℚ)} (h : bs.Perm bs') (q : ℚ) :
    weightUpTo value bs q = weightUpTo value bs' q :=
  ((h.filter _).map _).sum_eq

theorem weight_nonneg {bs : List (α × ℚ)} (h : ∀ e ∈ bs, 0 ≤ e.2) : 0 ≤ weight bs := by
  refine List.sum_nonneg fun x hx => ?_
  obtain ⟨e, he, rfl⟩ := List.mem_map.mp hx
  exact h e he

theorem weight_append (bs bs' : List (α × ℚ)) : weight (bs ++ bs') = weight bs + weight bs' := by
  rw [weight, List.map_append, List.sum_append]
  rfl

theorem weight_filter_le {bs : List (α × ℚ)} (h : ∀ e ∈ bs, 0 ≤ e.2) (p : α × ℚ → Bool) :
    weight (bs.filter p) ≤ weight bs := by
  refine List.Sublist.sum_le_sum (List.filter_sublist.map _) fun x hx => ?_
  obtain ⟨e, he, rfl⟩ := List.mem_map.mp hx
  exact h e he

/-- In a sorted histogram the value found is the least one up to which the weight exceeds
the bound. -/
theorem isLeast_firstAbove {value : α → ℚ} {bs : List (α × ℚ)} {bound : ℚ} {k : α}
    (hsorted : bs.Pairwise fun a b => value a.1 ≤ value b.1) (hnonneg : ∀ e ∈ bs, 0 ≤ e.2)
    (hbound : 0 ≤ bound) (h : firstAbove bound 0 bs = some k) :
    IsLeast {q | bound < weightUpTo value bs q} (value k) := by
  obtain ⟨pre, v, post, rfl, hle, hlt⟩ := firstAbove_eq_some bs hbound h
  rw [zero_add] at hle hlt
  rw [List.pairwise_append] at hsorted
  obtain ⟨-, hpost, hpre⟩ := hsorted
  constructor
  · -- everything up to and including the entry counts
    have hkeep : weight (pre ++ [(k, v)]) ≤ weightUpTo value (pre ++ (k, v) :: post) (value k) := by
      have hall : (pre ++ [(k, v)]).filter (fun e => decide (value e.1 ≤ value k))
          = pre ++ [(k, v)] := by
        refine List.filter_eq_self.mpr fun e he => decide_eq_true ?_
        rcases List.mem_append.mp he with he | he
        · exact hpre e he (k, v) List.mem_cons_self
        · rw [List.mem_singleton.mp he]
      have hsplit : pre ++ (k, v) :: post = (pre ++ [(k, v)]) ++ post := by simp
      rw [weightUpTo, hsplit, List.filter_append, hall, weight_append (pre ++ [(k, v)])]
      have hrest : 0 ≤ weight (post.filter fun e => decide (value e.1 ≤ value k)) := by
        refine weight_nonneg fun e he => hnonneg e ?_
        exact List.mem_append_right _ (List.mem_cons_of_mem _ (List.mem_of_mem_filter he))
      linarith
    rw [weight_append, weight_cons, weight_nil, add_zero] at hkeep
    exact lt_of_lt_of_le hlt hkeep
  · -- below the entry's value only entries in front of it count
    intro q hq
    by_contra hlow
    rw [not_le] at hlow
    have hnone : ((k, v) :: post).filter (fun e => decide (value e.1 ≤ q)) = [] := by
      refine List.filter_eq_nil_iff.mpr fun e he => ?_
      rw [decide_eq_true_eq, not_le]
      rcases List.mem_cons.mp he with rfl | he
      · exact hlow
      · exact lt_of_lt_of_le hlow (List.rel_of_pairwise_cons hpost he)
    have hfew : weightUpTo value (pre ++ (k, v) :: post) q ≤ weight pre := by
      rw [weightUpTo, List.filter_append, hnone, List.append_nil]
      exact weight_filter_le (fun e he => hnonneg e (List.mem_append_left _ he)) _
    have hq' : bound < weightUpTo value (pre ++ (k, v) :: post) q := hq
    linarith

/-! ### Trimmed means -/

/-- The samples in order. -/
def sorted (l : List ℚ) : List ℚ := l.mergeSort fun p q => decide (p ≤ q)

theorem sorted_perm (l : List ℚ) : (sorted l).Perm l := List.mergeSort_perm _ _

theorem sorted_pairwise (l : List ℚ) : (sorted l).Pairwise (· ≤ ·) := by
  have htrans : ∀ a b c : ℚ, decide (a ≤ b) = true → decide (b ≤ c) = true →
      decide (a ≤ c) = true := fun a b c hab hbc =>
    decide_eq_true (le_trans (of_decide_eq_true hab) (of_decide_eq_true hbc))
  have htotal : ∀ a b : ℚ, (decide (a ≤ b) || decide (b ≤ a)) = true := fun a b => by
    simpa using le_total a b
  exact (List.pairwise_mergeSort htrans htotal l).imp of_decide_eq_true

theorem countP_le_of_forall₂ {l l' : List ℚ} (h : List.Forall₂ (· ≤ ·) l l') (r : ℚ) :
    l'.countP (· ≤ r) ≤ l.countP (· ≤ r) := by
  induction h with
  | nil => exact le_refl _
  | @cons a b l l' hab _ ih =>
      rw [List.countP_cons, List.countP_cons]
      by_cases hb : b ≤ r
      · rw [if_pos (decide_eq_true hb), if_pos (decide_eq_true (hab.trans hb))]
        omega
      · rw [if_neg fun h => hb (of_decide_eq_true h)]
        omega

/-- Sorting keeps samples place by place at most others. -/
theorem forall₂_sorted {l l' : List ℚ} (h : List.Forall₂ (· ≤ ·) l l') :
    List.Forall₂ (· ≤ ·) (sorted l) (sorted l') := by
  refine List.forall₂_iff_get.mpr ⟨?_, fun i hi hi' => ?_⟩
  · rw [(sorted_perm l).length_eq, (sorted_perm l').length_eq, h.length_eq]
  · show (sorted l)[i] ≤ (sorted l')[i]
    have hplace : i < (sorted l').countP (· ≤ (sorted l')[i]) :=
      (Shell.getElem_le_iff (sorted_pairwise l') hi' _).mp (le_refl _)
    rw [(sorted_perm l').countP_eq] at hplace
    rw [Shell.getElem_le_iff (sorted_pairwise l) hi, (sorted_perm l).countP_eq]
    exact lt_of_lt_of_le hplace (countP_le_of_forall₂ h _)

/-- The samples in order, without the least and the greatest. -/
def trim (l : List ℚ) : List ℚ := ((sorted l).drop 1).dropLast

theorem forall₂_trim {l l' : List ℚ} (h : List.Forall₂ (· ≤ ·) l l') :
    List.Forall₂ (· ≤ ·) (trim l) (trim l') := by
  have hdrop := List.forall₂_drop 1 (forall₂_sorted h)
  rw [trim, trim, List.dropLast_eq_take, List.dropLast_eq_take, ← hdrop.length_eq]
  exact List.forall₂_take _ hdrop

/-- The mean; that of no samples is zero. -/
def mean (l : List ℚ) : ℚ := l.sum / l.length

theorem mean_le_mean {l l' : List ℚ} (h : List.Forall₂ (· ≤ ·) l l') : mean l ≤ mean l' := by
  rw [mean, mean, ← h.length_eq]
  exact div_le_div_of_nonneg_right h.sum_le_sum (Nat.cast_nonneg _)

theorem mean_nonneg {l : List ℚ} (h : ∀ x ∈ l, 0 ≤ x) : 0 ≤ mean l :=
  div_nonneg (List.sum_nonneg h) (Nat.cast_nonneg _)

theorem mean_le_of_forall {l : List ℚ} {c : ℚ} (hne : l ≠ []) (h : ∀ x ∈ l, x ≤ c) :
    mean l ≤ c := by
  have hlen : (0 : ℚ) < l.length := by exact_mod_cast List.length_pos_iff.mpr hne
  rw [mean, div_le_iff₀ hlen, mul_comm, ← nsmul_eq_mul]
  exact List.sum_le_card_nsmul l c h

theorem lt_mean_of_forall {l : List ℚ} {c : ℚ} (hne : l ≠ []) (h : ∀ x ∈ l, c < x) :
    c < mean l := by
  have hlen : (0 : ℚ) < l.length := by exact_mod_cast List.length_pos_iff.mpr hne
  rw [mean, lt_div_iff₀ hlen, mul_comm, ← nsmul_eq_mul, ← List.sum_replicate, ← List.map_const']
  simpa using List.sum_lt_sum_of_ne_nil hne (fun _ => c) id h

/-- The mean of the lower part of the samples is below the mean of all. -/
theorem mean_filter_lt {l : List ℚ} {p : ℚ → Bool}
    (h : ∀ x ∈ l, p x = true → ∀ y ∈ l, p y = false → x < y) (hlow : ∃ x ∈ l, p x = true)
    (hhigh : ∃ y ∈ l, p y = false) : mean (l.filter p) < mean l := by
  have hperm := List.filter_append_perm p l
  have hsum := hperm.sum_eq
  have hlen := hperm.length_eq
  rw [List.sum_append] at hsum
  rw [List.length_append] at hlen
  obtain ⟨x, hx, hpx⟩ := hlow
  obtain ⟨y, hy, hpy⟩ := hhigh
  have hlowne : l.filter p ≠ [] := List.ne_nil_of_mem (List.mem_filter.mpr ⟨hx, hpx⟩)
  have hhighne : l.filter (fun z => !p z) ≠ [] :=
    List.ne_nil_of_mem (List.mem_filter.mpr ⟨hy, by simp [hpy]⟩)
  -- the greatest of the lower part separates the two
  obtain ⟨m, hm, hmax⟩ := (l.filter p).toFinset.exists_max_image id
    ⟨x, List.mem_toFinset.mpr (List.mem_filter.mpr ⟨hx, hpx⟩)⟩
  have hm' := List.mem_filter.mp (List.mem_toFinset.mp hm)
  have hle : mean (l.filter p) ≤ m :=
    mean_le_of_forall hlowne fun z hz => hmax z (List.mem_toFinset.mpr hz)
  have hlt : m < mean (l.filter fun z => !p z) := by
    refine lt_mean_of_forall hhighne fun z hz => ?_
    obtain ⟨hz, hpz⟩ := List.mem_filter.mp hz
    exact h m hm'.1 hm'.2 z hz (by simpa using hpz)
  have hlow : (0 : ℚ) < (l.filter p).length := by exact_mod_cast List.length_pos_iff.mpr hlowne
  have hhigh : (0 : ℚ) < (l.filter fun z => !p z).length := by
    exact_mod_cast List.length_pos_iff.mpr hhighne
  have hmeans := hle.trans_lt hlt
  rw [mean, mean, div_lt_div_iff₀ hlow hhigh] at hmeans
  rw [mean, mean, ← hsum, ← hlen, Nat.cast_add, div_lt_div_iff₀ hlow (add_pos hlow hhigh)]
  linarith

/-- A lower bound that lets through the same places keeps the comparison. -/
theorem forall₂_filter {l l' : List ℚ} {bound : ℚ} (h : List.Forall₂ (· ≤ ·) l l')
    (hkeep : List.Forall₂ (fun a b => bound ≤ b → bound ≤ a) l l') :
    List.Forall₂ (· ≤ ·) (l.filter (bound ≤ ·)) (l'.filter (bound ≤ ·)) := by
  induction h with
  | nil => exact .nil
  | @cons a b l l' hab _ ih =>
      obtain ⟨hkeep, hrest⟩ := List.forall₂_cons.mp hkeep
      rw [List.filter_cons, List.filter_cons]
      by_cases ha : bound ≤ a
      · rw [if_pos (decide_eq_true ha), if_pos (decide_eq_true (ha.trans hab))]
        exact .cons hab (ih hrest)
      · rw [if_neg fun h => ha (of_decide_eq_true h),
          if_neg fun h => ha (hkeep (of_decide_eq_true h))]
        exact ih hrest

end Stats
