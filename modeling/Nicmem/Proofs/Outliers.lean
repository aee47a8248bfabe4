/-
What `reject_outliers` leaves of a list of samples.

From five samples on, the sorted list loses its two ends.  So what is left, together with
two more samples, is the list again, and where the comparison orders the samples every one
that is left lies between two others.  Replacing one sample therefore cannot move what is
left out of the range of the rest: either the new value is at an end, or it has a neighbour
on each side.  The mean of what is left is then in that range too, up to the error of adding
and dividing.

All of that rests on the sort.  Not-a-number is neither less nor greater than anything, so
a list that ascends around it is taken to be sorted, and a mean it is left in is not a number.
Infinities of both signs have the same effect.
-/
import Nicmem.PerfUtil.Net
import Nicmem.Python.Double
import Nicmem.Python.Mean
import Nicmem.Stats

namespace Nicmem

open Python

/-! ### The trimmed list -/

section Trimmed

variable [Sorting] {α : Type} {lt : α → α → Bool} {l : List α}

theorem rejectOutliersBy_few (h : l.length ≤ 4) : rejectOutliersBy lt l = l := by
  rw [rejectOutliersBy, if_neg (by omega), if_neg (by omega)]

theorem rejectOutliersBy_many (h : 4 < l.length) :
    rejectOutliersBy lt l = ((Sorting.sorted lt l).drop 1).dropLast := by
  rw [rejectOutliersBy, if_pos h, ite_self]

/-- From five samples on, the sorted list is what is left between two samples that went. -/
theorem sorted_eq_ends (lt : α → α → Bool) (h : 4 < l.length) :
    ∃ a b, Sorting.sorted lt l = a :: (rejectOutliersBy lt l ++ [b]) := by
  have hlen : 4 < (Sorting.sorted lt l).length := by
    rw [Sorting.length_sorted]
    exact h
  rw [rejectOutliersBy_many h]
  cases hs : Sorting.sorted lt l with
  | nil => simp [hs] at hlen
  | cons a rest =>
      have hrest : rest ≠ [] := by
        rintro rfl
        simp [hs] at hlen
      refine ⟨a, rest.getLast hrest, ?_⟩
      rw [List.drop_succ_cons, List.drop_zero, List.dropLast_append_getLast hrest]

/-- What is left and two samples more are the list. -/
theorem perm_rejectOutliersBy (lt : α → α → Bool) (h : 4 < l.length) :
    ∃ a b, l.Perm (a :: b :: rejectOutliersBy lt l) := by
  obtain ⟨a, b, hs⟩ := sorted_eq_ends lt h
  refine ⟨a, b, (Sorting.perm lt l).symm.trans ?_⟩
  rw [hs]
  exact (List.perm_append_singleton b _).cons a

theorem rejectOutliersBy_ne_nil (lt : α → α → Bool) (h : 4 < l.length) :
    rejectOutliersBy lt l ≠ [] := by
  intro hnil
  obtain ⟨a, b, hperm⟩ := perm_rejectOutliersBy lt h
  have hlen := hperm.length_eq
  rw [hnil] at hlen
  simp only [List.length_cons, List.length_nil] at hlen
  omega

theorem rejectOutliers_ne_nil {F : Type} [PyFloat F] {v : List F} (h : v ≠ []) :
    rejectOutliers v ≠ [] := by
  by_cases hlen : 4 < v.length
  · exact rejectOutliersBy_ne_nil PyFloat.lt hlen
  · rw [rejectOutliers, rejectOutliersBy_few (by omega)]
    exact h

theorem mem_rejectOutliersBy {x : α} (h : x ∈ rejectOutliersBy lt l) : x ∈ l := by
  by_cases hlen : 4 < l.length
  · obtain ⟨a, b, hperm⟩ := perm_rejectOutliersBy lt hlen
    exact hperm.mem_iff.mpr (List.mem_cons_of_mem a (List.mem_cons_of_mem b h))
  · rw [rejectOutliersBy_few (by omega)] at h
    exact h

end Trimmed

/-! ### Sorting numbers -/

/-- Numbers are ordered; a comparison of others by the numbers they stand for orders those. -/
theorem consistent_lt {α : Type} (f : α → Exact) {l : List α} (h : ∀ x ∈ l, f x ≠ .nan) :
    Consistent (fun x y => Exact.lt (f x) (f y)) l := by
  have hle : ∀ x ∈ l, ∀ y ∈ l, Exact.lt (f y) (f x) = false ↔ Exact.le (f x) (f y) = true := by
    intro x hx y hy
    rw [← Exact.not_lt_eq_le (h x hx) (h y hy), Bool.not_eq_true']
  constructor
  · intro x _ y _ hxy
    exact Exact.lt_asymm hxy
  · intro x hx y hy z hz hyx hzy
    rw [hle x hx y hy] at hyx
    rw [hle y hy z hz] at hzy
    rw [hle x hx z hz]
    exact Exact.le_trans' hyx hzy

theorem consistent_of_no_nan {l : List Exact} (h : .nan ∉ l) :
    Consistent (PyFloat.lt : Exact → Exact → Bool) l :=
  consistent_lt id fun _ hx hn => h (hn ▸ hx)

section Sorted

variable [Sorting] {l l' : List Exact}

/-- Numbers that ascend stay where they are, wherever not-a-number stands among them. -/
theorem sorted_of_ascending
    (h : (l.filter fun x => decide (x ≠ .nan)).Pairwise fun x y => Exact.le x y = true) :
    Sorting.sorted PyFloat.lt l = l := by
  refine Sorting.ascending ((List.pairwise_filter.mp h).imp ?_).isChain
  intro x y hxy
  show Exact.lt y x = false
  by_cases hx : x = .nan
  · rw [hx]
    exact (Exact.not_lt_nan y).2
  by_cases hy : y = .nan
  · rw [hy]
    exact (Exact.not_lt_nan x).1
  · rw [← Bool.not_eq_true', Exact.not_lt_eq_le hx hy]
    exact hxy (decide_eq_true hx) (decide_eq_true hy)

theorem sorted_pairwise (h : .nan ∉ l) :
    (Sorting.sorted PyFloat.lt l).Pairwise fun x y => Exact.le x y = true := by
  refine (Sorting.pairwise (consistent_of_no_nan h)).imp_of_mem ?_
  intro x y hx hy hxy
  have hxn : x ≠ .nan := fun hn => h (hn ▸ Sorting.mem_sorted.mp hx)
  have hyn : y ≠ .nan := fun hn => h (hn ▸ Sorting.mem_sorted.mp hy)
  rw [← Exact.not_lt_eq_le hxn hyn, Bool.not_eq_true']
  exact hxy

/-- Numbers in another order are sorted to the same list. -/
theorem sorted_eq_of_perm (hperm : l.Perm l') (h : .nan ∉ l) :
    Sorting.sorted PyFloat.lt l = Sorting.sorted PyFloat.lt l' := by
  have h' : .nan ∉ l' := fun hn => h (hperm.mem_iff.mpr hn)
  refine List.Perm.eq_of_pairwise (fun x y _ _ => Exact.le_antisymm') (sorted_pairwise h)
    (sorted_pairwise h') ?_
  exact (Sorting.perm _ l).trans (hperm.trans (Sorting.perm _ l').symm)

/-- Numbers in another order lose the same two. -/
theorem rejectOutliers_perm (hperm : l.Perm l') (h : .nan ∉ l) :
    (rejectOutliers l).Perm (rejectOutliers l') := by
  unfold rejectOutliers
  by_cases hlen : 4 < l.length
  · rw [rejectOutliersBy_many hlen, rejectOutliersBy_many (hperm.length_eq ▸ hlen),
      sorted_eq_of_perm hperm h]
  · rw [rejectOutliersBy_few (by omega), rejectOutliersBy_few (by rw [← hperm.length_eq]; omega)]
    exact hperm

end Sorted

/-! ### Rational samples -/

/-- The samples that are averaged: from five on, without the least and the greatest. -/
def trimmed (l : List ℚ) : List ℚ := if 4 < l.length then Stats.trim l else l

theorem average_map_fin {l : List ℚ} (h : l ≠ []) :
    PyFloat.average (l.map Exact.fin) = .fin (Stats.mean l) := by
  show Exact.average (l.map Exact.fin) = _
  have hlen : (l.length : ℚ) ≠ 0 := by
    rw [Nat.cast_ne_zero]
    exact fun hzero => h (List.length_eq_zero_iff.mp hzero)
  rw [Exact.average, if_neg (by simpa using h), Exact.sum, Exact.foldl_add_eq, Exact.sum_map_fin,
    List.length_map]
  show Exact.div (.fin (0 + l.sum)) (.fin l.length) = _
  rw [Exact.div, if_neg hlen, zero_add]
  rfl

/-- Rational samples lose the least and the greatest of them. -/
theorem rejectOutliers_map_fin [Sorting] (l : List ℚ) :
    rejectOutliers (l.map Exact.fin) = (trimmed l).map Exact.fin := by
  have hsort : Sorting.sorted PyFloat.lt (l.map Exact.fin) = (Stats.sorted l).map Exact.fin := by
    refine List.Perm.eq_of_pairwise (fun x y _ _ => Exact.le_antisymm') (sorted_pairwise ?_) ?_
      ((Sorting.perm _ _).trans ((Stats.sorted_perm l).symm.map _))
    · simp
    · rw [List.pairwise_map]
      exact (Stats.sorted_pairwise l).imp fun hpq => decide_eq_true hpq
  rw [rejectOutliers, trimmed]
  split
  · rename_i hlen
    rw [rejectOutliersBy_many (by rw [List.length_map]; exact hlen), hsort, Stats.trim,
      List.map_dropLast, List.map_drop]
  · rename_i hlen
    rw [rejectOutliersBy_few (by rw [List.length_map]; omega)]

/-! ### Samples in another order -/

/--
The mean of what is left does not depend on the order of the samples: there are too few to
trim, or all of them are numbers, or the mean is no number whichever two go.
-/
def Settled (v : List Exact) : Prop :=
  v.length ≤ 4 ∨ .nan ∉ v ∨ ∀ a b rest, v.Perm (a :: b :: rest) → Exact.average rest = .nan

section Settled

variable {v v' : List Exact}

theorem average_rejectOutliers_of_settled [Sorting] (hperm : v'.Perm v) (h : Settled v) :
    Exact.average (rejectOutliers v') = Exact.average (rejectOutliers v) := by
  unfold rejectOutliers
  by_cases hlen : 4 < v.length
  · rcases h with hfew | hnan | hundefined
    · omega
    · exact Exact.average_perm (rejectOutliers_perm hperm fun hn => hnan (hperm.mem_iff.mp hn))
    · obtain ⟨a, b, hv⟩ := perm_rejectOutliersBy PyFloat.lt hlen
      obtain ⟨a', b', hv'⟩ := perm_rejectOutliersBy PyFloat.lt (hperm.length_eq ▸ hlen)
      rw [hundefined a b _ hv, hundefined a' b' _ (hperm.symm.trans hv')]
  · rw [rejectOutliersBy_few (by rw [hperm.length_eq]; omega), rejectOutliersBy_few (by omega)]
    exact Exact.average_perm hperm

/-- Numbers that ascend, with not-a-number anywhere among them: the two ends go. -/
theorem rejectOutliers_of_ascending [Sorting] (hlen : 4 < v.length)
    (h : (v.filter fun x => decide (x ≠ .nan)).Pairwise fun x y => Exact.le x y = true) :
    rejectOutliers v = (v.drop 1).dropLast := by
  rw [rejectOutliers, rejectOutliersBy_many hlen, sorted_of_ascending h]

/-- The samples in ascending order, not-a-number first. -/
def ascending (v : List Exact) : List Exact := v.mergeSort Exact.below

theorem ascending_perm (v : List Exact) : (ascending v).Perm v := List.mergeSort_perm v _

theorem pairwise_ascending (v : List Exact) :
    ((ascending v).filter fun x => decide (x ≠ .nan)).Pairwise fun x y => Exact.le x y = true := by
  refine List.pairwise_filter.mpr ?_
  refine (List.pairwise_mergeSort Exact.below_trans Exact.below_total v).imp ?_
  intro x y hxy hx _
  rw [Exact.below, beq_eq_false_iff_ne.mpr (of_decide_eq_true hx), Bool.false_or] at hxy
  exact hxy

/-- Not-a-number can be put where it is left. -/
theorem exists_perm_undefined [Sorting] (hlen : 4 < v.length) (hnan : .nan ∈ v) :
    ∃ w, w.Perm v ∧ Exact.average (rejectOutliers w) = .nan := by
  have herase := List.perm_cons_erase hnan
  have hperm := ascending_perm (v.erase .nan)
  have hpair := pairwise_ascending (v.erase .nan)
  match hw : ascending (v.erase .nan) with
  | [] | [_] =>
      have hlen' := hperm.length_eq.trans (List.length_erase_of_mem hnan)
      rw [hw] at hlen'
      simp only [List.length_cons, List.length_nil] at hlen'
      omega
  | c :: d :: w =>
      rw [hw] at hperm hpair
      have hv : (c :: .nan :: d :: w).Perm v :=
        (List.Perm.swap .nan c (d :: w)).trans ((hperm.cons .nan).trans herase.symm)
      have hleft : rejectOutliers (c :: .nan :: d :: w) = .nan :: (d :: w).dropLast := by
        rw [rejectOutliers_of_ascending (by rw [hv.length_eq]; exact hlen)]
        · rfl
        · simpa [List.filter_cons] using hpair
      refine ⟨_, hv, ?_⟩
      rw [hleft, Exact.average_eq_nan_iff (List.cons_ne_nil _ _)]
      exact .inl List.mem_cons_self

/-- Ends that go with not-a-number leave infinities of both signs behind, so there are two
of each. -/
theorem two_le_count_of_ends {s : List Exact} (hne : .nan ∉ s)
    (hsorted : s.Pairwise fun x y => Exact.le x y = true)
    (htail : ∀ t, Exact.inf t ∈ s.tail) (hinit : ∀ t, Exact.inf t ∈ s.dropLast) (t : Bool) :
    2 ≤ s.count (.inf t) := by
  cases t with
  | true =>
      cases s with
      | nil => simp at htail
      | cons c s =>
          have hmem : Exact.inf true ∈ s := htail true
          have hc : c = .inf true := by
            have hle := (List.pairwise_cons.mp hsorted).1 _ hmem
            rcases c with _ | (_ | _) | q
            · exact absurd List.mem_cons_self hne
            · cases hle
            · rfl
            · cases hle
          rw [hc, List.count_cons_self]
          have hpos := List.count_pos_iff.mpr hmem
          omega
  | false =>
      rcases List.eq_nil_or_concat s with rfl | ⟨init, c, rfl⟩
      · simp at hinit
      · rw [List.concat_eq_append] at hne hsorted hinit ⊢
        have hmem : Exact.inf false ∈ init := by simpa using hinit false
        have hc : c = .inf false := by
          have hle := (List.pairwise_append.mp hsorted).2.2 _ hmem c List.mem_cons_self
          rcases c with _ | (_ | _) | q
          · exact absurd (by simp) hne
          · rfl
          · cases hle
          · cases hle
        rw [hc, List.count_append, List.count_singleton_self]
        have hpos := List.count_pos_iff.mpr hmem
        omega

/-! #### Not-a-number at an end -/

section Ends

variable {s : List Exact}

theorem rejectOutliers_nan_cons [Sorting] (hlen : 4 ≤ s.length)
    (h : (s.filter fun x => decide (x ≠ .nan)).Pairwise fun x y => Exact.le x y = true) :
    rejectOutliers (.nan :: s) = s.dropLast := by
  rw [rejectOutliers_of_ascending (by rw [List.length_cons]; omega)]
  · rfl
  · simpa using h

theorem rejectOutliers_concat_nan [Sorting] (hlen : 4 ≤ s.length)
    (h : (s.filter fun x => decide (x ≠ .nan)).Pairwise fun x y => Exact.le x y = true) :
    rejectOutliers (s ++ [.nan]) = s.tail := by
  rw [rejectOutliers_of_ascending (by rw [List.length_append, List.length_singleton]; omega)]
  · cases s with
    | nil => rfl
    | cons c s => simp
  · simpa using h

theorem rejectOutliers_nan_ends [Sorting] (hlen : 3 ≤ s.length)
    (h : (s.filter fun x => decide (x ≠ .nan)).Pairwise fun x y => Exact.le x y = true) :
    rejectOutliers (.nan :: (s ++ [.nan])) = s := by
  rw [rejectOutliers_of_ascending (by simp; omega)]
  · simp
  · simpa using h

/-- Without not-a-number, the mean of samples is none only with infinities of both signs. -/
theorem inf_mem_of_average_eq_nan {l : List Exact} (hl : l ≠ []) (hnan : .nan ∉ l)
    (h : Exact.average l = .nan) (t : Bool) : Exact.inf t ∈ l :=
  ((Exact.average_eq_nan_iff hl).mp h).resolve_left hnan t

end Ends

/-- If the mean is never a number, it is none whichever sample goes with not-a-number. -/
theorem average_eq_nan_of_forall [Sorting] (hlen : 4 < v.length)
    (hall : ∀ w, w.Perm v → Exact.average (rejectOutliers w) = .nan) {b : Exact}
    {rest : List Exact} (hperm : v.Perm (.nan :: b :: rest)) (hrest : .nan ∉ rest) :
    Exact.average rest = .nan := by
  have hlenv := hperm.length_eq
  simp only [List.length_cons] at hlenv
  by_cases hb : b = .nan
  · -- both ends are not-a-number, and the rest is left
    have hasc := ascending_perm rest
    have hw : (.nan :: (ascending rest ++ [.nan])).Perm v := by
      refine List.Perm.trans ?_ hperm.symm
      rw [hb]
      exact ((List.perm_append_singleton _ _).trans (hasc.cons _)).cons _
    have hleft := rejectOutliers_nan_ends (by rw [hasc.length_eq]; omega) (pairwise_ascending rest)
    rw [← Exact.average_perm hasc, ← hleft]
    exact hall _ hw
  · -- one end is, and either neighbour of the other end may stay
    have hasc := ascending_perm (b :: rest)
    have hpair := pairwise_ascending (b :: rest)
    have hlens := hasc.length_eq
    rw [List.length_cons] at hlens
    have hnan : .nan ∉ ascending (b :: rest) := by
      rw [hasc.mem_iff, List.mem_cons, not_or]
      exact ⟨fun h => hb h.symm, hrest⟩
    generalize ascending (b :: rest) = s at hasc hpair hlens hnan
    have hfirst : (.nan :: s).Perm v := (hasc.cons _).trans hperm.symm
    have hlast : (s ++ [Exact.nan]).Perm v := (List.perm_append_singleton _ _).trans hfirst
    have hinit := hall _ hfirst
    have htail := hall _ hlast
    rw [rejectOutliers_nan_cons (by omega) hpair] at hinit
    rw [rejectOutliers_concat_nan (by omega) hpair] at htail
    have hsorted : s.Pairwise fun x y => Exact.le x y = true := by
      have hkept : ∀ x ∈ s, decide (x ≠ .nan) = true := by
        intro x hx
        exact decide_eq_true fun hn => hnan (hn ▸ hx)
      rw [List.filter_eq_self.mpr hkept] at hpair
      exact hpair
    have htailne : s.tail ≠ [] := List.length_pos_iff.mp (by rw [List.length_tail]; omega)
    have hinitne : s.dropLast ≠ [] := List.length_pos_iff.mp (by rw [List.length_dropLast]; omega)
    have hrestne : rest ≠ [] := List.length_pos_iff.mp (by omega)
    have hcount := two_le_count_of_ends hnan hsorted
      (inf_mem_of_average_eq_nan htailne (fun h => hnan (List.mem_of_mem_tail h)) htail)
      (inf_mem_of_average_eq_nan hinitne (fun h => hnan (List.mem_of_mem_dropLast h)) hinit)
    refine (Exact.average_eq_nan_iff hrestne).mpr (.inr fun t => ?_)
    have htwo := hcount t
    rw [hasc.count_eq, List.count_cons] at htwo
    refine List.count_pos_iff.mp ?_
    split at htwo <;> omega

/-- **When the mean does not depend on the order of the samples.** -/
theorem settled_iff [Sorting] :
    Settled v ↔
      ∀ v', v'.Perm v → Exact.average (rejectOutliers v') = Exact.average (rejectOutliers v) := by
  constructor
  · intro h v' hperm
    exact average_rejectOutliers_of_settled hperm h
  · intro h
    by_cases hlen : v.length ≤ 4
    · exact .inl hlen
    by_cases hnan : .nan ∉ v
    · exact .inr (.inl hnan)
    have hlen' : 4 < v.length := by omega
    obtain ⟨w, hw, hundefined⟩ := exists_perm_undefined hlen' (not_not.mp hnan)
    have hall : ∀ w', w'.Perm v → Exact.average (rejectOutliers w') = .nan := by
      intro w' hw'
      rw [h w' hw', ← h w hw, hundefined]
    refine .inr (.inr fun a b rest hperm => ?_)
    by_cases hrest : .nan ∈ rest
    · exact (Exact.average_eq_nan_iff (List.ne_nil_of_mem hrest)).mpr (.inl hrest)
    · rcases List.mem_cons.mp (hperm.mem_iff.mp (not_not.mp hnan)) with ha | hmem
      · exact average_eq_nan_of_forall hlen' hall (ha ▸ hperm) hrest
      · have hb := (List.mem_cons.mp hmem).resolve_right hrest
        exact average_eq_nan_of_forall hlen' hall (hb ▸ hperm.trans (List.Perm.swap b a rest)) hrest

end Settled


/-! ### One sample replaced -/

theorem perm_set_eraseIdx {α : Type} {l : List α} {i : Nat} (hi : i < l.length) (x : α) :
    (l.set i x).Perm (x :: l.eraseIdx i) := by
  have hperm := List.getElem_cons_eraseIdx_perm (l := l.set i x) (n := i) (by simpa using hi)
  rw [List.getElem_set_self, List.eraseIdx_set_eq] at hperm
  exact hperm.symm

/-- Between two of some samples, by the comparison the sort uses. -/
def BetweenBy {α : Type} (lt : α → α → Bool) (samples : List α) (y : α) : Prop :=
  (∃ lo ∈ samples, lt y lo = false) ∧ ∃ hi ∈ samples, lt hi y = false

/-- Every sample that is left lies between two of those that were not replaced. -/
theorem between_of_mem_rejectOutliersBy [Sorting] {α : Type} {lt : α → α → Bool}
    {l others : List α} {x y : α} (hlen : 4 < l.length) (hperm : l.Perm (x :: others))
    (h : Consistent lt l) (hy : y ∈ rejectOutliersBy lt l) : BetweenBy lt others y := by
  obtain ⟨a, b, hs⟩ := sorted_eq_ends lt hlen
  have hsorted := Sorting.pairwise h
  have hpermS : (a :: (rejectOutliersBy lt l ++ [b])).Perm (x :: others) :=
    hs ▸ (Sorting.perm lt l).trans hperm
  rw [hs] at hsorted
  obtain ⟨hfirst, hrest⟩ := List.pairwise_cons.mp hsorted
  have hay : lt y a = false := hfirst y (List.mem_append_left _ hy)
  have hyb : lt b y = false := (List.pairwise_append.mp hrest).2.2 y hy b List.mem_cons_self
  have hyy : lt y y = false := by
    cases hself : lt y y with
    | false => rfl
    | true =>
        have hmem := mem_rejectOutliersBy hy
        rw [← hself]
        exact h.asymm y hmem y hmem hself
  -- the replaced sample takes one place only: if it is an end, the sample itself is another
  constructor
  · by_cases ha : a ∈ others
    · exact ⟨a, ha, hay⟩
    · obtain rfl : a = x := (List.mem_cons.mp (hpermS.subset List.mem_cons_self)).resolve_right ha
      exact ⟨y, hpermS.cons_inv.subset (List.mem_append_left _ hy), hyy⟩
  · by_cases hb : b ∈ others
    · exact ⟨b, hb, hyb⟩
    · have hbx : b = x :=
        (List.mem_cons.mp (hpermS.subset (by simp))).resolve_right hb
      have hmove : (b :: a :: rejectOutliersBy lt l).Perm (x :: others) :=
        (List.perm_append_singleton b (a :: rejectOutliersBy lt l)).symm.trans hpermS
      rw [hbx] at hmove
      exact ⟨y, hmove.cons_inv.subset (List.mem_cons_of_mem a hy), hyy⟩

section Replaced

open IeeeFloat

variable {F : Type} [IeeeFloat F]

/-- Samples that are finite, and none of them greater than `M` in magnitude. -/
def Bounded (l : List F) (M : ℚ) : Prop := ∀ y ∈ l, Finite y ∧ |val y| ≤ M

/-- What rounding may do to the mean of `n` samples up to `M`. -/
def meanError (n : Nat) (M : ℚ) : ℚ := (growth n - 1) * M + Binary64.tiny

/--
What is left of some samples is in the range of the others: every single one, and up to
rounding their mean.
-/
structure InRange (others left : List F) (M : ℚ) : Prop where
  samples : ∀ y ∈ left, Finite y ∧ (∃ lo ∈ others, val lo ≤ val y) ∧ ∃ hi ∈ others, val y ≤ val hi
  defined : Finite (PyFloat.average left)
  mean : (∃ lo ∈ others, val lo - meanError left.length M ≤ val (PyFloat.average left)) ∧
    ∃ hi ∈ others, val (PyFloat.average left) ≤ val hi + meanError left.length M

theorem consistent_floats {l : List F} (h : ∀ x ∈ l, exact x ≠ .nan) :
    Consistent PyFloat.lt l := by
  have hlt : (PyFloat.lt : F → F → Bool) = fun x y => Exact.lt (exact x) (exact y) := by
    funext x y
    exact lt_eq x y
  rw [hlt]
  exact consistent_lt exact h

theorem finite_of_between {others : List F} {M : ℚ} (hothers : Bounded others M) {y : F}
    (hy : exact y ≠ .nan) (h : BetweenBy PyFloat.lt others y) :
    Finite y ∧ (∃ lo ∈ others, val lo ≤ val y) ∧ ∃ hi ∈ others, val y ≤ val hi := by
  obtain ⟨⟨lo, hlo, hylo⟩, hi, hhi, hhiy⟩ := h
  have hlofin := (hothers lo hlo).1.exact_eq
  have hhifin := (hothers hi hhi).1.exact_eq
  rw [lt_eq, hlofin] at hylo
  rw [lt_eq, hhifin] at hhiy
  match hq : exact y with
  | .nan => exact absurd hq hy
  | .inf true =>
      rw [hq] at hylo
      cases hylo
  | .inf false =>
      rw [hq] at hhiy
      cases hhiy
  | .fin q =>
      rw [hq] at hylo hhiy
      rw [Exact.lt, decide_eq_false_iff_not, not_lt] at hylo hhiy
      rw [val_eq hq]
      exact ⟨⟨q, hq⟩, ⟨lo, hlo, hylo⟩, hi, hhi, hhiy⟩

/-- A mean lies between two of the numbers. -/
theorem exists_le_mean {l : List F} (hne : l ≠ []) :
    (∃ y ∈ l, val y ≤ (l.map val).sum / l.length) ∧
      ∃ z ∈ l, (l.map val).sum / l.length ≤ val z := by
  have hlen : (l.length : ℚ) ≠ 0 := Nat.cast_ne_zero.mpr (List.length_pos_iff.mpr hne).ne'
  have hsum : (l.map fun _ => (l.map val).sum / l.length).sum = (l.map val).sum := by
    rw [List.map_const', List.sum_replicate, nsmul_eq_mul, mul_div_cancel₀ _ hlen]
  exact ⟨List.exists_le_of_sum_le hne val _ hsum.ge, List.exists_le_of_sum_le hne _ val hsum.le⟩

/-- Samples in the range of others have their mean there, up to rounding. -/
theorem inRange_of_samples {others left : List F} {M : ℚ} (hothers : Bounded others M)
    (hne : left ≠ []) (hlen : left.length ≤ 2 ^ 53)
    (hlim : growth left.length * (left.length * M) < Binary64.limit)
    (h : ∀ y ∈ left, Finite y ∧ (∃ lo ∈ others, val lo ≤ val y) ∧ ∃ hi ∈ others, val y ≤ val hi) :
    InRange others left M := by
  have hbound : ∀ y ∈ left, |val y| ≤ M := by
    intro y hy
    obtain ⟨-, ⟨lo, hlo, hle⟩, hi, hhi, hge⟩ := h y hy
    have hl := abs_le.mp (hothers lo hlo).2
    have hh := abs_le.mp (hothers hi hhi).2
    exact abs_le.mpr ⟨by linarith, by linarith⟩
  obtain ⟨hfin, herr⟩ := exact_average hne hlen (fun y hy => (h y hy).1) hbound hlim
  obtain ⟨⟨y, hy, hyle⟩, z, hz, hzge⟩ := exists_le_mean hne
  obtain ⟨-, ⟨lo, hlo, hle⟩, -⟩ := h y hy
  obtain ⟨-, -, hi, hhi, hge⟩ := h z hz
  rw [← meanError, abs_le] at herr
  exact ⟨h, hfin, ⟨lo, hlo, by linarith⟩, hi, hhi, by linarith⟩

variable [Sorting]

/-- Whatever number takes the place of a sample. -/
theorem inRange_of_ne_nan {data others : List F} {M : ℚ} {i : Nat} {x : F}
    (hi : i < data.length) (hperm : (data.eraseIdx i).Perm others) (hlen : 4 ≤ others.length)
    (hsize : others.length ≤ 2 ^ 53) (hothers : Bounded others M)
    (hlim : growth others.length * (others.length * M) < Binary64.limit) (hx : exact x ≠ .nan) :
    InRange others (rejectOutliers (data.set i x)) M := by
  have hset : (data.set i x).Perm (x :: others) := (perm_set_eraseIdx hi x).trans (hperm.cons x)
  have hlen' : 4 < (data.set i x).length := by
    rw [hset.length_eq, List.length_cons]
    omega
  have hnan : ∀ y ∈ data.set i x, exact y ≠ .nan := by
    intro y hy
    rcases List.mem_cons.mp (hset.mem_iff.mp hy) with rfl | hmem
    · exact hx
    · rw [(hothers y hmem).1.exact_eq]
      exact nofun
  have hleft : (rejectOutliers (data.set i x)).length ≤ others.length := by
    obtain ⟨a, b, habs⟩ := perm_rejectOutliersBy (PyFloat.lt : F → F → Bool) hlen'
    have hcount := habs.length_eq
    rw [hset.length_eq] at hcount
    simp only [List.length_cons] at hcount
    rw [rejectOutliers]
    omega
  have hM : 0 ≤ M := by
    obtain ⟨y, hy⟩ := List.exists_mem_of_length_pos (by omega : 0 < others.length)
    exact (abs_nonneg _).trans (hothers y hy).2
  refine inRange_of_samples hothers (rejectOutliersBy_ne_nil _ hlen') (by omega) ?_ ?_
  · refine lt_of_le_of_lt ?_ hlim
    have hcast : ((rejectOutliers (data.set i x)).length : ℚ) ≤ others.length := by
      exact_mod_cast hleft
    have hgrow : growth (rejectOutliers (data.set i x)).length ≤ growth others.length :=
      pow_le_pow_right₀ (by linarith [Binary64.unit_pos]) hleft
    have hone := one_le_growth (rejectOutliers (data.set i x)).length
    exact mul_le_mul hgrow (mul_le_mul_of_nonneg_right hcast hM) (by positivity) (by linarith)
  · intro y hy
    refine finite_of_between hothers (hnan y (mem_rejectOutliersBy hy)) ?_
    exact between_of_mem_rejectOutliersBy hlen' hset (consistent_floats hnan) hy

/-- Not-a-number among ascending samples is left where it is. -/
theorem exists_average_nan {others : List F} (hlen : 4 ≤ others.length)
    (hothers : ∀ y ∈ others, exact y ≠ .nan) {x : F} (hx : exact x = .nan) :
    ∃ (data : List F) (i : Nat), i < data.length ∧ (data.eraseIdx i).Perm others ∧
      exact (PyFloat.average (rejectOutliers (data.set i x))) = .nan := by
  have hperm := Sorting.perm PyFloat.lt others
  have hsorted := Sorting.pairwise (consistent_floats hothers)
  match hs : Sorting.sorted PyFloat.lt others with
  | [] | [_] =>
      have hlen' := hperm.length_eq
      rw [hs] at hlen'
      simp only [List.length_cons, List.length_nil] at hlen'
      omega
  | c :: d :: w =>
      rw [hs] at hperm hsorted
      have hlenw := hperm.length_eq
      simp only [List.length_cons] at hlenw
      refine ⟨c :: c :: d :: w, 1, by simp, hperm, ?_⟩
      show exact (PyFloat.average (rejectOutliers (c :: x :: d :: w))) = .nan
      -- nothing compares as less than not-a-number, so the list is one ascending run
      have hchain : (c :: x :: d :: w).IsChain fun y z => PyFloat.lt z y = false := by
        have htail := (List.pairwise_cons.mp hsorted).2.isChain
        refine List.isChain_cons_cons.mpr ⟨?_, List.isChain_cons_cons.mpr ⟨?_, htail⟩⟩
        · rw [lt_eq, hx]
          exact (Exact.not_lt_nan _).1
        · rw [lt_eq, hx]
          exact (Exact.not_lt_nan _).2
      refine exact_average_nan ⟨x, ?_, hx⟩
      rw [rejectOutliers, rejectOutliersBy_many (by simp only [List.length_cons]; omega),
        Sorting.ascending hchain]
      exact List.mem_cons_self

/--
**One sample replaced.**  Among samples that are finite, any number in the place of one of
them leaves the mean in the range of the others, up to rounding, in whatever order they come;
not-a-number does not.
-/
theorem rejectOutliers_robust_iff (others : List F) (M : ℚ) (hlen : 4 ≤ others.length)
    (hsize : others.length ≤ 2 ^ 53) (hothers : Bounded others M)
    (hlim : growth others.length * (others.length * M) < Binary64.limit) (x : F) :
    (∀ (data : List F) (i : Nat), i < data.length → (data.eraseIdx i).Perm others →
      InRange others (rejectOutliers (data.set i x)) M) ↔ exact x ≠ .nan := by
  constructor
  · intro h hx
    have hnan : ∀ y ∈ others, exact y ≠ .nan := by
      intro y hy
      rw [(hothers y hy).1.exact_eq]
      exact nofun
    obtain ⟨data, i, hi, hperm, hmean⟩ := exists_average_nan hlen hnan hx
    obtain ⟨q, hq⟩ := (h data i hi hperm).defined
    rw [hmean] at hq
    cases hq
  · intro hx data i hi hperm
    exact inRange_of_ne_nan hi hperm hlen hsize hothers hlim hx

end Replaced

section FiveSamples

open scoped Sorting.Insertion

open IeeeFloat

/-- Five samples. -/
def fiveSamples : List Double :=
  [PyFloat.lit (1 : ℕ), PyFloat.lit (2 : ℕ), PyFloat.lit (3 : ℕ), PyFloat.lit (4 : ℕ),
    PyFloat.lit (5 : ℕ)]

theorem bounded_fiveSamples : Bounded (fiveSamples.eraseIdx 2) 5 := by
  have hlit : ∀ n : ℕ, n ≤ 5 →
      Finite (PyFloat.lit n : Double) ∧ |val (PyFloat.lit n : Double)| ≤ 5 := by
    intro n hn
    have hexact := exact_lit_nat (F := Double) (n := n) (by omega)
    refine ⟨⟨n, hexact⟩, ?_⟩
    rw [val_eq hexact, abs_of_nonneg (Nat.cast_nonneg n)]
    exact_mod_cast hn
  intro y hy
  simp only [fiveSamples, List.eraseIdx_cons_succ, List.eraseIdx_cons_zero, List.mem_cons,
    List.not_mem_nil, or_false] at hy
  rcases hy with rfl | rfl | rfl | rfl <;> exact hlit _ (by norm_num)

theorem rejectOutliers_robust_fiveSamples :
    InRange (fiveSamples.eraseIdx 2)
      (rejectOutliers (fiveSamples.set 2 (PyFloat.lit (900 : ℕ)))) 5 := by
  have hlim : growth (fiveSamples.eraseIdx 2).length * ((fiveSamples.eraseIdx 2).length * 5) <
      Binary64.limit := by
    refine lt_trans ?_ (Binary64.two_pow_lt_limit (k := 53) (by norm_num))
    norm_num [fiveSamples, growth, Binary64.unit]
  refine (rejectOutliers_robust_iff (fiveSamples.eraseIdx 2) 5 (by decide) (by decide)
    bounded_fiveSamples hlim (PyFloat.lit (900 : ℕ))).mpr ?_ fiveSamples 2 (by decide) (.refl _)
  rw [exact_lit_nat (by norm_num)]
  intro hnan
  cases hnan

-- without the allowance for rounding the range is missed: the mean of tenths exceeds a tenth
example : PyFloat.lt (PyFloat.lit (1 / 10)) (PyFloat.average (rejectOutliers
    (List.replicate 5 (PyFloat.lit (1 / 10) : Double)))) = true := by
  decide +kernel

/-- Not-a-number in the middle stays there, and the mean is not a number. -/
theorem rejectOutliers_not_robust :
    rejectOutliers (fiveSamples.set 2 .nan) = [PyFloat.lit (2 : ℕ), .nan, PyFloat.lit (4 : ℕ)] ∧
      exact (PyFloat.average (rejectOutliers (fiveSamples.set 2 .nan))) = .nan ∧
      ¬ InRange (fiveSamples.eraseIdx 2) (rejectOutliers (fiveSamples.set 2 .nan)) 5 := by
  have hchain : (fiveSamples.set 2 .nan).IsChain fun x y => PyFloat.lt y x = false := by
    decide +kernel
  have hleft : rejectOutliers (fiveSamples.set 2 .nan) =
      [PyFloat.lit (2 : ℕ), .nan, PyFloat.lit (4 : ℕ)] := by
    rw [rejectOutliers, rejectOutliersBy_many (by decide), Sorting.ascending hchain]
    rfl
  have hmean : exact (PyFloat.average (rejectOutliers (fiveSamples.set 2 .nan))) = .nan :=
    exact_average_nan ⟨.nan, by rw [hleft]; simp, rfl⟩
  refine ⟨hleft, hmean, fun h => ?_⟩
  obtain ⟨q, hq⟩ := h.defined
  rw [hmean] at hq
  cases hq

end FiveSamples

end Nicmem
