/-
The percentiles of the key-value store's latency log.

The histogram is a dictionary, and the running count goes through it in the order the
dictionary enumerates its bins, not in the order of the bins.  The reported percentile is
the bin at which the running count reaches the share, in that order; and since zero stands
for a percentile not yet found, bin zero is overwritten by the next one.  For the report
to be the least bin up to which the share is counted, whatever the order, one bin has to
hold ninety-nine in a hundred of all samples, and if it is bin zero there must be no other.
-/
import Mathlib.Order.Bounds.Basic
import Mathlib.Tactic.Linarith
import Nicmem.PerfUtil.Apps
import Nicmem.Python.Double
import Nicmem.Python.Match
import Nicmem.Python.Tally

namespace Nicmem

open Python

namespace Mica

/-! ### The histogram of a log -/

/-- The bin and the count a line names, if it names a bin that is kept. -/
def lineCount (l : Str) : Option (Nat × Nat) :=
  match findall bucket l with
  | [] => none
  | r :: _ => if natVal (r.getD 0 []) = 1920 then none
      else some (natVal (r.getD 0 []), natVal (r.getD 1 []))

/-- What the lines of a log name, in order. -/
def logCounts (data : Str) : List (Nat × Nat) := (data.splitOn '\n').filterMap lineCount

/-- The bins of a log. -/
def bins (data : Str) : List Nat := (logCounts data).map Prod.fst

/-- The number of samples. -/
def total (data : Str) : Nat := tally (fun _ => true) (logCounts data)

/-- The number of samples in a bin. -/
def countOf (data : Str) (k : Nat) : Nat := tally (· == k) (logCounts data)

/-- The sum of the samples. -/
def moment (data : Str) : Nat := weighted id (logCounts data)

/-- The number of samples up to a bin. -/
def countUpTo (data : Str) (k : Nat) : Nat := tally (· ≤ k) (logCounts data)

/-- A line is counted; it cannot raise, because both groups of a match are there. -/
theorem line_eq (histogram : Dict Nat Nat) (l : Str) :
    line histogram l = some ((lineCount l).elim histogram histogram.count) := by
  rw [line, lineCount]
  match h : findall bucket l with
  | [] => rfl
  | r :: rest =>
      have hmem : r ∈ findall bucket l := by
        rw [h]
        exact List.mem_cons_self
      have hlen : r.length = 2 := (groups_of_mem_findall hmem).length_eq.symm
      match r, hlen with
      | [a, b], _ =>
          show some (if natVal a = 1920 then histogram else _) =
            some ((if natVal a = 1920 then none else some (natVal a, natVal b)).elim _ _)
          split
          · rfl
          · rfl

theorem foldlM_line (lines : List Str) :
    ∀ histogram : Dict Nat Nat, lines.foldlM line histogram =
      some ((lines.filterMap lineCount).foldl Dict.count histogram) := by
  induction lines with
  | nil =>
      intro histogram
      rfl
  | cons l lines ih =>
      intro histogram
      rw [List.foldlM_cons, line_eq, List.filterMap_cons]
      show lines.foldlM line _ = _
      rw [ih]
      cases lineCount l <;> rfl

/-- The histogram the reader builds. -/
def histogram (data : Str) : Dict Nat Nat := Dict.counted (logCounts data)

theorem tally_items (order : Enumeration Nat) (data : Str) (q : Nat → Bool) :
    tally q ((histogram data).items order) = tally q (logCounts data) := by
  rw [tally_perm (Dict.items_perm order _), histogram, Dict.tally_counted]

theorem sum_items (order : Enumeration Nat) (data : Str) :
    (((histogram data).items order).map Prod.snd).sum = total data := by
  rw [← tally_all, tally_items]
  rfl

theorem mem_bins {data : Str} {k : Nat} :
    k ∈ bins data ↔ ∃ c, (histogram data).get? k = some c := by
  rw [← Dict.mem_keys_iff, histogram, Dict.mem_keys_counted]
  rfl

/-- What the histogram holds for a bin is the number of its samples. -/
theorem get?_histogram {data : Str} {k c : Nat} (h : (histogram data).get? k = some c) :
    countOf data k = c := by
  obtain ⟨rest, hitems⟩ := Dict.items_first h
  have hnodup := Dict.nodup_map_fst_items (.first k) (histogram data)
  rw [hitems, List.map_cons, List.nodup_cons] at hnodup
  have hrest : rest.filter (fun e => e.1 == k) = [] := by
    refine List.filter_eq_nil_iff.mpr fun e he heq => hnodup.1 ?_
    exact List.mem_map.mpr ⟨e, he, eq_of_beq heq⟩
  rw [countOf, ← tally_items (.first k), hitems, tally_cons, if_pos (beq_self_eq_true k), tally,
    hrest]
  rfl

/-! ### The loop -/

section Loop

/-- The running count compares to its share of the samples as the exact numbers do. -/
def Compares (F : Type) [PyFloat F] (N p : Nat) : Prop :=
  ∀ cdf ≤ N, PyFloat.le (PyFloat.div (PyFloat.mul (PyFloat.lit N : F) (PyFloat.lit p))
    (PyFloat.lit 100)) (PyFloat.lit (cdf : ℚ)) = decide (N * p ≤ 100 * cdf)

/-- It does while ninety-nine times the number of samples is a whole number of the format. -/
theorem compares_of_few {F : Type} [IeeeFloat F] {N p : Nat} (hN : 99 * N < 2 ^ 53)
    (hp : p ≤ 99) : Compares F N p := by
  intro cdf hcdf
  have hmul : N * p < 2 ^ 53 := by nlinarith
  have hhundred : IeeeFloat.exact (PyFloat.lit 100 : F) = .fin (100 : ℕ) := by
    have hlit := IeeeFloat.exact_lit_nat (F := F) (n := 100) (by norm_num)
    rwa [Nat.cast_ofNat] at hlit ⊢
  obtain ⟨r, hr, hnear⟩ := IeeeFloat.exact_div_nat
    (IeeeFloat.exact_mul_nat (IeeeFloat.exact_lit_nat (F := F) (n := N) (by omega))
      (IeeeFloat.exact_lit_nat (n := p) (by omega)) hmul.le) hhundred hmul.le (by norm_num)
  have hcmp := (nearest_div_iff (c := cdf) hmul (by norm_num) (by norm_num) (by omega) hnear).1
  rw [IeeeFloat.le_eq, hr, IeeeFloat.exact_lit_nat (by omega), Exact.le]
  exact decide_eq_decide.mpr hcmp

variable {F : Type} [PyFloat F] {N p : Nat}

/-- A percentile that is found stays. -/
theorem found_stays {th : Nat} (hth : th ≠ 0) (items : List (Nat × Nat)) :
    ∀ cdf, (items.foldl (percentile F N p) (cdf, th)).2 = th := by
  induction items with
  | nil =>
      intro cdf
      rfl
  | cons e items ih =>
      intro cdf
      rw [List.foldl_cons, percentile, if_neg fun h => hth h.1]
      exact ih _

variable (hcmp : Compares F N p)

include hcmp

theorem percentile_eq (cdf th : Nat) (e : Nat × Nat) (hle : cdf + e.2 ≤ N) :
    percentile F N p (cdf, th) e =
      (cdf + e.2, if th = 0 ∧ N * p ≤ 100 * (cdf + e.2) then e.1 else th) := by
  rw [percentile, hcmp (cdf + e.2) hle]
  simp only [decide_eq_true_eq]

/-- Before the share is reached nothing is found. -/
theorem not_reached (items : List (Nat × Nat)) :
    ∀ cdf, cdf + (items.map Prod.snd).sum ≤ N → 100 * (cdf + (items.map Prod.snd).sum) < N * p →
      items.foldl (percentile F N p) (cdf, 0) = (cdf + (items.map Prod.snd).sum, 0) := by
  induction items with
  | nil =>
      intro cdf _ _
      rfl
  | cons e items ih =>
      intro cdf hle h
      rw [List.map_cons, List.sum_cons] at hle h ⊢
      rw [List.foldl_cons, percentile_eq hcmp _ _ _ (by omega), if_neg (by omega),
        ih _ (by omega) (by omega), Nat.add_assoc]

/-- What is found is one of the bins. -/
theorem found_mem (items : List (Nat × Nat)) :
    ∀ cdf, cdf + (items.map Prod.snd).sum ≤ N →
      (items.foldl (percentile F N p) (cdf, 0)).2 = 0 ∨
        (items.foldl (percentile F N p) (cdf, 0)).2 ∈ items.map Prod.fst := by
  induction items with
  | nil =>
      intro cdf _
      exact Or.inl rfl
  | cons e items ih =>
      intro cdf hle
      rw [List.map_cons, List.sum_cons] at hle
      rw [List.foldl_cons, percentile_eq hcmp _ _ _ (by omega), List.map_cons, List.mem_cons]
      have hnext := ih (cdf + e.2) (by omega)
      by_cases hzero : (if 0 = 0 ∧ N * p ≤ 100 * (cdf + e.2) then e.1 else 0) = 0
      · rw [hzero]
        rcases hnext with h | h
        · exact Or.inl h
        · exact Or.inr (Or.inr h)
      · rw [found_stays hzero]
        refine Or.inr (Or.inl ?_)
        by_cases hreach : 0 = 0 ∧ N * p ≤ 100 * (cdf + e.2)
        · rw [if_pos hreach]
        · rw [if_neg hreach] at hzero
          exact absurd rfl hzero

/-- Bins other than zero are found once the share is reached. -/
theorem found_ne_zero (items : List (Nat × Nat)) :
    ∀ cdf, cdf + (items.map Prod.snd).sum ≤ N → items ≠ [] → (∀ e ∈ items, e.1 ≠ 0) →
      N * p ≤ 100 * (cdf + (items.map Prod.snd).sum) →
      (items.foldl (percentile F N p) (cdf, 0)).2 ≠ 0 := by
  induction items with
  | nil =>
      intro cdf _ hne
      exact absurd rfl hne
  | cons e items ih =>
      intro cdf hle _ hbins hreach
      rw [List.map_cons, List.sum_cons] at hle hreach
      rw [List.foldl_cons, percentile_eq hcmp _ _ _ (by omega)]
      by_cases hnow : 0 = 0 ∧ N * p ≤ 100 * (cdf + e.2)
      · rw [if_pos hnow, found_stays (hbins e List.mem_cons_self)]
        exact hbins e List.mem_cons_self
      · rw [if_neg hnow]
        refine ih _ (by omega) ?_ (fun e' he' => hbins e' (List.mem_cons_of_mem _ he')) (by omega)
        rintro rfl
        rw [List.map_nil, List.sum_nil] at hreach
        exact hnow ⟨rfl, by omega⟩

/-- The bin that takes the running count over the share is found, unless it is zero. -/
theorem percentileOf_split {pre post : List (Nat × Nat)} {m c : Nat}
    (hle : (pre.map Prod.snd).sum + c ≤ N) (hpre : 100 * (pre.map Prod.snd).sum < N * p)
    (hreach : N * p ≤ 100 * ((pre.map Prod.snd).sum + c)) (hm : m ≠ 0 ∨ post = []) :
    percentileOf F N (pre ++ (m, c) :: post) p = m := by
  have hfirst := not_reached hcmp pre 0 (by omega) (by omega)
  rw [Nat.zero_add] at hfirst
  rw [percentileOf, List.foldl_append, hfirst, List.foldl_cons, percentile_eq hcmp _ _ _ hle,
    if_pos ⟨rfl, hreach⟩]
  rcases hm with hm | rfl
  · exact found_stays hm post _
  · rfl

/-- A first bin is not what is found, if it does not reach the share. -/
theorem percentileOf_cons_ne {m c : Nat} {rest : List (Nat × Nat)} (hm : m ∉ rest.map Prod.fst)
    (hle : c + (rest.map Prod.snd).sum ≤ N) (hfew : 100 * c < N * p)
    (hreach : N * p ≤ 100 * (c + (rest.map Prod.snd).sum)) :
    percentileOf F N ((m, c) :: rest) p ≠ m := by
  have hstep := percentile_eq hcmp 0 0 (m, c) (by omega)
  rw [Nat.zero_add, if_neg (by omega)] at hstep
  rw [percentileOf, List.foldl_cons, hstep]
  by_cases hzero : m = 0
  · rw [hzero]
    refine found_ne_zero hcmp rest _ hle ?_ ?_ hreach
    · rintro rfl
      rw [List.map_nil, List.sum_nil] at hreach
      omega
    · intro e he h
      rw [hzero, ← h] at hm
      exact hm (List.mem_map_of_mem he)
  · intro heq
    rcases found_mem hcmp rest c hle with h | h
    · exact hzero (heq.symm.trans h)
    · rw [heq] at h
      exact hm h

/-- Bin zero is overwritten, if another follows. -/
theorem percentileOf_zero_cons {c : Nat} {rest : List (Nat × Nat)} (hne : rest ≠ [])
    (hle : c + (rest.map Prod.snd).sum ≤ N) (hm : 0 ∉ rest.map Prod.fst)
    (hreach : N * p ≤ 100 * (c + (rest.map Prod.snd).sum)) :
    percentileOf F N ((0, c) :: rest) p ≠ 0 := by
  have hstep := percentile_eq hcmp 0 0 (0, c) (by omega)
  rw [Nat.zero_add, ite_self] at hstep
  rw [percentileOf, List.foldl_cons, hstep]
  refine found_ne_zero hcmp rest _ hle hne ?_ hreach
  intro e he h
  rw [← h] at hm
  exact hm (List.mem_map_of_mem he)

end Loop

/-! ### What is reported -/

/-- The percentiles and the names they are reported under. -/
def names : List (Nat × String) := [(50, "mica_50th"), (90, "mica_90th"), (99, "mica_99th")]

/-- The bin reported under a name. -/
def binAt {F : Type} (out : Result F) (name : String) : Option Int :=
  match out.get? name.toList with
  | some (.int k) => some k
  | _ => none

/-- The bins up to which a share of the samples is counted. -/
def reaching (data : Str) (p : Nat) : Set Nat :=
  {k | k ∈ bins data ∧ total data * p ≤ 100 * countUpTo data k}

theorem nodup_names : ("mica_avg".toList :: names.map fun e => e.2.toList).Nodup := by
  decide

theorem moment_items (order : Enumeration Nat) (data : Str) :
    (((histogram data).items order).map fun e => e.1 * e.2).sum = moment data := by
  refine (weighted_perm (w := id) (Dict.items_perm order _)).trans ?_
  rw [histogram, Dict.weighted_counted]
  rfl

/-- A log that doubles can be computed from: there are samples, ninety-nine times their number
is below `2 ^ 53`, and their sum is not too large for a double. -/
structure Measurable (data : Str) : Prop where
  some : 0 < total data
  few : 99 * total data < 2 ^ 53
  bounded : (moment data : ℚ) < Binary64.limit

section Reported

variable {F : Type} [IeeeFloat F]

theorem ofInt_nat {n : Nat} (h : (n : ℚ) < Binary64.limit) :
    (PyFloat.ofInt n : Option F) = some (PyFloat.lit n) := by
  obtain ⟨r, hr, -⟩ := (IeeeFloat.lit_rounded (F := F) n).fin
    (by rwa [abs_of_nonneg (Nat.cast_nonneg n)])
  rw [PyFloat.ofInt, Int.cast_natCast, IeeeFloat.trunc_eq, hr, Exact.trunc, Option.isSome_some,
    if_pos rfl]

theorem readMicaLat_some {data : Str} (h : Measurable data) (order : Enumeration Nat) :
    ∃ out, readMicaLat (F := F) order data = some out ∧ ∀ e ∈ names, binAt out e.2 =
      some ((percentileOf F (total data) ((histogram data).items order) e.1 : Nat) : Int) := by
  have hhist : (data.splitOn '\n').foldlM line .empty = some (histogram data) := foldlM_line _ _
  have hnum : (total data : ℚ) < Binary64.limit := by
    have hfew := h.few
    have hle : total data ≤ 2 ^ 53 := by omega
    have hcast : (total data : ℚ) ≤ 2 ^ 53 := by exact_mod_cast hle
    exact hcast.trans_lt (Binary64.two_pow_lt_limit (by norm_num))
  obtain ⟨avg, hout⟩ : ∃ avg, readMicaLat (F := F) order data =
      some (Dict.ofList (("mica_avg".toList, .str avg) :: names.map fun e => (e.2.toList,
        .int (percentileOf F (total data) ((histogram data).items order) e.1)))) := by
    refine ⟨PyFloat.fmt2 (PyFloat.div (PyFloat.lit (moment data) : F)
      (PyFloat.lit (total data))), ?_⟩
    simp only [readMicaLat, hhist, Option.bind_eq_bind, Option.bind_some, sum_items, moment_items,
      ofInt_nat h.bounded, ofInt_nat hnum, if_neg h.some.ne']
    rfl
  refine ⟨_, hout, fun e he => ?_⟩
  have hget : (Dict.ofList (("mica_avg".toList, (.str avg : Value F)) :: names.map fun e =>
      (e.2.toList, .int (percentileOf F (total data) ((histogram data).items order) e.1)))).get?
      e.2.toList =
      some (.int (percentileOf F (total data) ((histogram data).items order) e.1)) := by
    rw [Dict.get?_eq_some_iff, Dict.entries_ofList]
    · exact List.mem_cons_of_mem _ (List.mem_map.mpr ⟨e, he, rfl⟩)
    · exact nodup_names
  rw [binAt, hget]

end Reported

/-- One bin holds ninety-nine in a hundred of the samples; bin zero only on its own. -/
def Dominated (data : Str) : Prop :=
  ∃ m ∈ bins data, 99 * total data ≤ 100 * countOf data m ∧ (m ≠ 0 ∨ ∀ k ∈ bins data, k = 0)

theorem names_bounds : ∀ e ∈ names, 50 ≤ e.1 ∧ e.1 ≤ 99 := by decide

theorem share_bounds {p : Nat} (hp : 50 ≤ p) (hp' : p ≤ 99) (n : Nat) :
    n * 50 ≤ n * p ∧ n * p ≤ 99 * n := by
  refine ⟨Nat.mul_le_mul_left _ hp, ?_⟩
  rw [Nat.mul_comm]
  exact Nat.mul_le_mul_right _ hp'

section Dominant

variable {data : Str} {m p : Nat} (hN : 0 < total data) (hp : 50 ≤ p) (hp' : p ≤ 99)
  (hm : m ∈ bins data) (hmost : 99 * total data ≤ 100 * countOf data m)

include hN hp hp' hm hmost

/-- The dominant bin is the least one that reaches any of the shares. -/
theorem isLeast_dominant : IsLeast (reaching data p) m := by
  obtain ⟨hhalf, hshare⟩ := share_bounds hp hp' (total data)
  refine ⟨⟨hm, ?_⟩, ?_⟩
  · have hle : countOf data m ≤ countUpTo data m :=
      tally_mono (fun k hk => by rw [eq_of_beq hk]; exact decide_eq_true (le_refl m)) _
    omega
  · rintro k ⟨-, hk⟩
    by_contra hlt
    have hdisjoint : countUpTo data k + countOf data m ≤ total data :=
      tally_add_le (fun j hj => beq_eq_false_iff_ne.mpr fun h => by
        have hle := of_decide_eq_true hj
        omega) _
    omega

/-- The dominant bin is what is reported, in every order. -/
theorem percentileOf_dominant {F : Type} [PyFloat F] (hcmp : Compares F (total data) p)
    (hzero : m ≠ 0 ∨ ∀ k ∈ bins data, k = 0) (order : Enumeration Nat) :
    percentileOf F (total data) ((histogram data).items order) p = m := by
  obtain ⟨c, hc⟩ := mem_bins.mp hm
  obtain ⟨pre, post, hsplit⟩ := List.append_of_mem (Dict.mem_items (E := order).mpr hc)
  have hcount := get?_histogram hc
  have hsum := sum_items order data
  have hnodup := Dict.nodup_map_fst_items order (histogram data)
  rw [hsplit, List.map_append, List.map_cons, List.sum_append, List.sum_cons] at hsum
  rw [hsplit, List.map_append, List.map_cons, List.nodup_append, List.nodup_cons] at hnodup
  obtain ⟨hhalf, hshare⟩ := share_bounds hp hp' (total data)
  rw [hsplit]
  refine percentileOf_split hcmp (by omega) (by omega) (by omega) ?_
  rcases hzero with hne | hall
  · exact Or.inl hne
  · refine Or.inr (List.eq_nil_iff_forall_not_mem.mpr fun e he => hnodup.2.1.1 ?_)
    have hbin : e.1 ∈ bins data := by
      refine mem_bins.mpr ⟨e.2, (Dict.mem_items (E := order)).mp ?_⟩
      rw [hsplit]
      exact List.mem_append_right _ (List.mem_cons_of_mem _ he)
    exact List.mem_map.mpr ⟨e, he, (hall e.1 hbin).trans (hall m hm).symm⟩

end Dominant

/-- Every order of the bins gives the least bins that reach the shares; they are ordered,
and permuting the lines of the log does not change them. -/
structure ReportsLeast (F : Type) [PyFloat F] (data : Str) : Prop where
  least : ∀ order, ∃ out, readMicaLat (F := F) order data = some out ∧
    ∀ e ∈ names, ∃ k : Nat, binAt out e.2 = some (k : Int) ∧ IsLeast (reaching data e.1) k
  ordered : ∀ order, ∀ out : Result F, readMicaLat order data = some out → ∃ k50 k90 k99,
    binAt out "mica_50th" = some k50 ∧ binAt out "mica_90th" = some k90 ∧
      binAt out "mica_99th" = some k99 ∧ k50 ≤ k90 ∧ k90 ≤ k99
  permuted : ∀ data', (data'.splitOn '\n').Perm (data.splitOn '\n') → ∀ order order',
    ∀ out out' : Result F, readMicaLat order data = some out →
      readMicaLat order' data' = some out' → ∀ e ∈ names, binAt out e.2 = binAt out' e.2

section Least

variable {F : Type} [IeeeFloat F] {data : Str}

theorem readMicaLat_dominated (h : Measurable data) {m : Nat} (hm : m ∈ bins data)
    (hmost : 99 * total data ≤ 100 * countOf data m)
    (hzero : m ≠ 0 ∨ ∀ k ∈ bins data, k = 0) {order : Enumeration Nat} {out : Result F}
    (hread : readMicaLat order data = some out) :
    ∀ e ∈ names, binAt out e.2 = some (m : Int) := by
  intro e he
  obtain ⟨out', hout, hbin⟩ := readMicaLat_some (F := F) h order
  rw [hread, Option.some.injEq] at hout
  obtain ⟨hp, hp'⟩ := names_bounds e he
  rw [hout, hbin e he,
    percentileOf_dominant h.some hp hp' hm hmost (compares_of_few h.few hp') hzero order]

theorem reportsLeast_of_dominated (h : Measurable data) (hdom : Dominated data) :
    ReportsLeast F data := by
  obtain ⟨m, hm, hmost, hzero⟩ := hdom
  constructor
  · intro order
    obtain ⟨out, hout, -⟩ := readMicaLat_some (F := F) h order
    refine ⟨out, hout, fun e he => ⟨m, readMicaLat_dominated h hm hmost hzero hout e he, ?_⟩⟩
    obtain ⟨hp, hp'⟩ := names_bounds e he
    exact isLeast_dominant h.some hp hp' hm hmost
  · intro order out hout
    have hall := readMicaLat_dominated h hm hmost hzero hout
    exact ⟨m, m, m, hall _ (.head _), hall _ (.tail _ (.head _)),
      hall _ (.tail _ (.tail _ (.head _))), le_refl _, le_refl _⟩
  · intro data' hperm order order' out out' hout hout' e he
    -- the other log has the same bins and counts
    have hcounts : (logCounts data').Perm (logCounts data) := hperm.filterMap _
    have htotal : total data' = total data := tally_perm hcounts
    have hcount : countOf data' m = countOf data m := tally_perm hcounts
    have hmoment : moment data' = moment data := weighted_perm hcounts
    have hbins : ∀ k, k ∈ bins data' ↔ k ∈ bins data := fun k => (hcounts.map _).mem_iff
    have h' : Measurable data' :=
      ⟨htotal ▸ h.some, htotal ▸ h.few, hmoment ▸ h.bounded⟩
    have hmost' : 99 * total data' ≤ 100 * countOf data' m := by
      rw [htotal, hcount]
      exact hmost
    have hzero' : m ≠ 0 ∨ ∀ k ∈ bins data', k = 0 :=
      hzero.imp_right fun hall k hk => hall k ((hbins k).mp hk)
    rw [readMicaLat_dominated h hm hmost hzero hout e he,
      readMicaLat_dominated h' ((hbins m).mpr hm) hmost' hzero' hout' e he]

/-- A bin that is reported for the highest share wherever it is enumerated dominates. -/
theorem dominated_of_reportsLeast (h : Measurable data) (hleast : ReportsLeast F data) :
    Dominated data := by
  have h99 : (99, "mica_99th") ∈ names := by decide
  obtain ⟨_, _, hins⟩ := hleast.least (.insertion Nat)
  obtain ⟨m, -, hm⟩ := hins _ h99
  obtain ⟨c, hc⟩ := mem_bins.mp hm.1.1
  obtain ⟨rest, hitems⟩ := Dict.items_first hc
  have hnodup := Dict.nodup_map_fst_items (.first m) (histogram data)
  have hsum := sum_items (.first m) data
  rw [hitems, List.map_cons, List.nodup_cons] at hnodup
  rw [hitems, List.map_cons, List.sum_cons] at hsum
  have hreach : total data * 99 ≤ 100 * (c + (rest.map Prod.snd).sum) := by omega
  have hcmp : Compares F (total data) 99 := compares_of_few h.few (le_refl 99)
  -- enumerated first, it is reported all the same
  have hfirst : percentileOf F (total data) ((m, c) :: rest) 99 = m := by
    obtain ⟨out, hout, hbin⟩ := readMicaLat_some (F := F) h (.first m)
    obtain ⟨out', hout', hleast'⟩ := hleast.least (.first m)
    obtain ⟨k, hk, hkleast⟩ := hleast' _ h99
    rw [hout, Option.some.injEq] at hout'
    rw [← hout', hbin _ h99, hitems, Option.some.injEq, Nat.cast_inj] at hk
    rw [hk]
    exact hkleast.unique hm
  refine ⟨m, hm.1.1, ?_, ?_⟩
  · rw [get?_histogram hc]
    by_contra hfew
    exact percentileOf_cons_ne hcmp hnodup.1 hsum.le (by omega) hreach hfirst
  · by_contra hboth
    rw [not_or, not_not] at hboth
    obtain ⟨rfl, hother⟩ := hboth
    refine percentileOf_zero_cons hcmp ?_ hsum.le hnodup.1 hreach hfirst
    rintro rfl
    refine hother fun k hk => ?_
    obtain ⟨d, hd⟩ := mem_bins.mp hk
    have hmem := Dict.mem_items (E := .first 0).mpr hd
    rw [hitems, List.mem_singleton] at hmem
    exact congrArg Prod.fst hmem

/-- The reported percentiles of a log that doubles can be computed from are right in every
order of the bins exactly when one bin dominates. -/
theorem readMicaLat_least_iff (data : Str) (h : Measurable data) :
    ReportsLeast F data ↔
      ∃ m ∈ bins data, 99 * total data ≤ 100 * countOf data m ∧
        (m ≠ 0 ∨ ∀ k ∈ bins data, k = 0) :=
  ⟨dominated_of_reportsLeast h, reportsLeast_of_dominated h⟩

end Least

/-- Three samples in bin seven. -/
def oneBin : Str := "  7  3".toList

theorem measurable_oneBin : Measurable oneBin := by
  refine ⟨by decide, by decide, ?_⟩
  have hmoment : moment oneBin = 21 := by decide
  rw [hmoment]
  exact lt_trans (by norm_num) (Binary64.two_pow_lt_limit (k := 53) (by norm_num))

theorem readMicaLat_oneBin : ReportsLeast Double oneBin :=
  (readMicaLat_least_iff oneBin measurable_oneBin).mpr (by decide)

/-- Two samples, in bins eight and one. -/
def twoBins : Str := "8 1\n1 1".toList

theorem measurable_twoBins : Measurable twoBins := by
  refine ⟨by decide, by decide, ?_⟩
  have hmoment : moment twoBins = 9 := by decide
  rw [hmoment]
  exact lt_trans (by norm_num) (Binary64.two_pow_lt_limit (k := 53) (by norm_num))

/-- A dictionary lists bin eight first. -/
theorem readMicaLat_twoBins :
    Measurable twoBins ∧
    ∃ out, readMicaLat (F := Double) (.insertion Nat) twoBins = some out ∧
      binAt out "mica_50th" = some 8 ∧ binAt out "mica_90th" = some 1 ∧
      ¬ IsLeast (reaching twoBins 50) 8 := by
  obtain ⟨out, hout, hbin⟩ :=
    readMicaLat_some (F := Double) measurable_twoBins (.insertion Nat)
  have h50 : percentileOf Double (total twoBins) ((histogram twoBins).items (.insertion Nat)) 50 =
      8 := by decide +kernel
  have h90 : percentileOf Double (total twoBins) ((histogram twoBins).items (.insertion Nat)) 90 =
      1 := by decide +kernel
  refine ⟨measurable_twoBins, out, hout, ?_, ?_, ?_⟩
  · rw [hbin (50, "mica_50th") (by decide), h50]
    rfl
  · rw [hbin (90, "mica_90th") (by decide), h90]
    rfl
  · intro hleast
    have hone : 1 ∈ reaching twoBins 50 := by
      refine ⟨?_, ?_⟩ <;> decide
    exact absurd (hleast.2 hone) (by decide)

end Mica

end Nicmem
