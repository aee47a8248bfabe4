/-
The percentiles of a latency histogram.

The buckets are walked in order of latency.  A bucket fills every percentile whose bound
its running count exceeds, so a heavy bucket fills many and an empty one none, and the
value of percentile `c` is the first latency at which the running count exceeds `c`
hundredths of the total.  Percentile 100 is never reached, because the last running count
is the total and the comparison is strict: a histogram with samples has ninety-nine
percentiles, one without has none.
-/
import Mathlib.Algebra.BigOperators.Ring.Finset
import Mathlib.Data.Nat.Cast.Order.Field
import Nicmem.PerfUtil.Trex
import Nicmem.Python.Exact
import Nicmem.Python.Merge
import Nicmem.Stats

namespace Nicmem

open Python

/-! ### The inner loop -/

section Fill

variable {F : Type} [PyFloat F] {total upTo : F} {k : Obj F}

/-- What the inner loop has done when it returns: it filled the percentiles whose bound is
exceeded, and stands at one whose bound is not. -/
theorem fillPercentiles_spec :
    ∀ {fuel cur cur' : Nat} {ps ps' : List (Obj F)},
      fillPercentiles total upTo k fuel cur ps = some (cur', ps') →
      cur ≤ cur' ∧ ps' = ps ++ List.replicate (cur' - cur) k ∧
        PyFloat.lt (percentileBound total cur') upTo = false ∧
        ∀ c, cur ≤ c → c < cur' → PyFloat.lt (percentileBound total c) upTo = true := by
  have hstop : ∀ {cur cur' : Nat} {ps ps' : List (Obj F)},
      ¬ PyFloat.lt (percentileBound total cur) upTo = true → some (cur, ps) = some (cur', ps') →
      cur ≤ cur' ∧ ps' = ps ++ List.replicate (cur' - cur) k ∧
        PyFloat.lt (percentileBound total cur') upTo = false ∧
        ∀ c, cur ≤ c → c < cur' → PyFloat.lt (percentileBound total c) upTo = true := by
    intro cur cur' ps ps' hlt h
    rw [Option.some.injEq, Prod.mk.injEq] at h
    obtain ⟨rfl, rfl⟩ := h
    refine ⟨le_refl _, ?_, eq_false_of_ne_true hlt, fun c hle hlt' => absurd hlt' (by omega)⟩
    rw [Nat.sub_self, List.replicate_zero, List.append_nil]
  intro fuel
  induction fuel with
  | zero =>
      intro cur cur' ps ps' h
      rw [fillPercentiles] at h
      by_cases hlt : PyFloat.lt (percentileBound total cur) upTo = true
      · rw [if_pos hlt] at h
        cases h
      · rw [if_neg hlt] at h
        exact hstop hlt h
  | succ fuel ih =>
      intro cur cur' ps ps' h
      rw [fillPercentiles] at h
      by_cases hlt : PyFloat.lt (percentileBound total cur) upTo = true
      · rw [if_pos hlt] at h
        obtain ⟨hle, hps, hend, hall⟩ := ih h
        refine ⟨by omega, ?_, hend, ?_⟩
        · rw [hps, List.append_assoc, List.singleton_append, ← List.replicate_succ]
          rw [show cur' - (cur + 1) + 1 = cur' - cur by omega]
        · intro c hc hc'
          rcases Nat.eq_or_lt_of_le hc with rfl | hc
          · exact hlt
          · exact hall c hc hc'
      · rw [if_neg hlt] at h
        exact hstop hlt h

/-- The inner loop returns when a percentile within its fuel is not exceeded. -/
theorem fillPercentiles_returns :
    ∀ {fuel cur : Nat} {ps : List (Obj F)},
      (∃ c, cur ≤ c ∧ c ≤ cur + fuel ∧ PyFloat.lt (percentileBound total c) upTo = false) →
      ∃ r, fillPercentiles total upTo k fuel cur ps = some r := by
  intro fuel
  induction fuel with
  | zero =>
      intro cur ps hex
      obtain ⟨c, hle, hge, hc⟩ := hex
      obtain rfl : c = cur := by omega
      rw [fillPercentiles, hc]
      exact ⟨_, rfl⟩
  | succ fuel ih =>
      intro cur ps hex
      obtain ⟨c, hle, hge, hc⟩ := hex
      rw [fillPercentiles]
      by_cases hlt : PyFloat.lt (percentileBound total cur) upTo = true
      · rw [if_pos hlt]
        refine ih ⟨c, ?_, by omega, hc⟩
        rcases Nat.eq_or_lt_of_le hle with rfl | hle
        · rw [hc] at hlt
          cases hlt
        · exact hle
      · rw [if_neg hlt]
        exact ⟨_, rfl⟩

end Fill

/-! ### The outer loop -/

section Loop

variable {F : Type} [PyFloat F] {stands : F → ℚ → Prop} {t : ℚ}

/--
Floating-point numbers stand for counts up to a total of `t`: counts are added up without
error, and a count compares to a percentage of the total as it should.
-/
structure Measures (stands : F → ℚ → Prop) (t : ℚ) : Prop where
  zero : stands (PyFloat.lit 0) 0
  add : ∀ {x y : F} {p q : ℚ}, stands x p → stands y q → p + q ≤ t →
    stands (PyFloat.add x y) (p + q)
  lt : ∀ {total x : F} {q : ℚ} {c : Nat}, stands total t → stands x q → q ≤ t → c ≤ 100 →
    PyFloat.lt (percentileBound total c) x = decide (t * c / 100 < q)

/-- Buckets with the counts their numbers stand for. -/
abbrev Measured (stands : F → ℚ → Prop) : List (Obj F × F) → List (Obj F × ℚ) → Prop :=
  List.Forall₂ fun b q => b.1 = q.1 ∧ stands b.2 q.2

theorem hundredths_mono (ht : 0 ≤ t) {c c' : Nat} (h : c ≤ c') :
    t * c / 100 ≤ t * c' / 100 := by
  have hc : (c : ℚ) ≤ c' := by exact_mod_cast h
  have hmul : t * c ≤ t * c' := mul_le_mul_of_nonneg_left hc ht
  linarith

theorem hundred_hundredths (t : ℚ) : t * (100 : Nat) / 100 = t := by
  rw [Nat.cast_ofNat, mul_div_assoc, div_self (by norm_num), mul_one]

/--
Where no running count exceeds the total, the loop returns.  From percentile `cur` on,
percentile `c` is the first latency at which the running count exceeds `c` hundredths of the
total, and there are none from percentile 100 on.
-/
theorem percentileLoop_spec (hm : Measures stands t) (ht : 0 ≤ t) {total : F}
    (htotal : stands total t) {fuel : Nat} (hfuel : 99 ≤ fuel) {bs : List (Obj F × F)}
    {qs : List (Obj F × ℚ)} (hbs : Measured stands bs qs) :
    ∀ {cur : Nat} {s : ℚ} {curSum : F} (ps : List (Obj F)), 1 ≤ cur → cur ≤ 100 →
      stands curSum s → (∀ pre, pre <+: qs → s + Stats.weight pre ≤ t) →
      ∃ out, percentileLoop fuel total bs cur curSum ps = some out ∧ ps <+: out ∧
        out.length ≤ ps.length + (100 - cur) ∧
        ∀ c, cur ≤ c → c ≤ 99 →
          out[ps.length + (c - cur)]? = Stats.firstAbove (t * c / 100) s qs := by
  induction hbs with
  | nil =>
      intro cur s curSum ps _ _ _ _
      refine ⟨ps, rfl, List.prefix_rfl, by omega, fun c _ _ => ?_⟩
      exact List.getElem?_eq_none (by omega)
  | @cons b e bs qs hbe _ ih =>
      intro cur s curSum ps hcur hcur' hs hsum
      obtain ⟨hkey, hcount⟩ := hbe
      have hle : s + e.2 ≤ t := by
        have hone := hsum [e] ⟨qs, rfl⟩
        rwa [Stats.weight_cons, Stats.weight_nil, add_zero] at hone
      have hup : stands (PyFloat.add b.2 curSum) (s + e.2) := by
        rw [add_comm s]
        exact hm.add hcount hs (by linarith)
      have hlt : ∀ c : Nat, c ≤ 100 → PyFloat.lt (percentileBound total c)
          (PyFloat.add b.2 curSum) = decide (t * c / 100 < s + e.2) := fun c hc =>
        hm.lt htotal hup hle hc
      have hstop : PyFloat.lt (percentileBound total 100) (PyFloat.add b.2 curSum) = false := by
        rw [hlt 100 (le_refl _), hundred_hundredths, decide_eq_false_iff_not, not_lt]
        exact hle
      obtain ⟨⟨cur', ps'⟩, hfill⟩ :
          ∃ r, fillPercentiles total (PyFloat.add b.2 curSum) b.1 fuel cur ps = some r :=
        fillPercentiles_returns ⟨100, hcur', by omega, hstop⟩
      obtain ⟨hcle, hps, hend, hall⟩ := fillPercentiles_spec hfill
      -- percentile 100 is not exceeded, so the inner loop stops there at the latest
      have hcle' : cur' ≤ 100 := by
        by_contra hgt
        have habove := hall 100 hcur' (by omega)
        rw [hstop] at habove
        cases habove
      obtain ⟨out, hloop, hpre, hlen, hrest⟩ := ih ps' (by omega) hcle'
        (hm.add hs hcount hle) fun pre hpre => by
          have hcons := hsum (e :: pre) (List.cons_prefix_cons.mpr ⟨rfl, hpre⟩)
          rwa [Stats.weight_cons, ← add_assoc] at hcons
      have hlen' : ps'.length = ps.length + (cur' - cur) := by
        rw [hps, List.length_append, List.length_replicate]
      refine ⟨out, ?_, ?_, by omega, fun c hc hc' => ?_⟩
      · rw [percentileLoop, hfill]
        exact hloop
      · rw [hps] at hpre
        exact (List.prefix_append _ _).trans hpre
      rw [Stats.firstAbove]
      rcases Nat.lt_or_ge c cur' with hbefore | hafter
      · -- filled by this bucket
        have habove := hall c hc hbefore
        rw [hlt c (by omega), decide_eq_true_eq] at habove
        obtain ⟨post, rfl⟩ := hpre
        rw [if_pos habove, List.getElem?_append_left (by omega), hps,
          List.getElem?_append_right (by omega), List.getElem?_replicate, if_pos (by omega), hkey]
      · -- left to the buckets that follow
        rw [hlt cur' hcle', decide_eq_false_iff_not, not_lt] at hend
        have hbelow : s + e.2 ≤ t * c / 100 := le_trans hend (hundredths_mono ht hafter)
        rw [if_neg (not_lt.mpr hbelow), ← hrest c hafter hc']
        congr 1
        omega

/-- Counts added up in the order of the dictionary. -/
theorem stands_totalMeasured (hm : Measures stands t) {bs : List (Obj F × F)}
    {qs : List (Obj F × ℚ)} (hbs : Measured stands bs qs) :
    ∀ {start : F} {s : ℚ}, stands start s → (∀ pre, pre <+: qs → s + Stats.weight pre ≤ t) →
      stands ((bs.map Prod.snd).foldl PyFloat.add start) (s + Stats.weight qs) := by
  induction hbs with
  | nil =>
      intro start s hs _
      rw [Stats.weight_nil, add_zero]
      exact hs
  | @cons b e bs qs hbe _ ih =>
      intro start s hs hsum
      have hle : s + e.2 ≤ t := by
        have hone := hsum [e] ⟨qs, rfl⟩
        rwa [Stats.weight_cons, Stats.weight_nil, add_zero] at hone
      rw [Stats.weight_cons, ← add_assoc, List.map_cons, List.foldl_cons]
      refine ih (hm.add hs hbe.2 hle) fun pre hpre => ?_
      have hcons := hsum (e :: pre) (List.cons_prefix_cons.mpr ⟨rfl, hpre⟩)
      rwa [Stats.weight_cons, ← add_assoc] at hcons

theorem weight_prefix_le {α : Type} {qs pre : List (α × ℚ)} (hnonneg : ∀ e ∈ qs, 0 ≤ e.2)
    (hpre : pre <+: qs) : Stats.weight pre ≤ Stats.weight qs := by
  obtain ⟨post, rfl⟩ := hpre
  have hrest := Stats.weight_nonneg fun e he => hnonneg e (List.mem_append_right _ he)
  rw [Stats.weight_append]
  linarith

/--
The percentiles of a histogram without negative counts: percentile `i + 1` is where the
running count first exceeds its bound.  With samples there are ninety-nine, without there are
none.
-/
theorem percentilesOf_spec [Sorting] {bs : List (Obj F × F)} {qs : List (Obj F × ℚ)}
    (hbs : Measured stands bs qs) (hm : Measures stands (Stats.weight qs))
    (hnonneg : ∀ e ∈ qs, 0 ≤ e.2) {fuel : Nat} (hfuel : 99 ≤ fuel) :
    ∃ qs' out, qs'.Perm qs ∧
      Measured stands (Sorting.sorted (fun x y => Obj.lt x.1 y.1) bs) qs' ∧
      percentilesOf fuel bs = some out ∧
      (∀ i < 99,
        out[i]? = Stats.firstAbove (Stats.weight qs * (i + 1 : Nat) / 100) 0 qs') ∧
      (0 < Stats.weight qs → out.length = 99) ∧ (Stats.weight qs = 0 → out = []) := by
  obtain ⟨qs', hbs', hperm⟩ :=
    List.perm_comp_forall₂ (Sorting.perm (fun x y => Obj.lt x.1 y.1) bs) hbs
  have hweight : Stats.weight qs' = Stats.weight qs := (hperm.map Prod.snd).sum_eq
  have hnonneg' : ∀ e ∈ qs', 0 ≤ e.2 := fun e he => hnonneg e (hperm.mem_iff.mp he)
  have ht : 0 ≤ Stats.weight qs := Stats.weight_nonneg hnonneg
  have hsum : ∀ pre, pre <+: qs → 0 + Stats.weight pre ≤ Stats.weight qs := fun pre hpre => by
    rw [zero_add]
    exact weight_prefix_le hnonneg hpre
  have hsum' : ∀ pre, pre <+: qs' → 0 + Stats.weight pre ≤ Stats.weight qs := fun pre hpre => by
    rw [zero_add, ← hweight]
    exact weight_prefix_le hnonneg' hpre
  have htotal : stands (totalMeasured bs) (Stats.weight qs) := by
    have hfold := stands_totalMeasured hm hbs hm.zero hsum
    rwa [zero_add] at hfold
  obtain ⟨out, hout, -, hlen, hat⟩ :=
    percentileLoop_spec hm ht htotal hfuel hbs' [] (le_refl 1) (by omega) hm.zero hsum'
  have hat' : ∀ i < 99,
      out[i]? = Stats.firstAbove (Stats.weight qs * (i + 1 : Nat) / 100) 0 qs' := by
    intro i hi
    have hi' := hat (i + 1) (by omega) (by omega)
    rwa [List.length_nil, Nat.add_sub_cancel, Nat.zero_add] at hi'
  refine ⟨qs', out, hperm, hbs', hout, hat', fun hpos => ?_, fun hzero => ?_⟩
  · -- the last running count is the total, which exceeds the bound of percentile 99
    have hlast : ¬ out.length ≤ 98 := by
      rw [← List.getElem?_eq_none_iff, hat' 98 (by omega),
        Stats.firstAbove_eq_none_iff _ (by positivity)]
      intro hall
      have hwhole := hall _ List.prefix_rfl
      rw [hweight] at hwhole
      push_cast at hwhole
      linarith
    rw [List.length_nil] at hlen
    omega
  · -- no running count exceeds the bound of percentile one
    have hnone : out[0]? = none := by
      rw [hat' 0 (by omega), hzero, zero_mul, zero_div,
        Stats.firstAbove_eq_none_iff _ (le_refl 0)]
      intro pre hpre
      exact (hsum' pre hpre).trans hzero.le
    exact List.length_eq_zero_iff.mp (Nat.le_zero.mp (List.getElem?_eq_none_iff.mp hnone))

/-- Every percentile is a latency with packets. -/
theorem pos_of_firstAbove {α : Type} {qs : List (α × ℚ)} {bound : ℚ} (hbound : 0 ≤ bound) {k : α}
    (h : Stats.firstAbove bound 0 qs = some k) : ∃ v, 0 < v ∧ (k, v) ∈ qs := by
  obtain ⟨pre, v, post, rfl, hle, hlt⟩ := Stats.firstAbove_eq_some qs hbound h
  exact ⟨v, by linarith, List.mem_append_right _ List.mem_cons_self⟩

/-- The buckets of a histogram of packets. -/
theorem buckets_counts (entries : List (Obj F × Nat)) :
    buckets (entries.map fun e => (e.1, (.int e.2 : Obj F))) =
      some (entries.map fun e => (e.1, PyFloat.lit (e.2 : ℚ))) := by
  rw [buckets, mapM_eq_some_map _ _ fun e => (e.1, e.2.number.getD (PyFloat.lit 0)), List.map_map]
  · refine congrArg some (List.map_congr_left fun e _ => Prod.ext rfl ?_)
    show PyFloat.lit (((e.2 : ℤ)) : ℚ) = _
    rw [Int.cast_natCast]
  · intro e he
    obtain ⟨e', -, rfl⟩ := List.mem_map.mp he
    rfl

/-- The weight of counts is their total. -/
theorem weight_counts {α : Type} (entries : List (α × Nat)) :
    Stats.weight (entries.map fun e => (e.1, (e.2 : ℚ))) =
      ((entries.map Prod.snd).sum : Nat) := by
  rw [Stats.weight, List.map_map, Nat.cast_list_sum, List.map_map]
  rfl

end Loop

/-- Exact numbers stand for themselves. -/
theorem measures_exact (t : ℚ) : Measures (fun (x : Exact) q => x = .fin q) t where
  zero := rfl
  add := by
    rintro _ _ p q rfl rfl _
    rfl
  lt := by
    rintro _ _ q c rfl rfl _ _
    show Exact.lt (Exact.div (.fin (t * c)) (.fin 100)) (.fin q) = _
    rw [Exact.div, if_neg (by norm_num)]
    rfl

/-- The lists after an entry is read. -/
def recorded {F : Type} [PyFloat F] (s : TrexSamples F) (ps : List (Obj F)) (xs : List F) :
    TrexSamples F :=
  { s with
    lat50th := s.lat50th ++ (ps[49]?).toList
    lat90th := s.lat90th ++ (ps[89]?).toList
    lat99th := s.lat99th ++ (ps[98]?).toList
    latAvg2 := s.latAvg2 ++ [PyFloat.average xs] }

theorem readHistogram_read {F : Type} [PyFloat F] [Sorting] {fuel : Nat} {s : TrexSamples F}
    {entries : List (Obj F × Obj F)} {bs : List (Obj F × F)} {ps : List (Obj F)} {xs : List F}
    (hbs : buckets entries = some bs) (hps : percentilesOf fuel bs = some ps)
    (hlen : ps.length = 99) (hnum : ps.mapM Obj.number = some xs) :
    readHistogram fuel s (.dict entries) = .read (recorded s ps xs) := by
  simp only [readHistogram, hbs, hps, if_pos hlen, hnum]
  rfl

/-! ### Latency histograms -/

/-- The number a latency is. -/
def latencyOf (o : Obj Exact) : ℚ := ((o.number).map Exact.value).getD 0

/-- A latency: an integer or a finite floating-point number. -/
def isLatency (o : Obj Exact) : Bool :=
  match o.number with
  | some (.fin _) => true
  | _ => false

theorem number_of_isLatency {o : Obj Exact} (h : isLatency o = true) :
    o.number = some (.fin (latencyOf o)) := by
  unfold isLatency at h
  unfold latencyOf
  match hn : o.number, h with
  | some (.fin q), _ => rfl

theorem lt_of_number {x y : Obj Exact} {p q : ℚ} (hx : x.number = some (.fin p))
    (hy : y.number = some (.fin q)) : Obj.lt x y = decide (p < q) := by
  unfold Obj.lt
  split
  · cases hx
  · cases hx
  · cases hy
  · cases hx
  · rw [hx, hy]
    rfl

/-- Latencies are sorted by the numbers they are. -/
theorem le_of_not_lt_latencies {a b : Obj Exact} (ha : isLatency a = true)
    (hb : isLatency b = true) (h : Obj.lt b a = false) : latencyOf a ≤ latencyOf b := by
  rw [lt_of_number (number_of_isLatency hb) (number_of_isLatency ha), decide_eq_false_iff_not,
    not_lt] at h
  exact h

/-- The comparison orders latencies, and what is compared by its latency. -/
theorem consistent_latencies {α : Type} (f : α → Obj Exact) {l : List α}
    (h : ∀ x ∈ l, isLatency (f x) = true) : Consistent (fun x y => Obj.lt (f x) (f y)) l := by
  have hlt : ∀ x ∈ l, ∀ y ∈ l,
      Obj.lt (f x) (f y) = decide (latencyOf (f x) < latencyOf (f y)) := fun x hx y hy =>
    lt_of_number (number_of_isLatency (h x hx)) (number_of_isLatency (h y hy))
  constructor
  · intro x hx y hy hxy
    rw [hlt x hx y hy, decide_eq_true_eq] at hxy
    rw [hlt y hy x hx, decide_eq_false_iff_not]
    exact hxy.le.not_gt
  · intro x hx y hy z hz hyx hzy
    rw [hlt y hy x hx, decide_eq_false_iff_not, not_lt] at hyx
    rw [hlt z hz y hy, decide_eq_false_iff_not, not_lt] at hzy
    rw [hlt z hz x hx, decide_eq_false_iff_not, not_lt]
    exact hyx.trans hzy

/-- Latencies with the number of packets that took each.  A dictionary holds a latency only
once, which nothing here needs. -/
structure LatencyHistogram where
  entries : List (Obj Exact × Nat)
  latencies : ∀ e ∈ entries, isLatency e.1 = true

namespace LatencyHistogram

variable (h : LatencyHistogram)

/-- The dictionary of the record. -/
def obj : Obj Exact := .dict (h.entries.map fun e => (e.1, .int e.2))

/-- Its buckets, as the loop reads them. -/
def measured : List (Obj Exact × Exact) := h.entries.map fun e => (e.1, .fin e.2)

/-- The number of packets. -/
def total : Nat := (h.entries.map Prod.snd).sum

/-- The number of packets that took at most `q`. -/
def samplesUpTo (q : ℚ) : Nat :=
  ((h.entries.filter fun e => latencyOf e.1 ≤ q).map Prod.snd).sum

/-- The values are the ninety-nine percentiles of the histogram. -/
structure IsPercentiles (ps : List (Obj Exact)) : Prop where
  length : ps.length = 99
  /-- Percentile `i` is the least latency up to which more than `i` hundredths are counted. -/
  least : ∀ i : Nat, 1 ≤ i → i ≤ 99 → ∃ k, ps[i - 1]? = some k ∧
    IsLeast {q | (h.total : ℚ) * i / 100 < h.samplesUpTo q} (latencyOf k)
  sorted : ps.Pairwise fun k k' => latencyOf k ≤ latencyOf k'
  counted : ∀ k ∈ ps, ∃ n, 0 < n ∧ (k, n) ∈ h.entries

theorem buckets_eq :
    buckets (h.entries.map fun e => (e.1, (.int e.2 : Obj Exact))) = some h.measured :=
  buckets_counts h.entries

/-- The counts as rational numbers. -/
def counts : List (Obj Exact × ℚ) := h.entries.map fun e => (e.1, (e.2 : ℚ))

theorem weight_eq : Stats.weight h.counts = h.total := weight_counts h.entries

theorem measured_counts : Measured (fun x q => x = .fin q) h.measured h.counts := by
  unfold Measured measured counts
  rw [List.forall₂_map_left_iff, List.forall₂_map_right_iff, List.forall₂_same]
  intro e _
  exact ⟨rfl, rfl⟩

theorem mem_counts {k : Obj Exact} {v : ℚ} (hmem : (k, v) ∈ h.counts) :
    ∃ n : Nat, v = n ∧ (k, n) ∈ h.entries := by
  obtain ⟨e, he, heq⟩ := List.mem_map.mp hmem
  rw [Prod.mk.injEq] at heq
  obtain ⟨rfl, rfl⟩ := heq
  exact ⟨e.2, rfl, he⟩

theorem counts_nonneg : ∀ e ∈ h.counts, 0 ≤ e.2 := by
  intro e he
  obtain ⟨n, hn, -⟩ := h.mem_counts he
  rw [hn]
  exact Nat.cast_nonneg n

theorem weightUpTo_eq {qs : List (Obj Exact × ℚ)} (hperm : qs.Perm h.counts) (q : ℚ) :
    Stats.weightUpTo latencyOf qs q = h.samplesUpTo q := by
  rw [Stats.weightUpTo_perm hperm, Stats.weightUpTo, Stats.weight, samplesUpTo, counts,
    List.filter_map, List.map_map, Nat.cast_list_sum, List.map_map]
  rfl

/-- The buckets are walked in order of latency. -/
theorem sorted_of_measured [Sorting] {qs : List (Obj Exact × ℚ)}
    (hqs : Measured (fun x q => x = .fin q)
      (Sorting.sorted (fun x y => Obj.lt x.1 y.1) h.measured) qs) :
    qs.Pairwise fun a b => latencyOf a.1 ≤ latencyOf b.1 := by
  have hkeys : (Sorting.sorted (fun x y => Obj.lt x.1 y.1) h.measured).map Prod.fst =
      qs.map Prod.fst := by
    rw [← List.forall₂_eq_eq_eq, List.forall₂_map_left_iff, List.forall₂_map_right_iff]
    exact hqs.imp fun _ _ hbq => hbq.1
  have hlat : ∀ e ∈ h.measured, isLatency e.1 = true := by
    intro e he
    obtain ⟨e', he', rfl⟩ := List.mem_map.mp he
    exact h.latencies e' he'
  have hsorted := (Sorting.pairwise (consistent_latencies Prod.fst hlat)).imp_of_mem
    (S := fun a b => latencyOf a.1 ≤ latencyOf b.1) fun {a b} ha hb hab =>
      le_of_not_lt_latencies (hlat a (Sorting.mem_sorted.mp ha))
        (hlat b (Sorting.mem_sorted.mp hb)) hab
  rw [← List.pairwise_map (f := Prod.fst) (R := fun a b => latencyOf a ≤ latencyOf b)] at hsorted ⊢
  rwa [← hkeys]

/-- The percentiles of a histogram with samples. -/
theorem percentilesOf_measured [Sorting] (hpos : 0 < h.total) {fuel : Nat} (hfuel : 99 ≤ fuel) :
    ∃ ps, percentilesOf fuel h.measured = some ps ∧ h.IsPercentiles ps := by
  have ht : (0 : ℚ) < h.total := Nat.cast_pos.mpr hpos
  obtain ⟨qs, ps, hperm, hqs, hps, hat, hlen, -⟩ :=
    percentilesOf_spec h.measured_counts (measures_exact _) h.counts_nonneg hfuel
  rw [h.weight_eq] at hat hlen
  have hlen : ps.length = 99 := hlen ht
  have hnonneg : ∀ e ∈ qs, 0 ≤ e.2 := fun e he => h.counts_nonneg e (hperm.mem_iff.mp he)
  have hbound : ∀ i : Nat, (0 : ℚ) ≤ h.total * i / 100 := fun i => by positivity
  have hleast : ∀ i : Nat, 1 ≤ i → i ≤ 99 → ∃ k, ps[i - 1]? = some k ∧
      IsLeast {q | (h.total : ℚ) * i / 100 < h.samplesUpTo q} (latencyOf k) := by
    intro i hi hi'
    have hk : ps[i - 1]? = some ps[i - 1] := List.getElem?_eq_getElem (by omega)
    refine ⟨ps[i - 1], hk, ?_⟩
    rw [hat (i - 1) (by omega), Nat.sub_add_cancel hi] at hk
    have hmin := Stats.isLeast_firstAbove (h.sorted_of_measured hqs) hnonneg (hbound i) hk
    simp only [h.weightUpTo_eq hperm] at hmin
    exact hmin
  refine ⟨ps, hps, hlen, hleast, ?_, ?_⟩
  · -- a higher percentile has the higher bound
    rw [List.pairwise_iff_getElem]
    intro i j hi hj hij
    obtain ⟨k, hk, hki⟩ := hleast (i + 1) (by omega) (by omega)
    obtain ⟨k', hk', hkj⟩ := hleast (j + 1) (by omega) (by omega)
    rw [Nat.add_sub_cancel, List.getElem?_eq_getElem (by omega), Option.some.injEq] at hk hk'
    rw [hk, hk']
    refine hki.2 (lt_of_le_of_lt (hundredths_mono ht.le ?_) hkj.1)
    omega
  · intro k hk
    obtain ⟨i, hi, rfl⟩ := List.getElem_of_mem hk
    have hk := List.getElem?_eq_getElem hi
    rw [hat i (by omega)] at hk
    obtain ⟨v, hv, hmem⟩ := pos_of_firstAbove (hbound _) hk
    obtain ⟨n, rfl, hn⟩ := h.mem_counts (hperm.mem_iff.mp hmem)
    exact ⟨n, Nat.cast_pos.mp hv, hn⟩

theorem number_of_counted {ps : List (Obj Exact)} (hps : h.IsPercentiles ps) :
    ps.mapM Obj.number = some (ps.map fun k => .fin (latencyOf k)) := by
  refine mapM_eq_some_map _ _ _ fun k hk => ?_
  obtain ⟨n, -, hn⟩ := hps.counted k hk
  exact number_of_isLatency (h.latencies _ hn)

/-- A histogram with samples is recorded. -/
theorem readHistogram_obj [Sorting] (hpos : 0 < h.total) {fuel : Nat} (hfuel : 99 ≤ fuel)
    (s : TrexSamples Exact) :
    ∃ ps, h.IsPercentiles ps ∧ percentilesOf fuel h.measured = some ps ∧
      readHistogram fuel s h.obj =
        .read (recorded s ps (ps.map fun k => .fin (latencyOf k))) := by
  obtain ⟨ps, hps, hspec⟩ := h.percentilesOf_measured hpos hfuel
  exact ⟨ps, hspec, hps,
    readHistogram_read h.buckets_eq hps hspec.length (h.number_of_counted hspec)⟩

/-- A histogram without samples has no percentiles, and the assertion fails. -/
theorem readHistogram_obj_empty [Sorting] (hzero : h.total = 0) {fuel : Nat} (hfuel : 99 ≤ fuel)
    (s : TrexSamples Exact) :
    percentilesOf fuel h.measured = some [] ∧ readHistogram fuel s h.obj = .failed s := by
  obtain ⟨-, ps, -, -, hps, -, -, hnone⟩ :=
    percentilesOf_spec h.measured_counts (measures_exact _) h.counts_nonneg hfuel
  rw [h.weight_eq, hzero, Nat.cast_zero] at hnone
  obtain rfl := hnone rfl
  refine ⟨hps, ?_⟩
  simp only [readHistogram, obj, h.buckets_eq, hps]
  rfl

end LatencyHistogram

/-- The percentiles `read_trex` takes from a histogram: with samples there are ninety-nine,
each the least latency up to which more than its share is counted, and they are recorded;
without samples the assertion fails and nothing is. -/
theorem readHistogram_percentiles [Sorting] (h : LatencyHistogram) (s : TrexSamples Exact)
    (fuel : Nat)
    (hfuel : 99 ≤ fuel) :
    (0 < h.total → ∃ ps, h.IsPercentiles ps ∧ percentilesOf fuel h.measured = some ps ∧
      readHistogram fuel s h.obj =
        .read (recorded s ps (ps.map fun k => .fin (latencyOf k)))) ∧
    (h.total = 0 →
      percentilesOf fuel h.measured = some [] ∧ readHistogram fuel s h.obj = .failed s) :=
  ⟨fun hpos => h.readHistogram_obj hpos hfuel s,
    fun hzero => h.readHistogram_obj_empty hzero hfuel s⟩

/-- Three packets in ten microseconds and one in twenty. -/
def fewPackets : LatencyHistogram where
  entries := [(.int 20, 1), (.int 10, 3)]
  latencies := by decide

section FewPackets

open scoped Sorting.Insertion

theorem readHistogram_fewPackets :
    ∃ ps, fewPackets.IsPercentiles ps ∧ percentilesOf 99 fewPackets.measured = some ps :=
  have h := (readHistogram_percentiles fewPackets ⟨[], [], [], [], [], [], []⟩ 99 (le_refl 99)).1
    (by decide)
  ⟨h.choose, h.choose_spec.1, h.choose_spec.2.1⟩

end FewPackets

end Nicmem
