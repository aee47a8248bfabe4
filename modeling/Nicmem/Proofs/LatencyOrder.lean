/-
The order of the reported latency percentiles.

Every packet group with samples adds its 50th, 90th and 99th percentile to three lists,
and within a group the three are ordered.  The lists are then treated one by one: values
below one are filtered out, the least and the greatest of five or more are cut off, and
what is left is averaged.  Cutting and averaging keep the order.  Filtering does not: it
may drop the low percentile of a group and keep the high one, and the high one then pulls
its average down.  The reported values are ordered when, of each pair of neighbouring
percentiles, the filter keeps the same groups, or no low one at all.
-/
import Nicmem.Proofs.Collected
import Nicmem.Proofs.Latencies
import Nicmem.Proofs.Outliers

namespace Nicmem

open Python

/-! ### The summary of a list -/

theorem filterM_eq_some_filter {α : Type} {f : α → Option Bool} {g : α → Bool} (l : List α)
    (h : ∀ x ∈ l, f x = some (g x)) : l.filterM f = some (l.filter g) := by
  have haux : ∀ (l acc : List α), (∀ x ∈ l, f x = some (g x)) →
      l.filterAuxM f acc = some ((l.filter g).reverse ++ acc) := by
    intro l
    induction l with
    | nil =>
        intro acc _
        rfl
    | cons x rest ih =>
        intro acc hall
        rw [List.filterAuxM, hall x List.mem_cons_self]
        show rest.filterAuxM f (cond (g x) (x :: acc) acc) = _
        rw [ih _ fun y hy => hall y (List.mem_cons_of_mem _ hy)]
        cases hg : g x
        · rw [List.filter_cons_of_neg (by rw [hg]; exact Bool.false_ne_true)]
          rfl
        · rw [List.filter_cons_of_pos hg, List.reverse_cons, List.append_assoc]
          rfl
  rw [List.filterM, haux l [] h]
  show some ((l.filter g).reverse ++ []).reverse = _
  rw [List.append_nil, List.reverse_reverse]

/-- The value reported for a list of samples. -/
def summary (l : List ℚ) : ℚ := Stats.mean (trimmed (l.filter (1 ≤ ·)))

theorem rejectOutliersBy_latencies [Sorting] {l : List (Obj Exact)}
    (h : ∀ o ∈ l, isLatency o = true) :
    (rejectOutliersBy Obj.lt l).map latencyOf = trimmed (l.map latencyOf) := by
  have hsort : (Sorting.sorted Obj.lt l).map latencyOf = Stats.sorted (l.map latencyOf) :=
    Sorting.eq_map_sorted (consistent_latencies id h)
      (fun a ha b hb => le_of_not_lt_latencies (h a ha) (h b hb)) (fun _ _ => le_antisymm)
      (Stats.sorted_perm _) (Stats.sorted_pairwise _)
  rw [rejectOutliersBy, trimmed, List.length_map]
  by_cases hlen : 4 < l.length
  · rw [if_pos hlen, if_pos hlen, ite_self, List.map_dropLast, List.map_drop, hsort]
    rfl
  · rw [if_neg hlen, if_neg hlen, if_neg (by omega)]

theorem toFloat_of_number {o : Obj Exact} {x : Exact} (h : o.number = some x) :
    o.toFloat = some x := by
  match o, h with
  | .int _, h => exact h
  | .flt _, h => exact h

/-- Numbers can be filtered, trimmed and averaged. -/
theorem trexList_numbers [Sorting] {l : List (Obj Exact)} (x : Obj Exact → Exact)
    (h : ∀ o ∈ l, o.number = some (x o)) :
    trexList l = some ((rejectOutliersBy Obj.lt
      (l.filter fun o => PyFloat.le (PyFloat.lit 1) (x o))).map x) := by
  have hkept := filterM_eq_some_filter (f := fun o => o.toFloat.map fun x =>
    PyFloat.le (PyFloat.lit 1) x) (g := fun o => PyFloat.le (PyFloat.lit 1) (x o)) l fun o ho => by
      rw [toFloat_of_number (h o ho)]
      rfl
  rw [trexList, hkept]
  refine mapM_eq_some_map _ _ _ fun o ho => h o ?_
  exact List.mem_of_mem_filter (mem_rejectOutliersBy ho)

/-- The samples of a list of latencies that are averaged. -/
theorem trexList_latencies [Sorting] {l : List (Obj Exact)} (h : ∀ o ∈ l, isLatency o = true) :
    trexList l = some ((trimmed ((l.map latencyOf).filter (1 ≤ ·))).map Exact.fin) := by
  have hlat : ∀ o ∈ l.filter (fun o => decide (1 ≤ latencyOf o)), isLatency o = true :=
    fun o ho => h o (List.mem_of_mem_filter ho)
  rw [trexList_numbers (fun o => .fin (latencyOf o)) fun o ho => number_of_isLatency (h o ho)]
  show some ((rejectOutliersBy Obj.lt (l.filter _)).map (Exact.fin ∘ latencyOf)) = _
  rw [← List.map_map, List.filter_map]
  exact congrArg (fun l => some (l.map Exact.fin)) (rejectOutliersBy_latencies hlat)

/-! ### Well-formed records -/

/-- A well-formed entry of the latency dictionary, with the histogram it is read from: a
packet group has an average and a histogram, or only empty ones; the entry that sums up
the others has no average. -/
inductive EntryOf : Obj Exact → Option LatencyHistogram → Prop where
  | group {lat avg : Obj Exact} {h : LatencyHistogram}
      (average : (lat.item "latency").bind (·.item "average") = some avg)
      (number : avg.number.isSome)
      (histogram : (lat.item "latency").bind histogramOf = some h.obj) : EntryOf lat (some h)
  | silent {lat avg : Obj Exact}
      (average : (lat.item "latency").bind (·.item "average") = some avg)
      (number : avg.number.isSome)
      (histogram : (lat.item "latency").bind histogramOf = none) : EntryOf lat none
  | totals {lat : Obj Exact}
      (average : (lat.item "latency").bind (·.item "average") = none) : EntryOf lat none

/-- A well-formed record, with the histograms of its packet groups. -/
structure RecordOf (d : Obj Exact) (hs : List LatencyHistogram) : Prop where
  rates : ∃ g tx rx, d.item "global" = some g ∧ g.item "tx_bps" = some tx ∧
    g.item "rx_bps" = some rx ∧ tx.number.isSome ∧ rx.number.isSome
  latency : ∃ entries os, d.item "latency" = some (.dict entries) ∧
    List.Forall₂ EntryOf (entries.map Prod.snd) os ∧ hs = os.flatMap Option.toList

/-! ### What is collected from them -/

/-- The groups that have samples. -/
def measuredGroups (hs : List LatencyHistogram) : List LatencyHistogram :=
  hs.filter fun h => decide (0 < h.total)

/-- The value at one place of each group's percentiles. -/
def column (i : Nat) (pss : List (List (Obj Exact))) : List (Obj Exact) :=
  pss.flatMap fun ps => (ps[i]?).toList

/-- The lists hold what the groups so far add to them. -/
structure Collected (s : TrexSamples Exact) (hs : List LatencyHistogram)
    (pss : List (List (Obj Exact))) : Prop where
  percentiles : List.Forall₂ LatencyHistogram.IsPercentiles (measuredGroups hs) pss
  lat50th : s.lat50th = column 49 pss
  lat90th : s.lat90th = column 89 pss
  lat99th : s.lat99th = column 98 pss
  latAvg : ∀ o ∈ s.latAvg, o.number.isSome
  txBps : ∀ o ∈ s.txBps, o.number.isSome
  rxBps : ∀ o ∈ s.rxBps, o.number.isSome

theorem forall_mem_snoc {α : Type} {p : α → Prop} {l : List α} {x : α} (hl : ∀ y ∈ l, p y)
    (hx : p x) : ∀ y ∈ l ++ [x], p y := by
  intro y hy
  rcases List.mem_append.mp hy with hy | hy
  · exact hl y hy
  · rw [List.mem_singleton.mp hy]
    exact hx

theorem column_snoc (i : Nat) (pss : List (List (Obj Exact))) (ps : List (Obj Exact)) :
    column i (pss ++ [ps]) = column i pss ++ (ps[i]?).toList := by
  rw [column, List.flatMap_append, List.flatMap_singleton]
  rfl

variable {s : TrexSamples Exact} {hs : List LatencyHistogram} {pss : List (List (Obj Exact))}
  {fuel : Nat}

theorem Collected.average (hs' : Collected s hs pss) {avg : Obj Exact} (havg : avg.number.isSome) :
    Collected { s with latAvg := s.latAvg ++ [avg] } hs pss :=
  { hs' with latAvg := forall_mem_snoc hs'.latAvg havg }

/-- An entry adds its group, if it has one. -/
theorem Collected.entry [Sorting] (hc : Collected s hs pss) (hfuel : 99 ≤ fuel) {lat : Obj Exact}
    {o : Option LatencyHistogram} (hentry : EntryOf lat o) :
    ∃ s' pss', (readLatency fuel s lat = .read s' ∨ readLatency fuel s lat = .failed s') ∧
      Collected s' (hs ++ o.toList) pss' := by
  cases hentry with
  | totals average =>
      refine ⟨s, pss, Or.inr ?_, ?_⟩
      · rw [readLatency, average]
      · rw [Option.toList_none, List.append_nil]
        exact hc
  | @silent avg average number histogram =>
      refine ⟨{ s with latAvg := s.latAvg ++ [avg] }, pss, Or.inr ?_, ?_⟩
      · rw [readLatency, average, histogram]
      · rw [Option.toList_none, List.append_nil]
        exact hc.average number
  | @group avg h average number histogram =>
      have hgroup : readLatency fuel s lat =
          readHistogram fuel { s with latAvg := s.latAvg ++ [avg] } h.obj := by
        rw [readLatency, average, histogram]
      rcases Nat.eq_zero_or_pos h.total with hzero | hpos
      · obtain ⟨-, hread⟩ := h.readHistogram_obj_empty hzero hfuel
          { s with latAvg := s.latAvg ++ [avg] }
        refine ⟨_, pss, Or.inr (hgroup.trans hread), ?_⟩
        have hsame : measuredGroups (hs ++ [h]) = measuredGroups hs := by
          rw [measuredGroups, List.filter_append, List.filter_singleton, hzero]
          exact List.append_nil _
        exact { hc.average number with percentiles := hsame ▸ hc.percentiles }
      · obtain ⟨ps, hspec, -, hread⟩ := h.readHistogram_obj hpos hfuel
          { s with latAvg := s.latAvg ++ [avg] }
        refine ⟨_, pss ++ [ps], Or.inl (hgroup.trans hread), ?_⟩
        have hmore : measuredGroups (hs ++ [h]) = measuredGroups hs ++ [h] := by
          rw [measuredGroups, List.filter_append, List.filter_singleton, decide_eq_true hpos]
          rfl
        exact
          { percentiles := hmore ▸ List.rel_append hc.percentiles (.cons hspec .nil)
            lat50th := by rw [column_snoc, ← hc.lat50th]; rfl
            lat90th := by rw [column_snoc, ← hc.lat90th]; rfl
            lat99th := by rw [column_snoc, ← hc.lat99th]; rfl
            latAvg := (hc.average number).latAvg
            txBps := hc.txBps
            rxBps := hc.rxBps }

/-- The entries of a latency dictionary. -/
theorem Collected.entries [Sorting] (hfuel : 99 ≤ fuel) {lats : List (Obj Exact)}
    {os : List (Option LatencyHistogram)} (hentries : List.Forall₂ EntryOf lats os) :
    ∀ {s : TrexSamples Exact} {hs : List LatencyHistogram} {pss : List (List (Obj Exact))},
      Collected s hs pss → ∃ s' pss', readLatencies fuel s lats = some s' ∧
        Collected s' (hs ++ os.flatMap Option.toList) pss' := by
  induction hentries with
  | nil =>
      intro s hs pss hc
      refine ⟨s, pss, rfl, ?_⟩
      rw [List.flatMap_nil, List.append_nil]
      exact hc
  | @cons lat o lats os hentry _ ih =>
      intro s hs pss hc
      obtain ⟨s', pss', hread, hc'⟩ := hc.entry hfuel hentry
      obtain ⟨s'', pss'', hrest, hc''⟩ := ih hc'
      refine ⟨s'', pss'', ?_, ?_⟩
      · rw [readLatencies]
        rcases hread with hread | hread
        · rw [hread]
          exact hrest
        · rw [hread]
          exact hrest
      · rw [List.flatMap_cons, ← List.append_assoc]
        exact hc''

theorem Collected.record [Sorting] (hc : Collected s hs pss) (hfuel : 99 ≤ fuel) {d : Obj Exact}
    {hs' : List LatencyHistogram} (hd : RecordOf d hs') :
    ∃ s' pss', readRecord fuel s d = some s' ∧ Collected s' (hs ++ hs') pss' := by
  obtain ⟨g, tx, rx, hglobal, htx, hrx, htxn, hrxn⟩ := hd.rates
  obtain ⟨entries, os, hlat, hentries, rfl⟩ := hd.latency
  have hc' : Collected { s with txBps := s.txBps ++ [tx], rxBps := s.rxBps ++ [rx] } hs pss :=
    { hc with
      txBps := forall_mem_snoc hc.txBps htxn
      rxBps := forall_mem_snoc hc.rxBps hrxn }
  obtain ⟨s', pss', hread, hc''⟩ := Collected.entries hfuel hentries hc'
  refine ⟨s', pss', ?_, hc''⟩
  simp only [readRecord, hglobal, Option.bind_eq_bind, Option.bind_some, htx, hrx, hlat, hread]

/-- All records. -/
theorem Collected.records [Sorting] (hfuel : 99 ≤ fuel) {dicts : List (Obj Exact)}
    {hss : List (List LatencyHistogram)} (hdicts : List.Forall₂ RecordOf dicts hss) :
    ∀ {s : TrexSamples Exact} {hs : List LatencyHistogram} {pss : List (List (Obj Exact))},
      Collected s hs pss → ∃ s' pss', dicts.foldlM (readRecord fuel) s = some s' ∧
        Collected s' (hs ++ hss.flatten) pss' := by
  induction hdicts with
  | nil =>
      intro s hs pss hc
      refine ⟨s, pss, rfl, ?_⟩
      rw [List.flatten_nil, List.append_nil]
      exact hc
  | @cons d hs' dicts hss hd _ ih =>
      intro s hs pss hc
      obtain ⟨s', pss', hread, hc'⟩ := hc.record hfuel hd
      obtain ⟨s'', pss'', hrest, hc''⟩ := ih hc'
      refine ⟨s'', pss'', ?_, ?_⟩
      · rw [List.foldlM_cons, hread]
        exact hrest
      · rw [List.flatten_cons, ← List.append_assoc]
        exact hc''

/-! ### The reported percentiles -/

theorem isLatency_column {i : Nat} (h : List.Forall₂ LatencyHistogram.IsPercentiles hs pss) :
    ∀ o ∈ column i pss, isLatency o = true := by
  intro o ho
  obtain ⟨ps, hps, hmem⟩ := List.mem_flatMap.mp ho
  obtain ⟨j, hj, rfl⟩ := List.getElem_of_mem hps
  have hspec := (List.forall₂_iff_get.mp h).2 j (by rw [h.length_eq]; exact hj) hj
  obtain ⟨n, -, hn⟩ := hspec.counted o (List.mem_of_getElem? (Option.mem_toList.mp hmem))
  exact LatencyHistogram.latencies _ _ hn

/-- The number reported under a name. -/
def reported (out : Result Exact) (k : String) : Option Exact :=
  (out.get? k.toList).bind Value.toFloat

theorem toFloat_averaged (l : List ℚ) :
    (if (l.map Exact.fin).isEmpty then .int 0
      else .flt (PyFloat.average (l.map Exact.fin)) : Value Exact).toFloat =
      some (.fin (Stats.mean l)) := by
  by_cases h : l = []
  · rw [h]
    show some (Exact.fin ((0 : Int) : ℚ)) = some (.fin (0 / 0))
    rw [Int.cast_zero, div_zero]
  · rw [if_neg (by simpa using h), average_map_fin h]
    rfl

/-- The names `read_trex` reports, apart from the deviations. -/
def trexNames : List Str :=
  ["trex_lat_avg".toList, "trex_lat_avg2".toList, "trex_lat_50th".toList, "trex_lat_90th".toList,
    "trex_lat_99th".toList, "trex_tx_bps".toList, "trex_rx_bps".toList]

theorem nodup_trexNames : trexNames.Nodup := by decide

theorem stdName_trexNames : ∀ k' ∈ trexNames, ∀ k ∈ trexNames, stdName k' ≠ k := by
  decide

/-- What is reported under one of the names, from a list of rational samples. -/
theorem reported_averagesOut (order : Enumeration Str) {l : List (Str × List Exact)}
    (hl : l.map Prod.fst = trexNames) {k : String} {xs : List ℚ}
    (h : (k.toList, xs.map Exact.fin) ∈ l) :
    reported (averagesOut order (Dict.ofList l)) k = some (.fin (Stats.mean xs)) := by
  have hentries := Dict.entries_ofList (l := l) (by rw [hl]; exact nodup_trexNames)
  have hmem : k.toList ∈ trexNames := by
    rw [← hl]
    exact List.mem_map_of_mem h
  rw [reported, get?_averagesOut order (l := xs.map Exact.fin)]
  · exact toFloat_averaged xs
  · rw [Dict.get?_eq_some_iff, hentries]
    exact h
  · intro k' hk'
    rw [Dict.keys, hentries, hl] at hk'
    exact stdName_trexNames k' hk' _ hmem

/-- The samples of a column that are averaged. -/
def keptColumn (i : Nat) (pss : List (List (Obj Exact))) : List ℚ :=
  trimmed (((column i pss).map latencyOf).filter (1 ≤ ·))

/-- `read_trex` on well-formed records: it reports the summaries of the three columns. -/
theorem readTrex_reports [Sorting] (order : Enumeration Str)
    {literalEval : Str → Option (Obj Exact)}
    {data : Str} {texts : List Str} {dicts : List (Obj Exact)}
    {hss : List (List LatencyHistogram)} (hfuel : 99 ≤ fuel)
    (htexts : recordTexts fuel data = some texts) (hdicts : texts.mapM literalEval = some dicts)
    (hrecords : List.Forall₂ RecordOf dicts hss) :
    ∃ out pss, readTrex order fuel literalEval data = some out ∧
      List.Forall₂ LatencyHistogram.IsPercentiles (measuredGroups hss.flatten) pss ∧
      reported out "trex_lat_50th" = some (.fin (summary ((column 49 pss).map latencyOf))) ∧
      reported out "trex_lat_90th" = some (.fin (summary ((column 89 pss).map latencyOf))) ∧
      reported out "trex_lat_99th" = some (.fin (summary ((column 98 pss).map latencyOf))) := by
  have hempty : Collected ⟨[], [], [], [], [], [], []⟩ [] [] :=
    { percentiles := .nil
      lat50th := rfl
      lat90th := rfl
      lat99th := rfl
      latAvg := fun _ h => nomatch h
      txBps := fun _ h => nomatch h
      rxBps := fun _ h => nomatch h }
  obtain ⟨s, pss, hread, hc⟩ := Collected.records hfuel hrecords hempty
  rw [List.nil_append] at hc
  have hlat : ∀ i, trexList (column i pss) = some ((keptColumn i pss).map Exact.fin) :=
    fun i => trexList_latencies (isLatency_column hc.percentiles)
  have hnum : ∀ l : List (Obj Exact), (∀ o ∈ l, o.number.isSome) → ∃ xs, trexList l = some xs := by
    intro l hl
    refine ⟨_, trexList_numbers (fun o => o.number.getD .nan) fun o ho => ?_⟩
    obtain ⟨x, hx⟩ := Option.isSome_iff_exists.mp (hl o ho)
    rw [hx]
    rfl
  obtain ⟨avg, havg⟩ := hnum _ hc.latAvg
  obtain ⟨tx, htx⟩ := hnum _ hc.txBps
  obtain ⟨rx, hrx⟩ := hnum _ hc.rxBps
  have hout : readTrex order fuel literalEval data = some (averagesOut order (Dict.ofList
      [("trex_lat_avg".toList, avg), ("trex_lat_avg2".toList, s.latAvg2),
        ("trex_lat_50th".toList, (keptColumn 49 pss).map .fin),
        ("trex_lat_90th".toList, (keptColumn 89 pss).map .fin),
        ("trex_lat_99th".toList, (keptColumn 98 pss).map .fin), ("trex_tx_bps".toList, tx),
        ("trex_rx_bps".toList, rx)])) := by
    simp only [readTrex, htexts, hdicts, hread, hc.lat50th, hc.lat90th, hc.lat99th, havg, hlat,
      htx, hrx, Option.bind_eq_bind, Option.bind_some]
  refine ⟨_, pss, hout, hc.percentiles, ?_, ?_, ?_⟩
  · exact reported_averagesOut order rfl (.tail _ (.tail _ (.head _)))
  · exact reported_averagesOut order rfl (.tail _ (.tail _ (.tail _ (.head _))))
  · exact reported_averagesOut order rfl (.tail _ (.tail _ (.tail _ (.tail _ (.head _)))))

/-! ### Their order -/

/-- The filter keeps percentile `i` of the group: below one, no more than its share is
counted. -/
def LatencyHistogram.Kept (h : LatencyHistogram) (i : Nat) : Prop :=
  ∀ q < 1, (h.samplesUpTo q : ℚ) ≤ h.total * i / 100

/-- Of percentiles `i` and `j` the filter keeps the same groups, or none at `i`. -/
def SameKept (i j : Nat) (hs : List LatencyHistogram) : Prop :=
  (∀ h ∈ hs, h.Kept j → h.Kept i) ∨ ∀ h ∈ hs, ¬ h.Kept i

theorem one_le_iff_kept {h : LatencyHistogram} {ps : List (Obj Exact)} (hps : h.IsPercentiles ps)
    {i : Nat} (hi : i < ps.length) : 1 ≤ latencyOf ps[i] ↔ h.Kept (i + 1) := by
  have hlen := hps.length
  obtain ⟨k, hk, hleast⟩ := hps.least (i + 1) (by omega) (by omega)
  rw [Nat.add_sub_cancel, List.getElem?_eq_getElem hi, Option.some.injEq] at hk
  rw [hk]
  constructor
  · intro hone q hq
    by_contra hlt
    have hle := hleast.2 (not_le.mp hlt)
    linarith
  · intro hkept
    by_contra hlt
    exact absurd hleast.1 (not_lt.mpr (hkept _ (not_le.mp hlt)))

theorem column_cons {i : Nat} {ps : List (Obj Exact)} (hi : i < ps.length) :
    column i (ps :: pss) = ps[i] :: column i pss := by
  rw [column, List.flatMap_cons, toList_getElem? hi]
  rfl

/-- A relation that holds between two places of every group's percentiles holds between
the columns. -/
theorem forall₂_columns {R : ℚ → ℚ → Prop} {i j : Nat} (hi : i < 99) (hj : j < 99)
    (h : List.Forall₂ LatencyHistogram.IsPercentiles hs pss) :
    (∀ g ∈ hs, ∀ ps, g.IsPercentiles ps → ∀ (hi : i < ps.length) (hj : j < ps.length),
      R (latencyOf ps[i]) (latencyOf ps[j])) →
    List.Forall₂ R ((column i pss).map latencyOf) ((column j pss).map latencyOf) := by
  induction h with
  | nil =>
      intro _
      exact .nil
  | @cons g ps hs pss hps _ ih =>
      intro hR
      have hlen := hps.length
      rw [column_cons (by omega : i < ps.length), column_cons (by omega : j < ps.length),
        List.map_cons, List.map_cons]
      refine .cons (hR g List.mem_cons_self ps hps _ _) (ih fun g' hg' => ?_)
      exact hR g' (List.mem_cons_of_mem _ hg')

theorem forall₂_trimmed {l l' : List ℚ} (h : List.Forall₂ (· ≤ ·) l l') :
    List.Forall₂ (· ≤ ·) (trimmed l) (trimmed l') := by
  rw [trimmed, trimmed, ← h.length_eq]
  split
  · exact Stats.forall₂_trim h
  · exact h

theorem mem_trimmed {l : List ℚ} {x : ℚ} (h : x ∈ trimmed l) : x ∈ l := by
  rw [trimmed] at h
  split at h
  · exact (Stats.sorted_perm l).mem_iff.mp (List.mem_of_mem_drop (List.mem_of_mem_dropLast h))
  · exact h

theorem summary_nonneg (l : List ℚ) : 0 ≤ summary l := by
  refine Stats.mean_nonneg fun x hx => ?_
  have hone := of_decide_eq_true (List.mem_filter.mp (mem_trimmed hx)).2
  linarith

/-- The summaries of two columns are ordered if the filter keeps the same groups. -/
theorem summary_columns_le {i j : Nat} (hij : i < j) (hj : j < 99)
    (h : List.Forall₂ LatencyHistogram.IsPercentiles hs pss)
    (hkept : SameKept (i + 1) (j + 1) hs) :
    summary ((column i pss).map latencyOf) ≤ summary ((column j pss).map latencyOf) := by
  have hi : i < 99 := by omega
  rcases hkept with hsame | hnone
  · have hle : List.Forall₂ (· ≤ ·) ((column i pss).map latencyOf)
        ((column j pss).map latencyOf) :=
      forall₂_columns hi hj h fun g _ ps hps _ _ =>
        List.pairwise_iff_getElem.mp hps.sorted i j _ _ hij
    have hboth : List.Forall₂ (fun a b => 1 ≤ b → 1 ≤ a) ((column i pss).map latencyOf)
        ((column j pss).map latencyOf) :=
      forall₂_columns hi hj h fun g hg ps hps hi hj hone =>
        (one_le_iff_kept hps hi).mpr (hsame g hg ((one_le_iff_kept hps hj).mp hone))
    exact Stats.mean_le_mean (forall₂_trimmed (Stats.forall₂_filter hle hboth))
  · -- nothing is left of the lower column, which is reported as zero
    have hlow : List.Forall₂ (fun a _ => ¬ 1 ≤ a) ((column i pss).map latencyOf)
        ((column i pss).map latencyOf) :=
      forall₂_columns hi hi h fun g hg ps hps hi _ hone =>
        hnone g hg ((one_le_iff_kept hps hi).mp hone)
    have hempty : ((column i pss).map latencyOf).filter (1 ≤ ·) = [] := by
      refine List.filter_eq_nil_iff.mpr fun x hx hone => ?_
      obtain ⟨k, hk, rfl⟩ := List.getElem_of_mem hx
      exact (List.forall₂_iff_get.mp hlow).2 k hk hk (of_decide_eq_true hone)
    have hzero : summary ((column i pss).map latencyOf) = 0 := by
      rw [summary, hempty]
      exact div_zero _
    rw [hzero]
    exact summary_nonneg _

/-- The reported percentiles of well-formed records are ordered, if of neighbouring
percentiles the filter keeps the same groups or no lower one. -/
theorem readTrex_ordered [Sorting] (order : Enumeration Str)
    (literalEval : Str → Option (Obj Exact)) (data : Str) (texts : List Str)
    (dicts : List (Obj Exact))
    (hss : List (List LatencyHistogram)) (fuel : Nat) (hfuel : 99 ≤ fuel)
    (htexts : recordTexts fuel data = some texts) (hdicts : texts.mapM literalEval = some dicts)
    (hrecords : List.Forall₂ RecordOf dicts hss)
    (h50 : SameKept 50 90 (measuredGroups hss.flatten))
    (h90 : SameKept 90 99 (measuredGroups hss.flatten)) :
    ∃ out x50 x90 x99, readTrex order fuel literalEval data = some out ∧
      reported out "trex_lat_50th" = some (.fin x50) ∧
      reported out "trex_lat_90th" = some (.fin x90) ∧
      reported out "trex_lat_99th" = some (.fin x99) ∧ x50 ≤ x90 ∧ x90 ≤ x99 := by
  obtain ⟨out, pss, hout, hpss, hr50, hr90, hr99⟩ :=
    readTrex_reports order hfuel htexts hdicts hrecords
  exact ⟨out, _, _, _, hout, hr50, hr90, hr99,
    summary_columns_le (by omega) (by omega) hpss h50,
    summary_columns_le (by omega) (by omega) hpss h90⟩

/-- The entry of a packet group. -/
def groupEntry (h : LatencyHistogram) (avg : Int) : Obj Exact :=
  .dict [(.str "latency".toList,
    .dict [(.str "histogram".toList, h.obj), (.str "average".toList, .int avg)])]

/-- A record with the given entries, and the one that sums them up. -/
def recordObj (entries : List (Obj Exact × Obj Exact)) : Obj Exact :=
  .dict
    [(.str "global".toList, .dict [(.str "tx_bps".toList, .int 1), (.str "rx_bps".toList, .int 1)]),
      (.str "latency".toList, .dict (entries ++ [(.str "global".toList, .dict [])]))]

theorem entryOf_groupEntry {h : LatencyHistogram} (hne : h.obj.nonEmpty = true) (avg : Int) :
    EntryOf (groupEntry h avg) (some h) := by
  have haverage : ((groupEntry h avg).item "latency").bind (·.item "average") = some (.int avg) :=
    rfl
  refine .group haverage rfl ?_
  show (if h.obj.nonEmpty then some h.obj else _) = _
  rw [if_pos hne]

theorem recordOf_recordObj {entries : List (Obj Exact × Obj Exact)} {hs : List LatencyHistogram}
    (h : List.Forall₂ EntryOf (entries.map Prod.snd) (hs.map some)) :
    RecordOf (recordObj entries) hs where
  rates := ⟨_, .int 1, .int 1, rfl, rfl, rfl, rfl, rfl⟩
  latency := by
    refine ⟨_, hs.map some ++ [none], rfl, ?_, ?_⟩
    · rw [List.map_append]
      exact List.rel_append h (.cons (.totals rfl) .nil)
    · rw [List.flatMap_append, List.flatMap_map]
      simp

/-- One packet group, with four packets. -/
def fewText : Str :=
  "\x7b'global':\x7b'tx_bps':1,'rx_bps':1\x7d,'latency':\x7b1:".toList ++
    "\x7b'latency':\x7b'histogram':\x7b20:1,10:3\x7d,'average':12\x7d\x7d,".toList ++
    "'global':\x7b\x7d\x7d\x7d".toList

section Texts

open scoped Sorting.Insertion

theorem readTrex_fewText :
    ∃ out x50 x90 x99,
      readTrex (.insertion Str) 99 (fun _ => some (recordObj [(.int 1, groupEntry fewPackets 12)]))
        fewText = some out ∧
      reported out "trex_lat_50th" = some (.fin x50) ∧
      reported out "trex_lat_90th" = some (.fin x90) ∧
      reported out "trex_lat_99th" = some (.fin x99) ∧ x50 ≤ x90 ∧ x90 ≤ x99 := by
  have hkept : ∀ i, ∀ h ∈ measuredGroups [[fewPackets]].flatten, h.Kept i := by
    intro i h hh q hq
    obtain rfl : h = fewPackets := List.mem_singleton.mp (List.mem_of_mem_filter hh)
    have hone : ∀ e ∈ fewPackets.entries, 1 ≤ latencyOf e.1 := by decide
    have hnone : fewPackets.entries.filter (fun e => decide (latencyOf e.1 ≤ q)) = [] := by
      refine List.filter_eq_nil_iff.mpr fun e he hle => ?_
      exact absurd (of_decide_eq_true hle) (not_le.mpr (lt_of_lt_of_le hq (hone e he)))
    rw [LatencyHistogram.samplesUpTo, hnone, List.map_nil, List.sum_nil, Nat.cast_zero]
    positivity
  exact readTrex_ordered _ _ _ [fewText] _ [[fewPackets]] 99 (le_refl 99) (by decide +kernel) rfl
    (.cons (recordOf_recordObj (.cons (entryOf_groupEntry rfl 12) .nil)) .nil)
    (Or.inl fun h hh _ => hkept 50 h hh) (Or.inl fun h hh _ => hkept 90 h hh)

/-- Half of the packets of the first group take less than one, the second has one packet. -/
def mixedText : Str :=
  "\x7b'global':\x7b'tx_bps':1,'rx_bps':1\x7d,'latency':\x7b1:".toList ++
    "\x7b'latency':\x7b'histogram':\x7b0:60,1:40\x7d,'average':1\x7d\x7d,2:".toList ++
    "\x7b'latency':\x7b'histogram':\x7b10:1\x7d,'average':10\x7d\x7d,".toList ++
    "'global':\x7b\x7d\x7d\x7d".toList

def fastGroup : LatencyHistogram where
  entries := [(.int 0, 60), (.int 1, 40)]
  latencies := by decide

def slowGroup : LatencyHistogram where
  entries := [(.int 10, 1)]
  latencies := by decide

def mixedRecord : Obj Exact :=
  recordObj [(.int 1, groupEntry fastGroup 1), (.int 2, groupEntry slowGroup 10)]

theorem recordOf_mixedRecord : RecordOf mixedRecord [fastGroup, slowGroup] :=
  recordOf_recordObj (.cons (entryOf_groupEntry rfl 1) (.cons (entryOf_groupEntry rfl 10) .nil))

theorem fastGroup_percentiles {ps : List (Obj Exact)} (h : fastGroup.IsPercentiles ps) :
    (∃ k, ps[49]? = some k ∧ latencyOf k = 0) ∧ ∃ k, ps[89]? = some k ∧ latencyOf k = 1 := by
  have hlat : ∀ k, (∃ n, 0 < n ∧ (k, n) ∈ fastGroup.entries) →
      latencyOf k = 0 ∨ latencyOf k = 1 := by
    rintro k ⟨n, -, hn⟩
    rcases List.mem_cons.mp hn with hn | hn
    · cases hn
      exact Or.inl rfl
    · cases List.mem_singleton.mp hn
      exact Or.inr rfl
  obtain ⟨k, hk, hleast⟩ := h.least 50 (by omega) (by omega)
  obtain ⟨k', hk', hleast'⟩ := h.least 90 (by omega) (by omega)
  refine ⟨⟨k, hk, ?_⟩, ⟨k', hk', ?_⟩⟩
  · rcases hlat k (h.counted k (List.mem_of_getElem? hk)) with h0 | h1
    · exact h0
    · have hle := hleast.2 (show (0 : ℚ) ∈ {q | _} by decide +kernel)
      rw [h1] at hle
      exact absurd hle (by decide)
  · rcases hlat k' (h.counted k' (List.mem_of_getElem? hk')) with h0 | h1
    · have hmem := hleast'.1
      rw [h0] at hmem
      exact absurd hmem (by decide +kernel)
    · exact h1

theorem slowGroup_percentiles {ps : List (Obj Exact)} (h : slowGroup.IsPercentiles ps) {i : Nat}
    (hi : i < 99) : ∃ k, ps[i]? = some k ∧ latencyOf k = 10 := by
  have hk := List.getElem?_eq_getElem (l := ps) (i := i) (by rw [h.length]; exact hi)
  refine ⟨_, hk, ?_⟩
  obtain ⟨n, -, hn⟩ := h.counted _ (List.mem_of_getElem? hk)
  rw [(Prod.mk.inj (List.mem_singleton.mp hn)).1]
  rfl

/-- The filter drops the 50th percentile of the first group and keeps its 90th. -/
theorem readTrex_mixedText :
    RecordOf mixedRecord [fastGroup, slowGroup] ∧
    ∃ out, readTrex (.insertion Str) 99 (fun _ => some mixedRecord) mixedText = some out ∧
      reported out "trex_lat_50th" = some (.fin 10) ∧
      reported out "trex_lat_90th" = some (.fin (11 / 2)) := by
  refine ⟨recordOf_mixedRecord, ?_⟩
  have htexts : recordTexts 99 mixedText = some [mixedText] := by decide +kernel
  have hdicts : [mixedText].mapM (fun _ => some mixedRecord) = some [mixedRecord] := rfl
  obtain ⟨out, pss, hout, hpss, hr50, hr90, -⟩ := readTrex_reports (.insertion Str)
    (le_refl 99) htexts hdicts (.cons recordOf_mixedRecord .nil)
  have hgroups : measuredGroups [[fastGroup, slowGroup]].flatten = [fastGroup, slowGroup] :=
    List.filter_eq_self.mpr (by decide)
  rw [hgroups] at hpss
  obtain ⟨ps, pss, hps, hrest, rfl⟩ := List.forall₂_cons_left_iff.mp hpss
  obtain ⟨ps', pss, hps', hnil, rfl⟩ := List.forall₂_cons_left_iff.mp hrest
  rw [List.forall₂_nil_left_iff.mp hnil] at hr50 hr90
  obtain ⟨⟨k, hk, hlat⟩, ⟨k', hk', hlat'⟩⟩ := fastGroup_percentiles hps
  obtain ⟨m, hm, hmlat⟩ := slowGroup_percentiles hps' (i := 49) (by omega)
  obtain ⟨m', hm', hmlat'⟩ := slowGroup_percentiles hps' (i := 89) (by omega)
  have hcol : (column 49 [ps, ps']).map latencyOf = [0, 10] := by
    simp [column, hk, hm, hlat, hmlat]
  have hcol' : (column 89 [ps, ps']).map latencyOf = [1, 10] := by
    simp [column, hk', hm', hlat', hmlat']
  rw [hcol] at hr50
  rw [hcol'] at hr90
  have h10 : summary [0, 10] = 10 := by decide +kernel
  have h55 : summary [1, 10] = 11 / 2 := by decide +kernel
  rw [h10] at hr50
  rw [h55] at hr90
  exact ⟨out, hout, hr50, hr90⟩

end Texts

end Nicmem
