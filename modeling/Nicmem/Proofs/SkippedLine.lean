/-
What a skipped line of a counter log leaves behind.

`_read_net_cpu` creates the list of a new name before it converts the value.  So a line
`name: value` whose value is no number is skipped with the name kept, unless another line
has the name as well.  The empty list is averaged to not-a-number and returned, and
`read_net` adds it to a total if the name ends like a counter.

The dictionaries are compared for logs in which no name is another one with `_std`.
Otherwise the deviation of one name and the average of another are kept under one key,
and which of them is returned depends on how the dictionary is enumerated.  A total is added
up in the order of the dictionary, which a skipped line may change, so of the totals it is
said which numbers they are totals of.
-/
import Nicmem.Proofs.Collected
import Nicmem.Proofs.Totals
import Nicmem.Python.Double

namespace Nicmem

open Python

/-- A line with a colon that is skipped: it has not two parts, or its value is no number. -/
def Skipped (l : Str) : Prop :=
  ':' ∈ l ∧ ∀ k v, netCpuParts l = some (k, v) → parseNumeral v = none

/-! ### The samples -/

section Samples

variable {F : Type} [PyFloat F] {data l : Str} {before after : List Str}

theorem Skipped.ofStr_eq_none (h : Skipped l) {k v : Str} (hparts : netCpuParts l = some (k, v)) :
    PyFloat.ofStr v = (none : Option F) := by
  have hnone := PyFloat.isSome_ofStr (F := F) v
  rw [h.2 k v hparts, Option.isSome_none, Option.isSome_eq_false_iff, Option.isNone_iff_eq_none]
    at hnone
  exact hnone

/-- The log without a line. -/
def without (before after : List Str) : Str := List.intercalate ['\n'] (before ++ after)

/-- The lines that are left; of a log of one line an empty one is. -/
theorem splitOn_without (h : data.splitOn '\n' = before ++ l :: after) :
    (without before after).splitOn '\n' = before ++ after ∨
      before ++ after = [] ∧ (without before after).splitOn '\n' = [[]] := by
  by_cases hnil : before ++ after = []
  · rw [without, hnil]
    exact .inr ⟨rfl, rfl⟩
  · refine .inl (List.splitOn_intercalate _ (fun t ht => ?_) hnil)
    refine not_mem_of_mem_splitOn (s := data) ?_
    rw [h]
    rcases List.mem_append.mp ht with ht | ht
    · exact List.mem_append_left _ ht
    · exact List.mem_append_right _ (List.mem_cons_of_mem l ht)

theorem netCpuSamples_without (h : data.splitOn '\n' = before ++ l :: after) :
    netCpuSamples (F := F) (without before after) = (before ++ after).foldl netCpuLine .empty := by
  rw [netCpuSamples]
  rcases splitOn_without h with hlines | ⟨hnil, hlines⟩
  · rw [hlines]
  · rw [hlines, hnil]
    rfl

theorem mem_keys_without (h : data.splitOn '\n' = before ++ l :: after) {k : Str} :
    k ∈ (netCpuSamples (without before after) : Samples F).keys ↔
      ∃ l' ∈ before ++ after, netCpuName l' = some k := by
  rw [netCpuSamples_without h, Dict.mem_keys_foldl (fun l k => netCpuName l = some k)
    fun _ _ => mem_keys_netCpuLine]
  simp

theorem mem_keys_with (h : data.splitOn '\n' = before ++ l :: after) {k : Str} :
    k ∈ (netCpuSamples data : Samples F).keys ↔
      netCpuName l = some k ∨ k ∈ (netCpuSamples (without before after) : Samples F).keys := by
  rw [mem_keys_without h, mem_keys_netCpuSamples, h]
  constructor
  · rintro ⟨l', hl', hk⟩
    rcases List.mem_append.mp hl' with hl' | hl'
    · exact .inr ⟨l', List.mem_append_left _ hl', hk⟩
    · rcases List.mem_cons.mp hl' with rfl | hl'
      · exact .inl hk
      · exact .inr ⟨l', List.mem_append_right _ hl', hk⟩
  · rintro (hk | ⟨l', hl', hk⟩)
    · exact ⟨l, by simp, hk⟩
    · refine ⟨l', ?_, hk⟩
      rcases List.mem_append.mp hl' with hl' | hl'
      · exact List.mem_append_left _ hl'
      · exact List.mem_append_right _ (List.mem_cons_of_mem l hl')

/-- A skipped line adds no sample. -/
theorem lineSample_of_skipped (hskip : Skipped l) (k : Str) :
    (lineSample k l : Option F) = none := by
  rw [lineSample]
  cases hparts : netCpuParts l with
  | none => rfl
  | some p =>
      rw [Option.bind_some]
      split
      · exact hskip.ofStr_eq_none hparts
      · rfl

theorem getD_without (h : data.splitOn '\n' = before ++ l :: after) (hskip : Skipped l) (k : Str) :
    ((netCpuSamples data : Samples F).get? k).getD [] =
      ((netCpuSamples (without before after) : Samples F).get? k).getD [] := by
  rw [getD_netCpuSamples, getD_netCpuSamples, h, List.filterMap_append, List.filterMap_cons,
    lineSample_of_skipped hskip, ← List.filterMap_append]
  rcases splitOn_without h with hlines | ⟨hnil, hlines⟩
  · rw [hlines]
  · rw [hlines, hnil]
    rfl

/-- A name that is recorded already stays as it is. -/
theorem netCpuLine_of_skipped (hskip : Skipped l) {res : Samples F}
    (hname : ∀ k, netCpuName l = some k → k ∈ res.keys) : netCpuLine res l = res := by
  rw [netCpuLine]
  cases hparts : netCpuParts l with
  | none => rfl
  | some p =>
      have hmem : p.1 ∈ res.keys := hname p.1 (by rw [netCpuName, hparts, Option.map_some])
      have hvalue : PyFloat.ofStr p.2 = (none : Option F) := hskip.ofStr_eq_none hparts
      simp only [hvalue, if_pos hmem]

/-- A line whose name an earlier line records changes nothing at all. -/
theorem samples_eq_without (h : data.splitOn '\n' = before ++ l :: after) (hskip : Skipped l)
    (hname : ∀ k, netCpuName l = some k → ∃ l' ∈ before, netCpuName l' = some k) :
    (netCpuSamples data : Samples F) = netCpuSamples (without before after) := by
  have hline : netCpuLine (before.foldl netCpuLine .empty) l =
      (before.foldl netCpuLine .empty : Samples F) := by
    refine netCpuLine_of_skipped hskip fun k hk => ?_
    rw [Dict.mem_keys_foldl (fun l k => netCpuName l = some k) fun _ _ => mem_keys_netCpuLine]
    exact .inr (hname k hk)
  rw [netCpuSamples_without h, netCpuSamples, h, List.foldl_append, List.foldl_cons, hline,
    List.foldl_append]

/-- The samples are the same if the name of the line is recorded by another one. -/
theorem samples_same (h : data.splitOn '\n' = before ++ l :: after) (hskip : Skipped l)
    (hname : ∀ k, netCpuName l = some k → ∃ l' ∈ before ++ after, netCpuName l' = some k) :
    (netCpuSamples data : Samples F).Same (netCpuSamples (without before after)) := by
  have hkeys : ∀ k, k ∈ (netCpuSamples data : Samples F).keys ↔
      k ∈ (netCpuSamples (without before after) : Samples F).keys := by
    intro k
    rw [mem_keys_with h]
    constructor
    · rintro (hk | hk)
      · exact (mem_keys_without (F := F) h).mpr (hname k hk)
      · exact hk
    · exact .inr
  intro k
  have hget := getD_without (F := F) h hskip k
  cases hwith : (netCpuSamples data : Samples F).get? k with
  | none =>
      have hnot : k ∉ (netCpuSamples (without before after) : Samples F).keys := by
        rw [← hkeys, ← Dict.get?_eq_none_iff]
        exact hwith
      exact (Dict.get?_eq_none_iff.mpr hnot).symm
  | some v =>
      obtain ⟨w, hw⟩ := Dict.mem_keys_iff.mp ((hkeys k).mp (Dict.mem_keys_of_get? hwith))
      rw [hwith, hw] at hget
      rw [hw]
      exact congrArg some hget

end Samples

/-! ### The dictionary and the totals -/

section Dictionary

variable {F : Type} [PyFloat F] [Sorting]

/-- What is printed for the deviation of the samples of a name. -/
def printedDeviation (samples : List F) : Str :=
  PyFloat.fmt2 (alignStd (PyFloat.std (rejectOutliers samples)))

theorem get?_readNetCpu_std {order : Enumeration Str} {data n : Str} {samples : List F}
    (hget : (netCpuSamples data : Samples F).get? n = some samples)
    (hstd : ∀ m ∈ (netCpuSamples data : Samples F).keys, stdName n ≠ m) :
    (readNetCpu order data : Result F).get? (stdName n) =
      some (.str (printedDeviation samples)) := by
  refine Dict.get?_foldl_items hget (fun out => ?_) (fun e he hne out => ?_) _
  · rw [netCpuAverages, Dict.get?_set_self, printedDeviation]
  · have hne' := hstd e.1 (Dict.mem_keys_of_get? (Dict.mem_items.mp he))
    rw [netCpuAverages, Dict.get?_set_ne _ _ fun h => hne (stdName_injective h).symm,
      Dict.get?_set_ne _ _ hne']

private theorem readNetCpu_mono {order order' : Enumeration Str} {data data' : Str}
    (h : (netCpuSamples data : Samples F).Same (netCpuSamples data'))
    (hstd : NoDeviation (netCpuSamples data : Samples F))
    (hstd' : NoDeviation (netCpuSamples data' : Samples F)) {k : Str} {v : Value F}
    (hk : (readNetCpu order data).get? k = some v) : (readNetCpu order' data').get? k = some v := by
  obtain ⟨n, hn, hkn⟩ := mem_keys_readNetCpu.mp (Dict.mem_keys_of_get? hk)
  obtain ⟨samples, hs⟩ := Dict.mem_keys_iff.mp hn
  have hs' := (h n).symm.trans hs
  have hn' := Dict.mem_keys_of_get? hs'
  rcases hkn with rfl | rfl
  · rw [get?_readNetCpu hs fun m hm => (hstd m hm k hn).symm] at hk
    rw [get?_readNetCpu hs' fun m hm => (hstd' m hm k hn').symm, ← hk]
  · rw [get?_readNetCpu_std hs fun m hm => hstd n hn m hm] at hk
    rw [get?_readNetCpu_std hs' fun m hm => hstd' n hn' m hm, ← hk]

/-- The same samples are averaged to the same dictionary, if no name is another's with `_std`. -/
theorem readNetCpu_same (order order' : Enumeration Str) {data data' : Str}
    (h : (netCpuSamples data : Samples F).Same (netCpuSamples data'))
    (hstd : NoDeviation (netCpuSamples data : Samples F)) :
    (readNetCpu order data : Result F).Same (readNetCpu order' data') := by
  have hmem : ∀ k ∈ (netCpuSamples data' : Samples F).keys,
      k ∈ (netCpuSamples data : Samples F).keys := by
    intro k hk
    obtain ⟨samples, hs⟩ := Dict.mem_keys_iff.mp hk
    exact Dict.mem_keys_of_get? ((h k).trans hs)
  have hstd' : NoDeviation (netCpuSamples data' : Samples F) :=
    fun k hk k' hk' => hstd k (hmem k hk) k' (hmem k' hk')
  intro k
  exact Option.ext fun v =>
    ⟨readNetCpu_mono h hstd hstd', readNetCpu_mono (fun k => (h k).symm) hstd' hstd⟩

/-- The same samples give the same numbers to add up, up to their order. -/
theorem counterAverages_same {data data' : Str} (c : Counter)
    (h : (netCpuSamples data : Samples F).Same (netCpuSamples data')) :
    (counterAverages c data : List (Str × F)).Perm (counterAverages c data') := by
  rw [counterAverages, counterAverages]
  exact ((Dict.entries_perm_of_same h).filter _).map _

/-- The total `read_net` returns. -/
def netTotal (order : Enumeration Str) (data : Str) (c : Counter) : Option F :=
  (readNet order data).bind fun out => totalOf out c

/-- A total of the numbers of a log. -/
def IsNetTotal (c : Counter) (data : Str) (x : Option F) : Prop :=
  ∃ total, x = some total ∧ IsTotal ((counterAverages c data).map Prod.snd) total

theorem isNetTotal_netTotal (order : Enumeration Str) (data : Str) (c : Counter) :
    IsNetTotal c data (netTotal order data c : Option F) := by
  obtain ⟨out, x, hout, htotal, hx⟩ := totalOf_readNet (F := F) order data c
  refine ⟨x, ?_, hx⟩
  rw [netTotal, hout, Option.bind_some, htotal]

theorem isNetTotal_same (order : Enumeration Str) {data data' : Str} (c : Counter)
    (h : (netCpuSamples data : Samples F).Same (netCpuSamples data')) :
    IsNetTotal c data' (netTotal order data c : Option F) := by
  obtain ⟨x, hx, htotal⟩ := isNetTotal_netTotal (F := F) order data c
  exact ⟨x, hx, htotal.perm ((counterAverages_same c h).map Prod.snd)⟩

/-- Where no name is another's with `_std`, a name left behind shows in the dictionary. -/
theorem name_recorded_of_same {order order' : Enumeration Str} {data l : Str}
    {before after : List Str} (hdata : data.splitOn '\n' = before ++ l :: after)
    (hstd : NoDeviation (netCpuSamples data : Samples F))
    (hsame : (readNetCpu order data : Result F).Same (readNetCpu order' (without before after)))
    {k : Str} (hk : netCpuName l = some k) : ∃ l' ∈ before ++ after, netCpuName l' = some k := by
  have hwith := (mem_keys_with (F := F) hdata).mpr (.inl hk)
  have hkey : k ∈ (readNetCpu order data : Result F).keys :=
    mem_keys_readNetCpu.mpr ⟨k, hwith, .inl rfl⟩
  obtain ⟨v, hv⟩ := Dict.mem_keys_iff.mp hkey
  have hmem := Dict.mem_keys_of_get? ((hsame k).symm.trans hv)
  obtain ⟨n, hn, rfl | rfl⟩ := mem_keys_readNetCpu.mp hmem
  · exact (mem_keys_without hdata).mp hn
  · exact absurd rfl (hstd n ((mem_keys_with hdata).mpr (.inr hn)) _ hwith)

/--
**A skipped line has no effect if, and only if, it leaves no name behind that no other line
records.**

If an earlier line records the name, or there is none, that holds of every log; otherwise of
logs in which no name is another's with `_std`, and the totals are totals of the numbers of
the log without the line, added up in an order of their own.
-/
theorem skipped_line_iff (order order' : Enumeration Str) {data l : Str} {before after : List Str}
    (hdata : data.splitOn '\n' = before ++ l :: after) (hskip : Skipped l) :
    ((∀ k, netCpuName l = some k → ∃ l' ∈ before, netCpuName l' = some k) →
      (readNetCpu order data : Result F) = readNetCpu order (without before after) ∧
      (readNet order data : Option (Result F)) = readNet order (without before after)) ∧
    (NoDeviation (netCpuSamples data : Samples F) →
      (((readNetCpu order data : Result F).Same (readNetCpu order' (without before after)) ∧
        ∀ c, IsNetTotal c (without before after) (netTotal order data c : Option F) ∧
          IsNetTotal c (without before after)
            (netTotal order' (without before after) c : Option F)) ↔
      ∀ k, netCpuName l = some k → ∃ l' ∈ before ++ after, netCpuName l' = some k)) := by
  refine ⟨fun hname => ?_, fun hstd => ⟨fun h k hk => name_recorded_of_same hdata hstd h.1 hk, ?_⟩⟩
  · have hsamples := samples_eq_without (F := F) hdata hskip hname
    have hread : (readNetCpu order data : Result F) = readNetCpu order (without before after) := by
      rw [readNetCpu, hsamples]
      rfl
    exact ⟨hread, by rw [readNet, hread]; rfl⟩
  · intro hname
    have hsame := samples_same (F := F) hdata hskip hname
    exact ⟨readNetCpu_same order order' hsame hstd, fun c =>
      ⟨isNetTotal_same order c hsame, isNetTotal_netTotal order' _ c⟩⟩

end Dictionary

section Logs

open scoped Sorting.Insertion

theorem skipped_line_recordedLater :
    (readNetCpu (.insertion Str) "a_tx_bw: abc\na_tx_bw: 1.00".toList : Result Double).Same
        (readNetCpu (.insertion Str) "a_tx_bw: 1.00".toList) ∧
      ∀ c, IsNetTotal c "a_tx_bw: 1.00".toList
          (netTotal (.insertion Str) "a_tx_bw: abc\na_tx_bw: 1.00".toList c : Option Double) ∧
        IsNetTotal c "a_tx_bw: 1.00".toList
          (netTotal (.insertion Str) "a_tx_bw: 1.00".toList c : Option Double) := by
  have hskip : Skipped "a_tx_bw: abc".toList := by
    refine ⟨by decide, fun k v h => ?_⟩
    have hparts : netCpuParts "a_tx_bw: abc".toList = some ("a_tx_bw".toList, "abc".toList) := by
      decide
    rw [hparts] at h
    cases h
    decide
  have hstd : NoDeviation
      (netCpuSamples "a_tx_bw: abc\na_tx_bw: 1.00".toList : Samples Double) := by
    unfold NoDeviation
    decide
  have hdata : "a_tx_bw: abc\na_tx_bw: 1.00".toList.splitOn '\n' =
      [] ++ "a_tx_bw: abc".toList :: ["a_tx_bw: 1.00".toList] := by
    decide
  have hleft : without [] ["a_tx_bw: 1.00".toList] = "a_tx_bw: 1.00".toList := by decide
  have hiff := (skipped_line_iff (F := Double) (.insertion Str) (.insertion Str) hdata hskip).2 hstd
  rw [hleft] at hiff
  refine hiff.mpr fun k hk => ⟨"a_tx_bw: 1.00".toList, by simp, ?_⟩
  have hname : netCpuName "a_tx_bw: abc".toList = netCpuName "a_tx_bw: 1.00".toList := by
    decide
  exact hname ▸ hk

/-- The name of a skipped line is averaged and added up. -/
theorem skipped_line_counted :
    netCpuParts "x_tx_bw: abc".toList = some ("x_tx_bw".toList, "abc".toList) ∧
      parseNumeral "abc".toList = none ∧
    (readNetCpu (.insertion Str) "y_tx_bw: 5.00\nx_tx_bw: abc".toList : Result Double).get?
        "x_tx_bw".toList = some (.str "nan".toList) ∧
      netTotal (.insertion Str) "y_tx_bw: 5.00\nx_tx_bw: abc".toList .txBw =
        some (.nan : Double) ∧
    (readNetCpu (.insertion Str) "y_tx_bw: 5.00".toList : Result Double).get? "x_tx_bw".toList =
      none ∧
      netTotal (.insertion Str) "y_tx_bw: 5.00".toList .txBw = some (PyFloat.lit 5 : Double) := by
  decide +kernel

end Logs

end Nicmem
