/-
What the counter logs give.

A line records a name when it splits at `": "` into exactly two pieces; the value may
then still be no number, in which case the name is there with an empty list.  So the
keys of `_read_net_cpu` are the recorded names and the names with `_std`, and the value
of a name is its printed average unless the name is itself another name with `_std`.

`read_net` never raises: the values it adds up are texts it has printed itself.  The
sum runs over the entries as they were before the loop, the totals among them, which
add the zero they were set to.
-/
import Nicmem.Proofs.Keys

namespace Nicmem

open Python

variable {F : Type} [PyFloat F]

/-! ### The recorded names -/

/-- The name a line records, if it records one. -/
def netCpuName (l : Str) : Option Str := (netCpuParts l).map Prod.fst

theorem mem_keys_netCpuLine {res : Samples F} {l k : Str} :
    k ∈ (netCpuLine res l).keys ↔ k ∈ res.keys ∨ netCpuName l = some k := by
  unfold netCpuLine netCpuName
  split
  · rename_i hnone
    simp [hnone]
  · rename_i name v hsome
    rw [hsome, Option.map_some, Option.some.injEq]
    split
    · rw [appendSample, Dict.mem_keys_set, or_comm, eq_comm]
    · split
      · rename_i hmem
        exact ⟨.inl, fun h => h.elim id fun he => he ▸ hmem⟩
      · rw [Dict.mem_keys_set, or_comm, eq_comm]

theorem mem_keys_netCpuSamples {data k : Str} :
    k ∈ (netCpuSamples data : Samples F).keys ↔
      ∃ l ∈ data.splitOn '\n', netCpuName l = some k := by
  rw [netCpuSamples, Dict.mem_keys_foldl (fun l k => netCpuName l = some k)
    fun _ _ => mem_keys_netCpuLine]
  simp

/-- The sample a line adds to a name. -/
def lineSample (k l : Str) : Option F :=
  (netCpuParts l).bind fun p => if p.1 = k then PyFloat.ofStr p.2 else none

theorem getD_netCpuLine (res : Samples F) (l k : Str) :
    ((netCpuLine res l).get? k).getD [] = (res.get? k).getD [] ++ (lineSample k l).toList := by
  unfold netCpuLine lineSample
  cases hparts : netCpuParts l with
  | none => simp
  | some p =>
      obtain ⟨name, v⟩ := p
      rw [Option.bind_some]
      by_cases hk : name = k
      · subst hk
        rw [if_pos rfl]
        cases hv : (PyFloat.ofStr v : Option F) with
        | some x => simp [hv, appendSample]
        | none =>
            simp only [hv, Option.toList_none, List.append_nil]
            split
            · rfl
            · rename_i hmem
              rw [Dict.get?_set_self, Dict.get?_eq_none_iff.mpr hmem]
              rfl
      · have hne : k ≠ name := fun h => hk h.symm
        simp only [if_neg hk, Option.toList_none, List.append_nil]
        split
        · rw [appendSample, Dict.get?_set_ne _ _ hne]
        · split
          · rfl
          · rw [Dict.get?_set_ne _ _ hne]

/-- The samples of a name are those its lines add, in order. -/
theorem getD_netCpuSamples (data k : Str) :
    ((netCpuSamples data : Samples F).get? k).getD [] =
      (data.splitOn '\n').filterMap (lineSample k) := by
  have hloop : ∀ (ls : List Str) (res : Samples F), ((ls.foldl netCpuLine res).get? k).getD [] =
      (res.get? k).getD [] ++ ls.filterMap (lineSample k) := by
    intro ls
    induction ls with
    | nil => intro res; simp
    | cons l rest ih =>
        intro res
        rw [List.foldl_cons, ih, getD_netCpuLine, List.append_assoc, List.filterMap_cons]
        cases (lineSample k l : Option F) <;> rfl
  rw [netCpuSamples, hloop]
  rfl

/-! ### Averages by name -/

/-- What is printed for the samples of a name. -/
def printedAverage [Sorting] (samples : List F) : Str :=
  PyFloat.fmt2 (PyFloat.average (rejectOutliers samples))

/-- The keys of a counter log: the recorded names, and the names with `_std`. -/
theorem mem_keys_readNetCpu [Sorting] {order : Enumeration Str} {data k : Str} :
    k ∈ (readNetCpu order data : Result F).keys ↔
      ∃ n ∈ (netCpuSamples data : Samples F).keys, k = n ∨ k = stdName n := by
  have hstep : ∀ (out : Result F) (e : Str × List F), k ∈ (netCpuAverages out e).keys ↔
      k ∈ out.keys ∨ (k = e.1 ∨ k = stdName e.1) := by
    intro out e
    rw [netCpuAverages, Dict.mem_keys_set, Dict.mem_keys_set, ← or_assoc, or_comm,
      or_comm (a := k = stdName e.1)]
  rw [readNetCpu, Dict.mem_keys_foldl (fun e k => k = e.1 ∨ k = stdName e.1) hstep]
  simp only [Dict.keys_empty, List.not_mem_nil, false_or]
  constructor
  · rintro ⟨⟨n, samples⟩, he, hk⟩
    exact ⟨n, Dict.mem_keys_of_get? (Dict.mem_items.mp he), hk⟩
  · rintro ⟨n, hn, hk⟩
    obtain ⟨samples, hs⟩ := Dict.mem_keys_iff.mp hn
    exact ⟨(n, samples), Dict.mem_items.mpr hs, hk⟩

/-- The value of a name that is no other name with `_std`. -/
theorem get?_readNetCpu [Sorting] {order : Enumeration Str} {data n : Str} {samples : List F}
    (hget : (netCpuSamples data : Samples F).get? n = some samples)
    (hstd : ∀ m ∈ (netCpuSamples data : Samples F).keys, n ≠ stdName m) :
    (readNetCpu order data : Result F).get? n = some (.str (printedAverage samples)) := by
  refine Dict.get?_foldl_items hget (fun out => ?_) (fun e he hne out => ?_) _
  · rw [netCpuAverages, Dict.get?_set_ne _ _ (hstd n (Dict.mem_keys_of_get? hget)),
      Dict.get?_set_self, printedAverage]
  · have hne' := hstd e.1 (Dict.mem_keys_of_get? (Dict.mem_items.mp he))
    rw [netCpuAverages, Dict.get?_set_ne _ _ hne', Dict.get?_set_ne _ _ (Ne.symm hne)]

/-- Every value of a counter log is a printed number. -/
theorem readNetCpu_all [Sorting] (order : Enumeration Str) (data : Str) :
    (readNetCpu order data : Result F).All fun _ v => ∃ x : F, v = .str (PyFloat.fmt2 x) := by
  refine foldl_invariant
    (fun out : Result F => out.All fun _ v => ∃ x : F, v = .str (PyFloat.fmt2 x)) ?_ Dict.All.empty
  intro out hout e _
  exact (hout.set ⟨_, rfl⟩).set ⟨_, rfl⟩

/-! ### Which counter a name belongs to -/

namespace Counter

theorem total_injective : Function.Injective total := by
  intro c c' h
  cases c <;> cases c' <;> first | rfl | exact absurd h (by decide)

theorem mem_all (c : Counter) : c ∈ all := by cases c <;> decide

theorem suffix_inj {c c' : Counter} {k : Str} (h : c.suffix <:+ k) (h' : c'.suffix <:+ k) :
    c = c' := by
  have hor := List.suffix_or_suffix_of_suffix h h'
  cases c <;> cases c' <;> first | rfl | exact absurd hor (by decide)

/-- No two of the suffixes fit one name, so the order of the tests does not matter. -/
theorem ofName_eq_some_iff {c : Counter} {k : Str} : ofName k = some c ↔ c.suffix <:+ k := by
  constructor
  · intro h
    have hsuf := List.find?_some h
    exact List.isSuffixOf_iff_suffix.mp hsuf
  · intro h
    cases hfind : ofName k with
    | none =>
        have hno := List.find?_eq_none.mp hfind c (mem_all c)
        exact absurd (List.isSuffixOf_iff_suffix.mpr h) hno
    | some c' =>
        have hsuf := List.find?_some hfind
        rw [suffix_inj (List.isSuffixOf_iff_suffix.mp hsuf) h]

/-- The name of a deviation belongs to no counter. -/
theorem not_suffix_stdName {c : Counter} {n : Str} : ¬ c.suffix <:+ stdName n := by
  intro h
  have hor := List.suffix_or_suffix_of_suffix h (List.suffix_append n "_std".toList)
  cases c <;> exact absurd hor (by decide)

end Counter

/-! ### Totals -/

/-- The number a total stands at. -/
def totalOf (res : Result F) (c : Counter) : Option F := (res.get? c.total).bind Value.toFloat

/-- The number a value stands for in a sum. -/
def amount (v : Value F) : F := v.toFloat.getD (PyFloat.lit 0)

/-- The amounts of the names of a counter, added to a start value from the left. -/
def addAmounts (c : Counter) (l : List (Str × Value F)) (start : F) : F :=
  ((l.filter fun e => Counter.ofName e.1 = some c).map fun e => amount e.2).foldl PyFloat.add start

/-- One round of the loop: it returns, and moves the total of the name's counter only. -/
theorem addToTotal_step {res : Result F} {e : Str × Value F} (he : e.2.toFloat.isSome = true)
    (hres : ∀ c, (totalOf res c).isSome = true) :
    ∃ res', addToTotal res e = some res' ∧
      (∀ k, (∀ c, k ≠ Counter.total c) → res'.get? k = res.get? k) ∧
      (∀ k, k ∈ res'.keys ↔ k ∈ res.keys) ∧
      ∀ c, totalOf res' c = (totalOf res c).map (addAmounts c [e]) := by
  unfold addToTotal
  cases hname : Counter.ofName e.1 with
  | none =>
      refine ⟨res, rfl, fun _ _ => rfl, fun _ => Iff.rfl, fun c => ?_⟩
      cases htot : totalOf res c <;> simp [addAmounts, hname]
  | some c₀ =>
      obtain ⟨x, hx⟩ := Option.isSome_iff_exists.mp he
      obtain ⟨sum, hsum⟩ := Option.isSome_iff_exists.mp (hres c₀)
      have hsum' : (res.get? c₀.total).bind Value.toFloat = some sum := hsum
      refine ⟨res.set c₀.total (.flt (PyFloat.add sum x)), by simp [hx, hsum'], ?_, ?_, ?_⟩
      · intro k hk
        exact Dict.get?_set_ne _ _ (hk c₀)
      · intro k
        have hmem : c₀.total ∈ res.keys := by
          obtain ⟨v, hv, -⟩ := Option.bind_eq_some_iff.mp hsum'
          exact Dict.mem_keys_of_get? hv
        rw [Dict.mem_keys_set]
        exact ⟨fun h => h.elim (fun he => he ▸ hmem) id, .inr⟩
      · intro c
        by_cases hc : c = c₀
        · subst hc
          rw [hsum, totalOf, Dict.get?_set_self]
          simp [addAmounts, hname, amount, hx,
            show ∀ y : F, (Value.flt y).toFloat = some y from fun _ => rfl]
        · rw [totalOf, Dict.get?_set_ne _ _ fun h => hc (Counter.total_injective h)]
          have hne : c₀ ≠ c := fun h => hc h.symm
          cases htot : totalOf res c with
          | none =>
              rw [totalOf] at htot
              rw [htot]
              rfl
          | some y =>
              rw [totalOf] at htot
              rw [htot]
              simp [addAmounts, hname, hne]

/-- The whole loop: it returns, and every total has grown by the amounts of its names. -/
theorem addToTotal_run (l : List (Str × Value F)) (hl : ∀ e ∈ l, e.2.toFloat.isSome = true) :
    ∀ res : Result F, (∀ c, (totalOf res c).isSome = true) →
      ∃ res', l.foldlM addToTotal res = some res' ∧
        (∀ k, (∀ c, k ≠ Counter.total c) → res'.get? k = res.get? k) ∧
        (∀ k, k ∈ res'.keys ↔ k ∈ res.keys) ∧
        ∀ c, totalOf res' c = (totalOf res c).map (addAmounts c l) := by
  induction l with
  | nil =>
      intro res _
      refine ⟨res, rfl, fun _ _ => rfl, fun _ => Iff.rfl, fun c => ?_⟩
      cases totalOf res c <;> rfl
  | cons e rest ih =>
      intro res hres
      obtain ⟨res₁, hstep, hother₁, hkeys₁, htot₁⟩ := addToTotal_step (hl e (by simp)) hres
      have hres₁ : ∀ c, (totalOf res₁ c).isSome = true := by
        intro c
        rw [htot₁, Option.isSome_map]
        exact hres c
      obtain ⟨res₂, hrun, hother₂, hkeys₂, htot₂⟩ := ih (fun x hx => hl x (by simp [hx])) res₁ hres₁
      refine ⟨res₂, ?_, fun k hk => (hother₂ k hk).trans (hother₁ k hk),
        fun k => (hkeys₂ k).trans (hkeys₁ k), fun c => ?_⟩
      · rw [List.foldlM_cons, hstep]
        exact hrun
      · rw [htot₂, htot₁, Option.map_map]
        congr 1
        funext start
        by_cases hc : Counter.ofName e.1 = some c
        · simp [addAmounts, hc]
        · simp [addAmounts, hc]

omit [PyFloat F] in
private theorem get?_foldl_zero (k : Str) (cs : List Counter) : ∀ res : Result F,
    (cs.foldl (fun res c => res.set c.total (.int 0)) res).get? k =
      if ∃ c ∈ cs, k = Counter.total c then some (.int 0) else res.get? k := by
  induction cs with
  | nil => intro res; simp
  | cons c rest ih =>
      intro res
      rw [List.foldl_cons, ih, Dict.get?_set]
      simp only [List.mem_cons, exists_eq_or_imp]
      by_cases hrest : ∃ c ∈ rest, k = Counter.total c
      · rw [if_pos hrest, if_pos (.inr hrest)]
      · simp [hrest]

omit [PyFloat F] in
/-- After the chained assignment every total is zero. -/
theorem get?_zeroTotals_total (res : Result F) (c : Counter) :
    (zeroTotals res).get? c.total = some (.int 0) := by
  rw [zeroTotals, get?_foldl_zero, if_pos]
  exact ⟨c, by cases c <;> decide, rfl⟩

omit [PyFloat F] in
/-- No other entry has changed. -/
theorem get?_zeroTotals_other (res : Result F) {k : Str} (hk : ∀ c, k ≠ Counter.total c) :
    (zeroTotals res).get? k = res.get? k := by
  rw [zeroTotals, get?_foldl_zero, if_neg]
  rintro ⟨c, -, hc⟩
  exact hk c hc

theorem totalOf_zeroTotals (res : Result F) (c : Counter) :
    totalOf (zeroTotals res) c = some (PyFloat.lit 0) := by
  rw [totalOf, get?_zeroTotals_total, Option.bind_some, Value.toFloat, Int.cast_zero]

/-- The entries the totals are summed from. -/
def totalledEntries [Sorting] (order : Enumeration Str) (data : Str) : List (Str × Value F) :=
  (zeroTotals (readNetCpu order data : Result F)).items order

/-- **`read_net` returns for every log**, with the averages of `_read_net_cpu` and, under
each total, the sum of the counters whose names end alike. -/
theorem readNet_spec [Sorting] (order : Enumeration Str) (data : Str) :
    ∃ out : Result F, readNet order data = some out ∧
      (∀ k, (∀ c, k ≠ Counter.total c) → out.get? k = (readNetCpu order data).get? k) ∧
      (∀ k, k ∈ out.keys ↔
        (∃ c, k = Counter.total c) ∨ k ∈ (readNetCpu order data : Result F).keys) ∧
      ∀ c, totalOf out c = some (addAmounts c (totalledEntries order data) (PyFloat.lit 0)) := by
  have hnum : ∀ e ∈ (totalledEntries order data : List (Str × Value F)),
      e.2.toFloat.isSome = true := by
    intro e he
    have hget := Dict.mem_items.mp he
    by_cases hk : ∀ c, e.1 ≠ Counter.total c
    · rw [get?_zeroTotals_other _ hk] at hget
      obtain ⟨x, hx⟩ := readNetCpu_all order data e.1 e.2 hget
      rw [hx]
      exact PyFloat.ofStr_fmt2 x
    · simp only [not_forall, not_not] at hk
      obtain ⟨c, hc⟩ := hk
      rw [hc, get?_zeroTotals_total] at hget
      rw [← Option.some.inj hget]
      rfl
  obtain ⟨out, hrun, hother, hkeys, htot⟩ := addToTotal_run _ hnum
    (zeroTotals (readNetCpu order data)) fun c => by rw [totalOf_zeroTotals]; rfl
  refine ⟨out, hrun, fun k hk => ?_, fun k => ?_, fun c => ?_⟩
  · rw [hother k hk, get?_zeroTotals_other _ hk]
  · rw [hkeys, Dict.mem_keys_iff]
    by_cases hk : ∀ c, k ≠ Counter.total c
    · rw [get?_zeroTotals_other _ hk, ← Dict.mem_keys_iff]
      exact ⟨.inr, fun h => h.elim (fun ⟨c, hc⟩ => absurd hc (hk c)) id⟩
    · simp only [not_forall, not_not] at hk
      obtain ⟨c, rfl⟩ := hk
      exact ⟨fun _ => .inl ⟨c, rfl⟩, fun _ => ⟨_, get?_zeroTotals_total _ c⟩⟩
  · rw [htot, totalOf_zeroTotals, Option.map_some]

end Nicmem
