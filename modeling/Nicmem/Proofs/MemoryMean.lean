/-
The averages of `read_memory`.

Every sample of a counter was captured as a decimal number, so the clean-up and the
averaging never fail: a log whose lines can be read gives a value for every counter.

The clean-up is meant to drop the samples above 100 GB/s.  It keeps a counter that has one
as it is, and drops what is not below the threshold from a counter that has none.  So what
is averaged is what should be only where every sample is below the threshold, and
otherwise even its mean is another one.
-/
import Nicmem.Proofs.Collected
import Nicmem.Proofs.Keys
import Nicmem.Proofs.Outliers

namespace Nicmem

open Python

namespace Memory

/-! ### The samples are numbers -/

/-- Every sample is a decimal number. -/
def Decimals (_ : Str) (v : List Str) : Prop := ∀ t ∈ v, Pattern.Fits Pattern.decimal t

theorem grows_decimals : Grows Decimals where
  new := fun _ _ t ht => absurd ht List.not_mem_nil
  add := by
    intro k v t hv ht u hu
    rcases List.mem_append.mp hu with hu | hu
    · exact hv u hu
    · rw [List.mem_singleton.mp hu]
      exact ht

section Samples

variable {F : Type} [PyFloat F]

/-- The float a captured text is read as. -/
def sample (F : Type) [PyFloat F] (t : Str) : F := (PyFloat.ofStr t).getD (PyFloat.lit 0)

theorem ofStr_eq_sample {t : Str} (h : Pattern.Fits Pattern.decimal t) :
    PyFloat.ofStr t = some (sample F t) := by
  obtain ⟨q, -, hq⟩ := ofStr_of_fits_decimal (F := F) h
  rw [sample, hq, Option.getD_some]

theorem floats_eq {k : Str} {v : List Str} (h : Decimals k v) :
    floats v = some (v.map (sample F)) :=
  mapM_eq_some_map v _ _ fun t ht => ofStr_eq_sample (h t ht)

/-! ### The clean-up -/

/-- The samples that do not exceed the threshold. -/
def soundFloats (xs : List F) : List F := xs.filter fun x => !PyFloat.lt faulty x

/-- The samples that are averaged. -/
def averagedFloats (xs : List F) : List F :=
  if (xs.filter fun x => PyFloat.lt faulty x).isEmpty then xs.filter fun x => PyFloat.lt x faulty
  else xs

/-- The texts the clean-up keeps. -/
def kept (F : Type) [PyFloat F] (v : List Str) : List Str :=
  if (v.filter fun t => PyFloat.lt faulty (sample F t)).isEmpty then
    v.filter fun t => PyFloat.lt (sample F t) faulty
  else v

theorem cleanSamples_eq {k : Str} {v : List Str} (h : Decimals k v) :
    cleanSamples (F := F) v = some (kept F v) := by
  have hmap : v.mapM (fun x => (PyFloat.ofStr x : Option F).map fun y => (x, y)) =
      some (v.map fun t => (t, sample F t)) := by
    refine mapM_eq_some_map v _ _ fun t ht => ?_
    rw [ofStr_eq_sample (h t ht), Option.map_some]
  have hfilter : ∀ p : F → Bool, (v.map fun t => (t, sample F t)).filter (fun e => p e.2) =
      (v.filter fun t => p (sample F t)).map fun t => (t, sample F t) := by
    intro p
    rw [List.filter_map]
    rfl
  have hfst : ∀ l : List Str, (l.map fun t => (t, sample F t)).map Prod.fst = l := by
    intro l
    rw [List.map_map]
    exact List.map_id l
  rw [cleanSamples, hmap, Option.bind_eq_bind, Option.bind_some,
    hfilter fun x => PyFloat.lt faulty x, hfilter fun x => PyFloat.lt x faulty, hfst,
    List.isEmpty_map, kept]
  split <;> rfl

theorem decimals_kept {k : Str} {v : List Str} (h : Decimals k v) : Decimals k (kept F v) := by
  intro t ht
  rw [kept] at ht
  split at ht
  · exact h t (List.mem_of_mem_filter ht)
  · exact h t ht

theorem map_sample_kept (v : List Str) :
    (kept F v).map (sample F) = averagedFloats (v.map (sample F)) := by
  have hfilter : ∀ p : F → Bool, (v.map (sample F)).filter p =
      (v.filter fun t => p (sample F t)).map (sample F) := by
    intro p
    rw [List.filter_map]
    rfl
  rw [kept, averagedFloats, hfilter, hfilter, List.isEmpty_map]
  split <;> rfl

/-- Where every sample is below the threshold, all of them are averaged, as they should be. -/
theorem averagedFloats_of_lt {xs : List F} (h : ∀ x ∈ xs, PyFloat.lt x faulty = true) :
    averagedFloats xs = soundFloats xs := by
  have hnot : ∀ x ∈ xs, PyFloat.lt faulty x = false := fun x hx => PyFloat.lt_asymm _ _ (h x hx)
  have hnil : xs.filter (fun x => PyFloat.lt faulty x) = [] := by
    refine List.filter_eq_nil_iff.mpr fun x hx => ?_
    rw [hnot x hx]
    exact Bool.false_ne_true
  have hsound : soundFloats xs = xs := by
    refine List.filter_eq_self.mpr fun x hx => ?_
    rw [hnot x hx]
    rfl
  rw [averagedFloats, hnil, hsound, List.isEmpty_nil, if_pos rfl]
  exact List.filter_eq_self.mpr h

/-- A mean as it is returned: in GB/s, with two digits behind the point. -/
def printed (x : F) : Value F := .str (PyFloat.fmt2 (PyFloat.div x (PyFloat.lit 1000)))

end Samples

/-! ### Exact numbers -/

/-- The number a captured text denotes. -/
def rate (t : Str) : ℚ := (sample Exact t).value

theorem sample_eq_rate {t : Str} (h : Pattern.Fits Pattern.decimal t) :
    sample Exact t = .fin (rate t) := by
  obtain ⟨q, -, hq⟩ := ofStr_of_fits_decimal (F := Exact) h
  rw [rate, sample, hq]
  rfl

theorem map_sample_eq {k : Str} {v : List Str} (h : Decimals k v) :
    v.map (sample Exact) = (v.map rate).map Exact.fin := by
  rw [List.map_map]
  exact List.map_congr_left fun t ht => sample_eq_rate (h t ht)

/-- The samples that do not exceed the threshold. -/
def sound (qs : List ℚ) : List ℚ := qs.filter fun q => decide (q ≤ 100000)

/-- The samples that are averaged. -/
def averaged (qs : List ℚ) : List ℚ :=
  if (qs.filter fun q => decide (100000 < q)).isEmpty then qs.filter fun q => decide (q < 100000)
  else qs

theorem averagedFloats_map_fin (qs : List ℚ) :
    averagedFloats (qs.map Exact.fin) = (averaged qs).map Exact.fin := by
  have habove : (fun x => PyFloat.lt faulty x) ∘ Exact.fin = fun q : ℚ => decide (100000 < q) := rfl
  have hbelow : (fun x => PyFloat.lt x faulty) ∘ Exact.fin = fun q : ℚ => decide (q < 100000) := rfl
  rw [averagedFloats, averaged, List.filter_map, List.filter_map, List.isEmpty_map, habove, hbelow]
  split <;> rfl

section Threshold

variable {qs : List ℚ}

/-- One faulty sample, and all are averaged. -/
theorem averaged_of_lt {y : ℚ} (hy : y ∈ qs) (hylt : 100000 < y) : averaged qs = qs := by
  refine if_neg fun hempty => ?_
  have hmem : y ∈ qs.filter fun q => decide (100000 < q) :=
    List.mem_filter.mpr ⟨hy, decide_eq_true hylt⟩
  rw [List.isEmpty_iff.mp hempty] at hmem
  cases hmem

theorem averaged_of_le (hle : ∀ q ∈ qs, q ≤ 100000) :
    averaged qs = qs.filter fun q => decide (q < 100000) := by
  refine if_pos (List.isEmpty_iff.mpr (List.filter_eq_nil_iff.mpr fun q hq => ?_))
  simpa using hle q hq

theorem sound_of_le (hle : ∀ q ∈ qs, q ≤ 100000) : sound qs = qs :=
  List.filter_eq_self.mpr fun q hq => decide_eq_true (hle q hq)

/-- Faulty samples raise the mean. -/
theorem mean_sound_lt (hne : sound qs ≠ []) {y : ℚ} (hy : y ∈ qs) (hylt : 100000 < y) :
    Stats.mean (sound qs) < Stats.mean qs := by
  obtain ⟨x, hx⟩ := List.exists_mem_of_ne_nil _ hne
  obtain ⟨hx, hxle⟩ := List.mem_filter.mp hx
  refine Stats.mean_filter_lt (fun a _ ha b _ hb => ?_) ⟨x, hx, hxle⟩
    ⟨y, hy, decide_eq_false (not_le.mpr hylt)⟩
  exact (of_decide_eq_true ha).trans_lt (not_le.mp (of_decide_eq_false hb))

/-- Without a sample at the threshold the mean is lower, or there is none. -/
theorem average_filter_lt_ne (hmem : 100000 ∈ qs) :
    PyFloat.average ((qs.filter fun q => decide (q < 100000)).map Exact.fin) ≠
      PyFloat.average (qs.map Exact.fin) := by
  intro heq
  rw [average_map_fin (List.ne_nil_of_mem hmem)] at heq
  by_cases hlow : ∃ z ∈ qs, z < 100000
  · obtain ⟨z, hz, hzlt⟩ := hlow
    have hlt : Stats.mean (qs.filter fun q => decide (q < 100000)) < Stats.mean qs := by
      refine Stats.mean_filter_lt (fun a _ ha b _ hb => ?_) ⟨z, hz, decide_eq_true hzlt⟩
        ⟨100000, hmem, decide_eq_false (lt_irrefl _)⟩
      exact (of_decide_eq_true ha).trans_le (not_lt.mp (of_decide_eq_false hb))
    have hlowne : qs.filter (fun q => decide (q < 100000)) ≠ [] :=
      List.ne_nil_of_mem (List.mem_filter.mpr ⟨hz, decide_eq_true hzlt⟩)
    rw [average_map_fin hlowne, Exact.fin.injEq] at heq
    exact absurd heq hlt.ne
  · have hnil : qs.filter (fun q => decide (q < 100000)) = [] := by
      refine List.filter_eq_nil_iff.mpr fun z hz => ?_
      simpa using fun hzlt => hlow ⟨z, hz, hzlt⟩
    rw [hnil] at heq
    cases heq

/-- The averaged samples have the mean of those that do not exceed the threshold only when
they are these. -/
theorem average_averaged_iff (hne : sound qs ≠ []) :
    PyFloat.average ((averaged qs).map Exact.fin) = PyFloat.average ((sound qs).map Exact.fin) ↔
      ∀ q ∈ qs, q < 100000 := by
  by_cases habove : ∃ q ∈ qs, 100000 < q
  · obtain ⟨y, hy, hylt⟩ := habove
    have hlt := mean_sound_lt hne hy hylt
    rw [averaged_of_lt hy hylt, average_map_fin (List.ne_nil_of_mem hy), average_map_fin hne,
      Exact.fin.injEq]
    constructor
    · intro heq
      exact absurd heq hlt.ne'
    · intro hbelow
      exact absurd (hbelow y hy) (not_lt.mpr hylt.le)
  · have hle : ∀ q ∈ qs, q ≤ 100000 := fun q hq => not_lt.mp fun hlt => habove ⟨q, hq, hlt⟩
    rw [averaged_of_le hle, sound_of_le hle]
    constructor
    · intro heq q hq
      refine lt_of_le_of_ne (hle q hq) ?_
      rintro rfl
      exact average_filter_lt_ne hq heq
    · intro hbelow
      rw [List.filter_eq_self.mpr fun q hq => decide_eq_true (hbelow q hq)]

end Threshold

end Memory

open Memory

/-- The value of every counter. -/
theorem readMemory_spec {F : Type} [PyFloat F] (order : Enumeration Str) {data : Str}
    {res : Samples Str} (hres : memorySamples data = some res) :
    ∃ out, readMemory order data = some out ∧ ∀ k, out.get? k = (res.get? k).map fun v =>
      printed (PyFloat.average (averagedFloats (v.map (sample F)))) := by
  have hdec : res.All Decimals := grows_decimals.memorySamples hres
  have hclean : cleanMemory F order res =
      some ((res.items order).foldl (fun acc e => acc.set e.1 (kept F e.2)) res) := by
    refine foldlM_eq_foldl (fun e he acc => ?_) res
    rw [cleanSamples_eq (hdec e.1 e.2 (Dict.mem_items.mp he))]
    rfl
  have hget := Dict.get?_foldl_set_items (fun _ v => kept F v) order res res
  generalize (res.items order).foldl (fun acc e => acc.set e.1 (kept F e.2)) res = cleaned at *
  have hkept : ∀ k v, cleaned.get? k = some v → Decimals k v := by
    intro k v hv
    rw [hget] at hv
    cases hk : res.get? k with
    | none =>
        rw [hk] at hv
        cases hv
    | some w =>
        rw [hk] at hv
        cases hv
        exact decimals_kept (hdec k w hk)
  refine ⟨(cleaned.items order).foldl (fun out e => out.set e.1
    (printed (PyFloat.average (e.2.map (sample F))))) .empty, ?_, ?_⟩
  · rw [readMemory, hres, Option.bind_eq_bind, Option.bind_some, hclean, Option.bind_eq_bind,
      Option.bind_some]
    refine foldlM_eq_foldl (fun e he out => ?_) _
    rw [floats_eq (hkept e.1 e.2 (Dict.mem_items.mp he))]
    rfl
  · intro k
    rw [Dict.get?_foldl_set_items fun _ (v : List Str) =>
      printed (PyFloat.average (v.map (sample F))), hget]
    cases res.get? k with
    | none => rfl
    | some v =>
        show some (printed (PyFloat.average ((kept F v).map (sample F)))) = _
        rw [map_sample_kept]
        rfl

/--
**The value of a counter is the mean of the samples that do not exceed the threshold only if
all of them are below it.**

Which samples are averaged is said for every floating-point type; that another list has
another mean needs exact numbers.
-/
theorem readMemory_mean_iff {F : Type} [PyFloat F] (order : Enumeration Str) {data : Str}
    {res : Samples Str} (hres : memorySamples data = some res) :
    (∃ out : Result F, readMemory order data = some out ∧
      ∀ k v, res.get? k = some v → ∃ xs : List F, floats v = some xs ∧
        out.get? k = some (printed (PyFloat.average (averagedFloats xs))) ∧
        ((∀ x ∈ xs, PyFloat.lt x faulty = true) → averagedFloats xs = soundFloats xs)) ∧
    ∃ out : Result Exact, readMemory order data = some out ∧
      ∀ k v, res.get? k = some v → ∃ qs : List ℚ, floats v = some (qs.map Exact.fin) ∧
        (sound qs ≠ [] →
          out.get? k = some (printed (PyFloat.average ((averaged qs).map Exact.fin))) ∧
          (PyFloat.average ((averaged qs).map Exact.fin) =
            PyFloat.average ((sound qs).map Exact.fin) ↔ ∀ q ∈ qs, q < 100000)) := by
  have hdec : res.All Decimals := grows_decimals.memorySamples hres
  constructor
  · obtain ⟨out, hout, hget⟩ := readMemory_spec (F := F) order hres
    refine ⟨out, hout, fun k v hk => ⟨v.map (sample F), floats_eq (hdec k v hk), ?_,
      averagedFloats_of_lt⟩⟩
    rw [hget, hk, Option.map_some]
  · obtain ⟨out, hout, hget⟩ := readMemory_spec (F := Exact) order hres
    refine ⟨out, hout, fun k v hk => ⟨v.map Memory.rate, ?_, fun hne => ⟨?_,
      average_averaged_iff hne⟩⟩⟩
    · rw [floats_eq (hdec k v hk), map_sample_eq (hdec k v hk)]
    · rw [hget, hk, Option.map_some, map_sample_eq (hdec k v hk), averagedFloats_map_fin]

def systemReadLog : Str :=
  "System Read Throughput(MB/s): 100.00\nSystem Read Throughput(MB/s): 300.50".toList

theorem readMemory_mean_twoSamples :
    ∃ out : Result Exact, readMemory (.insertion Str) systemReadLog = some out ∧
      out.get? "sys_Read".toList =
        some (printed (PyFloat.average ((sound [100, 601 / 2]).map Exact.fin))) := by
  have hsamples : (memorySamples systemReadLog).map (·.get? "sys_Read".toList) =
      some (some ["100.00".toList, "300.50".toList]) := by
    decide
  obtain ⟨res, hres, hget⟩ := Option.map_eq_some_iff.mp hsamples
  obtain ⟨out, hout, hall⟩ := (readMemory_mean_iff (F := Exact) (.insertion Str) hres).2
  obtain ⟨qs, hqs, hmean⟩ := hall _ _ hget
  have hfin : qs.map Exact.fin = [.fin 100, .fin (601 / 2)] := by
    have hfloats : floats (F := Exact) ["100.00".toList, "300.50".toList] =
        some [.fin 100, .fin (601 / 2)] := by
      decide +kernel
    exact Option.some_inj.mp (hqs.symm.trans hfloats)
  have hq : qs = [100, 601 / 2] := List.map_injective_iff.mpr (fun _ _ => Exact.fin.inj) hfin
  subst hq
  obtain ⟨hvalue, hiff⟩ := hmean (by decide)
  exact ⟨out, hout, by rw [hvalue, hiff.mpr (by decide +kernel)]⟩

def glitchLog : Str :=
  "System Read Throughput(MB/s): 100.00\nSystem Read Throughput(MB/s): 200000.00".toList

/-- One faulty sample is averaged with the others. -/
theorem readMemory_faulty_averaged :
    (∃ res, memorySamples glitchLog = some res ∧
      res.get? "sys_Read".toList = some ["100.00".toList, "200000.00".toList]) ∧
    (∃ out : Result Exact, readMemory (.insertion Str) glitchLog = some out ∧
      out.get? "sys_Read".toList = some (.str "100.05".toList)) ∧
    printed (PyFloat.average ((sound [100, 200000]).map Exact.fin)) = .str "0.10".toList := by
  have hsamples : (memorySamples glitchLog).map (·.get? "sys_Read".toList) =
      some (some ["100.00".toList, "200000.00".toList]) := by
    decide
  have hread : (readMemory (F := Exact) (.insertion Str) glitchLog).map
      (·.get? "sys_Read".toList) = some (some (.str "100.05".toList)) := by
    decide +kernel
  exact ⟨Option.map_eq_some_iff.mp hsamples, Option.map_eq_some_iff.mp hread, by decide +kernel⟩

end Nicmem
