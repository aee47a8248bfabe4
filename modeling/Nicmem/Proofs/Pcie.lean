/-
What `read_pcie` returns for a log of tables.

The samples of a log are those its rows add, so the list of a key holds the counts of
exactly the rows of this key, in their order, with the units expanded.  What is returned is
the mean of the counts as the floats compute it, without its fraction.  Where the counts of
a key add up to less than `2 ^ 53` nothing is lost to rounding, and that is the division of
whole numbers.  The sums that are added under further keys leave the six keys alone.
-/
import Nicmem.Proofs.Collected
import Nicmem.Proofs.PcieLayout
import Nicmem.Python.Double

namespace Nicmem

open Python

namespace Pcie

/-- The two counts that are read. -/
inductive Direction where
  | rdb
  | wrb
  deriving DecidableEq, Repr

def Direction.suffix : Direction → Str
  | .rdb => "_rdb".toList
  | .wrb => "_wrb".toList

/-- `'sys_pcie_0_miss_rdb'` and its like. -/
def key (k : Reported) (d : Direction) : Str := k.stem ++ d.suffix

theorem key_eq_iff {k k' : Reported} {d d' : Direction} :
    key k d = key k' d' ↔ k = k' ∧ d = d' := by
  cases k <;> cases k' <;> cases d <;> cases d' <;> decide

def Row.cell (r : Row) : Direction → Cell
  | .rdb => r.rdb
  | .wrb => r.wrb

/-- The count a line shows for a key. -/
def Line.count (k : Reported) (d : Direction) : Line → Option Nat
  | .row r => if r.source.reported = some k then some (r.cell d).value else none
  | .other _ _ _ => none

/-- The counts of all rows of a key. -/
def counts (lines : List Line) (k : Reported) (d : Direction) : List Nat :=
  lines.filterMap (Line.count k d)

/-! ### The loop over the lines -/

/-- What a line adds to the samples. -/
def entries (l : Str) : Option (List (Str × Str)) :=
  match firstMatch rows l with
  | none => some []
  | some (stem, r, _) => do
    let rdb ← r[0]?
    let wrb ← r[1]?
    some [(stem ++ "_rdb".toList, rdb), (stem ++ "_wrb".toList, wrb)]

theorem line_eq (d : Samples Str) (l : Str) : line d l = (entries l).map (appendAll d) := by
  unfold line entries
  cases firstMatch rows l with
  | none => rfl
  | some m =>
      obtain ⟨stem, r, rest⟩ := m
      show (r[0]?.bind fun x => r[1]?.bind fun y => some _) = Option.map _ (r[0]?.bind _)
      cases r[0]? with
      | none => rfl
      | some x =>
          cases r[1]? with
          | none => rfl
          | some y => rfl

/-- The samples of a row. -/
def Row.entries (r : Row) : List (Str × Str) :=
  match r.source.reported with
  | none => []
  | some k => [(key k .rdb, r.rdb.digits), (key k .wrb, r.wrb.digits)]

def Line.entries : Line → List (Str × Str)
  | .row r => r.entries
  | .other _ _ _ => []

theorem Line.key_of_mem_entries (l : Line) {e : Str × Str} (he : e ∈ l.entries) :
    ∃ k d, e.1 = key k d := by
  cases l with
  | other s newline noLabel => cases he
  | row r =>
      have hmem : e ∈ r.entries := he
      rw [Row.entries] at hmem
      split at hmem
      · cases hmem
      · rename_i k _
        rcases List.mem_cons.mp hmem with rfl | hmem
        · exact ⟨k, .rdb, rfl⟩
        · rw [List.mem_singleton.mp hmem]
          exact ⟨k, .wrb, rfl⟩

theorem entries_row {r : Row} (h : r.Plain) : Pcie.entries r.text = some r.entries := by
  cases hk : r.source.reported with
  | none =>
      rw [Pcie.entries, r.firstMatch_not_reported h hk, Row.entries, hk]
  | some k =>
      obtain ⟨rest, hfirst⟩ := r.firstMatch_reported h hk
      rw [Pcie.entries, hfirst, Row.entries, hk]
      rfl

theorem entries_of_no_label {s : Str} (h : ∀ w ∈ labels, ¬ w <:+: s) :
    Pcie.entries s = some [] := by
  rw [Pcie.entries, firstMatch_rows_eq_none (findall_of_no_label h)]

theorem Line.entries_expandAll (l : Line) :
    Pcie.entries l.expandAll.text = some l.expandAll.entries := by
  cases l with
  | row r => exact entries_row r.plain_expandAll
  | other s newline noLabel =>
      exact entries_of_no_label fun w hw hin => noLabel w hw
        (label_of_replace _ hw (label_of_replace _ hw (label_of_replace _ hw hin)))

theorem Line.newline_expandAll (l : Line) : '\n' ∉ l.expandAll.text := by
  cases l with
  | row r =>
      have hlabel : ∀ w ∈ "(Total)".toList :: labels, '\n' ∉ w := by decide
      exact r.expandAll.not_mem_text r.plain_expandAll (by decide) (fun _ => rfl) (by decide)
        (hlabel _ r.expandAll.source.label_mem)
  | other s newline noLabel =>
      exact newline_not_mem_replace _
        (newline_not_mem_replace _ (newline_not_mem_replace _ newline))

/-- The samples of a log. -/
def samples (lines : List Line) : Samples Str :=
  appendAll .empty (lines.flatMap fun l => l.expandAll.entries)

theorem samples_logText (lines : List Line) :
    ((expandUnits (logText lines)).splitOn '\n').foldlM line .empty = some (samples lines) := by
  have hloop := foldlM_intercalate line_eq Line.newline_expandAll Line.entries_expandAll
    (entries_of_no_label (by decide)) lines .empty
  rw [mapM_eq_some_map lines _ _ fun _ _ => rfl, Option.map_some] at hloop
  rw [expandUnits_logText, logText, List.map_map]
  exact hloop

/-- Each sample is a whole number. -/
theorem digits_of_mem_entries {lines : List Line} {e : Str × Str}
    (he : e ∈ lines.flatMap fun l => l.expandAll.entries) :
    e.2 ≠ [] ∧ ∀ c ∈ e.2, c.isDigit = true := by
  obtain ⟨l, -, he⟩ := List.mem_flatMap.mp he
  have hcell : ∃ x : Cell, e.2 = x.digits := by
    cases l with
    | other s newline noLabel => cases he
    | row r =>
        have hmem : e ∈ r.expandAll.entries := he
        rw [Row.entries] at hmem
        split at hmem
        · cases hmem
        · rcases List.mem_cons.mp hmem with rfl | hmem
          · exact ⟨_, rfl⟩
          · rw [List.mem_singleton.mp hmem]
            exact ⟨_, rfl⟩
  obtain ⟨x, hx⟩ := hcell
  rw [hx]
  exact ⟨x.digits_ne, x.isDigit⟩

theorem digits_of_get? (lines : List Line) (k : Str) (v : List Str)
    (hv : (samples lines).get? k = some v) : ∀ t ∈ v, t ≠ [] ∧ ∀ c ∈ t, c.isDigit = true := by
  rw [samples, get?_appendAll] at hv
  split at hv
  · cases hv
  · cases hv
    exact fun t ht => digits_of_mem_entries (mem_samplesAt.mp ht)

/-- The samples of a key are the counts of its rows. -/
theorem samplesAt_key (lines : List Line) (k : Reported) (d : Direction) :
    (samplesAt (key k d) (lines.flatMap fun l => l.expandAll.entries)).map natVal =
      counts lines k d := by
  have hline : ∀ l : Line, (samplesAt (key k d) l.expandAll.entries).map natVal =
      (l.count k d).toList := by
    intro l
    cases l with
    | other s newline noLabel => rfl
    | row r =>
        show (samplesAt (key k d) r.expandAll.entries).map natVal = _
        have hsource : r.expandAll.source = r.source := rfl
        rw [Row.entries, hsource, Line.count]
        cases hk : r.source.reported with
        | none => rfl
        | some k' =>
            by_cases hkk : k' = k
            · subst hkk
              have hrdb : natVal r.expandAll.rdb.digits = r.rdb.value := r.rdb.natVal_expandAll
              have hwrb : natVal r.expandAll.wrb.digits = r.wrb.value := r.wrb.natVal_expandAll
              cases d <;> simp [samplesAt, key_eq_iff, hrdb, hwrb, Row.cell]
            · simp [samplesAt, key_eq_iff, hkk]
  induction lines with
  | nil => rfl
  | cons l lines ih =>
      rw [List.flatMap_cons, samplesAt_append, List.map_append, hline, ih, counts, counts,
        List.filterMap_cons]
      cases l.count k d with
      | none => rfl
      | some n => rfl

/-! ### The values that are returned -/

section Values

variable {F : Type} [PyFloat F]

/-- `'%d' % np.average(map(float, v))` of whole numbers; `none` is the error for an infinite
mean. -/
def printedMean (F : Type) [PyFloat F] (ns : List Nat) : Option Int :=
  PyFloat.trunc (PyFloat.average (ns.map fun n : Nat => (PyFloat.lit n : F)))

/-- What is returned for a list of samples. -/
def meanText (F : Type) [PyFloat F] (v : List Str) : Option (Value F) :=
  (printedMean F (v.map natVal)).map fun n => .str (intStr n)

theorem trunc_average_floats {v : List Str} (hv : ∀ t ∈ v, t ≠ [] ∧ ∀ c ∈ t, c.isDigit = true) :
    ((floats v : Option (List F)).bind fun xs => PyFloat.trunc (PyFloat.average xs)) =
      printedMean F (v.map natVal) := by
  have hfloats : floats v = some ((v.map natVal).map fun n : Nat => (PyFloat.lit n : F)) := by
    rw [List.map_map]
    exact mapM_eq_some_map v _ _ fun t ht => PyFloat.ofStr_digits (hv t ht).1 (hv t ht).2
  rw [hfloats, Option.bind_some, printedMean]

/-- The loop over the samples. -/
def averages (F : Type) [PyFloat F] (order : Enumeration Str) (res : Samples Str) :
    Option (Result F) :=
  (res.items order).foldlM (fun out e => do
    let avg ← PyFloat.trunc (PyFloat.average (← floats e.2 : List F))
    some (out.set e.1 (.str (intStr avg)))) .empty

/-- One step of it. -/
theorem averages_step {v : List Str} (hv : ∀ t ∈ v, t ≠ [] ∧ ∀ c ∈ t, c.isDigit = true)
    (k : Str) (out : Result F) :
    ((floats v : Option (List F)).bind fun xs => (PyFloat.trunc (PyFloat.average xs)).bind
      fun avg => some (out.set k (.str (intStr avg)))) = (meanText F v).map (out.set k) := by
  rw [meanText, ← trunc_average_floats hv]
  cases (floats v : Option (List F)) with
  | none => rfl
  | some xs =>
      rw [Option.bind_some, Option.bind_some]
      cases PyFloat.trunc (PyFloat.average xs) with
      | none => rfl
      | some n => rfl

/-- The loop returns if every mean can be printed. -/
theorem averages_eq (order : Enumeration Str) {res : Samples Str}
    (h : ∀ k v, res.get? k = some v → ∀ t ∈ v, t ≠ [] ∧ ∀ c ∈ t, c.isDigit = true)
    {text : List Str → Value F}
    (htext : ∀ k v, res.get? k = some v → meanText F v = some (text v)) :
    ∃ out, averages F order res = some out ∧ ∀ k, out.get? k = (res.get? k).map text := by
  refine ⟨(res.items order).foldl (fun out e => out.set e.1 (text e.2)) .empty, ?_, fun k => ?_⟩
  · refine foldlM_eq_foldl (fun e he out => ?_) _
    have hget := Dict.mem_items.mp he
    refine (averages_step (h e.1 e.2 hget) e.1 out).trans ?_
    rw [htext e.1 e.2 hget, Option.map_some]
  · rw [Dict.get?_foldl_set_items fun _ v => text v, Dict.get?_empty, Option.or_none]

/-- And only then. -/
theorem meanText_of_averages {order : Enumeration Str} {res : Samples Str}
    (h : ∀ k v, res.get? k = some v → ∀ t ∈ v, t ≠ [] ∧ ∀ c ∈ t, c.isDigit = true)
    {out : Result F} (hout : averages F order res = some out) (k : Str) :
    out.get? k = (res.get? k).bind (meanText F) := by
  have hsome : ∀ k v, res.get? k = some v → meanText F v = some ((meanText F v).getD (.int 0)) := by
    intro k v hv
    cases htext : meanText F v with
    | some t => rfl
    | none =>
        have hraise : averages F order res = none := by
          refine foldlM_eq_none ⟨(k, v), Dict.mem_items.mpr hv, fun out => ?_⟩ _
          refine (averages_step (h k v hv) k out).trans ?_
          rw [htext, Option.map_none]
        rw [hraise] at hout
        cases hout
  obtain ⟨out', hout', hget⟩ := averages_eq order h hsome
  rw [hout, Option.some.injEq] at hout'
  rw [hout', hget]
  cases hk : res.get? k with
  | none => rfl
  | some v => rw [Option.map_some, Option.bind_some, ← hsome k v hk]

theorem readPcie_eq (order : Enumeration Str) (data : Str) :
    readPcie order data = (((expandUnits data).splitOn '\n').foldlM line .empty).bind fun res =>
      (averages F order res).bind fun out => (addMem F out Reported.hit.stem).bind fun out =>
        addMem F out Reported.miss.stem := rfl

/-- The sum that is added leaves every other key alone. -/
theorem get?_addMem {out out' : Result F} {stem : Str} (h : addMem F out stem = some out') {k : Str}
    (hk : k ≠ stem ++ "_mem".toList) : out'.get? k = out.get? k := by
  unfold addMem at h
  split at h
  · simp only [Option.bind_eq_bind, Option.bind_eq_some_iff, Option.some.injEq] at h
    obtain ⟨wrb, -, rdb, -, mem, -, rfl⟩ := h
    exact Dict.get?_set_ne _ _ hk
  · rw [Option.some.inj h]

theorem key_ne_mem (k k' : Reported) (d : Direction) : key k d ≠ k'.stem ++ "_mem".toList := by
  cases k <;> cases k' <;> cases d <;> decide

theorem readPcie_logText (order : Enumeration Str) (lines : List Line) :
    readPcie order (logText lines) = (averages F order (samples lines)).bind fun out =>
      (addMem F out Reported.hit.stem).bind fun out => addMem F out Reported.miss.stem := by
  rw [readPcie_eq, samples_logText, Option.bind_some]

/-- Whether a key is there, and its samples. -/
theorem get?_samples (lines : List Line) (k : Reported) (d : Direction) :
    ((samples lines).get? (key k d)).map (List.map natVal) =
      if counts lines k d = [] then none else some (counts lines k d) := by
  rw [samples, get?_appendAll, ← samplesAt_key lines k d]
  by_cases hnil : samplesAt (key k d) (lines.flatMap fun l => l.expandAll.entries) = []
  · rw [if_pos hnil, if_pos (List.map_eq_nil_iff.mpr hnil)]
    rfl
  · rw [if_neg hnil, if_neg fun h => hnil (List.map_eq_nil_iff.mp h)]
    rfl

/-- What is returned for a key, if anything is returned at all. -/
theorem get?_readPcie {order : Enumeration Str} {lines : List Line} {out : Result F}
    (h : readPcie order (logText lines) = some out) (k : Reported) (d : Direction) :
    out.get? (key k d) = if counts lines k d = [] then none
      else (printedMean F (counts lines k d)).map fun n => .str (intStr n) := by
  rw [readPcie_logText] at h
  obtain ⟨means, hmeans, h⟩ := Option.bind_eq_some_iff.mp h
  obtain ⟨out₁, hout₁, hout⟩ := Option.bind_eq_some_iff.mp h
  rw [get?_addMem hout (key_ne_mem k .miss d), get?_addMem hout₁ (key_ne_mem k .hit d),
    meanText_of_averages (digits_of_get? lines) hmeans]
  have hget := get?_samples lines k d
  cases hk : (samples lines).get? (key k d) with
  | none =>
      rw [hk, Option.map_none] at hget
      split at hget
      · rename_i hnil
        rw [if_pos hnil, Option.bind_none]
      · cases hget
  | some v =>
      rw [hk, Option.map_some] at hget
      split at hget
      · cases hget
      · rename_i hne
        rw [if_neg hne, Option.bind_some, meanText, Option.some.inj hget]

end Values

/-! ### Few packets -/

section Few

variable {F : Type} [IeeeFloat F]

/-- Counts that add up to less than `2 ^ 53`. -/
def Few (ns : List Nat) : Prop := ns.sum < 2 ^ 53 ∧ ns.length ≤ 2 ^ 53

theorem printedMean_of_few {ns : List Nat} (hne : ns ≠ []) (h : Few ns) :
    printedMean F ns = some ((ns.sum / ns.length : Nat) : Int) := by
  refine IeeeFloat.trunc_average_nat ?_ hne h.1 h.2
  rw [List.forall₂_map_left_iff, List.forall₂_same]
  intro n hn
  exact IeeeFloat.exact_lit_nat ((List.single_le_sum (by simp) n hn).trans h.1.le)

/-- A printed whole number below `2 ^ 53`. -/
def IsSmall (v : Value F) : Prop := ∃ n : Nat, n ≤ 2 ^ 53 ∧ v = .str (natStr n)

/-- Two such numbers are added. -/
theorem addMem_of_isSmall {out : Result F} (stem : Str)
    (hrdb : ∀ v, out.get? (stem ++ "_rdb".toList) = some v → IsSmall v)
    (hwrb : ∀ v, out.get? (stem ++ "_wrb".toList) = some v → IsSmall v) :
    ∃ out', addMem F out stem = some out' := by
  unfold addMem
  split
  · rename_i rdb wrb hr hw
    obtain ⟨n, hn, rfl⟩ := hrdb _ hr
    obtain ⟨m, hm, rfl⟩ := hwrb _ hw
    have hfloat : ∀ n : Nat, (Value.str (natStr n) : Value F).toFloat = some (PyFloat.lit n) :=
      fun n => PyFloat.ofStr_intStr n
    obtain ⟨r, hr, -⟩ : ∃ r, IeeeFloat.exact (PyFloat.add (PyFloat.lit m) (PyFloat.lit n : F)) =
        .fin r ∧ Binary64.Nearest ((m : ℚ) + n) r := by
      have hadd := IeeeFloat.add_rounded (PyFloat.lit m : F) (PyFloat.lit n)
      rw [IeeeFloat.exact_lit_nat hm, IeeeFloat.exact_lit_nat hn, Exact.add] at hadd
      refine hadd.fin ?_
      have hm' : (m : ℚ) ≤ 2 ^ 53 := by exact_mod_cast hm
      have hn' : (n : ℚ) ≤ 2 ^ 53 := by exact_mod_cast hn
      rw [abs_of_nonneg (by positivity)]
      have hlim := Binary64.two_pow_lt_limit (k := 54) (by norm_num)
      linarith
    rw [hfloat, hfloat]
    simp only [Option.bind_eq_bind, Option.bind_some, IeeeFloat.trunc_eq, hr, Exact.trunc]
    exact ⟨_, rfl⟩
  · exact ⟨out, rfl⟩

/-- The keys of the samples are the six keys. -/
theorem key_of_get?_samples {lines : List Line} {k : Str} {v : List Str}
    (hv : (samples lines).get? k = some v) :
    ∃ r d, k = key r d ∧ v.map natVal = counts lines r d ∧ counts lines r d ≠ [] := by
  have hkey : ∃ r d, k = key r d := by
    rw [samples, get?_appendAll] at hv
    split at hv
    · cases hv
    · rename_i hne
      obtain ⟨t, ht⟩ := List.exists_mem_of_ne_nil _ hne
      obtain ⟨l, -, he⟩ := List.mem_flatMap.mp (mem_samplesAt.mp ht)
      exact l.expandAll.key_of_mem_entries he
  obtain ⟨r, d, rfl⟩ := hkey
  have hget := get?_samples lines r d
  rw [hv, Option.map_some] at hget
  split at hget
  · cases hget
  · rename_i hne
    exact ⟨r, d, rfl, Option.some.inj hget, hne⟩

/-- Where the counts of every key are few, the dictionary is returned. -/
theorem exists_readPcie (order : Enumeration Str) {lines : List Line}
    (h : ∀ k d, Few (counts lines k d)) :
    ∃ out : Result F, readPcie order (logText lines) = some out := by
  have hmean : ∀ k v, (samples lines).get? k = some v → meanText F v =
      some (.str (natStr ((v.map natVal).sum / (v.map natVal).length))) := by
    intro k v hv
    obtain ⟨r, d, -, hcounts, hne⟩ := key_of_get?_samples hv
    rw [meanText, hcounts, printedMean_of_few hne (h r d), Option.map_some]
    rfl
  obtain ⟨means, hmeans, hget⟩ := averages_eq order (digits_of_get? lines) hmean
  have hsmall : ∀ k v, means.get? k = some v → IsSmall v := by
    intro k v hv
    rw [hget] at hv
    obtain ⟨w, hw, rfl⟩ := Option.map_eq_some_iff.mp hv
    obtain ⟨r, d, -, hcounts, -⟩ := key_of_get?_samples hw
    rw [hcounts]
    exact ⟨_, (Nat.div_le_self _ _).trans (h r d).1.le, rfl⟩
  obtain ⟨out₁, hout₁⟩ := addMem_of_isSmall Reported.hit.stem (hsmall _) (hsmall _)
  have hmiss : ∀ d v, out₁.get? (key .miss d) = some v → IsSmall v := by
    intro d v hv
    rw [get?_addMem hout₁ (key_ne_mem .miss .hit d)] at hv
    exact hsmall _ v hv
  obtain ⟨out₂, hout₂⟩ := addMem_of_isSmall Reported.miss.stem (hmiss .rdb) (hmiss .wrb)
  refine ⟨out₂, ?_⟩
  rw [readPcie_logText, hmeans, Option.bind_some, hout₁, Option.bind_some, hout₂]

end Few

end Pcie

open Pcie

/--
**`read_pcie` returns the truncated means of the counts of exactly the rows it should read.**

A key is there if the log has a row of it.  The mean is that of the floats of the counts; it
is the mean of the counts themselves where those of every key add up to less than `2 ^ 53`.
-/
theorem readPcie_table {F : Type} [IeeeFloat F] (order : Enumeration Str) (lines : List Line) :
    (∀ out : Result F, readPcie order (logText lines) = some out → ∀ k d, out.get? (key k d) =
      if counts lines k d = [] then none
      else (printedMean F (counts lines k d)).map fun n => .str (intStr n)) ∧
    ((∀ k d, Few (counts lines k d)) →
      ∃ out : Result F, readPcie order (logText lines) = some out ∧ ∀ k d, out.get? (key k d) =
        if counts lines k d = [] then none
        else some (.str (natStr ((counts lines k d).sum / (counts lines k d).length)))) := by
  refine ⟨fun out hout k d => get?_readPcie hout k d, fun hfew => ?_⟩
  obtain ⟨out, hout⟩ := exists_readPcie (F := F) order hfew
  refine ⟨out, hout, fun k d => ?_⟩
  rw [get?_readPcie hout]
  by_cases hnil : counts lines k d = []
  · rw [if_pos hnil, if_pos hnil]
  · rw [if_neg hnil, if_neg hnil, printedMean_of_few hnil (hfew k d), Option.map_some]
    rfl

/-- The sample row with another count. -/
def countRow (n : Nat) : Line := .row { sampleRow with rdb := cell n none 7 }

/-- Five and eight have the mean six, and no row is a hit. -/
theorem readPcie_table_twoRows :
    ∃ out : Result Double,
      readPcie (.insertion Str) (logText [countRow 5, countRow 8]) = some out ∧
      out.get? (key .miss .rdb) = some (.str "6".toList) ∧ out.get? (key .hit .rdb) = none := by
  have hfew : ∀ k d, Few (counts [countRow 5, countRow 8] k d) := by
    intro k d
    unfold Few
    cases k <;> cases d <;> decide
  obtain ⟨out, hout, hget⟩ := (readPcie_table (F := Double) (.insertion Str) _).2 hfew
  exact ⟨out, hout, (hget .miss .rdb).trans (by decide), (hget .hit .rdb).trans (by decide)⟩

/--
A count above `2 ^ 53` is rounded when it is read, and of one that is too large for a float
the mean cannot be printed as a whole number.
-/
theorem readPcie_rounds :
    counts [countRow 9007199254740993] .miss .rdb = [9007199254740993] ∧
    ((readPcie (.insertion Str) (logText [countRow 9007199254740993]) :
      Option (Result Double)).bind fun out => out.get? (key .miss .rdb)) =
        some (.str "9007199254740992".toList) ∧
    (readPcie (.insertion Str) (logText [countRow (10 ^ 309)]) : Option (Result Double)) =
      none := by
  decide +kernel

end Nicmem
