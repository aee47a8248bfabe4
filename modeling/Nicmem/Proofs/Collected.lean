/-
Loops that collect samples.

Most readers run over the lines of a log and append what a line shows to the list of some
key.  Such a loop is described by the entries one line adds: it returns when every line
can be read, and what it returns holds, under each key, the samples of that key in the
order of the lines.

So lines in another order give the same keys with the same samples in another order, and
lines that cannot be read make the loop fail in every order.
-/
import Mathlib.Data.List.Perm.Basic
import Mathlib.Data.Option.Defs
import Nicmem.PerfUtil.Trex
import Nicmem.Python.Match
import Nicmem.Python.Mean
import Nicmem.Python.Merge

namespace Nicmem

open Python

/-! ### What may fail, in another order -/

section MapM

variable {α β γ : Type} {f : α → Option β}

theorem mapM_eq_some_iff {l : List α} :
    ∀ {ys : List β}, l.mapM f = some ys ↔ List.Forall₂ (fun x y => f x = some y) l ys := by
  induction l with
  | nil =>
      intro ys
      rw [List.mapM_nil, List.forall₂_nil_left_iff]
      exact Option.some_inj.trans eq_comm
  | cons x l ih =>
      intro ys
      rw [List.mapM_cons]
      constructor
      · intro h
        simp only [Option.bind_eq_bind, Option.bind_eq_some_iff, Option.pure_def,
          Option.some.injEq] at h
        obtain ⟨y, hy, rest, hrest, rfl⟩ := h
        exact .cons hy (ih.mp hrest)
      · intro h
        cases h with
        | cons hy hrest => simp [hy, ih.mpr hrest]

theorem exists_of_mem_mapM {l : List α} {ys : List β} (h : l.mapM f = some ys) {y : β}
    (hy : y ∈ ys) : ∃ x ∈ l, f x = some y := by
  have hall := mapM_eq_some_iff.mp h
  induction hall with
  | nil => cases hy
  | cons hx _ ih =>
      rcases List.mem_cons.mp hy with rfl | hy
      · exact ⟨_, List.mem_cons_self, hx⟩
      · obtain ⟨x, hmem, hxy⟩ := ih (mapM_eq_some_iff.mpr ‹_›) hy
        exact ⟨x, List.mem_cons_of_mem _ hmem, hxy⟩

theorem exists_eq_some_of_mapM {l : List α} {ys : List β} (h : l.mapM f = some ys) {x : α}
    (hx : x ∈ l) : ∃ y, f x = some y := by
  have hall := mapM_eq_some_iff.mp h
  induction hall with
  | nil => cases hx
  | cons hy _ ih =>
      rcases List.mem_cons.mp hx with rfl | hx
      · exact ⟨_, hy⟩
      · exact ih (mapM_eq_some_iff.mpr ‹_›) hx

/-- A map that may fail gives the same results in another order. -/
theorem mapM_perm {l l' : List α} (h : l'.Perm l) {ys : List β} (hys : l.mapM f = some ys) :
    ∃ ys', l'.mapM f = some ys' ∧ ys'.Perm ys := by
  obtain ⟨ys', hall, hperm⟩ := List.perm_comp_forall₂ h (mapM_eq_some_iff.mp hys)
  exact ⟨ys', mapM_eq_some_iff.mpr hall, hperm⟩

/-- Two outcomes agree if each has its counterpart. -/
theorem rel_of_forall {R : β → γ → Prop} {a : Option β} {b : Option γ}
    (h : ∀ x, a = some x → ∃ y, b = some y ∧ R x y) (h' : ∀ y, b = some y → ∃ x, a = some x) :
    Option.Rel R a b := by
  cases a with
  | none =>
      cases b with
      | none => exact .none
      | some y =>
          obtain ⟨x, hx⟩ := h' y rfl
          cases hx
  | some x =>
      obtain ⟨y, rfl, hxy⟩ := h x rfl
      exact .some hxy

end MapM

/-! ### Captured numbers -/

section Captured

variable {F : Type} [PyFloat F]

/-- `float` of a captured text of digits. -/
theorem ofStr_of_fits_digits {t : Str} (h : Pattern.Fits (Pattern.plus .digit) t) :
    ∃ q : ℚ, 0 ≤ q ∧ (PyFloat.ofStr t : Option F) = some (PyFloat.lit q) := by
  obtain ⟨hne, hdigits⟩ := fits_plus h
  exact ⟨natVal t, Nat.cast_nonneg _, PyFloat.ofStr_digits hne hdigits⟩

/-- `float` of a captured decimal number. -/
theorem ofStr_of_fits_decimal {t : Str} (h : Pattern.Fits Pattern.decimal t) :
    ∃ q : ℚ, 0 ≤ q ∧ (PyFloat.ofStr t : Option F) = some (PyFloat.lit q) := by
  obtain ⟨w, f, rfl, hwne, -, hw, hf⟩ := fits_decimal h
  refine ⟨_, ?_, PyFloat.ofStr_point hwne hw hf⟩
  exact div_nonneg (Nat.cast_nonneg _) (pow_nonneg (by norm_num) _)

end Captured

/-! ### Samples under keys -/

section Samples

variable {α : Type}

/-- Several samples appended, each under its key. -/
def appendAll (d : Samples α) (es : List (Str × α)) : Samples α :=
  es.foldl (fun d e => appendSample d e.1 e.2) d

/-- The samples of one key. -/
def samplesAt (k : Str) (es : List (Str × α)) : List α :=
  (es.filter fun e => decide (e.1 = k)).map Prod.snd

theorem mem_samplesAt {k : Str} {x : α} {es : List (Str × α)} :
    x ∈ samplesAt k es ↔ (k, x) ∈ es := by
  simp [samplesAt]

theorem samplesAt_append (k : Str) (es es' : List (Str × α)) :
    samplesAt k (es ++ es') = samplesAt k es ++ samplesAt k es' := by
  rw [samplesAt, List.filter_append, List.map_append]
  rfl

theorem samplesAt_perm (k : Str) {es es' : List (Str × α)} (h : es.Perm es') :
    (samplesAt k es).Perm (samplesAt k es') := (h.filter _).map _

/-- A key has its old samples and the new ones behind them. -/
theorem get?_appendAll (es : List (Str × α)) (k : Str) :
    ∀ d : Samples α, (appendAll d es).get? k =
      if samplesAt k es = [] then d.get? k else some ((d.get? k).getD [] ++ samplesAt k es) := by
  induction es with
  | nil => intro d; rfl
  | cons e es ih =>
      intro d
      rw [appendAll, List.foldl_cons]
      refine (ih _).trans ?_
      by_cases hk : e.1 = k
      · have hat : samplesAt k (e :: es) = e.2 :: samplesAt k es := by
          simp [samplesAt, hk]
        rw [hat, if_neg (List.cons_ne_nil _ _), hk, appendSample, Dict.get?_set_self]
        split
        · rename_i hnil
          rw [hnil]
        · rw [Option.getD_some, List.append_assoc, List.singleton_append]
      · have hat : samplesAt k (e :: es) = samplesAt k es := by
          simp [samplesAt, hk]
        rw [hat, appendSample, Dict.get?_set_ne _ _ fun h => hk h.symm]

/-- The same keys, and under each the same samples in some order. -/
def SameSamples (d d' : Samples α) : Prop := ∀ k, Option.Rel List.Perm (d.get? k) (d'.get? k)

theorem SameSamples.refl (d : Samples α) : SameSamples d d := by
  intro k
  cases d.get? k with
  | none => exact .none
  | some l => exact .some (.refl l)

theorem SameSamples.symm {d d' : Samples α} (h : SameSamples d d') : SameSamples d' d := by
  intro k
  match d.get? k, d'.get? k, h k with
  | _, _, .none => exact .none
  | _, _, .some hperm => exact .some hperm.symm

theorem SameSamples.get? {d d' : Samples α} (h : SameSamples d d') {k : Str} {l : List α}
    (hk : d.get? k = some l) : ∃ l', d'.get? k = some l' ∧ l.Perm l' := by
  have hrel := h k
  rw [hk] at hrel
  match d'.get? k, hrel with
  | some l', .some hperm => exact ⟨l', rfl, hperm⟩

theorem SameSamples.mem_keys {d d' : Samples α} (h : SameSamples d d') {k : Str} (hk : k ∈ d.keys) :
    k ∈ d'.keys := by
  obtain ⟨l, hl⟩ := Dict.mem_keys_iff.mp hk
  obtain ⟨l', hl', -⟩ := h.get? hl
  exact Dict.mem_keys_of_get? hl'

theorem SameSamples.set {d d' : Samples α} (h : SameSamples d d') (k : Str) {l l' : List α}
    (hl : l.Perm l') : SameSamples (d.set k l) (d'.set k l') := by
  intro k'
  by_cases hk : k' = k
  · rw [hk, Dict.get?_set_self, Dict.get?_set_self]
    exact .some hl
  · rw [Dict.get?_set_ne _ _ hk, Dict.get?_set_ne _ _ hk]
    exact h k'

theorem appendAll_perm (d : Samples α) {es es' : List (Str × α)} (h : es.Perm es') :
    SameSamples (appendAll d es) (appendAll d es') := by
  intro k
  have hat := samplesAt_perm k h
  rw [get?_appendAll, get?_appendAll]
  by_cases hnil : samplesAt k es = []
  · rw [if_pos hnil, if_pos (by rw [← List.perm_nil, ← hnil]; exact hat.symm)]
    exact SameSamples.refl d k
  · rw [if_neg hnil, if_neg fun hnil' => hnil (by rw [← List.perm_nil, ← hnil']; exact hat)]
    exact .some (hat.append_left _)

/-- A loop that appends what each line adds. -/
theorem foldl_appendAll {β : Type} (adds : β → List (Str × α)) (ls : List β) :
    ∀ d, ls.foldl (fun d l => appendAll d (adds l)) d = appendAll d (ls.flatMap adds) := by
  induction ls with
  | nil => intro d; rfl
  | cons l ls ih =>
      intro d
      rw [List.foldl_cons, ih, List.flatMap_cons, appendAll, appendAll, appendAll,
        List.foldl_append]

/-- A loop that appends what each line adds, or fails where a line cannot be read. -/
theorem foldlM_eq_appendAll {β : Type} {line : Samples α → β → Option (Samples α)}
    {entries : β → Option (List (Str × α))} (h : ∀ d l, line d l = (entries l).map (appendAll d))
    (ls : List β) :
    ∀ d, ls.foldlM line d = (ls.mapM entries).map fun ess => appendAll d ess.flatten := by
  induction ls with
  | nil => intro d; rfl
  | cons l ls ih =>
      intro d
      rw [List.foldlM_cons, List.mapM_cons, h]
      cases entries l with
      | none => rfl
      | some es =>
          refine (ih (appendAll d es)).trans ?_
          cases ls.mapM entries with
          | none => rfl
          | some ess =>
              show some (appendAll (appendAll d es) ess.flatten) =
                some (appendAll d (es ++ ess.flatten))
              rw [appendAll, appendAll, appendAll, List.foldl_append]

/-- The loop over a text that is put together from lines. -/
theorem foldlM_intercalate {ι : Type} {line : Samples α → Str → Option (Samples α)}
    {entries : Str → Option (List (Str × α))} (h : ∀ d l, line d l = (entries l).map (appendAll d))
    {text : ι → Str} {adds : ι → Option (List (Str × α))} (hnewline : ∀ i, '\n' ∉ text i)
    (hadds : ∀ i, entries (text i) = adds i) (hempty : entries [] = some []) (ls : List ι)
    (d : Samples α) :
    ((List.intercalate ['\n'] (ls.map text)).splitOn '\n').foldlM line d =
      (ls.mapM adds).map fun ess => appendAll d ess.flatten := by
  rw [foldlM_eq_appendAll h]
  cases ls with
  | nil =>
      show (([[]] : List Str).mapM entries).map _ = _
      rw [List.mapM_cons, hempty]
      rfl
  | cons i ls =>
      have hsplit : (List.intercalate ['\n'] ((i :: ls).map text)).splitOn '\n' =
          (i :: ls).map text := by
        refine List.splitOn_intercalate _ (fun t ht => ?_) (by simp)
        obtain ⟨j, -, rfl⟩ := List.mem_map.mp ht
        exact hnewline j
      have hcomp : entries ∘ text = adds := funext hadds
      rw [hsplit, List.mapM_map, hcomp]

/-- Lines in another order give the same samples in another order. -/
theorem foldlM_perm {line : Samples α → Str → Option (Samples α)}
    {entries : Str → Option (List (Str × α))} (h : ∀ d l, line d l = (entries l).map (appendAll d))
    {ls ls' : List Str} (hperm : ls'.Perm ls) {d res : Samples α}
    (hres : ls.foldlM line d = some res) :
    ∃ res', ls'.foldlM line d = some res' ∧ SameSamples res' res := by
  rw [foldlM_eq_appendAll h, Option.map_eq_some_iff] at hres
  obtain ⟨ess, hess, rfl⟩ := hres
  obtain ⟨ess', hess', hflat⟩ := mapM_perm hperm hess
  refine ⟨appendAll d ess'.flatten, ?_, appendAll_perm d hflat.flatten⟩
  rw [foldlM_eq_appendAll h, hess']
  rfl

end Samples

/-! ### What is reported of them -/

section Averages

variable {F : Type} [PyFloat F]

/-- What is reported under a name that is no deviation: the average, or zero. -/
theorem get?_averagesOut (order : Enumeration Str) {res : Samples F}
    {k : Str} {l : List F} (hk : res.get? k = some l) (hstd : ∀ k' ∈ res.keys, stdName k' ≠ k) :
    (averagesOut order res).get? k =
      some (if l.isEmpty then .int 0 else .flt (PyFloat.average l)) := by
  have hself : ∀ out : Result F, (if l.isEmpty then out.set k (.int 0)
      else (out.set k (.flt (PyFloat.average l))).set (stdName k) (.flt (PyFloat.std l))).get? k =
      some (if l.isEmpty then .int 0 else .flt (PyFloat.average l)) := by
    intro out
    split
    · rw [Dict.get?_set_self]
    · rw [Dict.get?_set_ne _ _ (hstd k (Dict.mem_keys_of_get? hk)).symm, Dict.get?_set_self]
  refine Dict.get?_foldl_items hk hself (fun e he hne out => ?_) _
  have hne' := hstd e.1 (Dict.mem_keys_of_get? (Dict.mem_items.mp he))
  split
  · rw [Dict.get?_set_ne _ _ (Ne.symm hne)]
  · rw [Dict.get?_set_ne _ _ hne'.symm, Dict.get?_set_ne _ _ (Ne.symm hne)]

theorem stdName_ne (k : Str) : stdName k ≠ k := by
  intro h
  have hlen := congrArg List.length h
  simp [stdName] at hlen

theorem stdName_injective : Function.Injective stdName := fun _ _ h => List.append_cancel_right h

/-- What is reported under the name of a deviation. -/
theorem get?_averagesOut_std (order : Enumeration Str) {res : Samples F} {k : Str} {l : List F}
    (hk : res.get? k = some l) (hne : l ≠ []) (hstd : ∀ k' ∈ res.keys, stdName k ≠ k') :
    (averagesOut order res).get? (stdName k) = some (.flt (PyFloat.std l)) := by
  refine Dict.get?_foldl_items hk (fun out => ?_) (fun e he hother out => ?_) _
  · rw [if_neg (by simpa using hne), Dict.get?_set_self]
  · have hkey := hstd e.1 (Dict.mem_keys_of_get? (Dict.mem_items.mp he))
    split
    · rw [Dict.get?_set_ne _ _ hkey]
    · rw [Dict.get?_set_ne _ _ fun h => hother (stdName_injective h).symm,
        Dict.get?_set_ne _ _ hkey]

/-- The keys that are reported. -/
theorem mem_keys_averagesOut {order : Enumeration Str} {res : Samples F} {k : Str} :
    k ∈ (averagesOut order res).keys ↔
      ∃ n l, res.get? n = some l ∧ (k = n ∨ l ≠ [] ∧ k = stdName n) := by
  have hstep : ∀ (out : Result F) (e : Str × List F), k ∈ (if e.2.isEmpty then out.set e.1 (.int 0)
      else (out.set e.1 (.flt (PyFloat.average e.2))).set (stdName e.1)
        (.flt (PyFloat.std e.2))).keys ↔ k ∈ out.keys ∨ (k = e.1 ∨ e.2 ≠ [] ∧ k = stdName e.1) := by
    intro out e
    split
    · rename_i hnil
      rw [Dict.mem_keys_set]
      simp [List.isEmpty_iff.mp hnil, or_comm]
    · rename_i hnil
      rw [Dict.mem_keys_set, Dict.mem_keys_set]
      have hne : e.2 ≠ [] := fun h => hnil (List.isEmpty_iff.mpr h)
      simp only [hne, ne_eq, not_false_eq_true, true_and]
      rw [← or_assoc, or_comm, or_comm (a := k = stdName e.1)]
  rw [averagesOut, Dict.mem_keys_foldl (fun e k => k = e.1 ∨ e.2 ≠ [] ∧ k = stdName e.1) hstep]
  simp only [Dict.keys_empty, List.not_mem_nil, false_or, Prod.exists, Dict.mem_items]

end Averages

/-- No key is another key with `_std`. -/
def NoDeviation {V : Type} (d : Dict Str V) : Prop := ∀ k ∈ d.keys, ∀ k' ∈ d.keys, stdName k ≠ k'

theorem SameSamples.noDeviation {α : Type} {d d' : Samples α} (h : SameSamples d d')
    (hd : NoDeviation d) : NoDeviation d' :=
  fun k hk k' hk' => hd k (h.symm.mem_keys hk) k' (h.symm.mem_keys hk')

private theorem averagesOut_mono (order : Enumeration Str) {res res' : Samples Exact}
    (h : SameSamples res res') (hstd : NoDeviation res) {k : Str} {v : Value Exact}
    (hk : (averagesOut order res).get? k = some v) : (averagesOut order res').get? k = some v := by
  have hstd' : NoDeviation res' := h.noDeviation hstd
  obtain ⟨n, l, hn, hkn⟩ := mem_keys_averagesOut.mp (Dict.mem_keys_of_get? hk)
  obtain ⟨l', hn', hperm⟩ := h.get? hn
  have hmem := Dict.mem_keys_of_get? hn
  have hmem' := Dict.mem_keys_of_get? hn'
  rcases hkn with rfl | ⟨hne, rfl⟩
  · have hempty : l'.isEmpty = l.isEmpty := by
      rw [Bool.eq_iff_iff, List.isEmpty_iff_length_eq_zero, List.isEmpty_iff_length_eq_zero,
        hperm.length_eq]
    rw [get?_averagesOut order hn fun k' hk' => hstd k' hk' k hmem] at hk
    have havg : PyFloat.average l' = PyFloat.average l := (Exact.average_perm hperm).symm
    rw [← hk, get?_averagesOut order hn' fun k' hk' => hstd' k' hk' k hmem', hempty, havg]
  · have hne' : l' ≠ [] := by
      rintro rfl
      exact hne (List.perm_nil.mp hperm)
    rw [get?_averagesOut_std order hn hne (hstd n hmem)] at hk
    have hdev : PyFloat.std l' = PyFloat.std l := (Exact.std_perm hperm).symm
    rw [← hk, get?_averagesOut_std order hn' hne' (hstd' n hmem'), hdev]

/-- Samples in another order are reported alike, if no key is another's with `_std`. -/
theorem averagesOut_same (order : Enumeration Str) {res res' : Samples Exact}
    (h : SameSamples res res') (hstd : NoDeviation res) :
    (averagesOut order res).Same (averagesOut order res') := by
  intro k
  refine Option.ext fun v => ⟨averagesOut_mono order h hstd, ?_⟩
  exact averagesOut_mono order h.symm (h.noDeviation hstd)

end Nicmem
