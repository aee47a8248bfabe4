/-
The order of the lines of a log.

Four readers average what single lines show: no line depends on another, so lines in
another order give the same samples in another order.  Means and deviations in exact
arithmetic do not depend on it, and neither does the trimming, as long as it sorts
numbers.  Three of the readers take their samples from digits and see numbers only.
`read_fclick_wp` hands a whole field to `float`, which accepts `nan`, and then it depends
on the place of that line which two samples are cut off.
-/
import Nicmem.PerfUtil.Apps
import Nicmem.Proofs.Collected
import Nicmem.Proofs.Outliers
import Nicmem.Python.Match

namespace Nicmem

open Python

/-! ### What a line adds under the keys of a table -/

section Collect

variable {F : Type} {conv : Str → Option F} {table : List (Pattern × Str)}

/-- The sample a pattern finds in a line, under its key. -/
def patternEntries (conv : Str → Option F) (l : Str) (e : Pattern × Str) :
    Option (List (Str × F)) :=
  match findall e.1 l with
  | [] => some []
  | r :: _ => ((r[0]?).bind conv).map fun x => [(e.2, x)]

/-- The samples a line adds, one for each pattern that it matches. -/
def collectEntries (conv : Str → Option F) (table : List (Pattern × Str)) (l : Str) :
    Option (List (Str × F)) :=
  (table.mapM (patternEntries conv l)).map List.flatten

theorem collectLine_eq (d : Samples F) (l : Str) :
    collectLine conv table d l = (collectEntries conv table l).map (appendAll d) := by
  rw [collectLine, collectEntries, Option.map_map]
  refine foldlM_eq_appendAll ?_ table d
  rintro d ⟨p, key⟩
  unfold patternEntries
  dsimp only
  cases findall p l with
  | nil => rfl
  | cons r rest =>
      dsimp only
      cases r[0]? with
      | none => rfl
      | some t => cases hx : conv t <;> simp [hx, appendAll]

/-- A collected sample is what a pattern of the table has found. -/
theorem mem_collectEntries {l : Str} {es : List (Str × F)}
    (h : collectEntries conv table l = some es)
    {e : Str × F} (he : e ∈ es) :
    ∃ p, (p, e.1) ∈ table ∧ ∃ r ∈ findall p l, (r[0]?).bind conv = some e.2 := by
  obtain ⟨ess, hess, rfl⟩ := Option.map_eq_some_iff.mp h
  obtain ⟨es', hes', he'⟩ := List.mem_flatten.mp he
  obtain ⟨⟨p, key⟩, hp, hfound⟩ := exists_of_mem_mapM hess hes'
  unfold patternEntries at hfound
  dsimp only at hfound
  cases hfind : findall p l with
  | nil =>
      rw [hfind] at hfound
      cases hfound
      cases he'
  | cons r rest =>
      rw [hfind] at hfound
      obtain ⟨x, hx, rfl⟩ := Option.map_eq_some_iff.mp hfound
      obtain rfl := List.mem_singleton.mp he'
      exact ⟨p, hp, r, by rw [hfind]; exact List.mem_cons_self, hx⟩

end Collect

/-! ### Samples that are numbers -/

/-- No sample is not-a-number. -/
def Numbers (d : Samples Exact) : Prop := ∀ k v, d.get? k = some v → .nan ∉ v

/-- Two collections alike but for the order: the same numbers under keys from a list. -/
structure Alike (keys : List Str) (d' d : Samples Exact) : Prop where
  same : SameSamples d' d
  numbers : Numbers d'
  own : ∀ k ∈ d'.keys, k ∈ keys

section Alike

variable {keys : List Str} {d d' : Samples Exact}

theorem Alike.set (h : Alike keys d' d) {k : Str} (hk : k ∈ keys) {l l' : List Exact}
    (hperm : l'.Perm l) (hnan : .nan ∉ l') : Alike keys (d'.set k l') (d.set k l) := by
  refine ⟨h.same.set k hperm, fun k' v hv => ?_, fun k' hk' => ?_⟩
  · by_cases hkk : k' = k
    · rw [hkk, Dict.get?_set_self, Option.some.injEq] at hv
      exact hv ▸ hnan
    · rw [Dict.get?_set_ne _ _ hkk] at hv
      exact h.numbers k' v hv
  · rcases Dict.mem_keys_set.mp hk' with rfl | hk'
    · exact hk
    · exact h.own k' hk'

/-- The trimmed samples of a key are again the same numbers. -/
theorem Alike.rejected [Sorting] (h : Alike keys d' d) {k : Str} {l l' : List Exact}
    (hk : d.get? k = some l)
    (hk' : d'.get? k = some l') :
    k ∈ keys ∧ (rejectOutliers l').Perm (rejectOutliers l) ∧ .nan ∉ rejectOutliers l' := by
  have hnan := h.numbers k l' hk'
  obtain ⟨l₂, hl₂, hperm⟩ := h.same.get? hk'
  obtain rfl : l₂ = l := Option.some.inj (hl₂.symm.trans hk)
  exact ⟨h.own k (Dict.mem_keys_of_get? hk'), rejectOutliers_perm hperm hnan,
    fun hmem => hnan (mem_rejectOutliersBy hmem)⟩

theorem Alike.averagesOut [Sorting] (order : Enumeration Str) (h : Alike keys d' d)
    (hstd : ∀ k ∈ keys, ∀ k' ∈ keys, stdName k ≠ k') :
    (averagesOut order d').Same (Nicmem.averagesOut order d) :=
  averagesOut_same order h.same fun k hk k' hk' => hstd k (h.own k hk) k' (h.own k' hk')

end Alike

/-- What is collected from lines in another order, by patterns that find numbers. -/
theorem collect_alike {conv : Str → Option Exact} {table : List (Pattern × Str)}
    (hconv : ∀ e ∈ table, ∀ l, ∀ r ∈ findall e.1 l, (r[0]?).bind conv ≠ some .nan)
    {data data' : Str}
    (hperm : (data'.splitOn '\n').Perm (data.splitOn '\n')) {res : Samples Exact}
    (h : collect conv table data = some res) :
    ∃ res', collect conv table data' = some res' ∧ Alike (table.map Prod.snd) res' res := by
  obtain ⟨res', hres', hsame⟩ := foldlM_perm collectLine_eq hperm h
  refine ⟨res', hres', ?_⟩
  rw [foldlM_eq_appendAll collectLine_eq, Option.map_eq_some_iff] at hres'
  obtain ⟨ess, hess, rfl⟩ := hres'
  -- every entry is what a pattern has found
  have hfound : ∀ e ∈ ess.flatten, ∃ p, (p, e.1) ∈ table ∧
      ∃ l, ∃ r ∈ findall p l, (r[0]?).bind conv = some e.2 := by
    intro e he
    obtain ⟨es, hes, he⟩ := List.mem_flatten.mp he
    obtain ⟨l, -, hl⟩ := exists_of_mem_mapM hess hes
    obtain ⟨p, hp, r, hr, hx⟩ := mem_collectEntries hl he
    exact ⟨p, hp, l, r, hr, hx⟩
  have hget : ∀ k v,
      (appendAll .empty ess.flatten).get? k = some v → v = samplesAt k ess.flatten := by
    intro k v hv
    rw [get?_appendAll] at hv
    split at hv
    · cases hv
    · exact (Option.some.inj hv).symm
  refine ⟨hsame, ?_, ?_⟩
  · intro k v hv hnan
    rw [hget k v hv, mem_samplesAt] at hnan
    obtain ⟨p, hp, l, r, hr, hx⟩ := hfound _ hnan
    exact hconv _ hp l r hr hx
  · intro k hk
    obtain ⟨v, hv⟩ := Dict.mem_keys_iff.mp hk
    have hne : samplesAt k ess.flatten ≠ [] := by
      intro hnil
      rw [get?_appendAll, if_pos hnil] at hv
      cases hv
    obtain ⟨x, hx⟩ := List.exists_mem_of_ne_nil _ hne
    obtain ⟨p, hp, -⟩ := hfound _ (mem_samplesAt.mp hx)
    exact List.mem_map_of_mem (f := Prod.snd) hp

/-! ### The readers of digits -/

/-- `int` of what was captured is a number. -/
theorem capturedInt_ne_nan (s : Option Str) : s.bind (capturedInt (F := Exact)) ≠ some .nan := by
  intro h
  obtain ⟨t, -, ht⟩ := Option.bind_eq_some_iff.mp h
  obtain ⟨n, -, hn⟩ := Option.map_eq_some_iff.mp ht
  cases hn

/-- A pattern whose first group is of digits, or of a decimal number. -/
def Numeric (p : Pattern) : Prop :=
  ∃ q qs, p.groups = q :: qs ∧ (q = Pattern.plus .digit ∨ q = Pattern.decimal)

/-- `float` of what such a pattern captures is a number. -/
theorem ofStr_captured_ne_nan {p : Pattern} (hp : Numeric p) {l : Str} {r : List Str}
    (hr : r ∈ findall p l) : (r[0]?).bind (PyFloat.ofStr : Str → Option Exact) ≠ some .nan := by
  have hfits := groups_of_mem_findall hr
  obtain ⟨q, qs, hgroups, hq⟩ := hp
  rw [hgroups] at hfits
  cases hfits with
  | @cons _ t _ ts ht _ =>
      have hnum : ∃ x : ℚ, 0 ≤ x ∧ PyFloat.ofStr t = some (PyFloat.lit x : Exact) := by
        rcases hq with rfl | rfl
        · exact ofStr_of_fits_digits ht
        · exact ofStr_of_fits_decimal ht
      obtain ⟨x, -, hx⟩ := hnum
      intro h
      have hsome : PyFloat.ofStr t = some Exact.nan := h
      rw [hx] at hsome
      cases hsome

/-- The outcomes for a log and for one with its lines in another order. -/
def Unordered (read : Str → Option (Result Exact)) (data data' : Str) : Prop :=
  Option.Rel Dict.Same (read data') (read data)

/-- A reader returns for both orders if it returns for one. -/
theorem unordered_of_forall {read : Str → Option (Result Exact)}
    (h : ∀ data data', (data'.splitOn '\n').Perm (data.splitOn '\n') → ∀ out, read data = some out →
      ∃ out', read data' = some out' ∧ out'.Same out) {data data' : Str}
    (hperm : (data'.splitOn '\n').Perm (data.splitOn '\n')) : Unordered read data data' := by
  refine rel_of_forall (fun out' hout' => ?_) fun out hout => ?_
  · obtain ⟨out, hout, hsame⟩ := h data' data hperm.symm out' hout'
    exact ⟨out, hout, fun k => (hsame k).symm⟩
  · obtain ⟨out', hout', -⟩ := h data data' hperm out hout
    exact ⟨out', hout'⟩

theorem withoutStartup_ne_nan {x : Exact} (h : x ≠ .nan) : L3fwd.withoutStartup x ≠ .nan := by
  unfold L3fwd.withoutStartup
  dsimp only
  split
  · intro h
    cases h
  · match x, h with
    | .inf s, _ =>
        intro h
        cases h
    | .fin q, _ =>
        intro h
        cases h

/-- One counter of `read_l3fwd` is trimmed alike. -/
theorem Alike.trim [Sorting] {keys : List Str} {d d' : Samples Exact} (h : Alike keys d' d)
    (k : Str) :
    Alike keys (L3fwd.trim d' k) (L3fwd.trim d k) := by
  unfold L3fwd.trim
  cases hk' : d'.get? k with
  | none =>
      have hk : d.get? k = none := by
        have hrel := h.same k
        rw [hk'] at hrel
        match d.get? k, hrel with
        | none, _ => rfl
      rw [hk]
      exact h
  | some l' =>
      obtain ⟨l, hk, -⟩ := h.same.get? hk'
      obtain ⟨hmem, hperm, hnan⟩ := h.rejected hk hk'
      rw [hk]
      dsimp only
      split
      · refine h.set hmem (hperm.map _) fun hmap => ?_
        obtain ⟨x, hx, hxn⟩ := List.mem_map.mp hmap
        exact withoutStartup_ne_nan (fun hn => hnan (hn ▸ hx)) hxn
      · exact h.set hmem hperm hnan

theorem readL3fwd_unordered [Sorting] (order : Enumeration Str) {data data' : Str}
    (hperm : (data'.splitOn '\n').Perm (data.splitOn '\n')) :
    Unordered (readL3fwd order) data data' := by
  refine unordered_of_forall (fun data data' hperm out hout => ?_) hperm
  unfold readL3fwd at hout ⊢
  simp only [Option.bind_eq_bind, Option.bind_eq_some_iff, Option.some.injEq] at hout
  obtain ⟨res, hres, rfl⟩ := hout
  obtain ⟨res', hres', halike⟩ := collect_alike (fun e _ l r _ => capturedInt_ne_nan _) hperm hres
  rw [hres']
  refine ⟨_, rfl, Alike.averagesOut order (List.foldl_rel halike fun k _ d' d h => h.trim k) ?_⟩
  decide

/-- One key after the other is trimmed alike, or missing in both. -/
theorem Alike.trimAt [Sorting] {keys : List Str} (ks : List Str) :
    ∀ {d d' e : Samples Exact}, Alike keys d' d → ks.foldlM Nicmem.trimAt d = some e →
      ∃ e', ks.foldlM Nicmem.trimAt d' = some e' ∧ Alike keys e' e := by
  induction ks with
  | nil =>
      intro d d' e h he
      cases he
      exact ⟨d', rfl, h⟩
  | cons k ks ih =>
      intro d d' e h he
      rw [List.foldlM_cons] at he
      obtain ⟨d₁, hd₁, he⟩ := Option.bind_eq_some_iff.mp he
      obtain ⟨l, hk, rfl⟩ := Option.map_eq_some_iff.mp hd₁
      obtain ⟨l', hk', -⟩ := h.same.symm.get? hk
      obtain ⟨hmem, hperm, hnan⟩ := h.rejected hk hk'
      obtain ⟨e', he', halike⟩ := ih (h.set hmem hperm hnan) he
      refine ⟨e', ?_, halike⟩
      rw [List.foldlM_cons, Nicmem.trimAt, hk']
      exact he'

theorem readDpdkPingClient_unordered [Sorting] (order : Enumeration Str) {data data' : Str}
    (hperm : (data'.splitOn '\n').Perm (data.splitOn '\n')) :
    Unordered (readDpdkPingClient order) data data' := by
  have hnumeric : ∀ e ∈ Ping.client, Numeric e.1 := by
    intro e he
    simp only [Ping.client, List.mem_cons, List.not_mem_nil, or_false] at he
    rcases he with rfl | rfl | rfl | rfl
    · exact ⟨_, _, rfl, .inr rfl⟩
    · exact ⟨_, _, rfl, .inl rfl⟩
    · exact ⟨_, _, rfl, .inl rfl⟩
    · exact ⟨_, _, rfl, .inl rfl⟩
  refine unordered_of_forall (fun data data' hperm out hout => ?_) hperm
  unfold readDpdkPingClient Ping.read at hout ⊢
  simp only [Option.bind_eq_bind, Option.bind_eq_some_iff, Option.some.injEq] at hout
  obtain ⟨res, hres, kept, hkept, rfl⟩ := hout
  obtain ⟨res', hres', halike⟩ :=
    collect_alike (fun e he l r hr => ofStr_captured_ne_nan (hnumeric e he) hr) hperm hres
  obtain ⟨kept', hkept', halike'⟩ := Alike.trimAt _ halike hkept
  rw [hres']
  refine ⟨Nicmem.averagesOut order kept', ?_, halike'.averagesOut order ?_⟩
  · rw [Option.bind_eq_bind, Option.bind_some, hkept']
    rfl
  · decide

/-- What a line adds to the throughput. -/
def mopsEntries (l : Str) : Option (List Exact) := Mica.mopsLine [] l

theorem mopsLine_eq (res : List Exact) (l : Str) :
    Mica.mopsLine res l = (mopsEntries l).map (res ++ ·) := by
  unfold mopsEntries Mica.mopsLine
  cases findall Mica.mops l with
  | nil => simp
  | cons r rest =>
      simp only [Option.bind_eq_bind, Option.map_bind]
      congr 1
      funext t
      rw [Function.comp_apply, Option.map_bind]
      congr 1
      funext x
      simp only [Function.comp_apply, Option.map_some]
      split <;> simp

theorem foldlM_mopsLine (ls : List Str) : ∀ res : List Exact,
    ls.foldlM Mica.mopsLine res = (ls.mapM mopsEntries).map fun xss => res ++ xss.flatten := by
  induction ls with
  | nil => intro res; simp
  | cons l ls ih =>
      intro res
      rw [List.foldlM_cons, List.mapM_cons, mopsLine_eq]
      cases mopsEntries l with
      | none => rfl
      | some xs =>
          refine (ih (res ++ xs)).trans ?_
          cases ls.mapM mopsEntries with
          | none => rfl
          | some xss => simp

theorem nan_not_mem_mopsEntries {l : Str} {xs : List Exact} (h : mopsEntries l = some xs) :
    .nan ∉ xs := by
  unfold mopsEntries Mica.mopsLine at h
  split at h
  · cases h
    exact List.not_mem_nil
  · rename_i r rest hfind
    have hne := ofStr_captured_ne_nan (p := Mica.mops) ⟨_, _, rfl, .inr rfl⟩
      (by rw [hfind]; exact List.mem_cons_self : r ∈ findall Mica.mops l)
    simp only [Option.bind_eq_bind, Option.bind_eq_some_iff, Option.some.injEq] at h
    obtain ⟨t, ht, x, hx, rfl⟩ := h
    rw [ht, Option.bind_some, hx] at hne
    split
    · exact List.not_mem_nil
    · intro hmem
      rw [List.nil_append, List.mem_singleton] at hmem
      exact hne (congrArg some hmem.symm)

theorem readMicaServer_unordered [Sorting] {data data' : Str}
    (hperm : (data'.splitOn '\n').Perm (data.splitOn '\n')) :
    Unordered readMicaServer data data' := by
  refine unordered_of_forall (fun data data' hperm out hout => ?_) hperm
  unfold readMicaServer at hout ⊢
  simp only [foldlM_mopsLine, Option.bind_eq_bind, Option.bind_eq_some_iff, Option.map_eq_some_iff,
    Option.some.injEq] at hout
  obtain ⟨_, ⟨xss, hxss, rfl⟩, rfl⟩ := hout
  obtain ⟨xss', hxss', hperm'⟩ := mapM_perm hperm hxss
  have hnan : .nan ∉ [] ++ xss'.flatten := by
    intro hmem
    obtain ⟨xs, hxs, hx⟩ := List.mem_flatten.mp hmem
    obtain ⟨l, -, hl⟩ := exists_of_mem_mapM hxss' hxs
    exact nan_not_mem_mopsEntries hl hx
  have havg : PyFloat.average (rejectOutliers ([] ++ xss'.flatten)) =
      PyFloat.average (rejectOutliers ([] ++ xss.flatten)) :=
    Exact.average_perm (rejectOutliers_perm (hperm'.flatten.append_left []) hnan)
  refine ⟨_, ?_, fun k => rfl⟩
  rw [foldlM_mopsLine, hxss', Option.map_some, Option.bind_eq_bind, Option.bind_some, havg]

/-! ### The reader of whole fields -/

namespace FclickWp

/-- The dictionary the reader starts with: no samples of any key. -/
def start : Samples Exact := Dict.ofList (keys.map fun k => (k, []))

/-- The samples of a log. -/
def samples (data : Str) : Option (Samples Exact) := (data.splitOn '\n').foldlM line start

/-- The sample of a line that starts as an entry of the table says. -/
def startEntries (l : Str) (e : Str × Str × (List Str → Option Exact)) :
    Option (List (Str × Exact)) :=
  if e.1.isPrefixOf l then (e.2.2 (l.splitOn ' ')).map fun x => [(e.2.1, x)] else some []

/-- What a line adds. -/
def entries (l : Str) : Option (List (Str × Exact)) :=
  (table.mapM (startEntries l)).map List.flatten

theorem line_eq (d : Samples Exact) (l : Str) : line d l = (entries l).map (appendAll d) := by
  rw [line, entries, Option.map_map]
  refine foldlM_eq_appendAll ?_ table d
  rintro d ⟨start, key, read⟩
  unfold startEntries
  dsimp only
  split
  · cases hx : read (l.splitOn ' ') <;> simp [appendAll]
  · rfl

/-- The keys of a line's samples are keys of the table, in its order. -/
theorem map_fst_entries_sublist {l : Str} {es : List (Str × Exact)} (h : entries l = some es) :
    (es.map Prod.fst).Sublist ((table (F := Exact)).map fun e => e.2.1) := by
  obtain ⟨ess, hess, rfl⟩ := Option.map_eq_some_iff.mp h
  have hall := mapM_eq_some_iff.mp hess
  clear h hess
  generalize table (F := Exact) = t at hall ⊢
  induction hall with
  | nil => exact .slnil
  | @cons e es' _ _ he _ ih =>
      rw [List.flatten_cons, List.map_append, List.map_cons]
      unfold startEntries at he
      split at he
      · obtain ⟨x, -, rfl⟩ := Option.map_eq_some_iff.mp he
        exact ih.cons_cons _
      · cases he
        exact ih.cons _

/-- A line has at most one sample of a key. -/
theorem length_samplesAt_le_one {l : Str} {es : List (Str × Exact)} (h : entries l = some es)
    (k : Str) : (samplesAt k es).length ≤ 1 := by
  have hnodup : ((table (F := Exact)).map fun e => e.2.1).Nodup := by
    decide
  have hcount := List.nodup_iff_count_le_one.mp ((map_fst_entries_sublist h).nodup hnodup) k
  have hbeq : ((fun x => x == k) ∘ Prod.fst : Str × Exact → Bool) = fun e => decide (e.1 = k) := by
    funext e
    exact Bool.eq_iff_iff.mpr (by simp)
  rw [List.count, List.countP_map, List.countP_eq_length_filter, hbeq] at hcount
  rw [samplesAt, List.length_map]
  exact hcount

/-- The sample of a key in a line, if it has one. -/
def sample (k l : Str) : Option Exact := (samplesAt k ((entries l).getD [])).head?

/-- The samples of a key are those of the lines that have one. -/
theorem samplesAt_flatten {ls : List Str} {ess : List (List (Str × Exact))}
    (h : ls.mapM entries = some ess) (k : Str) :
    samplesAt k ess.flatten = ls.filterMap (sample k) := by
  have hall := mapM_eq_some_iff.mp h
  clear h
  induction hall with
  | nil => rfl
  | @cons l es _ _ hl _ ih =>
      have hone : (sample k l).toList = samplesAt k es := by
        have hlen := length_samplesAt_le_one hl k
        rw [sample, hl, Option.getD_some]
        match samplesAt k es, hlen with
        | [], _ => rfl
        | [x], _ => rfl
      rw [List.flatten_cons, samplesAt_append, ih, ← hone, List.filterMap_cons]
      cases sample k l <;> rfl

theorem entries_start : start.entries = keys.map fun k => (k, []) :=
  Dict.entries_ofList (by decide)

theorem get?_start {k : Str} (hk : k ∈ keys) : start.get? k = some [] := by
  rw [Dict.get?_eq_some_iff, entries_start]
  exact List.mem_map.mpr ⟨k, hk, rfl⟩

/-- The samples of a log are those of its lines, under the reader's six keys. -/
theorem get?_samples {data : Str} {res : Samples Exact} (h : samples data = some res) :
    (∀ k ∈ keys, res.get? k = some ((data.splitOn '\n').filterMap (sample k))) ∧
      ∀ k ∈ res.keys, k ∈ keys := by
  rw [samples, foldlM_eq_appendAll line_eq, Option.map_eq_some_iff] at h
  obtain ⟨ess, hess, rfl⟩ := h
  constructor
  · intro k hk
    rw [← samplesAt_flatten hess, get?_appendAll, get?_start hk]
    split
    · rename_i hnil
      rw [hnil]
    · rfl
  · intro k hk
    obtain ⟨v, hv⟩ := Dict.mem_keys_iff.mp hk
    rw [get?_appendAll] at hv
    split at hv
    · have hmem := Dict.get?_eq_some_iff.mp hv
      rw [entries_start] at hmem
      obtain ⟨k', hk', heq⟩ := List.mem_map.mp hmem
      cases heq
      exact hk'
    · rename_i hne
      obtain ⟨x, hx⟩ := List.exists_mem_of_ne_nil _ hne
      obtain ⟨es, hes, he⟩ := List.mem_flatten.mp (mem_samplesAt.mp hx)
      obtain ⟨l, -, hl⟩ := exists_of_mem_mapM hess hes
      have hkey := (map_fst_entries_sublist hl).subset (List.mem_map_of_mem (f := Prod.fst) he)
      have htable : ∀ k ∈ (table (F := Exact)).map fun e => e.2.1, k ∈ keys := by
        decide
      exact htable k hkey

/-- The mean of a key. -/
def meanAt [Sorting] (res : Samples Exact) (k : Str) : Option Exact :=
  (res.get? k).map fun v => PyFloat.average (rejectOutliers v)

/-- The means of all keys. -/
def means [Sorting] (order : Enumeration Str) (res : Samples Exact) : Result Exact :=
  (res.items order).foldl (fun out e =>
    out.set e.1 (.flt (PyFloat.average (rejectOutliers e.2)))) .empty

theorem get?_means [Sorting] (order : Enumeration Str) (res : Samples Exact) (k : Str) :
    (means order res).get? k = (meanAt res k).map .flt := by
  rw [means, Dict.get?_foldl_set_items fun _ v => Value.flt (PyFloat.average (rejectOutliers v)),
    Dict.get?_empty, Option.or_none, meanAt, Option.map_map]
  rfl

theorem readFclickWp_eq [Sorting] (order : Enumeration Str) (data : Str) :
    readFclickWp order data = (samples data).bind fun res =>
      (meanAt res "fclick_discards_bps".toList).bind fun x =>
        (meanAt res "fclick_oob_bps".toList).bind fun y =>
          (meanAt res "fclick_missed_bps".toList).bind fun z =>
            some ((means order res).set "fclick_total_drops".toList
              (.flt (PyFloat.add (PyFloat.add x y) z))) := rfl

/-- The reader returns the mean of every key, and the three rates of drops together. -/
theorem readFclickWp_spec [Sorting] (order : Enumeration Str) {data : Str} {res : Samples Exact}
    (h : samples data = some res) :
    ∃ x y z, meanAt res "fclick_discards_bps".toList = some x ∧
      meanAt res "fclick_oob_bps".toList = some y ∧ meanAt res "fclick_missed_bps".toList = some z ∧
      readFclickWp order data = some ((means order res).set "fclick_total_drops".toList
        (.flt (PyFloat.add (PyFloat.add x y) z))) := by
  have hmean : ∀ k ∈ keys, ∃ x, meanAt res k = some x := by
    intro k hk
    rw [meanAt, (get?_samples h).1 k hk]
    exact ⟨_, rfl⟩
  obtain ⟨x, hx⟩ := hmean "fclick_discards_bps".toList (by decide)
  obtain ⟨y, hy⟩ := hmean "fclick_oob_bps".toList (by decide)
  obtain ⟨z, hz⟩ := hmean "fclick_missed_bps".toList (by decide)
  refine ⟨x, y, z, hx, hy, hz, ?_⟩
  rw [readFclickWp_eq, h, Option.bind_some, hx, Option.bind_some, hy, Option.bind_some, hz,
    Option.bind_some]

/-- Samples whose means do not depend on their order. -/
def AllSettled (res : Samples Exact) : Prop := ∀ k v, res.get? k = some v → Settled v

theorem meanAt_eq_of_settled [Sorting] {res res' : Samples Exact} (h : SameSamples res' res)
    (hsettled : AllSettled res) (k : Str) : meanAt res' k = meanAt res k := by
  unfold meanAt
  cases hk : res.get? k with
  | none =>
      have hrel := h k
      rw [hk] at hrel
      match res'.get? k, hrel with
      | none, _ => rfl
  | some v =>
      obtain ⟨v', hk', hperm⟩ := h.symm.get? hk
      rw [hk']
      exact congrArg some (average_rejectOutliers_of_settled hperm.symm (hsettled k v hk))

theorem unordered_of_settled [Sorting] (order : Enumeration Str) {data data' : Str}
    (hperm : (data'.splitOn '\n').Perm (data.splitOn '\n'))
    (hsettled : ∀ res, samples data = some res → AllSettled res) :
    Unordered (readFclickWp order) data data' := by
  have hread : ∀ {data data' : Str}, (data'.splitOn '\n').Perm (data.splitOn '\n') →
      ∀ {res}, samples data = some res → ∃ res', samples data' = some res' ∧ SameSamples res' res :=
    fun hperm _ hres => foldlM_perm line_eq hperm hres
  cases hres : samples data with
  | none =>
      cases hres' : samples data' with
      | none =>
          unfold Unordered
          rw [readFclickWp_eq, readFclickWp_eq, hres, hres']
          exact .none
      | some res' =>
          obtain ⟨res, hsome, -⟩ := hread hperm.symm hres'
          rw [hres] at hsome
          cases hsome
  | some res =>
      obtain ⟨res', hres', hsame⟩ := hread hperm hres
      have hmean := meanAt_eq_of_settled hsame (hsettled res hres)
      obtain ⟨x, y, z, hx, hy, hz, hout⟩ := readFclickWp_spec order hres
      obtain ⟨x', y', z', hx', hy', hz', hout'⟩ := readFclickWp_spec order hres'
      rw [hmean] at hx' hy' hz'
      obtain rfl : x' = x := Option.some.inj (hx'.symm.trans hx)
      obtain rfl : y' = y := Option.some.inj (hy'.symm.trans hy)
      obtain rfl : z' = z := Option.some.inj (hz'.symm.trans hz)
      unfold Unordered
      rw [hout, hout']
      refine .some fun k => ?_
      rw [Dict.get?_set, Dict.get?_set, get?_means, get?_means, hmean]

end FclickWp

/-- Lines can be put so that the ones with a sample come in any order of the samples. -/
theorem exists_perm_filterMap {α β : Type} {f : α → Option β} {v : List β} :
    ∀ {ls : List α}, (ls.filterMap f).Perm v →
      ∃ ls' : List α, ls'.Perm ls ∧ ls'.filterMap f = v := by
  induction v with
  | nil =>
      intro ls h
      exact ⟨ls, .refl ls, List.perm_nil.mp h⟩
  | cons x v ih =>
      intro ls h
      obtain ⟨l, hl, hx⟩ := List.mem_filterMap.mp (h.mem_iff.mpr List.mem_cons_self)
      obtain ⟨before, after, rfl⟩ := List.append_of_mem hl
      have hmove : (l :: (before ++ after)).Perm (before ++ l :: after) := List.perm_middle.symm
      have hrest : ((before ++ after).filterMap f).Perm v := by
        have hall := (hmove.filterMap f).trans h
        rw [List.filterMap_cons_some hx] at hall
        exact hall.cons_inv
      obtain ⟨ls', hperm, hv⟩ := ih hrest
      refine ⟨l :: ls', (hperm.cons l).trans hmove, ?_⟩
      rw [List.filterMap_cons_some hx, hv]

/-- A log with the given lines, which are those of another log in some order. -/
theorem exists_log_of_perm {data : Str} {ls : List Str} (h : ls.Perm (data.splitOn '\n')) :
    ∃ data' : Str, data'.splitOn '\n' = ls := by
  refine ⟨List.intercalate ['\n'] ls, List.splitOn_intercalate '\n' (fun l hl => ?_) ?_⟩
  · exact not_mem_of_mem_splitOn (h.mem_iff.mp hl)
  · rintro rfl
    exact List.splitOn_ne_nil '\n' data (List.nil_perm.mp h)

/-- If the order of the lines never matters, the means do not depend on the order of the samples. -/
theorem FclickWp.settled_of_unordered [Sorting] (order : Enumeration Str) {data : Str}
    (h : ∀ data', (data'.splitOn '\n').Perm (data.splitOn '\n') →
      Unordered (readFclickWp order) data data') {res : Samples Exact}
    (hres : samples data = some res) : AllSettled res := by
  intro k v hk
  obtain ⟨hget, hown⟩ := get?_samples hres
  have hkey := hown k (Dict.mem_keys_of_get? hk)
  have htotal : k ≠ "fclick_total_drops".toList := by
    rintro rfl
    exact absurd hkey (by decide)
  rw [hget k hkey, Option.some.injEq] at hk
  refine settled_iff.mpr fun v' hperm => ?_
  obtain ⟨ls, hls, hv'⟩ := exists_perm_filterMap (hk ▸ hperm.symm)
  obtain ⟨data', rfl⟩ := exists_log_of_perm hls
  obtain ⟨res', hres', -⟩ := foldlM_perm line_eq hls hres
  -- the two results agree at the key, and hold the two means there
  have hsame := h data' hls
  obtain ⟨x, y, z, -, -, -, hout⟩ := readFclickWp_spec order hres
  obtain ⟨x', y', z', -, -, -, hout'⟩ := readFclickWp_spec order hres'
  rw [Unordered, hout, hout', Option.rel_some_some] at hsame
  have hat := hsame k
  rw [Dict.get?_set_ne _ _ htotal, Dict.get?_set_ne _ _ htotal, get?_means, get?_means, meanAt,
    meanAt, hget k hkey, (get?_samples hres').1 k hkey, hk, hv'] at hat
  exact Value.flt.inj (Option.some.inj hat)

/--
**The order of the lines.**  `read_l3fwd`, `read_mica_server` and `read_dpdk_ping_client`
never depend on it; `read_fclick_wp` does not exactly when its lists of samples are settled.
-/
theorem unordered_iff [Sorting] (order : Enumeration Str) (data : Str) :
    (∀ data', (data'.splitOn '\n').Perm (data.splitOn '\n') →
      Unordered (readL3fwd order) data data' ∧ Unordered (readFclickWp order) data data' ∧
      Unordered readMicaServer data data' ∧ Unordered (readDpdkPingClient order) data data') ↔
    ∀ res, FclickWp.samples data = some res → ∀ k v, res.get? k = some v → Settled v := by
  constructor
  · intro h res hres
    exact FclickWp.settled_of_unordered order (fun data' hperm => (h data' hperm).2.1) hres
  · intro h data' hperm
    exact ⟨readL3fwd_unordered order hperm, FclickWp.unordered_of_settled order hperm h,
      readMicaServer_unordered hperm, readDpdkPingClient_unordered order hperm⟩

def idleLog : Str :=
  "RESULT-CYCLE_IDLE 1\nRESULT-CYCLE_IDLE 2\nRESULT-CYCLE_IDLE 3\nRESULT-CYCLE_IDLE 4\n".toList ++
    "RESULT-CYCLE_IDLE nan".toList

/-- The same lines, the last one first. -/
def idleLogMoved : Str :=
  "RESULT-CYCLE_IDLE nan\nRESULT-CYCLE_IDLE 1\nRESULT-CYCLE_IDLE 2\nRESULT-CYCLE_IDLE 3\n".toList ++
    "RESULT-CYCLE_IDLE 4".toList

/-- The mean a log gives for samples that ascend but for not-a-number. -/
theorem FclickWp.readFclickWp_ascending [Sorting] (order : Enumeration Str) {data k : Str}
    {v : List Exact}
    (hread : (samples data).isSome = true) (hkey : k ∈ keys)
    (htotal : k ≠ "fclick_total_drops".toList)
    (hv : (data.splitOn '\n').filterMap (sample k) = v) (hlen : 4 < v.length)
    (hasc : (v.filter fun x => decide (x ≠ .nan)).Pairwise fun x y => Exact.le x y = true) :
    ∃ out, readFclickWp order data = some out ∧
      out.get? k = some (.flt (PyFloat.average (v.drop 1).dropLast)) := by
  obtain ⟨res, hres⟩ := Option.isSome_iff_exists.mp hread
  obtain ⟨x, y, z, -, -, -, hout⟩ := readFclickWp_spec order hres
  refine ⟨_, hout, ?_⟩
  rw [Dict.get?_set_ne _ _ htotal, get?_means, meanAt, (get?_samples hres).1 k hkey, hv,
    Option.map_some, Option.map_some, rejectOutliers_of_ascending hlen hasc]

section Logs

open scoped Sorting.Insertion

theorem fclick_order_matters :
    (idleLogMoved.splitOn '\n').Perm (idleLog.splitOn '\n') ∧
    (∃ out : Result Exact, readFclickWp (.insertion Str) idleLog = some out ∧
      out.get? "fclick_cycles_idle".toList = some (.flt (.fin 3))) ∧
    ∃ out : Result Exact, readFclickWp (.insertion Str) idleLogMoved = some out ∧
      out.get? "fclick_cycles_idle".toList = some (.flt (.fin 2)) := by
  have hidle : "fclick_cycles_idle".toList ∈ FclickWp.keys ∧
      "fclick_cycles_idle".toList ≠ "fclick_total_drops".toList := by
    decide +kernel
  have hlast : (idleLog.splitOn '\n').filterMap (FclickWp.sample "fclick_cycles_idle".toList) =
      [.fin 1, .fin 2, .fin 3, .fin 4, .nan] := by
    decide +kernel
  have hfirst : (idleLogMoved.splitOn '\n').filterMap
      (FclickWp.sample "fclick_cycles_idle".toList) = [.nan, .fin 1, .fin 2, .fin 3, .fin 4] := by
    decide +kernel
  refine ⟨by decide +kernel, ?_, ?_⟩
  · obtain ⟨out, hout, hmean⟩ := FclickWp.readFclickWp_ascending (.insertion Str)
      (by decide +kernel) hidle.1 hidle.2 hlast (by decide) (by decide)
    refine ⟨out, hout, hmean.trans ?_⟩
    decide +kernel
  · obtain ⟨out, hout, hmean⟩ := FclickWp.readFclickWp_ascending (.insertion Str)
      (by decide +kernel) hidle.1 hidle.2 hfirst (by decide) (by decide)
    refine ⟨out, hout, hmean.trans ?_⟩
    decide +kernel

end Logs

end Nicmem
