/-
The unit of the non-drop rates `read_trex_ndr` averages.

The load generator prints a rate in Gbps or in Mbps, whichever suits it.  The reader has a
pattern for each and appends the printed number, so a number of one unit stands among
numbers of the other.  The samples are rates in a common unit exactly if all rates but
the zeros are printed in the same one.
-/
import Nicmem.Proofs.Collected
import Nicmem.Proofs.MemoryLayout
import Nicmem.Proofs.Outliers

namespace Nicmem

open Python

namespace TrexNdr

/-! ### Printed rates -/

inductive Scale where
  | gbps
  | mbps
  deriving DecidableEq, Repr

def Scale.text : Scale → String
  | .gbps => " Gbps"
  | .mbps => " Mbps"

/-- One of the unit, in Mbps. -/
def Scale.factor : Scale → ℚ
  | .gbps => 1000
  | .mbps => 1

theorem Scale.text_eq_cons (u : Scale) : ∃ t, u.text.toList = ' ' :: t := by
  cases u with
  | gbps => exact ⟨"Gbps".toList, by decide⟩
  | mbps => exact ⟨"Mbps".toList, by decide⟩

theorem Scale.factor_pos (u : Scale) : 0 < u.factor := by
  cases u <;> norm_num [factor]

theorem Scale.factor_injective : Function.Injective Scale.factor := by
  intro u u' h
  cases u <;> cases u' <;> first | rfl | norm_num [factor] at h

/-- A number and the unit behind it. -/
structure Rate where
  number : ℚ
  unit : Scale
  deriving DecidableEq, Repr

/-- The rate in a unit of `c` Mbps. -/
def Rate.per (c : ℚ) (r : Rate) : ℚ := r.number * r.unit.factor / c

theorem per_lt_per_iff {c : ℚ} (hc : 0 < c) {r r' : Rate} :
    r.per c < r'.per c ↔ r.per 1 < r'.per 1 := by
  rw [Rate.per, Rate.per, Rate.per, Rate.per, div_one, div_one, div_lt_div_iff_of_pos_right hc]

/-- The number a text of digits with a decimal point denotes. -/
def printed (t : Str) : ℚ :=
  let whole := t.takeWhile (· != '.')
  let fraction := t.drop (whole.length + 1)
  natVal (whole ++ fraction) / 10 ^ fraction.length

/-- The first rate of a line in one unit. -/
def rateIn (u : Scale) (l : Str) : Option Rate :=
  ((findall (ndr u.text) l).head?.bind (·[0]?)).map fun t => ⟨printed t, u⟩

/-- The rate of a line. -/
def rate (l : Str) : Option Rate := (rateIn .gbps l).or (rateIn .mbps l)

/-- The rates of a log. -/
def rates (data : Str) : List Rate := (data.splitOn '\n').filterMap rate

theorem printed_decimal {w f : Str} (hw : ∀ c ∈ w, c.isDigit = true) :
    printed (w ++ '.' :: f) = (natVal (w ++ f) : ℚ) / 10 ^ f.length := by
  have hwhole : (w ++ '.' :: f).takeWhile (· != '.') = w := by
    rw [List.takeWhile_append_of_pos]
    · simp
    · intro c hc
      refine bne_iff_ne.mpr ?_
      rintro rfl
      exact absurd (hw '.' hc) (by decide)
  rw [printed, hwhole]
  simp

theorem ofStr_printed {F : Type} [PyFloat F] {t : Str} (h : Pattern.Fits Pattern.decimal t) :
    PyFloat.ofStr t = some (PyFloat.lit (printed t) : F) := by
  obtain ⟨w, f, rfl, hne, -, hw, hf⟩ := fits_decimal h
  rw [printed_decimal hw]
  exact PyFloat.ofStr_point hne hw hf

theorem groups_ndr (u : Scale) : (ndr u.text).groups = [Pattern.decimal] := by
  cases u <;> rfl

/-- A match has the number of a rate in its group. -/
theorem rateIn_of_match {u : Scale} {l : Str} {r : List Str} {rest : List (List Str)}
    (h : findall (ndr u.text) l = r :: rest) :
    ∃ t, r = [t] ∧ Pattern.Fits Pattern.decimal t ∧ rateIn u l = some ⟨printed t, u⟩ := by
  have hmem : r ∈ findall (ndr u.text) l := by
    rw [h]
    exact List.mem_cons_self
  have hfits := groups_of_mem_findall hmem
  rw [groups_ndr] at hfits
  cases hfits with
  | cons ht hnil =>
      cases hnil
      refine ⟨_, rfl, ht, ?_⟩
      rw [rateIn, h]
      rfl

theorem rateIn_of_nil {u : Scale} {l : Str} (h : findall (ndr u.text) l = []) :
    rateIn u l = none := by
  rw [rateIn, h]
  rfl

/-- A line as the load generator prints it. -/
structure Printed where
  gap : Str
  number : Memory.Decimal
  unit : Scale
  gap_ne : gap ≠ []
  gap_blank : ∀ c ∈ gap, isSpace c = true

def Printed.text (x : Printed) : Str :=
  ("NDR(s) uni-directional".toList ++ (x.gap ++ ":".toList)) ++
    (x.number.whole ++ '.' :: (x.number.fraction ++ x.unit.text.toList))

theorem Printed.findall_text (x : Printed) :
    findall (ndr x.unit.text) x.text = [[x.number.text]] := by
  have hhead : Pattern.Takes (Pattern.lit "NDR(s) uni-directional" ++ (Pattern.plus .space ++
      Pattern.lit ":")) ("NDR(s) uni-directional".toList ++ (x.gap ++ ":".toList)) [] [] :=
    (takes_lit _).append (takes_plus_lit x.gap_ne x.gap_blank ":" ⟨':', [], rfl, rfl⟩)
  have hstops : Stops x.unit.text.toList := by
    obtain ⟨t, ht⟩ := x.unit.text_eq_cons
    rw [ht]
    exact stops_cons (by decide) t
  have hunit : matchAt (Pattern.lit x.unit.text) x.unit.text.toList ⟨none, [] ++ [x.number.text]⟩ =
      some (⟨none, [x.number.text]⟩, []) := by
    have hlit := matchAt_lit_end x.unit.text [] [x.number.text]
    rwa [List.append_nil] at hlit
  have hmatch : matchAt (ndr x.unit.text) (x.text ++ []) .start =
      some (⟨none, [x.number.text]⟩, []) := by
    have hnumber := matchAt_group_decimal_append x.number.whole_ne x.number.whole_digits
      x.number.fraction_ne x.number.fraction_digits hstops hunit
    have hshape : ndr x.unit.text = (Pattern.lit "NDR(s) uni-directional" ++ (Pattern.plus .space ++
        Pattern.lit ":")) ++ (Pattern.group Pattern.decimal ++ Pattern.lit x.unit.text) := by
      simp only [ndr, List.append_assoc]
    have hall := hhead _ _ _ hnumber
    rw [← hshape] at hall
    rw [List.append_nil]
    exact hall
  have hne : x.text ≠ [] :=
    List.append_ne_nil_of_left_ne_nil (List.append_ne_nil_of_left_ne_nil (by decide) _) _
  have hfind := findall_append hne hmatch
  rw [List.append_nil] at hfind
  rw [hfind, findall_eq_nil_of_not_mem (c := 'N') (by simp [ndr, Pattern.lit]) List.not_mem_nil]

/-- A line in Mbps has no letter of the other unit. -/
theorem Printed.not_mem_text (x : Printed) (h : x.unit = .mbps) : 'G' ∉ x.text := by
  have hdigits : ∀ w : Str, (∀ c ∈ w, c.isDigit = true) → 'G' ∉ w :=
    fun w hw hmem => absurd (hw 'G' hmem) (by decide)
  have hgap : 'G' ∉ x.gap := fun hmem => absurd (x.gap_blank 'G' hmem) (by decide)
  have hlabel : 'G' ∉ "NDR(s) uni-directional".toList := by decide
  have hunit : 'G' ∉ Scale.mbps.text.toList := by decide
  unfold text
  rw [h]
  simp only [List.mem_append, List.mem_cons, not_or]
  exact ⟨⟨hlabel, hgap, by decide⟩, hdigits _ x.number.whole_digits, by decide,
    hdigits _ x.number.fraction_digits, hunit⟩

/-- The rate of such a line is the one that is printed. -/
theorem Printed.rate_text (x : Printed) :
    rate x.text = some ⟨(natVal (x.number.whole ++ x.number.fraction) : ℚ) /
      10 ^ x.number.fraction.length, x.unit⟩ := by
  have hown : rateIn x.unit x.text = some ⟨printed x.number.text, x.unit⟩ := by
    rw [rateIn, x.findall_text]
    rfl
  rw [← printed_decimal x.number.whole_digits, rate]
  match hunit : x.unit with
  | .gbps =>
      rw [hunit] at hown
      rw [hown]
      rfl
  | .mbps =>
      have hnone : rateIn .gbps x.text = none := by
        refine rateIn_of_nil (findall_eq_nil_of_not_mem (c := 'G') (by decide) ?_)
        exact x.not_mem_text hunit
      rw [hunit] at hown
      rw [hnone, hown]
      rfl

/-! ### The loop over the lines -/

section Loop

variable {F : Type} [PyFloat F]

/-- What is recorded of some rates: the numbers. -/
def recorded (rs : List Rate) : List (Str × F) :=
  rs.map fun r => ("trex_ndr".toList, PyFloat.lit r.number)

/-- What a line adds to the samples. -/
def entries (l : Str) : List (Str × F) := recorded (rate l).toList

theorem line_eq (d : Samples F) (l : Str) : line d l = some (appendAll d (entries l)) := by
  have happend : ∀ t : Str, Pattern.Fits Pattern.decimal t →
      (do some (appendSample d "trex_ndr".toList (← PyFloat.ofStr (← [t][0]?)))) =
        some (appendSample d "trex_ndr".toList (PyFloat.lit (printed t))) := by
    intro t ht
    show (PyFloat.ofStr t).bind _ = _
    rw [ofStr_printed ht]
    rfl
  rw [line, entries, rate]
  match hg : findall (ndr " Gbps") l with
  | r :: rest =>
      obtain ⟨t, rfl, ht, hrate⟩ := rateIn_of_match (u := .gbps) hg
      rw [hrate]
      exact happend t ht
  | [] =>
      rw [rateIn_of_nil (u := .gbps) hg]
      match hm : findall (ndr " Mbps") l with
      | r :: rest =>
          obtain ⟨t, rfl, ht, hrate⟩ := rateIn_of_match (u := .mbps) hm
          rw [hrate]
          exact happend t ht
      | [] =>
          rw [rateIn_of_nil (u := .mbps) hm]
          rfl

/-- The samples collected from a log. -/
def samples (data : Str) : Option (List F) :=
  ((data.splitOn '\n').foldlM line .empty).bind fun res => res.get? "trex_ndr".toList

theorem foldlM_line (data : Str) :
    (data.splitOn '\n').foldlM line (.empty : Samples F) =
      some (appendAll .empty (recorded (rates data))) := by
  rw [foldlM_eq_foldl fun l _ d => line_eq d l, foldl_appendAll]
  refine congrArg (fun es => some (appendAll _ es)) ?_
  rw [rates]
  induction data.splitOn '\n' with
  | nil => rfl
  | cons l ls ih =>
      rw [List.flatMap_cons, ih, entries, List.filterMap_cons]
      cases rate l with
      | none => rfl
      | some r => rfl

variable {rs : List Rate}

theorem key_of_mem_recorded {e : Str × F} (h : e ∈ recorded rs) : e.1 = "trex_ndr".toList := by
  obtain ⟨r, -, rfl⟩ := List.mem_map.mp h
  rfl

theorem get?_recorded (h : rs ≠ []) :
    (appendAll .empty (recorded rs)).get? "trex_ndr".toList =
      some ((rs.map Rate.number).map (PyFloat.lit : ℚ → F)) := by
  have hat : samplesAt "trex_ndr".toList (recorded rs) =
      (rs.map Rate.number).map (PyFloat.lit : ℚ → F) := by
    rw [samplesAt, List.filter_eq_self.mpr fun e he => decide_eq_true (key_of_mem_recorded he),
      recorded, List.map_map, List.map_map]
    rfl
  rw [get?_appendAll, hat, if_neg (by simpa using h)]
  rfl

theorem mem_keys_recorded {k : Str}
    (h : k ∈ (appendAll .empty (recorded rs : List (Str × F))).keys) :
    k = "trex_ndr".toList := by
  obtain ⟨v, hv⟩ := Dict.mem_keys_iff.mp h
  rw [get?_appendAll] at hv
  split at hv
  · cases hv
  · rename_i hne
    obtain ⟨x, hx⟩ := List.exists_mem_of_ne_nil _ hne
    exact key_of_mem_recorded (mem_samplesAt.mp hx)

theorem samples_eq {data : Str} (h : rates data ≠ []) :
    samples data = some (((rates data).map Rate.number).map (PyFloat.lit : ℚ → F)) := by
  rw [samples, foldlM_line]
  exact get?_recorded h

/-- What is reported is the mean of the printed numbers, whatever their units. -/
theorem readTrexNdr_reported [Sorting] (order : Enumeration Str) {data : Str}
    (h : rates data ≠ []) :
    ∃ out : Result F, readTrexNdr order data = some out ∧ out.get? "trex_ndr".toList =
      some (.flt (PyFloat.average (rejectOutliers
        (((rates data).map Rate.number).map PyFloat.lit)))) := by
  have hne : rejectOutliers (((rates data).map Rate.number).map (PyFloat.lit : ℚ → F)) ≠ [] :=
    rejectOutliers_ne_nil (by simpa using h)
  rw [readTrexNdr, foldlM_line]
  refine ⟨_, by rw [Option.bind_eq_bind, Option.bind_some, get?_recorded h]; rfl, ?_⟩
  rw [get?_averagesOut order (Dict.get?_set_self _ _ _), if_neg (by simpa using hne)]
  intro k hk
  rw [Dict.mem_keys_set] at hk
  have hkey : k = "trex_ndr".toList := hk.elim id mem_keys_recorded
  rw [hkey]
  exact stdName_ne _

end Loop

theorem readTrexNdr_exact [Sorting] (order : Enumeration Str) {data : Str}
    (h : rates data ≠ []) :
    ∃ out : Result Exact, readTrexNdr order data = some out ∧ out.get? "trex_ndr".toList =
      some (.flt (.fin (Stats.mean (trimmed ((rates data).map Rate.number))))) := by
  have hne : trimmed ((rates data).map Rate.number) ≠ [] := by
    intro hnil
    have htrim := rejectOutliers_map_fin ((rates data).map Rate.number)
    rw [hnil] at htrim
    exact rejectOutliers_ne_nil (by simpa using h) htrim
  obtain ⟨out, hout, hget⟩ := readTrexNdr_reported (F := Exact) order h
  refine ⟨out, hout, ?_⟩
  rw [hget]
  show some (Value.flt (PyFloat.average (rejectOutliers (List.map Exact.fin _)))) = _
  rw [rejectOutliers_map_fin, average_map_fin hne]

/-! ### One unit -/

/-- Every rate but the zeros is printed in one unit. -/
def OneUnit (rs : List Rate) : Prop := ∃ u, ∀ r ∈ rs, r.number ≠ 0 → r.unit = u

/-- A number that is not zero is the rate in its own unit and in no other. -/
theorem eq_per_iff {c : ℚ} (hc : 0 < c) {r : Rate} :
    r.number = r.per c ↔ (r.number ≠ 0 → r.unit.factor = c) := by
  rw [Rate.per, eq_div_iff hc.ne', mul_eq_mul_left_iff]
  constructor
  · intro h hne
    exact (h.resolve_right hne).symm
  · intro h
    by_cases hne : r.number = 0
    · exact .inr hne
    · exact .inl (h hne).symm

/-- The numbers are the rates in a common unit exactly if there is one unit. -/
theorem oneUnit_iff (rs : List Rate) :
    (∃ c : ℚ, 0 < c ∧ rs.map Rate.number = rs.map (Rate.per c)) ↔ OneUnit rs := by
  constructor
  · rintro ⟨c, hc, hmap⟩
    have hunit : ∀ r ∈ rs, r.number ≠ 0 → r.unit.factor = c :=
      fun r hr => (eq_per_iff hc).mp (List.map_inj_left.mp hmap r hr)
    by_cases hzero : ∃ r ∈ rs, r.number ≠ 0
    · obtain ⟨r, hr, hne⟩ := hzero
      refine ⟨r.unit, fun r' hr' hne' => Scale.factor_injective ?_⟩
      rw [hunit r hr hne, hunit r' hr' hne']
    · exact ⟨.mbps, fun r hr hne => absurd ⟨r, hr, hne⟩ hzero⟩
  · rintro ⟨u, hu⟩
    refine ⟨u.factor, u.factor_pos, List.map_inj_left.mpr fun r hr => ?_⟩
    refine (eq_per_iff u.factor_pos).mpr fun hne => ?_
    rw [hu r hr hne]

end TrexNdr

/--
**`read_trex_ndr` averages rates of a common unit exactly if all rates but the zeros are printed
in one.**

What is recorded and averaged, the printed numbers, is the same for every floating-point type.
-/
theorem readTrexNdr_unit_iff {F : Type} [PyFloat F] [Sorting] (order : Enumeration Str)
    (data : Str) (hrates : TrexNdr.rates data ≠ []) :
    ((∃ (c : ℚ) (xs : List ℚ) (out : Result Exact), 0 < c ∧
      xs = (TrexNdr.rates data).map (TrexNdr.Rate.per c) ∧
      TrexNdr.samples data = some (xs.map Exact.fin) ∧
      (∀ (i j : Nat) (r r' : TrexNdr.Rate) (x x' : ℚ), (TrexNdr.rates data)[i]? = some r →
        (TrexNdr.rates data)[j]? = some r' → xs[i]? = some x → xs[j]? = some x' →
        (x < x' ↔ r.per 1 < r'.per 1)) ∧
      readTrexNdr order data = some out ∧
      out.get? "trex_ndr".toList = some (.flt (.fin (Stats.mean (trimmed xs))))) ↔
    TrexNdr.OneUnit (TrexNdr.rates data)) ∧
    ∃ (xs : List F) (out : Result F),
      xs = ((TrexNdr.rates data).map TrexNdr.Rate.number).map PyFloat.lit ∧
      TrexNdr.samples data = some xs ∧ readTrexNdr order data = some out ∧
      out.get? "trex_ndr".toList = some (.flt (PyFloat.average (rejectOutliers xs))) := by
  rw [← TrexNdr.oneUnit_iff]
  refine ⟨⟨?_, ?_⟩, ?_⟩
  · rintro ⟨c, xs, -, hc, rfl, hsamples, -⟩
    rw [TrexNdr.samples_eq hrates, Option.some.injEq] at hsamples
    exact ⟨c, hc, List.map_injective_iff.mpr (fun p q h => by cases h; rfl) hsamples⟩
  · rintro ⟨c, hc, hmap⟩
    obtain ⟨out, hout, hreported⟩ := TrexNdr.readTrexNdr_exact order hrates
    refine ⟨c, (TrexNdr.rates data).map (TrexNdr.Rate.per c), out, hc, rfl, ?_, ?_, hout, ?_⟩
    · rw [← hmap]
      exact TrexNdr.samples_eq hrates
    · intro i j r r' x x' hr hr' hx hx'
      rw [List.getElem?_map, hr] at hx
      rw [List.getElem?_map, hr'] at hx'
      cases hx
      cases hx'
      exact TrexNdr.per_lt_per_iff hc
    · rw [← hmap]
      exact hreported
  · obtain ⟨out, hout, hreported⟩ := TrexNdr.readTrexNdr_reported (F := F) order hrates
    exact ⟨_, out, rfl, TrexNdr.samples_eq hrates, hout, hreported⟩

section Logs

open scoped Sorting.Insertion

def gigabitLog : Str :=
  "NDR(s) uni-directional            :5.36 Gbps\n".toList ++
    "NDR(s) uni-directional            :5.40 Gbps".toList

theorem readTrexNdr_unit_gigabits :
    ∃ (c : ℚ) (out : Result Exact), 0 < c ∧
      TrexNdr.samples gigabitLog =
        some ((TrexNdr.rates gigabitLog).map fun r => Exact.fin (r.per c)) ∧
      readTrexNdr (.insertion Str) gigabitLog = some out := by
  have hrates : TrexNdr.rates gigabitLog = [⟨134 / 25, .gbps⟩, ⟨27 / 5, .gbps⟩] := by
    decide +kernel
  have hunit : TrexNdr.OneUnit (TrexNdr.rates gigabitLog) := by
    rw [hrates]
    refine ⟨.gbps, ?_⟩
    decide +kernel
  have hne : TrexNdr.rates gigabitLog ≠ [] := by
    rw [hrates]
    exact List.cons_ne_nil _ _
  obtain ⟨c, xs, out, hc, rfl, hsamples, -, hout, -⟩ :=
    (readTrexNdr_unit_iff (F := Exact) (.insertion Str) gigabitLog hne).1.mpr hunit
  rw [List.map_map] at hsamples
  exact ⟨c, out, hc, hsamples, hout⟩

def mixedLog : Str :=
  "NDR(s) uni-directional            :5.36 Gbps\n".toList ++
    "NDR(s) uni-directional            :127.03 Mbps".toList

/-- A rate of 127.03 Mbps is recorded above one of 5.36 Gbps, and 66.195 is reported. -/
theorem readTrexNdr_mixed_units :
    TrexNdr.rates mixedLog = [⟨134 / 25, .gbps⟩, ⟨12703 / 100, .mbps⟩] ∧
    TrexNdr.samples mixedLog = some [Exact.fin (134 / 25), .fin (12703 / 100)] ∧
    (∀ order, ∃ out : Result Exact, readTrexNdr order mixedLog = some out ∧
      out.get? "trex_ndr".toList = some (.flt (.fin (13239 / 200)))) ∧
    ¬ ∃ c : ℚ, 0 < c ∧ TrexNdr.samples mixedLog =
      some ((TrexNdr.rates mixedLog).map fun r => Exact.fin (r.per c)) := by
  have hrates : TrexNdr.rates mixedLog = [⟨134 / 25, .gbps⟩, ⟨12703 / 100, .mbps⟩] := by
    decide +kernel
  have hne : TrexNdr.rates mixedLog ≠ [] := by
    rw [hrates]
    exact List.cons_ne_nil _ _
  have hsamples : TrexNdr.samples mixedLog = some [Exact.fin (134 / 25), .fin (12703 / 100)] := by
    rw [TrexNdr.samples_eq hne, hrates]
    rfl
  refine ⟨hrates, hsamples, fun order => ?_, ?_⟩
  · obtain ⟨out, hout, hreported⟩ := TrexNdr.readTrexNdr_exact order hne
    refine ⟨out, hout, hreported.trans ?_⟩
    rw [hrates]
    decide +kernel
  · rintro ⟨c, hc, hin⟩
    rw [hsamples, hrates] at hin
    simp only [List.map_cons, List.map_nil, TrexNdr.Rate.per, TrexNdr.Scale.factor,
      Option.some.injEq, List.cons.injEq, Exact.fin.injEq, and_true] at hin
    obtain ⟨hgbps, hmbps⟩ := hin
    rw [eq_div_iff hc.ne'] at hgbps hmbps
    linarith

end Logs

end Nicmem
