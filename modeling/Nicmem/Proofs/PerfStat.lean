/-
What `read_perf_stat` makes of events that were not counted.

In place of a value `perf stat` prints a marker for an event it could not count.  The
reader takes what is no integer for a decimal number, so a marker raises and nothing of
the log is returned.  Without markers every event gets its mean and its deviation, as
long as no event is called like another one with `_std`: the averages are kept in the
dictionary that is being worked off, and then one of the two overwrites the other.  What is
left for that one is the integer zero, which is not the float `0.0` of a mean.
-/
import Nicmem.Proofs.Collected
import Nicmem.Proofs.Keys
import Nicmem.Proofs.MemoryLayout

namespace Nicmem

open Python

namespace PerfStat

/-! ### Lines of a log -/

/-- The value field of an event. -/
inductive Field where
  | integer (negative : Bool) (digits : Str) (ne : digits ≠ [])
      (isDigit : ∀ c ∈ digits, c.isDigit = true)
  | decimal (negative : Bool) (number : Memory.Decimal)
  | notCounted
  | notSupported

def signed (negative : Bool) (s : Str) : Str := if negative then '-' :: s else s

def Field.text : Field → Str
  | .integer negative digits _ _ => signed negative digits
  | .decimal negative number => signed negative number.text
  | .notCounted => "<not counted>".toList
  | .notSupported => "<not supported>".toList

/-- The rational number a decimal text denotes. -/
def decimalValue (d : Memory.Decimal) : ℚ :=
  (natVal (d.whole ++ d.fraction) : ℚ) / 10 ^ d.fraction.length

/-- The number in the field; a marker is none. -/
def Field.value : Field → Option ℚ
  | .integer negative digits _ _ => some (if negative then -(natVal digits : ℚ) else natVal digits)
  | .decimal negative number =>
    some (if negative then -decimalValue number else decimalValue number)
  | .notCounted => none
  | .notSupported => none

/-- The number in the field as it is recorded. -/
def Field.float (F : Type) [PyFloat F] : Field → Option F
  | .integer negative digits _ _ =>
      some (PyFloat.lit (if negative then -(natVal digits : ℚ) else natVal digits))
  | .decimal negative number => PyFloat.ofStr (signed negative number.text)
  | .notCounted => none
  | .notSupported => none

/-- A line of seven fields. -/
structure Event where
  value : Field
  unit : Str
  name : Str
  run : Str
  percent : Str
  metric : Str
  metricUnit : Str
  sound : ∀ s ∈ [unit, name, run, percent, metric, metricUnit], ',' ∉ s ∧ '\n' ∉ s

def Event.fields (e : Event) : List Str :=
  [e.value.text, e.unit, e.name, e.run, e.percent, e.metric, e.metricUnit]

def Event.text (e : Event) : Str := List.intercalate [','] e.fields

/-- The key the event is recorded under. -/
def Event.key (e : Event) : Str := "perf_".toList ++ e.name

inductive Line where
  | comment (s : Str) (newline : '\n' ∉ s)
  | short (s : Str) (length : s.length < 5) (newline : '\n' ∉ s)
  | event (e : Event)

def Line.text : Line → Str
  | .comment s _ => '#' :: s
  | .short s _ _ => s
  | .event e => e.text

def logText (lines : List Line) : Str := List.intercalate ['\n'] (lines.map Line.text)

/-! ### Values -/

theorem plain_decimal (d : Memory.Decimal) : plain d.text = true := by
  simp only [plain, Bool.and_eq_true, Bool.not_eq_true', List.isEmpty_eq_false_iff,
    List.all_eq_true, Memory.Decimal.text]
  refine ⟨List.append_ne_nil_of_left_ne_nil d.whole_ne _, fun c hc => ?_⟩
  rcases List.mem_append.mp hc with hc | hc
  · exact plainChar_of_isDigit (d.whole_digits c hc)
  · rcases List.mem_cons.mp hc with rfl | hc
    · decide
    · exact plainChar_of_isDigit (d.fraction_digits c hc)

theorem parseNumeral_signed (negative : Bool) (d : Memory.Decimal) :
    parseNumeral (signed negative d.text) = some (.decimal negative (decimalValue d)) := by
  have hboth := parseNumeral_point d.whole_ne d.whole_digits d.fraction_digits
  cases negative with
  | false => exact hboth.1
  | true => exact hboth.2

/-- Without rounding a field is recorded as its number. -/
theorem Field.float_exact (f : Field) : f.float Exact = f.value.map Exact.fin := by
  cases f with
  | integer negative digits hne hdigits => rfl
  | decimal negative d => exact Exact.ofStr_numeral _ _ _ (parseNumeral_signed negative d)
  | notCounted => rfl
  | notSupported => rfl

theorem Field.float_eq_none_iff {F : Type} [PyFloat F] (f : Field) :
    f.float F = none ↔ f.value = none := by
  cases f with
  | integer negative digits hne hdigits => simp [float, value]
  | decimal negative d =>
      have hsome := PyFloat.isSome_ofStr (F := F) (signed negative d.text)
      rw [parseNumeral_signed, Option.isSome_some, Option.isSome_iff_ne_none] at hsome
      exact ⟨fun h => absurd h hsome, fun h => absurd h (Option.some_ne_none _)⟩
  | notCounted => exact ⟨fun _ => rfl, fun _ => rfl⟩
  | notSupported => exact ⟨fun _ => rfl, fun _ => rfl⟩

theorem plain_signed {s : Str} (h : plain s = true) (negative : Bool) :
    plain (signed negative s) = true := by
  cases negative with
  | false => exact h
  | true => exact plain_minus h

section Samples

variable {F : Type} [PyFloat F]

theorem number_of_parseInt {val : Str} {n : Int} (h : parseInt val = some n) :
    (number val : Option F) = some (PyFloat.lit n) := by
  rw [number, h]

theorem number_of_parseInt_eq_none {val : Str} (h : parseInt val = none) :
    (number val : Option F) = PyFloat.ofStr val := by
  rw [number, h]

/-- A text that is no number at all. -/
theorem number_eq_none {val : Str} (hint : parseInt val = none) (h : parseNumeral val = none) :
    (number val : Option F) = none := by
  have hnone := PyFloat.isSome_ofStr (F := F) val
  rw [h, Option.isSome_none, Option.isSome_eq_false_iff, Option.isNone_iff_eq_none] at hnone
  rw [number_of_parseInt_eq_none hint, hnone]

/-- What the reader takes from a value field. -/
theorem number_text (f : Field) : number f.text = f.float F := by
  cases f with
  | integer negative digits hne hdigits =>
      cases negative with
      | false =>
          refine (number_of_parseInt (parseInt_digits hne hdigits)).trans ?_
          exact congrArg (fun q => some (PyFloat.lit q)) (Int.cast_natCast _)
      | true =>
          refine (number_of_parseInt (parseInt_minus hne hdigits)).trans ?_
          refine congrArg (fun q => some (PyFloat.lit q)) ?_
          rw [Int.cast_neg, Int.cast_natCast]
          rfl
  | decimal negative d =>
      have hpoint : '.' ∈ signed negative d.text := by
        cases negative <;> simp [signed, Memory.Decimal.text]
      have hparse := parseInt_eq_none (plain_signed (plain_decimal d) negative) hpoint
      exact number_of_parseInt_eq_none hparse
  | notCounted => exact number_eq_none (by decide) (by decide)
  | notSupported => exact number_eq_none (by decide) (by decide)

theorem Field.sound (f : Field) : ',' ∉ f.text ∧ '\n' ∉ f.text := by
  have hplain : ∀ s, plain s = true → ',' ∉ s ∧ '\n' ∉ s := by
    intro s hs
    simp only [plain, Bool.and_eq_true, List.all_eq_true] at hs
    exact ⟨fun h => absurd (hs.2 _ h) (by decide), fun h => absurd (hs.2 _ h) (by decide)⟩
  cases f with
  | integer negative digits hne hdigits =>
      exact hplain _ (plain_signed (plain_of_digits hne hdigits) negative)
  | decimal negative d => exact hplain _ (plain_signed (plain_decimal d) negative)
  | notCounted => decide
  | notSupported => decide

/-! ### The loop over the lines -/

/-- What a line adds to the samples. -/
def entries (l : Str) : Option (List (Str × F)) :=
  if skipped l then some []
  else match l.splitOn ',' with
    | [val, _, name, _, _, _, _] => (number val).map fun x => [("perf_".toList ++ name, x)]
    | _ => none

theorem line_eq (d : Samples F) (l : Str) : line d l = (entries l).map (appendAll d) := by
  unfold line entries
  split
  · rfl
  · generalize l.splitOn ',' = fields
    match fields with
    | [val, _, name, _, _, _, _] =>
        show (number val).bind _ = ((number val).map _).map _
        cases (number val : Option F) with
        | none => rfl
        | some x => rfl
    | [] | [_] | [_, _] | [_, _, _] | [_, _, _, _] | [_, _, _, _, _] | [_, _, _, _, _, _] => rfl
    | _ :: _ :: _ :: _ :: _ :: _ :: _ :: _ :: _ => rfl

/-- The sample of an event; one that was not counted has none. -/
def Event.sample (e : Event) : Option (Str × F) :=
  (e.value.float F).map fun x => (e.key, x)

/-- What a line adds, or that it cannot be read. -/
def Line.adds : Line → Option (List (Str × F))
  | .event e => e.sample.map fun s => [s]
  | _ => some []

theorem Event.sound_fields (e : Event) : ∀ s ∈ e.fields, ',' ∉ s ∧ '\n' ∉ s := by
  intro s hs
  rcases List.mem_cons.mp hs with rfl | hs
  · exact e.value.sound
  · exact e.sound s hs

theorem Event.splitOn_text (e : Event) : e.text.splitOn ',' = e.fields :=
  List.splitOn_intercalate _ (fun s hs => (e.sound_fields s hs).1) (List.cons_ne_nil _ _)

theorem Field.head_text (f : Field) : ∃ c s, f.text = c :: s ∧ c ≠ '#' := by
  have hdigits : ∀ (negative : Bool) (w u : Str), w ≠ [] → (∀ c ∈ w, c.isDigit = true) →
      ∃ c s, signed negative (w ++ u) = c :: s ∧ c ≠ '#' := by
    intro negative w u hne hw
    cases negative with
    | true => exact ⟨'-', w ++ u, rfl, by decide⟩
    | false =>
        obtain ⟨c, w, rfl⟩ := List.exists_cons_of_ne_nil hne
        refine ⟨c, w ++ u, rfl, ?_⟩
        rintro rfl
        exact absurd (hw '#' List.mem_cons_self) (by decide)
  cases f with
  | integer negative digits hne hw =>
      have hall := hdigits negative digits [] hne hw
      rw [List.append_nil] at hall
      exact hall
  | decimal negative d => exact hdigits negative d.whole _ d.whole_ne d.whole_digits
  | notCounted => exact ⟨'<', "not counted>".toList, rfl, by decide⟩
  | notSupported => exact ⟨'<', "not supported>".toList, rfl, by decide⟩

/-- An event is not passed over. -/
theorem Event.not_skipped (e : Event) : skipped e.text = false := by
  have hlen : 6 ≤ e.text.length := by
    simp [text, fields, List.intercalate, List.intersperse]
    omega
  have hhead : "#".toList.isPrefixOf e.text = false := by
    obtain ⟨c, s, hc, hne⟩ := e.value.head_text
    rw [text, fields, List.intercalate_cons_cons, hc]
    show ('#' == c && _) = false
    rw [beq_eq_false_iff_ne.mpr (Ne.symm hne), Bool.false_and]
  rw [skipped, hhead, Bool.false_or, decide_eq_false_iff_not]
  omega

theorem Line.newline_text (l : Line) : '\n' ∉ l.text := by
  cases l with
  | comment s newline => simpa [text] using newline
  | short s length newline => exact newline
  | event e =>
      intro hmem
      obtain ⟨piece, hpiece, hin⟩ := exists_mem_splitOn ',' (by decide) hmem
      rw [show (Line.event e).text = e.text from rfl, e.splitOn_text] at hpiece
      exact (e.sound_fields piece hpiece).2 hin

theorem Line.entries_text (l : Line) : entries l.text = (l.adds : Option (List (Str × F))) := by
  cases l with
  | comment s newline => rfl
  | short s length newline =>
      have hskip : skipped s = true := by
        rw [skipped, decide_eq_true length, Bool.or_true]
      exact if_pos hskip
  | event e =>
      show entries e.text = _
      rw [entries, e.not_skipped, if_neg Bool.false_ne_true, e.splitOn_text, Event.fields]
      simp only [number_text]
      rw [Line.adds, Event.sample]
      cases e.value.float F with
      | none => rfl
      | some x => rfl

/-- The samples of a log. -/
theorem samples_logText (lines : List Line) :
    ((logText lines).splitOn '\n').foldlM line (.empty : Samples F) =
      (lines.mapM Line.adds).map fun ess => appendAll .empty ess.flatten :=
  foldlM_intercalate line_eq Line.newline_text Line.entries_text rfl lines .empty

/-- No event of the log was left uncounted. -/
def Counted (lines : List Line) : Prop := ∀ e, Line.event e ∈ lines → e.value.value ≠ none

/-- The number a line records for a key. -/
def Line.sample (k : Str) : Line → Option F
  | .event e => if e.key = k then e.value.float F else none
  | _ => none

/-- The numbers of a key. -/
def samples (lines : List Line) (k : Str) : List F := lines.filterMap (Line.sample k)

theorem exists_float {lines : List Line} (h : Counted lines) {e : Event}
    (he : Line.event e ∈ lines) : ∃ x : F, e.value.float F = some x :=
  Option.ne_none_iff_exists'.mp fun hnone => h e he ((Field.float_eq_none_iff _).mp hnone)

theorem mapM_adds_of_counted {lines : List Line} (h : Counted lines) :
    lines.mapM Line.adds =
      some (lines.map fun l => (l.adds : Option (List (Str × F))).getD []) := by
  refine mapM_eq_some_map lines _ _ fun l hl => ?_
  cases l with
  | event e =>
      obtain ⟨x, hx⟩ := exists_float (F := F) h hl
      rw [Line.adds, Event.sample, hx]
      rfl
  | comment s newline => rfl
  | short s length newline => rfl

theorem counted_of_mapM_adds {lines : List Line} {ess : List (List (Str × F))}
    (h : lines.mapM Line.adds = some ess) : Counted lines := by
  intro e he hnone
  obtain ⟨es, hes⟩ := exists_eq_some_of_mapM h he
  rw [Line.adds, Event.sample, (Field.float_eq_none_iff _).mpr hnone] at hes
  cases hes

/-- The samples of a log without markers. -/
def logSamples (lines : List Line) : Samples F :=
  appendAll .empty (lines.map fun l => l.adds.getD []).flatten

theorem samplesAt_adds (lines : List Line) (k : Str) :
    samplesAt k (lines.map fun l => l.adds.getD []).flatten = (samples lines k : List F) := by
  have hline : ∀ l : Line, samplesAt k (l.adds.getD []) = (l.sample k : Option F).toList := by
    intro l
    cases l with
    | comment s newline => rfl
    | short s length newline => rfl
    | event e =>
        rw [Line.adds, Event.sample, Line.sample]
        cases e.value.float F with
        | none => simp [samplesAt]
        | some x =>
            by_cases hk : e.key = k
            · simp [samplesAt, hk]
            · simp [samplesAt, hk]
  induction lines with
  | nil => rfl
  | cons l lines ih =>
      rw [List.map_cons, List.flatten_cons, samplesAt_append, ih, hline, samples, samples,
        List.filterMap_cons]
      cases (l.sample k : Option F) with
      | none => rfl
      | some x => rfl

theorem get?_logSamples {lines : List Line} {k : Str} {v : List F} :
    (logSamples lines).get? k = some v ↔ samples lines k = v ∧ v ≠ [] := by
  rw [logSamples, get?_appendAll, samplesAt_adds]
  by_cases hnil : (samples lines k : List F) = []
  · rw [if_pos hnil, hnil]
    constructor
    · intro hnone
      cases hnone
    · rintro ⟨rfl, hne⟩
      exact absurd rfl hne
  · rw [if_neg hnil, Option.some_inj]
    constructor
    · rintro rfl
      exact ⟨rfl, hnil⟩
    · exact fun hv => hv.1

theorem samples_ne_nil_iff {lines : List Line} (h : Counted lines) {k : Str} :
    (samples lines k : List F) ≠ [] ↔ ∃ e, Line.event e ∈ lines ∧ e.key = k := by
  constructor
  · intro hne
    obtain ⟨x, hx⟩ := List.exists_mem_of_ne_nil _ hne
    obtain ⟨l, hl, hsample⟩ := List.mem_filterMap.mp hx
    cases l with
    | comment s newline => cases hsample
    | short s length newline => cases hsample
    | event e =>
        rw [Line.sample] at hsample
        split at hsample
        · rename_i hk
          exact ⟨e, hl, hk⟩
        · cases hsample
  · rintro ⟨e, he, rfl⟩
    obtain ⟨x, hx⟩ := exists_float (F := F) h he
    have hsample : Line.sample e.key (.event e) = some x := by
      rw [Line.sample, if_pos rfl, hx]
    exact List.ne_nil_of_mem (List.mem_filterMap.mpr ⟨.event e, he, hsample⟩)

theorem mem_keys_logSamples {lines : List Line} (h : Counted lines) {k : Str} :
    k ∈ (logSamples lines : Samples F).keys ↔ ∃ e, Line.event e ∈ lines ∧ e.key = k := by
  rw [← samples_ne_nil_iff (F := F) h, Dict.mem_keys_iff]
  constructor
  · rintro ⟨v, hv⟩
    obtain ⟨rfl, hne⟩ := get?_logSamples.mp hv
    exact hne
  · intro hne
    exact ⟨_, get?_logSamples.mpr ⟨rfl, hne⟩⟩

end Samples

/-! ### The loop over the events -/

section Averages

variable {F : Type} [PyFloat F]

/-- What an event with samples is averaged to. -/
theorem averages_of_samples [Sorting] {d : Dict Str (Entry F)} {k : Str} {v : List F}
    (hk : d.get? k = some (.samples v)) (hne : v ≠ []) :
    averages d k = some ((d.set (stdName k) (.number (.flt (PyFloat.std (rejectOutliers v))))).set k
      (.number (.flt (PyFloat.average (rejectOutliers v))))) := by
  cases v with
  | nil => exact absurd rfl hne
  | cons x v => simp only [averages, hk]

/-- An event that holds a deviation already is reset. -/
theorem averages_of_number [Sorting] {d : Dict Str (Entry F)} {k : Str} {x : F}
    (hk : d.get? k = some (.number (.flt x))) :
    averages d k = some ((d.set (stdName k) (.number (.int 0))).set k (.number (.int 0))) := by
  simp only [averages, hk]

/-- The entries of the other events stay. -/
theorem averages_frame [Sorting] {d d' : Dict Str (Entry F)} {k j : Str}
    (h : averages d k = some d')
    (hk : j ≠ k) (hstd : j ≠ stdName k) : d'.get? j = d.get? j := by
  have hset : ∀ v w : Entry F, ((d.set (stdName k) v).set k w).get? j = d.get? j := by
    intro v w
    rw [Dict.get?_set_ne _ _ hk, Dict.get?_set_ne _ _ hstd]
  unfold averages at h
  split at h
  · cases h
    exact hset _ _
  · cases h
    exact hset _ _
  · cases h
    exact hset _ _
  · cases h

/-- The same for the whole loop. -/
theorem averages_run_frame [Sorting] {d d' : Dict Str (Entry F)} {ks : List Str} {j : Str}
    (hj : ∀ k ∈ ks, j ≠ k ∧ j ≠ stdName k) (h : ks.foldlM averages d = some d') :
    d'.get? j = d.get? j := by
  refine foldlM_invariant (fun acc : Dict Str (Entry F) => acc.get? j = d.get? j) ?_ rfl h
  intro acc hacc k hk acc' hstep
  rw [averages_frame hstep (hj k hk).1 (hj k hk).2]
  exact hacc

/--
Where no event is another's with `_std`, the loop returns, and leaves the mean and the deviation
of every event it goes through.
-/
theorem averages_spec [Sorting] {res : Samples F} (hne : ∀ k v, res.get? k = some v → v ≠ [])
    (hstd : NoDeviation res) {ks : List Str} :
    ∀ {d : Dict Str (Entry F)}, ks.Nodup → (∀ k ∈ ks, ∃ v, res.get? k = some v ∧
      d.get? k = some (.samples v)) →
    ∃ d', ks.foldlM averages d = some d' ∧ ∀ k ∈ ks, ∀ v, res.get? k = some v →
        d'.get? k = some (.number (.flt (PyFloat.average (rejectOutliers v)))) ∧
        d'.get? (stdName k) = some (.number (.flt (PyFloat.std (rejectOutliers v)))) := by
  induction ks with
  | nil =>
      intro d _ _
      exact ⟨d, rfl, fun k hk => absurd hk List.not_mem_nil⟩
  | cons k ks ih =>
      intro d hnodup hd
      obtain ⟨hk, hnodup⟩ := List.nodup_cons.mp hnodup
      obtain ⟨v, hv, hdk⟩ := hd k List.mem_cons_self
      have hkey : ∀ k' ∈ k :: ks, k' ∈ res.keys := by
        intro k' hk'
        obtain ⟨w, hw, -⟩ := hd k' hk'
        exact Dict.mem_keys_of_get? hw
      have hkeyk := hkey k List.mem_cons_self
      have hstep := averages_of_samples hdk (hne k v hv)
      obtain ⟨d', hd', hall⟩ := ih hnodup fun k' hk' => by
        obtain ⟨w, hw, hdw⟩ := hd k' (List.mem_cons_of_mem k hk')
        refine ⟨w, hw, (averages_frame hstep ?_ ?_).trans hdw⟩
        · rintro rfl
          exact hk hk'
        · exact (hstd k hkeyk k' (hkey k' (List.mem_cons_of_mem k hk'))).symm
      refine ⟨d', by rw [List.foldlM_cons, hstep]; exact hd', fun k' hk' w hw => ?_⟩
      rcases List.mem_cons.mp hk' with rfl | hk'
      · -- the loop does not come back to what it has left for this event
        obtain rfl : v = w := Option.some.inj (hv.symm.trans hw)
        have hmean : ∀ j ∈ ks, k' ≠ j ∧ k' ≠ stdName j := by
          intro j hj
          refine ⟨?_, (hstd j (hkey j (List.mem_cons_of_mem _ hj)) k' hkeyk).symm⟩
          rintro rfl
          exact hk hj
        have hdeviation : ∀ j ∈ ks, stdName k' ≠ j ∧ stdName k' ≠ stdName j := by
          intro j hj
          refine ⟨hstd k' hkeyk j (hkey j (List.mem_cons_of_mem _ hj)), fun h => hk ?_⟩
          rw [stdName_injective h]
          exact hj
        rw [averages_run_frame hmean hd', averages_run_frame hdeviation hd', Dict.get?_set_self,
          Dict.get?_set_ne _ _ (stdName_ne k'), Dict.get?_set_self]
        exact ⟨rfl, rfl⟩
      · exact hall k' hk' w hw

/-- The loop over all events. -/
def averaged [Sorting] (order : Enumeration Str) (res : Samples F) : Option (Dict Str (Entry F)) :=
  (order.order res.keys).foldlM averages
    (Dict.ofList (res.entries.map fun e => (e.1, (.samples e.2 : Entry F))))

/-- The loop that takes the values out. -/
def values (d : Dict Str (Entry F)) : Option (Result F) :=
  d.entries.foldlM (fun out e => do some (out.set e.1 (← e.2.value))) .empty

theorem readPerfStat_eq [Sorting] (order : Enumeration Str) (data : Str) :
    (readPerfStat order data : Option (Result F)) =
      ((data.splitOn '\n').foldlM line .empty).bind fun res =>
        (averaged order res).bind values := rfl

omit [PyFloat F] in
theorem get?_start {res : Samples F} {k : Str} {v : List F} (h : res.get? k = some v) :
    (Dict.ofList (res.entries.map fun e => (e.1, (.samples e.2 : Entry F)))).get? k =
      some (.samples v) := by
  have hnodup :
      ((res.entries.map fun e => (e.1, (.samples e.2 : Entry F))).map Prod.fst).Nodup := by
    rw [List.map_map]
    exact res.nodup
  rw [Dict.get?_eq_some_iff, Dict.entries_ofList hnodup]
  exact List.mem_map.mpr ⟨(k, v), Dict.get?_eq_some_iff.mp h, rfl⟩

omit [PyFloat F] in
/-- What that loop has put in, and what it has left. -/
theorem values_run {l : List (Str × Entry F)} : ∀ {out out' : Result F}, (l.map Prod.fst).Nodup →
    l.foldlM (fun out e => do some (out.set e.1 (← e.2.value))) out = some out' →
    (∀ e ∈ l, out'.get? e.1 = e.2.value) ∧ ∀ k ∉ l.map Prod.fst, out'.get? k = out.get? k := by
  induction l with
  | nil =>
      intro out out' _ h
      cases h
      exact ⟨fun e he => absurd he List.not_mem_nil, fun _ _ => rfl⟩
  | cons e l ih =>
      intro out out' hnodup h
      rw [List.map_cons, List.nodup_cons] at hnodup
      rw [List.foldlM_cons] at h
      simp only [Option.bind_eq_bind, Option.bind_eq_some_iff, Option.some.injEq] at h
      obtain ⟨_, ⟨v, hv, rfl⟩, h⟩ := h
      obtain ⟨hall, hframe⟩ := ih hnodup.2 h
      constructor
      · intro e' he'
        rcases List.mem_cons.mp he' with rfl | he'
        · rw [hframe e'.1 hnodup.1, Dict.get?_set_self, hv]
        · exact hall e' he'
      · intro k hk
        rw [List.map_cons, List.mem_cons, not_or] at hk
        rw [hframe k hk.2, Dict.get?_set_ne _ _ hk.1]

omit [PyFloat F] in
/-- What is taken out. -/
theorem get?_values {d : Dict Str (Entry F)} {out : Result F} (h : values d = some out) {k : Str}
    {e : Entry F} (hk : d.get? k = some e) : out.get? k = e.value :=
  (values_run d.nodup h).1 (k, e) (Dict.get?_eq_some_iff.mp hk)

omit [PyFloat F] in
theorem exists_values {d : Dict Str (Entry F)} (h : ∀ k e, d.get? k = some e → ∃ v, e = .number v) :
    ∃ out, values d = some out := by
  refine ⟨d.entries.foldl (fun out e => out.set e.1 (e.2.value.getD (.int 0))) .empty, ?_⟩
  refine foldlM_eq_foldl (fun e he out => ?_) _
  obtain ⟨v, hv⟩ := h e.1 e.2 (Dict.get?_eq_some_iff.mpr he)
  rw [hv]
  rfl

/-- Events that do not clash are all averaged. -/
theorem averaged_spec [Sorting] (order : Enumeration Str) {res : Samples F}
    (hne : ∀ k v, res.get? k = some v → v ≠ []) (hstd : NoDeviation res) :
    ∃ out, (averaged order res).bind values = some out ∧ ∀ k v, res.get? k = some v →
      out.get? k = some (.flt (PyFloat.average (rejectOutliers v))) ∧
      out.get? (stdName k) = some (.flt (PyFloat.std (rejectOutliers v))) := by
  have hstart : ∀ k ∈ order.order res.keys, ∃ v, res.get? k = some v ∧
      (Dict.ofList (res.entries.map fun e => (e.1, (.samples e.2 : Entry F)))).get? k =
        some (.samples v) := by
    intro k hk
    obtain ⟨v, hv⟩ := Dict.mem_keys_iff.mp (order.mem_order.mp hk)
    exact ⟨v, hv, get?_start hv⟩
  obtain ⟨d, hd, hall⟩ := averages_spec hne hstd (order.nodup_order res.nodup_keys) hstart
  have hmem : ∀ {k v}, res.get? k = some v → k ∈ order.order res.keys := fun hv =>
    order.mem_order.mpr (Dict.mem_keys_of_get? hv)
  have hnumber : ∀ k e, d.get? k = some e → ∃ v, e = .number v := by
    intro k e he
    rcases ((averages_run hd).1 k).mp (Dict.mem_keys_of_get? he) with hk | ⟨n, hn, rfl⟩
    · obtain ⟨v, hv⟩ := Dict.mem_keys_iff.mp hk
      exact ⟨_, Option.some.inj (he.symm.trans (hall k (hmem hv) v hv).1)⟩
    · obtain ⟨v, hv⟩ := Dict.mem_keys_iff.mp hn
      exact ⟨_, Option.some.inj (he.symm.trans (hall n (hmem hv) v hv).2)⟩
  obtain ⟨out, hout⟩ := exists_values hnumber
  refine ⟨out, by rw [averaged, hd, Option.bind_some, hout], fun k v hv => ?_⟩
  obtain ⟨hmean, hdeviation⟩ := hall k (hmem hv) v hv
  exact ⟨get?_values hout hmean, get?_values hout hdeviation⟩

/-- Of two events that clash, the second is reset if the first is averaged before it. -/
theorem averaged_clash [Sorting] {res : Samples F} (hne : ∀ k v, res.get? k = some v → v ≠ [])
    {k : Str}
    (hk : k ∈ res.keys) (hstd : stdName k ∈ res.keys) {out : Result F}
    (h : (averaged ((Enumeration.first k).comp (Enumeration.first (stdName k))) res).bind values =
      some out) : out.get? (stdName k) = some (.int 0) := by
  obtain ⟨d, hd, hout⟩ := Option.bind_eq_some_iff.mp h
  have hreset : d.get? (stdName k) = some (.number (.int 0)) := by
    have hperm :=
      ((Enumeration.first k).comp (Enumeration.first (stdName k))).nodup_order res.nodup_keys
    rw [averaged] at hd
    rw [Enumeration.order_first_comp_first (stdName_ne k).symm hk hstd] at hd hperm
    obtain ⟨v, hv⟩ := Dict.mem_keys_iff.mp hk
    rw [List.foldlM_cons, averages_of_samples (get?_start hv) (hne k v hv), Option.bind_eq_bind,
      Option.bind_some, List.foldlM_cons, averages_of_number (by
        rw [Dict.get?_set_ne _ _ (stdName_ne k), Dict.get?_set_self]), Option.bind_eq_bind,
      Option.bind_some] at hd
    obtain ⟨hk', hrest⟩ := List.nodup_cons.mp hperm
    obtain ⟨hs', -⟩ := List.nodup_cons.mp hrest
    refine (averages_run_frame (fun j hj => ⟨?_, fun heq => ?_⟩) hd).trans
      (Dict.get?_set_self _ _ _)
    · rintro rfl
      exact hs' hj
    · exact hk' (List.mem_cons_of_mem _ (stdName_injective heq ▸ hj))
  exact get?_values hout hreset

end Averages

/-- No event is called like another one with `_std`. -/
def Distinct (lines : List Line) : Prop :=
  ∀ e e', Line.event e ∈ lines → Line.event e' ∈ lines → stdName e.key ≠ e'.key

theorem readPerfStat_logText {F : Type} [PyFloat F] [Sorting] (order : Enumeration Str)
    {lines : List Line} (h : Counted lines) :
    (readPerfStat order (logText lines) : Option (Result F)) =
      (averaged order (logSamples lines)).bind values := by
  rw [readPerfStat_eq, samples_logText, mapM_adds_of_counted h, Option.map_some, Option.bind_some,
    logSamples]

/-- The numbers of a key in the value fields of a log. -/
def numbers (lines : List Line) (k : Str) : List ℚ :=
  lines.filterMap fun
    | .event e => if e.key = k then e.value.value else none
    | _ => none

/-- Without rounding the samples are those numbers. -/
theorem samples_exact (lines : List Line) (k : Str) :
    (samples lines k : List Exact) = (numbers lines k).map Exact.fin := by
  rw [samples, numbers, List.map_filterMap]
  refine List.filterMap_congr fun l _ => ?_
  cases l with
  | comment s newline => rfl
  | short s length newline => rfl
  | event e =>
      rw [Line.sample]
      dsimp only
      split
      · exact e.value.float_exact
      · rfl

end PerfStat

open PerfStat

section Logs

open scoped Sorting.Insertion

def uncountedLog : Str := "5,,cycles,1,100.00,,\n<not counted>,,LLC-loads,0,0.00,,".toList

end Logs

end Nicmem
