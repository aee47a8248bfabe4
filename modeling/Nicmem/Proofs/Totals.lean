/-
What the totals of a directory are totals of.

Within one log `read_net` does add up: its total of a counter is the sum of the averages
of the names that end alike, which for the log of one interface is that interface's
counter.  Across logs nothing is added.  Every eth log writes the same eight keys and
`parse` keeps those of the log listed last, so the value is that of one interface,
and which one depends on the listing.

Which numbers are added is the same for every floating-point type; their order is not
known, so with rounding the total is one of those numbers can have.  Exact numbers have one.
An infinite or undefined total is absorbed by a sum, so the condition under which the two
agree is stated by the equation such numbers share with zero.
-/
import Nicmem.Proofs.Merge

namespace Nicmem

open Python

/-! ### The counter of one interface -/

section Interface

variable {F : Type} [PyFloat F]

/-- The numbers of a list, and zero, added up from zero in some order. -/
def IsTotal (l : List F) (x : F) : Prop :=
  ∃ l' : List F, l'.Perm (PyFloat.lit 0 :: l) ∧ x = l'.foldl PyFloat.add (PyFloat.lit 0)

theorem IsTotal.perm {l l' : List F} {x : F} (h : IsTotal l x) (hperm : l.Perm l') :
    IsTotal l' x := by
  obtain ⟨terms, hterms, hx⟩ := h
  exact ⟨terms, hterms.trans (hperm.cons _), hx⟩

theorem amount_zero : amount (.int 0 : Value F) = PyFloat.lit 0 := by
  rw [amount, Value.toFloat, Option.getD_some, Int.cast_zero]

variable [Sorting]

/-- The number printed for the average of some samples. -/
def averageOf (samples : List F) : F := amount (.str (printedAverage samples))

/-- The averages of the names of a log that end in the counter's suffix. -/
def counterAverages (c : Counter) (data : Str) : List (Str × F) :=
  ((netCpuSamples data).entries.filter fun e =>
    decide (c.suffix <:+ e.1 ∧ e.1 ≠ c.total)).map fun e => (e.1, averageOf e.2)

/-- An interface's averaged counter: the names of its log that end in the counter's suffix. -/
def interfaceCounter (c : Counter) (data : Str) : Exact :=
  ((counterAverages c data).map Prod.snd).sum

/-- A name of a counter is a key of the log exactly when the log records it. -/
theorem mem_keys_readNetCpu_suffix {order : Enumeration Str} {data k : Str} {c : Counter}
    (hsuf : c.suffix <:+ k) : k ∈ (readNetCpu order data : Result F).keys ↔
      ∃ samples, (netCpuSamples data : Samples F).get? k = some samples := by
  rw [mem_keys_readNetCpu, ← Dict.mem_keys_iff]
  constructor
  · rintro ⟨n, hn, rfl | rfl⟩
    · exact hn
    · exact absurd hsuf Counter.not_suffix_stdName
  · intro hk
    exact ⟨k, hk, .inl rfl⟩

theorem get?_readNetCpu_suffix {order : Enumeration Str} {data k : Str} {c : Counter}
    {samples : List F} (hs : (netCpuSamples data : Samples F).get? k = some samples)
    (hsuf : c.suffix <:+ k) :
    (readNetCpu order data : Result F).get? k = some (.str (printedAverage samples)) := by
  refine get?_readNetCpu hs ?_
  rintro m - rfl
  exact Counter.not_suffix_stdName hsuf

/-- The entries a total is summed from, with what each of them amounts to. -/
def totalledAmounts (order : Enumeration Str) (data : Str) (c : Counter) : List (Str × F) :=
  ((totalledEntries order data : List (Str × Value F)).filter fun e =>
    Counter.ofName e.1 = some c).map fun e => (e.1, amount e.2)

theorem mem_totalledAmounts {order : Enumeration Str} {data k : Str} {c : Counter} {x : F} :
    (k, x) ∈ totalledAmounts order data c ↔
      ∃ v, (zeroTotals (readNetCpu order data)).get? k = some v ∧ c.suffix <:+ k ∧
        amount v = x := by
  simp only [totalledAmounts, List.mem_map, List.mem_filter, decide_eq_true_eq, Prod.mk.injEq,
    Prod.exists, Counter.ofName_eq_some_iff, totalledEntries, Dict.mem_items]
  constructor
  · rintro ⟨k', v, ⟨hv, hsuf⟩, rfl, hx⟩
    exact ⟨v, hv, hsuf, hx⟩
  · rintro ⟨v, hv, hsuf, hx⟩
    exact ⟨k, v, ⟨hv, hsuf⟩, rfl, hx⟩

theorem mem_counterAverages {data k : Str} {c : Counter} {x : F} :
    (k, x) ∈ counterAverages c data ↔
      ∃ samples, (netCpuSamples data).get? k = some samples ∧ c.suffix <:+ k ∧ k ≠ c.total ∧
        averageOf samples = x := by
  simp only [counterAverages, List.mem_map, List.mem_filter, decide_eq_true_eq, Prod.mk.injEq,
    Prod.exists, Dict.get?_eq_some_iff]
  constructor
  · rintro ⟨k', samples, ⟨hs, hsuf, hne⟩, rfl, hx⟩
    exact ⟨samples, hs, hsuf, hne, hx⟩
  · rintro ⟨samples, hs, hsuf, hne, hx⟩
    exact ⟨k, samples, ⟨hs, hsuf, hne⟩, rfl, hx⟩

/-- The entries a total is summed from: itself, at zero, and the names of its counter. -/
theorem totalledAmounts_perm (order : Enumeration Str) (data : Str) (c : Counter) :
    (totalledAmounts order data c : List (Str × F)).Perm
      ((c.total, PyFloat.lit 0) :: counterAverages c data) := by
  have hleft : (totalledAmounts order data c : List (Str × F)).Nodup := by
    refine List.Nodup.of_map Prod.fst ?_
    rw [totalledAmounts, List.map_map]
    exact (List.filter_sublist.map Prod.fst).nodup (Dict.nodup_map_fst_items order _)
  have hright : ((c.total, (PyFloat.lit 0 : F)) :: counterAverages c data).Nodup := by
    refine List.Nodup.of_map Prod.fst ?_
    rw [counterAverages, List.map_cons, List.map_map, List.nodup_cons]
    refine ⟨?_, (List.filter_sublist.map Prod.fst).nodup (netCpuSamples data).nodup⟩
    intro hmem
    obtain ⟨e, he, htotal⟩ := List.mem_map.mp hmem
    have hne := (of_decide_eq_true (List.mem_filter.mp he).2).2
    exact hne htotal
  refine (List.perm_ext_iff_of_nodup hleft hright).mpr ?_
  rintro ⟨k, x⟩
  rw [mem_totalledAmounts, List.mem_cons, mem_counterAverages]
  constructor
  · rintro ⟨v, hv, hsuf, rfl⟩
    by_cases hk : ∀ c', k ≠ Counter.total c'
    · rw [get?_zeroTotals_other _ hk] at hv
      obtain ⟨samples, hs⟩ := (mem_keys_readNetCpu_suffix hsuf).mp (Dict.mem_keys_of_get? hv)
      rw [get?_readNetCpu_suffix hs hsuf] at hv
      exact .inr ⟨samples, hs, hsuf, hk c, by rw [← Option.some.inj hv]; rfl⟩
    · simp only [not_forall, not_not] at hk
      obtain ⟨c', rfl⟩ := hk
      rw [get?_zeroTotals_total] at hv
      have hc : c' = c := Counter.suffix_inj (List.suffix_append _ _) hsuf
      subst hc
      rw [← Option.some.inj hv, amount_zero]
      exact .inl rfl
  · rintro (h | ⟨samples, hs, hsuf, hne, rfl⟩)
    · obtain ⟨rfl, rfl⟩ := Prod.mk.inj h
      exact ⟨.int 0, get?_zeroTotals_total _ c, List.suffix_append _ _, amount_zero⟩
    · refine ⟨.str (printedAverage samples), ?_, hsuf, rfl⟩
      have hk : ∀ c', k ≠ Counter.total c' := by
        rintro c' rfl
        exact hne (congrArg Counter.total (Counter.suffix_inj (List.suffix_append _ _) hsuf))
      rw [get?_zeroTotals_other _ hk]
      exact get?_readNetCpu_suffix hs hsuf

/-- **Within one log the total is that of the names of the counter.** -/
theorem totalOf_readNet (order : Enumeration Str) (data : Str) (c : Counter) :
    ∃ (out : Result F) (x : F), readNet order data = some out ∧ totalOf out c = some x ∧
      IsTotal ((counterAverages c data).map Prod.snd) x := by
  obtain ⟨out, hout, -, -, htot⟩ := readNet_spec (F := F) order data
  refine ⟨out, _, hout, htot c, _, ?_, rfl⟩
  have hperm := (totalledAmounts_perm (F := F) order data c).map Prod.snd
  rw [totalledAmounts, List.map_map, List.map_cons] at hperm
  exact hperm

/-- Without rounding there is one total. -/
theorem interfaceCounter_of_isTotal {c : Counter} {data : Str} {x : Exact}
    (h : IsTotal ((counterAverages c data).map Prod.snd) x) : x = interfaceCounter c data := by
  obtain ⟨l, hperm, rfl⟩ := h
  have hsum : l.sum = (PyFloat.lit 0 :: (counterAverages c data).map Prod.snd).sum := hperm.sum_eq
  refine (Exact.foldl_add_eq _ _).trans ?_
  rw [hsum, List.sum_cons, interfaceCounter]
  exact (zero_add _).trans (zero_add _)

end Interface

/-! ### The counter of the machine -/

/-- The names of the logs kept per interface. -/
def interfaceNames : List Str :=
  ["if1.eth.txt".toList, "if2.eth.txt".toList, "if3.eth.txt".toList, "if4.eth.txt".toList]

/-- The logs of the interfaces of a directory. -/
def interfaces (d : Listing) : List File := d.files.filter fun f => f.1 ∈ interfaceNames

/-- The counter summed over the interfaces. -/
def machineTotal [Sorting] (c : Counter) (d : Listing) : Exact :=
  ((interfaces d).map fun f => interfaceCounter c f.2).sum

theorem mem_interfaces {d : Listing} {f : File} :
    f ∈ interfaces d ↔ f ∈ d.files ∧ f.1 ∈ interfaceNames := by
  rw [interfaces, List.mem_filter, decide_eq_true_eq]

/-- A log kept per interface gives its interface's counter as the total. -/
theorem totalOf_added_net {F : Type} [PyFloat F] [Sorting] (rt : Runtime F) {f : File}
    (hf : parsers.get? f.1 = some .net) (c : Counter) :
    ∃ x, totalOf (added rt f) c = some x ∧ IsTotal ((counterAverages c f.2).map Prod.snd) x := by
  obtain ⟨out, x, hout, htot, hx⟩ := totalOf_readNet (F := F) rt.order f.2 c
  have hread : readFile rt f = some out := by
    rw [readFile, hf]
    exact hout
  exact ⟨x, by rw [added, hread, Option.getD_some, htot], hx⟩

theorem totalOf_added_net_exact [Sorting] (rt : Runtime Exact) {f : File}
    (hf : parsers.get? f.1 = some .net) (c : Counter) :
    totalOf (added rt f) c = some (interfaceCounter c f.2) := by
  obtain ⟨x, htot, hx⟩ := totalOf_added_net rt hf c
  rw [htot, interfaceCounter_of_isTotal hx]

/-- The only readers that can write a total. -/
theorem Reader.writes_total : ∀ (r : Reader) (c : Counter), (∃ s ∈ r.stems, s <+: c.total) →
    r = .net ∨ r = .cpu ∨ r = .env := by
  intro r c
  cases r <;> cases c <;> decide

/-- The names of the eth logs. -/
theorem parsers_net : ∀ e ∈ parsers.entries, e.2 = .net →
    e.1 = "eth.txt".toList ∨ e.1 ∈ interfaceNames := by
  decide

theorem parsers_cpu_env : ∀ e ∈ parsers.entries, e.2 = .cpu ∨ e.2 = .env →
    e.1 = "cpu.txt".toList ∨ e.1 = "env.txt".toList := by
  decide

theorem parsers_interface : ∀ n ∈ interfaceNames, parsers.get? n = some .net := by decide

/-- Copies of a number, one per interface: when they add up to the number itself. -/
theorem machineTotal_of_forall_eq [Sorting] {c : Counter} {d : Listing} {t : Exact}
    (h : ∀ f ∈ interfaces d, interfaceCounter c f.2 = t) :
    machineTotal c d = (interfaces d).length • t := by
  have hrep : (interfaces d).map (fun f => interfaceCounter c f.2) =
      List.replicate (interfaces d).length t := by
    refine List.eq_replicate_iff.mpr ⟨by simp, fun x hx => ?_⟩
    obtain ⟨f, hf, rfl⟩ := List.mem_map.mp hx
    exact h f hf
  rw [machineTotal, hrep, List.sum_replicate]

/-- The interfaces whose counters all equal the machine's. -/
theorem forall_eq_machineTotal_iff [Sorting] {c : Counter} {d : Listing} (hne : interfaces d ≠ []) :
    (∀ f ∈ interfaces d, interfaceCounter c f.2 = machineTotal c d) ↔
      (interfaces d).length = 1 ∨
        ∃ t, t + t = t ∧ ∀ f ∈ interfaces d, interfaceCounter c f.2 = t := by
  have hpos : 0 < (interfaces d).length := List.length_pos_iff.mpr hne
  constructor
  · intro h
    by_cases hone : (interfaces d).length = 1
    · exact .inl hone
    · have hsum := machineTotal_of_forall_eq h
      exact .inr ⟨_, (Exact.nsmul_eq_self_iff (by omega) _).mp hsum.symm, h⟩
  · rintro (hone | ⟨t, ht, h⟩)
    · obtain ⟨f, hf⟩ := List.length_eq_one_iff.mp hone
      intro g hg
      rw [hf, List.mem_singleton] at hg
      rw [machineTotal, hf, List.map_singleton, List.sum_singleton, hg]
    · by_cases hone : (interfaces d).length = 1
      · intro f hf
        rw [h f hf, machineTotal_of_forall_eq h, hone, one_nsmul]
      · intro f hf
        rw [h f hf, machineTotal_of_forall_eq h]
        exact ((Exact.nsmul_eq_self_iff (by omega) t).mpr ht).symm

/-- A file that is listed last decides the total, so every file that writes it agrees. -/
theorem toFloat_eq_of_totalOf {F : Type} [PyFloat F] [Sorting] {rt : Runtime F} {d : Listing}
    {c : Counter} {x : F} (hraise : ¬ ∃ f ∈ d.files, readFile rt f = none)
    (h : ∀ d' : Listing, d'.files.Perm d.files → ∀ res, parse rt d' = some res →
      totalOf res c = some x) {f : File} (hf : f ∈ d.files) {v : Value F}
    (hv : (added rt f).get? c.total = some v) : v.toFloat = some x := by
  obtain ⟨d', hp, hlast⟩ := exists_listing_last rt hf
  have hres := h d' hp _ (parse_eq_merge_of_perm hraise hp)
  rwa [totalOf, hlast _ v hv] at hres

/-- What a file writes of a total is `x`, if that is so of the interfaces, the processor log and
the environment: no other reader writes totals, and `eth.txt` is a copy. -/
theorem toFloat_added {F : Type} [PyFloat F] [Sorting] {rt : Runtime F} {d : Listing} {log : Str}
    {c : Counter} {x : F} (hfirst : ("if1.eth.txt".toList, log) ∈ d.files)
    (hcopy : ("eth.txt".toList, log) ∈ d.files)
    (hall : ∀ f ∈ interfaces d, totalOf (added rt f) c = some x)
    (hother : ∀ f ∈ d.files, f.1 = "cpu.txt".toList ∨ f.1 = "env.txt".toList →
      ∀ v, (added rt f).get? c.total = some v → v.toFloat = some x)
    {f : File} (hf : f ∈ d.files) {v : Value F} (hv : (added rt f).get? c.total = some v) :
    v.toFloat = some x := by
  obtain ⟨r, hr, hread⟩ := added_reader hv
  have hentry := Dict.get?_eq_some_iff.mp hr
  rcases Reader.writes_total r c (Reader.stem_of_mem hread (Dict.mem_keys_of_get? hv)) with
    hnet | hcpuenv
  · subst hnet
    have hown : v.toFloat = totalOf (added rt f) c := by rw [totalOf, hv, Option.bind_some]
    rw [hown]
    rcases parsers_net _ hentry rfl with heth | hname
    · -- the copy of the first log, which the same reader reads
      have hfeq : f = ("eth.txt".toList, log) := List.inj_on_of_nodup_map d.nodup hf hcopy heth
      have hsame : added rt f = added rt ("if1.eth.txt".toList, log) := by
        rw [hfeq]
        rfl
      rw [hsame]
      exact hall _ (mem_interfaces.mpr ⟨hfirst, by simp [interfaceNames]⟩)
    · exact hall f (mem_interfaces.mpr ⟨hf, hname⟩)
  · exact hother f hf (parsers_cpu_env _ hentry hcpuenv) v hv

/-- The value a total has in every listing order: that of every file that writes it. -/
theorem parse_totalOf_iff {F : Type} [PyFloat F] [Sorting] (rt : Runtime F) (d : Listing)
    (log : Str) (c : Counter) (x : F) (hfirst : ("if1.eth.txt".toList, log) ∈ d.files)
    (hcopy : ("eth.txt".toList, log) ∈ d.files) :
    (∀ d' : Listing, d'.files.Perm d.files → ∀ res, parse rt d' = some res →
      totalOf res c = some x) ↔
    (∃ f ∈ d.files, readFile rt f = none) ∨
      ((∀ f ∈ interfaces d, totalOf (added rt f) c = some x) ∧
        ∀ f ∈ d.files, f.1 = "cpu.txt".toList ∨ f.1 = "env.txt".toList →
          ∀ v, (added rt f).get? c.total = some v → v.toFloat = some x) := by
  have hif1 : ("if1.eth.txt".toList, log) ∈ interfaces d :=
    mem_interfaces.mpr ⟨hfirst, by simp [interfaceNames]⟩
  by_cases hraise : ∃ f ∈ d.files, readFile rt f = none
  · refine ⟨fun _ => .inl hraise, fun _ d' hp res hres => ?_⟩
    obtain ⟨f, hf, hnone⟩ := hraise
    rw [parse_eq_none ⟨f, hp.mem_iff.mpr hf, hnone⟩] at hres
    cases hres
  constructor
  · intro h
    refine .inr ⟨fun f hf => ?_, fun f hf _ v hv => toFloat_eq_of_totalOf hraise h hf hv⟩
    obtain ⟨hmem, hname⟩ := mem_interfaces.mp hf
    obtain ⟨y, htot, -⟩ := totalOf_added_net rt (parsers_interface _ hname) c
    obtain ⟨v, hv, -⟩ := Option.bind_eq_some_iff.mp htot
    rw [totalOf, hv]
    exact toFloat_eq_of_totalOf hraise h hmem hv
  · rintro (h | ⟨hall, hother⟩) d' hp res hres
    · exact absurd h hraise
    rw [parse_eq_merge_of_perm hraise hp, Option.some.injEq] at hres
    subst hres
    -- the total is there, since the first interface writes it, and some file decides it
    have hkey : c.total ∈ (Dict.merge (d'.files.map (added rt))).keys := by
      refine Dict.mem_keys_merge.mpr ⟨added rt _, List.mem_map_of_mem (hp.mem_iff.mpr hfirst), ?_⟩
      obtain ⟨v, hv, -⟩ := Option.bind_eq_some_iff.mp (hall _ hif1)
      exact Dict.mem_keys_of_get? hv
    obtain ⟨v, hv⟩ := Dict.mem_keys_iff.mp hkey
    obtain ⟨out, hout, hvout⟩ := Dict.exists_of_get?_merge hv
    obtain ⟨f, hf, rfl⟩ := List.mem_map.mp hout
    rw [totalOf, hv, Option.bind_some]
    exact toFloat_added hfirst hcopy hall hother (hp.mem_iff.mp hf) hvout

/--
**When the totals of a directory are the machine's.**  For a directory with the log of
the first interface, copied to `eth.txt`, and any others: whatever the listing order, the
total of a counter is the sum over the interfaces exactly when there is one interface
only, or all of them have the same counter `t` with `t + t = t`, that is zero or no
finite number; and neither the processor log nor the environment says otherwise.  With
rounding the totals are still those of single files: each interface has its own, the sum in
some order of the averages of its names, and a number is the total in every listing order
exactly when it is the total of every file that writes one.
-/
theorem parse_total_iff [Sorting] (rt : Runtime Exact) (d : Listing) (log : Str) (c : Counter)
    (hfirst : ("if1.eth.txt".toList, log) ∈ d.files)
    (hcopy : ("eth.txt".toList, log) ∈ d.files) :
    ((∀ d' : Listing, d'.files.Perm d.files → ∀ res, parse rt d' = some res →
      totalOf res c = some (machineTotal c d)) ↔
    (∃ f ∈ d.files, readFile rt f = none) ∨
      (((interfaces d).length = 1 ∨
          ∃ t, t + t = t ∧ ∀ f ∈ interfaces d, interfaceCounter c f.2 = t) ∧
        ∀ f ∈ d.files, f.1 = "cpu.txt".toList ∨ f.1 = "env.txt".toList →
          ∀ v, (added rt f).get? c.total = some v → v.toFloat = some (machineTotal c d))) ∧
    ∀ (F : Type) [PyFloat F] (rt : Runtime F),
      (∀ f ∈ interfaces d, ∃ x, totalOf (added rt f) c = some x ∧
        IsTotal ((counterAverages c f.2).map Prod.snd) x) ∧
      ∀ x, (∀ d' : Listing, d'.files.Perm d.files → ∀ res, parse rt d' = some res →
          totalOf res c = some x) ↔
        (∃ f ∈ d.files, readFile rt f = none) ∨
          ((∀ f ∈ interfaces d, totalOf (added rt f) c = some x) ∧
            ∀ f ∈ d.files, f.1 = "cpu.txt".toList ∨ f.1 = "env.txt".toList →
              ∀ v, (added rt f).get? c.total = some v → v.toFloat = some x) := by
  have hnet : ∀ f ∈ interfaces d, parsers.get? f.1 = some .net := fun f hf =>
    parsers_interface _ (mem_interfaces.mp hf).2
  refine ⟨?_, fun F _ rt => ⟨fun f hf => totalOf_added_net rt (hnet f hf) c, fun x =>
    parse_totalOf_iff rt d log c x hfirst hcopy⟩⟩
  have hne : interfaces d ≠ [] :=
    List.ne_nil_of_mem (mem_interfaces.mpr ⟨hfirst, by simp [interfaceNames]⟩)
  have hown : (∀ f ∈ interfaces d, totalOf (added rt f) c = some (machineTotal c d)) ↔
      ∀ f ∈ interfaces d, interfaceCounter c f.2 = machineTotal c d := by
    refine forall₂_congr fun f hf => ?_
    rw [totalOf_added_net_exact rt (hnet f hf) c, Option.some.injEq]
  rw [parse_totalOf_iff rt d log c _ hfirst hcopy, hown, forall_eq_machineTotal_iff hne]

section Directories

open scoped Sorting.Insertion

/-- What one interface saw. -/
def firstLog : Str := "a_rx_bw: 1.00".toList

/-- One interface, its log copied as the collecting script does. -/
def oneInterface : Listing :=
  ⟨[("eth.txt".toList, firstLog), ("if1.eth.txt".toList, firstLog)], by decide⟩

theorem parse_total_oneInterface :
    machineTotal .rxBw oneInterface = .fin 1 ∧
    ∀ d' : Listing, d'.files.Perm oneInterface.files → ∀ res, parse plainRuntime d' = some res →
      totalOf res .rxBw = some (machineTotal .rxBw oneInterface) := by
  refine ⟨by decide +kernel, (parse_total_iff plainRuntime oneInterface firstLog .rxBw (by decide)
    (by decide)).1.mpr (.inr ⟨.inl (by decide), ?_⟩)⟩
  intro f hf hname
  have hno : ∀ f ∈ oneInterface.files,
      ¬ (f.1 = "cpu.txt".toList ∨ f.1 = "env.txt".toList) := by decide
  exact absurd hname (hno f hf)

/-- Two interfaces, the log of the first copied as the collecting script does. -/
def twoInterfacesCopied : Listing :=
  ⟨[("eth.txt".toList, firstLog), ("if1.eth.txt".toList, firstLog),
    ("if2.eth.txt".toList, "b_rx_bw: 2.00".toList)], by decide⟩

/-- One gigabit and two make three, and the directory says two. -/
theorem parse_total_not_machineTotal :
    machineTotal .rxBw twoInterfacesCopied = .fin 3 ∧
    (parse plainRuntime twoInterfacesCopied).bind (totalOf · .rxBw) = some (.fin 2) := by
  decide +kernel

end Directories

end Nicmem
