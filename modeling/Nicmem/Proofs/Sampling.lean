/-
What repeated sampling reports.

The script that samples an interface prints nothing for a counter that did not move, and
the reader averages what it finds.  So the average of a counter is one over the runs in
which it moved: a run in which it stood still does not count as a rate of zero, it does
not count at all.

Producer and reader meet in the text of the log.  A name holds no colon and no newline,
so each line splits back into the name and the value it was made of, and the samples of
a name are the rates printed under it, in the order of the runs.  A rate is printed as a whole
number, so what is read back is that number, however the floats round.
-/
import Nicmem.Proofs.Net
import Nicmem.Python.Double
import Nicmem.SampleEth

namespace Nicmem

open Python

/-- The name of an interface: no colon and no newline, as the kernel requires. -/
structure Interface where
  name : Str
  colon : ':' ∉ name
  newline : '\n' ∉ name

/-! ### Reading a printed line back -/

theorem compEthtool_name {output : Str} {e : Str × Int} (h : e ∈ compEthtool output) :
    ':' ∉ e.1 ∧ '\n' ∉ e.1 := by
  obtain ⟨l, hl, he⟩ := List.mem_filterMap.mp h
  split at he
  · rename_i name count hsplit
    obtain ⟨n, -, rfl⟩ := Option.map_eq_some_iff.mp he
    have hname : name ∈ l.splitOn ':' := by rw [hsplit]; simp
    exact ⟨not_mem_of_mem_splitOn hname,
      fun hc => not_mem_of_mem_splitOn hl (mem_of_mem_splitOn hname hc)⟩
  · cases he

/-- A character that is in neither the interface's nor the counter's name is in no printed one. -/
theorem not_mem_printed {iface name : Str} {c : Char} (hi : c ∉ iface) (hn : c ∉ name)
    (hc : c ∉ "_bw".toList) :
    c ∉ counterName iface name ∧ c ∉ bandwidthName iface name := by
  have hstrip : c ∉ lstrip name := fun h => hn ((List.dropWhile_suffix _).subset h)
  have hunder : c ≠ '_' := fun h => hc (h ▸ by decide)
  constructor
  · rw [counterName, List.mem_append, List.mem_cons, not_or, not_or]
    exact ⟨hi, hunder, hstrip⟩
  · rw [bandwidthName, List.mem_append, List.mem_cons, not_or, not_or]
    refine ⟨hi, hunder, fun h => ?_⟩
    rcases mem_of_mem_replace h with h | h
    · exact hc (List.mem_cons_of_mem _ h)
    · exact hstrip h

theorem netCpuParts_logLine {name v : Str} (hname : ':' ∉ name) (hv : plain v = true) :
    netCpuParts (logLine name v) = some (name, v) := by
  have hblank : ' ' ∉ v := plain_not_mem hv (by decide)
  have hsplit : splitStr ": ".toList (logLine name v) = [name, v] := splitStr_pair hname hblank
  rw [netCpuParts, if_pos (by simp [logLine]), hsplit]

theorem newline_logLine {name v : Str} (hname : '\n' ∉ name) (hv : plain v = true) :
    '\n' ∉ logLine name v := by
  have hval : '\n' ∉ v := plain_not_mem hv (by decide)
  simp only [logLine, List.mem_append, List.mem_cons, not_or]
  exact ⟨hname, by decide, by decide, hval⟩

/-! ### The rate of a counter -/

section Rate

variable {F : Type} [PyFloat F]

/-- `abs(n2 - n1) / float(t)`. -/
def quotient (F : Type) [PyFloat F] (t before after : Int) : F :=
  PyFloat.div (PyFloat.lit (|after - before| : Int)) (PyFloat.lit t)

/-- The rate that is printed: the whole part of the quotient. -/
def rate (F : Type) [PyFloat F] (t before after : Int) : Int :=
  (PyFloat.trunc (quotient F t before after)).getD 0

/-- The rate of a counter can be printed, if there is one: no number of it is too large. -/
def Printable (F : Type) [PyFloat F] (t : Int) (s e : Str × Int) : Prop :=
  s.2 ≠ e.2 → (PyFloat.ofInt |e.2 - s.2| : Option F).isSome = true ∧
    (PyFloat.ofInt t : Option F).isSome = true ∧
    (PyFloat.trunc (quotient F t s.2 e.2)).isSome = true

/-- The lines of a counter whose interval is positive. -/
def counterLines (F : Type) [PyFloat F] (iface : Str) (t : Int) (s e : Str × Int) : List Str :=
  if s.2 = e.2 then []
  else (if hasSub "bytes".toList s.1 then [logLine (bandwidthName iface s.1)
      (PyFloat.fmt2 (bytes2gbps (quotient F t s.2 e.2)))] else [])
    ++ [logLine (counterName iface s.1) (intStr (rate F t s.2 e.2))]

theorem ofInt_of_isSome {n : Int} (h : (PyFloat.ofInt n : Option F).isSome = true) :
    (PyFloat.ofInt n : Option F) = some (PyFloat.lit n) := by
  unfold PyFloat.ofInt at h ⊢
  split at h
  · rw [if_pos ‹_›]
  · cases h

theorem sampleCounter_eq {iface : Str} {t : Int} (ht : 0 < t) {s e : Str × Int} (h : s.1 = e.1)
    (hprint : Printable F t s e) :
    sampleCounter F iface t s e = some (counterLines F iface t s e) := by
  rw [sampleCounter, if_neg (by simpa using h), counterLines]
  by_cases hmove : s.2 = e.2
  · rw [if_pos hmove, if_pos hmove]
  · obtain ⟨hdifference, hinterval, hrate⟩ := hprint hmove
    obtain ⟨n, hn⟩ := Option.isSome_iff_exists.mp hrate
    rw [if_neg hmove, if_neg (by omega), if_neg hmove, rate, hn, ofInt_of_isSome hdifference,
      ofInt_of_isSome hinterval]
    rw [quotient] at hn
    simp only [Option.bind_eq_bind, Option.bind_some, hn]
    rfl

end Rate

/-! ### Two snapshots -/

/-- Both snapshots of a run list the counters `names`. -/
def Lists (names : List Str) (run : Str × Str) : Prop :=
  (compEthtool run.1).map Prod.fst = names ∧ (compEthtool run.2).map Prod.fst = names

/-- The counters before and after a run, side by side. -/
def sideBySide (run : Str × Str) : List ((Str × Int) × (Str × Int)) :=
  (compEthtool run.1).zip (compEthtool run.2)

/-- The count of a counter in a snapshot. -/
def countOf (name : Str) (output : Str) : Int := ((compEthtool output).lookup name).getD 0

private theorem zip_same_name {s e : List (Str × Int)} (h : s.map Prod.fst = e.map Prod.fst) :
    ∀ p ∈ s.zip e, p.1.1 = p.2.1 ∧ p.1 ∈ s := by
  induction s generalizing e with
  | nil => intro p hp; simp at hp
  | cons a s ih =>
      cases e with
      | nil => intro p hp; simp at hp
      | cons b e =>
          simp only [List.map_cons, List.cons.injEq] at h
          intro p hp
          rw [List.zip_cons_cons, List.mem_cons] at hp
          rcases hp with rfl | hp
          · exact ⟨h.1, List.mem_cons_self⟩
          · obtain ⟨hname, hmem⟩ := ih h.2 p hp
            exact ⟨hname, List.mem_cons_of_mem _ hmem⟩

theorem mem_sideBySide {names : List Str} {run : Str × Str} (h : Lists names run)
    {p : (Str × Int) × (Str × Int)} (hp : p ∈ sideBySide run) :
    p.1.1 = p.2.1 ∧ p.1 ∈ compEthtool run.1 :=
  zip_same_name (h.1.trans h.2.symm) p hp

section Runs

variable {F : Type} [PyFloat F]

/-- Every rate of the runs can be printed: none of them is too large for a float. -/
def AllPrintable (F : Type) [PyFloat F] (t : Int) (runs : List (Str × Str)) : Prop :=
  ∀ run ∈ runs, ∀ p ∈ sideBySide run, Printable F t p.1 p.2

/-- The lines of a run. -/
theorem sampleRun_eq {iface : Str} {t : Int} (ht : 0 < t) {names : List Str} {run : Str × Str}
    (h : Lists names run) (hprint : ∀ p ∈ sideBySide run, Printable F t p.1 p.2) :
    sampleRun F iface t run =
      some ((sideBySide run).flatMap fun p => counterLines F iface t p.1 p.2) := by
  have hall : (sideBySide run).mapM (fun p => sampleCounter F iface t p.1 p.2) =
      some ((sideBySide run).map fun p => counterLines F iface t p.1 p.2) :=
    mapM_eq_some_map _ _ _ fun p hp => sampleCounter_eq ht (mem_sideBySide h hp).1 (hprint p hp)
  rw [sampleRun]
  exact congrArg (Option.map List.flatten) hall

/-- The log of the runs, line by line. -/
def logLines (F : Type) [PyFloat F] (iface : Str) (t : Int) (runs : List (Str × Str)) :
    List Str :=
  runs.flatMap fun run => (sideBySide run).flatMap fun p => counterLines F iface t p.1 p.2

theorem sampleLog_eq {iface : Str} {t : Int} (ht : 0 < t) {names : List Str}
    {runs : List (Str × Str)} (h : ∀ run ∈ runs, Lists names run)
    (hprint : AllPrintable F t runs) :
    sampleLog F iface t runs = some ((logLines F iface t runs).flatMap (· ++ ['\n'])) := by
  have hall : runs.mapM (sampleRun F iface t) = some (runs.map fun run =>
      (sideBySide run).flatMap fun p => counterLines F iface t p.1 p.2) :=
    mapM_eq_some_map _ _ _ fun run hrun => sampleRun_eq ht (h run hrun) (hprint run hrun)
  rw [sampleLog, hall]
  rfl

end Runs

/-! ### The samples of a counter -/

/-- No other counter of the list is printed, or kept, under this counter's name. -/
structure OwnName (iface : Str) (names : List Str) (name : Str) : Prop where
  counter : ∀ m ∈ names, counterName iface m = counterName iface name → m = name
  bandwidth : ∀ m ∈ names, hasSub "bytes".toList m = true →
    bandwidthName iface m ≠ counterName iface name
  std : ∀ m ∈ names, counterName iface name ≠ stdName (counterName iface m) ∧
    (hasSub "bytes".toList m = true → counterName iface name ≠ stdName (bandwidthName iface m))

section Samples

variable {F : Type} [PyFloat F] {iface : Interface} {t : Int} {names : List Str} {name : Str}

/-- A printed line is one of a counter's two. -/
theorem mem_counterLines {s e : Str × Int} {l : Str} (h : l ∈ counterLines F iface.name t s e) :
    ∃ v, plain v = true ∧ (l = logLine (counterName iface.name s.1) v ∨
      hasSub "bytes".toList s.1 = true ∧ l = logLine (bandwidthName iface.name s.1) v) := by
  unfold counterLines at h
  split at h
  · simp at h
  · rcases List.mem_append.mp h with h | h
    · split at h
      · rename_i hbytes
        exact ⟨_, PyFloat.plain_fmt2 _, .inr ⟨hbytes, List.mem_singleton.mp h⟩⟩
      · simp at h
    · exact ⟨_, plain_intStr _, .inl (List.mem_singleton.mp h)⟩

/-- What the lines of one counter add to the samples of another, or of itself. -/
theorem filterMap_counterLines (hown : OwnName iface.name names name) {s e : Str × Int}
    (hs : s.1 ∈ names) (hcolon : ':' ∉ s.1) :
    (counterLines F iface.name t s e).filterMap (lineSample (counterName iface.name name)) =
      if s.1 = name ∧ s.2 ≠ e.2 then [(PyFloat.lit (rate F t s.2 e.2) : F)] else [] := by
  obtain ⟨hc, hb⟩ := not_mem_printed iface.colon hcolon (by decide)
  have hcount : ∀ n : Int, lineSample (counterName iface.name name)
      (logLine (counterName iface.name s.1) (intStr n)) =
        if s.1 = name then some (PyFloat.lit n : F) else none := by
    intro n
    rw [lineSample, netCpuParts_logLine hc (plain_intStr n), Option.bind_some]
    by_cases hname : s.1 = name
    · rw [if_pos (by rw [hname]), if_pos hname]
      exact PyFloat.ofStr_intStr n
    · rw [if_neg fun h => hname (hown.counter _ hs h), if_neg hname]
  have hband : hasSub "bytes".toList s.1 = true → ∀ x : F,
      lineSample (counterName iface.name name)
        (logLine (bandwidthName iface.name s.1) (PyFloat.fmt2 x)) = (none : Option F) := by
    intro hbytes x
    rw [lineSample, netCpuParts_logLine hb (PyFloat.plain_fmt2 x), Option.bind_some,
      if_neg (hown.bandwidth _ hs hbytes)]
  unfold counterLines
  by_cases hmove : s.2 = e.2
  · simp [hmove]
  · rw [if_neg hmove, List.filterMap_append]
    have hfirst : ∀ x : F, (if hasSub "bytes".toList s.1 then
        [logLine (bandwidthName iface.name s.1) (PyFloat.fmt2 x)] else []).filterMap
          (lineSample (counterName iface.name name)) = ([] : List F) := by
      intro x
      split
      · rename_i hbytes
        rw [List.filterMap_cons, hband hbytes]
        rfl
      · rfl
    rw [hfirst, List.nil_append, List.filterMap_cons, hcount]
    by_cases hname : s.1 = name
    · simp [hname, hmove]
    · simp [hname]

/-- Of two snapshots with the same distinct names, one pair has a given name. -/
private theorem flatMap_zip_name {α : Type} (g : Int → Int → α) {s e : List (Str × Int)}
    (h : s.map Prod.fst = e.map Prod.fst) (hnodup : (s.map Prod.fst).Nodup) (name : Str) :
    ((s.zip e).flatMap fun p => if p.1.1 = name ∧ p.1.2 ≠ p.2.2 then [g p.1.2 p.2.2] else []) =
      if (s.lookup name).getD 0 ≠ (e.lookup name).getD 0
        then [g ((s.lookup name).getD 0) ((e.lookup name).getD 0)] else [] := by
  induction s generalizing e with
  | nil =>
      cases e with
      | nil => rfl
      | cons b e => simp at h
  | cons a s ih =>
      cases e with
      | nil => simp at h
      | cons b e =>
          obtain ⟨m, x⟩ := a
          obtain ⟨m', y⟩ := b
          simp only [List.map_cons, List.cons.injEq] at h
          simp only [List.map_cons, List.nodup_cons] at hnodup
          obtain ⟨rfl, htail⟩ := h
          rw [List.zip_cons_cons, List.flatMap_cons, List.lookup_cons, List.lookup_cons]
          by_cases hm : name = m
          · subst hm
            -- no later pair has the name
            have hrest : ((s.zip e).flatMap fun p =>
                if p.1.1 = name ∧ p.1.2 ≠ p.2.2 then [g p.1.2 p.2.2] else []) = [] := by
              rw [List.flatMap_eq_nil_iff]
              intro p hp
              refine if_neg fun hc => hnodup.1 ?_
              exact hc.1 ▸ List.mem_map_of_mem (zip_same_name htail p hp).2
            rw [hrest, List.append_nil]
            simp
          · have hm' : ¬ m = name := fun h => hm h.symm
            rw [beq_eq_false_iff_ne.mpr hm]
            simp only [hm', false_and, if_false, List.nil_append]
            exact ih htail hnodup.2

/-- The counter moved in the run. -/
def moved (name : Str) (run : Str × Str) : Bool := countOf name run.1 != countOf name run.2

/-- The rate of a counter in a run. -/
def runRate (F : Type) [PyFloat F] (t : Int) (name : Str) (run : Str × Str) : F :=
  PyFloat.lit (rate F t (countOf name run.1) (countOf name run.2))

theorem filterMap_sideBySide (hown : OwnName iface.name names name) (hnodup : names.Nodup)
    {run : Str × Str} (hrun : Lists names run) :
    ((sideBySide run).flatMap fun p => counterLines F iface.name t p.1 p.2).filterMap
        (lineSample (counterName iface.name name)) =
      if moved name run then [runRate F t name run] else [] := by
  have hpairs : ((sideBySide run).flatMap fun p => counterLines F iface.name t p.1 p.2).filterMap
      (lineSample (counterName iface.name name)) =
      (sideBySide run).flatMap fun p => if p.1.1 = name ∧ p.1.2 ≠ p.2.2
        then [(PyFloat.lit (rate F t p.1.2 p.2.2) : F)] else [] := by
    rw [List.filterMap_flatMap]
    refine List.flatMap_congr fun p hp => ?_
    have hmem := (mem_sideBySide hrun hp).2
    exact filterMap_counterLines hown (hrun.1 ▸ List.mem_map_of_mem hmem) (compEthtool_name hmem).1
  rw [hpairs, sideBySide, flatMap_zip_name (fun x y => (PyFloat.lit (rate F t x y) : F))
    (hrun.1.trans hrun.2.symm) (hrun.1.symm ▸ hnodup) name]
  simp [moved, countOf, runRate]

/-- The samples of a counter are its rates in the runs in which it moved. -/
theorem filterMap_logLines (hown : OwnName iface.name names name) (hnodup : names.Nodup)
    {runs : List (Str × Str)} (hruns : ∀ run ∈ runs, Lists names run) :
    (logLines F iface.name t runs).filterMap (lineSample (counterName iface.name name)) =
      (runs.filter (moved name)).map (runRate F t name) := by
  induction runs with
  | nil => rfl
  | cons run rest ih =>
      have hrest := ih fun r hr => hruns r (by simp [hr])
      rw [logLines] at hrest ⊢
      rw [List.flatMap_cons, List.filterMap_append,
        filterMap_sideBySide hown hnodup (hruns run (by simp)), hrest]
      by_cases hmove : moved name run = true
      · rw [if_pos hmove, List.filter_cons_of_pos hmove]
        rfl
      · rw [if_neg hmove, List.filter_cons_of_neg hmove]
        rfl

/-- Every line of the log is a printed name and a plain value. -/
theorem mem_logLines {runs : List (Str × Str)} (hruns : ∀ run ∈ runs, Lists names run) {l : Str}
    (h : l ∈ logLines F iface.name t runs) :
    ∃ m ∈ names, ∃ v, ':' ∉ m ∧ '\n' ∉ m ∧ plain v = true ∧
      (l = logLine (counterName iface.name m) v ∨
        hasSub "bytes".toList m = true ∧ l = logLine (bandwidthName iface.name m) v) := by
  obtain ⟨run, hrun, hl⟩ := List.mem_flatMap.mp h
  obtain ⟨p, hp, hl⟩ := List.mem_flatMap.mp hl
  have hmem := (mem_sideBySide (hruns run hrun) hp).2
  obtain ⟨hcolon, hnewline⟩ := compEthtool_name hmem
  obtain ⟨v, hv, hl⟩ := mem_counterLines hl
  exact ⟨p.1.1, (hruns run hrun).1 ▸ List.mem_map_of_mem hmem, v, hcolon, hnewline, hv, hl⟩

/-- The log splits back into its lines. -/
theorem splitOn_log {runs : List (Str × Str)} (hruns : ∀ run ∈ runs, Lists names run) :
    ((logLines F iface.name t runs).flatMap (· ++ ['\n'])).splitOn '\n' =
      logLines F iface.name t runs ++ [[]] := by
  refine splitOn_flatMap_terminated fun l hl => ?_
  obtain ⟨m, -, v, -, hnewline, hv, hl⟩ := mem_logLines hruns hl
  obtain ⟨hc, hb⟩ := not_mem_printed iface.newline hnewline (by decide)
  rcases hl with rfl | ⟨-, rfl⟩
  · exact newline_logLine hc hv
  · exact newline_logLine hb hv

/-- A name the log records is a printed one. -/
theorem recorded_printed {runs : List (Str × Str)} (hruns : ∀ run ∈ runs, Lists names run) {k : Str}
    (hk : k ∈ (netCpuSamples ((logLines F iface.name t runs).flatMap (· ++ ['\n'])) :
      Samples F).keys) :
    ∃ m ∈ names, k = counterName iface.name m ∨
      hasSub "bytes".toList m = true ∧ k = bandwidthName iface.name m := by
  obtain ⟨l, hl, hname⟩ := mem_keys_netCpuSamples.mp hk
  rw [splitOn_log hruns] at hl
  rcases List.mem_append.mp hl with hl | hl
  · obtain ⟨m, hm, v, hcolon, -, hv, hl⟩ := mem_logLines hruns hl
    obtain ⟨hc, hb⟩ := not_mem_printed iface.colon hcolon (by decide)
    rcases hl with rfl | ⟨hbytes, rfl⟩
    · rw [netCpuName, netCpuParts_logLine hc hv] at hname
      exact ⟨m, hm, .inl (Option.some.inj hname).symm⟩
    · rw [netCpuName, netCpuParts_logLine hb hv] at hname
      exact ⟨m, hm, .inr ⟨hbytes, (Option.some.inj hname).symm⟩⟩
  · rw [List.mem_singleton.mp hl] at hname
    cases hname

/--
**What repeated sampling reports.**  For any number of runs over a positive interval, all
of whose snapshots list the same distinct counters, a counter that moved in at least one
run and whose printed name is its own is reported as the printed average, outliers
removed, of its rates in the runs in which it moved; the rate is the whole part of the
quotient of two floats, and no quotient is too large to have one.
-/
theorem reported_average [Sorting] (iface : Interface) (t : Int) (names : List Str)
    (runs : List (Str × Str)) (order : Enumeration Str) (name : Str) (ht : 0 < t)
    (hnodup : names.Nodup) (hruns : ∀ run ∈ runs, Lists names run)
    (hprint : AllPrintable F t runs) (hown : OwnName iface.name names name)
    (hmoved : ∃ run ∈ runs, moved name run = true) :
    ∃ log, sampleLog F iface.name t runs = some log ∧
      (readNetCpu order log : Result F).get? (counterName iface.name name) =
        some (.str (printedAverage
          ((runs.filter (moved name)).map (runRate F t name)))) := by
  refine ⟨_, sampleLog_eq ht hruns hprint, ?_⟩
  have hsamples := getD_netCpuSamples (F := F)
    ((logLines F iface.name t runs).flatMap (· ++ ['\n'])) (counterName iface.name name)
  rw [splitOn_log hruns, List.filterMap_append, filterMap_logLines hown hnodup hruns] at hsamples
  have hlast : ([[]] : List Str).filterMap (lineSample (counterName iface.name name)) =
      ([] : List F) := rfl
  rw [hlast, List.append_nil] at hsamples
  -- the counter moved, so its list of samples is there
  have hne : (runs.filter (moved name)).map (runRate F t name) ≠ [] := by
    obtain ⟨run, hrun, hmove⟩ := hmoved
    exact List.ne_nil_of_mem (List.mem_map_of_mem (List.mem_filter.mpr ⟨hrun, hmove⟩))
  refine get?_readNetCpu ?_ ?_
  · cases hget : (netCpuSamples ((logLines F iface.name t runs).flatMap (· ++ ['\n'])) :
        Samples F).get? (counterName iface.name name) with
    | none =>
        rw [hget] at hsamples
        exact absurd hsamples.symm hne
    | some samples =>
        rw [hget] at hsamples
        exact congrArg some hsamples
  · intro m hm
    obtain ⟨n, hn, hprinted⟩ := recorded_printed hruns hm
    rcases hprinted with rfl | ⟨hbytes, rfl⟩
    · exact (hown.std n hn).1
    · exact (hown.std n hn).2 hbytes

end Samples

section Logs

open scoped Sorting.Insertion

/-- An interface, and a counter that moves in the first of two runs. -/
def e0 : Interface := ⟨"e0".toList, by decide, by decide⟩

def movesOnce : List (Str × Str) :=
  [("rx: 0".toList, "rx: 10".toList), ("rx: 10".toList, "rx: 10".toList)]

theorem reported_average_movesOnce :
    (0 : Int) < 1 ∧ ∃ log, sampleLog Double e0.name 1 movesOnce = some log ∧
      (readNetCpu (.insertion Str) log : Result Double).get? (counterName e0.name "rx".toList) =
        some (.str (printedAverage ((movesOnce.filter (moved "rx".toList)).map
          (runRate Double 1 "rx".toList)))) :=
  ⟨by decide, reported_average e0 1 ["rx".toList] movesOnce (.insertion Str) "rx".toList (by decide)
    (by decide) (by unfold Lists; decide) (by unfold AllPrintable Printable; decide +kernel)
    ⟨by decide, by decide, by decide⟩ (by decide)⟩

/-- Two counters whose names differ in a leading blank only. -/
def sameButBlank : List (Str × Str) :=
  [(" rx: 0\nrx: 0".toList, " rx: 4\nrx: 8".toList)]

/--
A run in which the counter did not move is left out: ten and nothing average to ten, not
to five.  And counters that are printed under one name are averaged together.
-/
theorem reported_not_over_all_runs :
    (printedAverage (movesOnce.map (runRate Double 1 "rx".toList)) =
        "5.00".toList ∧
      (sampleLog Double e0.name 1 movesOnce).bind (fun log =>
        (readNetCpu (.insertion Str) log : Result Double).get? "e0_rx".toList) =
          some (.str "10.00".toList)) ∧
    printedAverage (sameButBlank.map (runRate Double 1 "rx".toList)) =
        "8.00".toList ∧
      (sampleLog Double e0.name 1 sameButBlank).bind (fun log =>
        (readNetCpu (.insertion Str) log : Result Double).get? "e0_rx".toList) =
          some (.str "6.00".toList) := by
  decide +kernel

end Logs

end Nicmem
