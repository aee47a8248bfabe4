/-
The readers of the processor's own monitors: `pcm-memory`, `pcm-pcie` and `perf stat`.

`read_memory` is a state machine over lines.  A `Reads` line names a channel and the
following `Writes` line belongs to it, so while a channel is pending no other line is
looked at.  `read_pcie` expands the unit letters by text substitution before it looks
for rows.  `read_perf_stat` keeps lists and averages in one dictionary, so that an
event named like another with `_std` appended is met as a number.
-/
import Nicmem.PerfUtil.Net
import Nicmem.Python.Regex

namespace Nicmem

open Python

variable {F : Type} [PyFloat F]

/-- `d[k].append(v)`; `none` is the `KeyError`. -/
def appendAt {α : Type} (d : Samples α) (k : Str) (v : α) : Option (Samples α) :=
  (d.get? k).map fun l => d.set k (l ++ [v])

/-- How the body of a loop ends: on to the next round, or out of the loop. -/
inductive Flow (σ : Type) where
  | next (s : σ)
  | stop (s : σ)

/-- A loop over the lines; `none` is an exception. -/
def runLines {σ : Type} (body : σ → Str → Option (Flow σ)) : σ → List Str → Option σ
  | s, [] => some s
  | s, l :: rest =>
    match body s l with
    | none => none
    | some (.next s) => runLines body s rest
    | some (.stop s) => some s

/-- The first of several patterns that matches the line, with its key and its matches. -/
def firstMatch (ps : List (Pattern × Str)) (l : Str) : Option (Str × List Str × List (List Str)) :=
  ps.findSome? fun (p, key) =>
    match findall p l with
    | [] => none
    | r :: rest => some (key, r, rest)

/-! ### pcm-memory -/

namespace Memory

open Pattern

def writes : Pattern := plus .space ++ lit "Writes(MB/s):" ++ plus .space ++ group decimal

def reads : Pattern :=
  lit "Mem Ch  " ++ group (one .digit) ++ lit ": Reads (MB/s):" ++ plus .space ++ group decimal

/-- The node counters: what stands after the node number, and the key. -/
def nodes : List (Pattern × Str) :=
  [(lit " Mem Read (MB/s) :", "Mem_Read".toList), (lit " Mem Write(MB/s) :", "Mem_Write".toList),
    (lit " Memory (MB/s):", "Memory".toList)]

def node (p : Pattern) : Pattern :=
  lit "NODE " ++ group (one .digit) ++ p ++ plus .space ++ group decimal

/-- The system counters: their word in the table, and in the key. -/
def systems : List (Pattern × Str) :=
  [(lit "Read", "sys_Read".toList), (lit "Write", "sys_Write".toList),
    (lit "Memory", "sys_Memory".toList)]

def system (p : Pattern) : Pattern :=
  lit "System " ++ p ++ lit " Throughput(MB/s):" ++ plus .space ++ group decimal

/-- `'socket_%d_Ch_%d_%s'`. -/
def channelKey (socket channel : Nat) (direction : String) : Str :=
  "socket_".toList ++ natStr socket ++ "_Ch_".toList ++ natStr channel ++ '_' :: direction.toList

/-- `'node_%d_%s'`. -/
def nodeKey (n : Nat) (name : Str) : Str := "node_".toList ++ natStr n ++ '_' :: name

/-- The samples so far, and the channel whose `Writes` line is awaited. -/
structure State where
  res : Samples Str
  inChannel : Option Nat

/-- A line while a channel is pending: only its `Writes` line counts. -/
def writesLine (res : Samples Str) (channel : Nat) (l : Str) : Option (Flow State) :=
  match findall writes l with
  | [] => some (.next ⟨res, some channel⟩)
  | r₀ :: r₁ :: _ => do
    let res ← appendAt res (channelKey 0 channel "Wr") (← r₀[0]?)
    let res ← appendAt res (channelKey 1 channel "Wr") (← r₁[0]?)
    some (.next ⟨res, none⟩)
  | _ => some (.next ⟨res, none⟩)

/-- A `Reads` line.  With one socket only, the loop is left after the first append. -/
def readsLine (res : Samples Str) (r₀ : List Str) (rest : List (List Str)) :
    Option (Flow State) := do
  let channel ← (← r₀[0]?) |> parseInt |>.map Int.toNat
  let fresh := channelKey 0 channel "Rd" ∉ res.keys
  let res := if fresh then
      [channelKey 0 channel "Rd", channelKey 1 channel "Rd", channelKey 0 channel "Wr",
        channelKey 1 channel "Wr"].foldl (fun res k => res.set k []) res
    else res
  match appendAt res (channelKey 0 channel "Rd") (← r₀[1]?) with
  | none => some (.stop ⟨res, some channel⟩)
  | some res =>
    match rest with
    | [] => some (.stop ⟨res, some channel⟩)
    | r₁ :: _ =>
      match appendAt res (channelKey 1 channel "Rd") (← r₁[1]?) with
      | none => some (.stop ⟨res, some channel⟩)
      | some res => some (.next ⟨res, some channel⟩)

/-- A node line: two appends, neither of them guarded. -/
def nodeLine (res : Samples Str) (name : Str) (r₀ : List Str) (rest : List (List Str)) :
    Option (Flow State) := do
  let res := if nodeKey 0 name ∈ res.keys then res
    else (res.set (nodeKey 0 name) []).set (nodeKey 1 name) []
  let res ← appendAt res (nodeKey 0 name) (← r₀[1]?)
  let res ← appendAt res (nodeKey 1 name) (← (← rest[0]?)[1]?)
  some (.next ⟨res, none⟩)

/-- A system line. -/
def systemLine (res : Samples Str) (key : Str) (r₀ : List Str) : Option (Flow State) := do
  some (.next ⟨appendSample res key (← r₀[0]?), none⟩)

/-- The body of the loop. -/
def line (st : State) (l : Str) : Option (Flow State) :=
  match st.inChannel with
  | some channel => writesLine st.res channel l
  | none =>
    match findall reads l with
    | r :: rest => readsLine st.res r rest
    | [] =>
      match firstMatch (nodes.map fun (p, key) => (node p, key)) l with
      | some (key, r, rest) => nodeLine st.res key r rest
      | none =>
        match firstMatch (systems.map fun (p, key) => (system p, key)) l with
        | some (key, r, _) => systemLine st.res key r
        | none => some (.next st)

end Memory

/-- The samples of a `pcm-memory` log. -/
def memorySamples (data : Str) : Option (Samples Str) :=
  (runLines Memory.line ⟨.empty, none⟩ (data.splitOn '\n')).map (·.res)

/-- `100 * 1000`. -/
def faulty : F := PyFloat.lit 100000

/-- The clean-up of one counter: where no sample exceeds the threshold, keep those below it. -/
def cleanSamples (v : List Str) : Option (List Str) := do
  let xs ← v.mapM fun x => (PyFloat.ofStr x : Option F).map fun y => (x, y)
  if (xs.filter fun e => PyFloat.lt faulty e.2).isEmpty then
    some ((xs.filter fun e => PyFloat.lt e.2 faulty).map Prod.fst)
  else some v

/-- The clean-up of every counter. -/
def cleanMemory (F : Type) [PyFloat F] (order : Enumeration Str) (res : Samples Str) :
    Option (Samples Str) :=
  (res.items order).foldlM (fun acc e => do some (acc.set e.1 (← cleanSamples (F := F) e.2))) res

/-- `map(lambda x: float(x), v)`. -/
def floats (v : List Str) : Option (List F) := v.mapM PyFloat.ofStr

/-- `read_memory`. -/
def readMemory (order : Enumeration Str) (data : Str) : Option (Result F) := do
  let res ← cleanMemory F order (← memorySamples data)
  (res.items order).foldlM (fun out e => do
    let avg := PyFloat.average (← floats e.2 : List F)
    some (out.set e.1 (.str (PyFloat.fmt2 (PyFloat.div avg (PyFloat.lit 1000)))))) .empty

/-! ### pcm-pcie -/

namespace Pcie

open Pattern

/-- A row: its first cell, seven counts, the two that are read, and its tag. -/
def row (first tag : String) : Pattern :=
  lit first ++ plus .space ++ (List.replicate 7 (plus .digit ++ plus .space)).flatten
    ++ group (plus .digit) ++ plus .space ++ group (plus .digit) ++ plus .space ++ lit tag

/-- The rows that are read, with the prefix of their two keys. -/
def rows : List (Pattern × Str) :=
  [(row "0" "(Miss)", "sys_pcie_0_miss".toList), (row "0" "(Hit)", "sys_pcie_0_hit".toList),
    (row "*" "(Aggregate)", "sys_pcie_agg".toList)]

/-- The unit letters, expanded in the text. -/
def expandUnits (data : Str) : Str :=
  replace " K".toList "000".toList
    (replace " M".toList "000000".toList (replace " G".toList "000000000".toList data))

/-- One line: the first row pattern that matches takes it. -/
def line (res : Samples Str) (l : Str) : Option (Samples Str) :=
  match firstMatch rows l with
  | none => some res
  | some (key, r, _) => do
    some (appendSample (appendSample res (key ++ "_rdb".toList) (← r[0]?))
      (key ++ "_wrb".toList) (← r[1]?))

/-- `'%d' % (float(wrb) + float(rdb))`, where both are there. -/
def addMem (F : Type) [PyFloat F] (out : Result F) (key : Str) : Option (Result F) :=
  match out.get? (key ++ "_rdb".toList), out.get? (key ++ "_wrb".toList) with
  | some rdb, some wrb => do
    let mem ← PyFloat.trunc (PyFloat.add (← wrb.toFloat) (← rdb.toFloat))
    some (out.set (key ++ "_mem".toList) (.str (intStr mem)))
  | _, _ => some out

end Pcie

/-- `read_pcie`. -/
def readPcie (order : Enumeration Str) (data : Str) : Option (Result F) := do
  let res ← ((Pcie.expandUnits data).splitOn '\n').foldlM Pcie.line .empty
  let out ← (res.items order).foldlM (fun out e => do
    let avg ← PyFloat.trunc (PyFloat.average (← floats e.2 : List F))
    some (out.set e.1 (.str (intStr avg)))) .empty
  Pcie.addMem F (← Pcie.addMem F out "sys_pcie_0_hit".toList) "sys_pcie_0_miss".toList

/-! ### perf stat -/

namespace PerfStat

/-- An entry of the dictionary: still the samples of an event, or already an average. -/
inductive Entry (F : Type) where
  | samples (l : List F)
  | number (v : Value F)

/-- `int(val)`, and where that fails `float(val)`. -/
def number (val : Str) : Option F :=
  match parseInt val with
  | some n => some (PyFloat.lit n)
  | none => PyFloat.ofStr val

/-- A line that is passed over. -/
def skipped (l : Str) : Bool := "#".toList.isPrefixOf l || decide (l.length < 5)

/-- One line: comments and short lines are skipped, any other has seven fields. -/
def line (res : Samples F) (l : Str) : Option (Samples F) :=
  if skipped l then some res
  else match l.splitOn ',' with
    | [val, _, name, _, _, _, _] => do
      some (appendSample res ("perf_".toList ++ name) (← number val))
    | _ => none

/--
The averages of one event.

The test `res[k] != []` is met by a list.  A float of the array library compares to `[]`
as an empty array, which is false, so an entry that is an average already is reset to
zero; an integer is unequal to `[]` and has no length, which is the `TypeError`.
-/
def averages [Sorting] (res : Dict Str (Entry F)) (k : Str) : Option (Dict Str (Entry F)) :=
  match res.get? k with
  | some (.samples (x :: l)) =>
    let noOutliers := rejectOutliers (x :: l)
    some ((res.set (stdName k) (.number (.flt (PyFloat.std noOutliers)))).set k
      (.number (.flt (PyFloat.average noOutliers))))
  | some (.samples []) | some (.number (.flt _)) =>
    some ((res.set (stdName k) (.number (.int 0))).set k (.number (.int 0)))
  | _ => none

/-- The value an entry is returned as; no list is left when the loop is over. -/
def Entry.value : Entry F → Option (Value F)
  | .samples _ => none
  | .number v => some v

end PerfStat

/-- `read_perf_stat`. -/
def readPerfStat [Sorting] (order : Enumeration Str) (data : Str) : Option (Result F) := do
  let res ← (data.splitOn '\n').foldlM PerfStat.line .empty
  let entries : Dict Str (PerfStat.Entry F) :=
    Dict.ofList (res.entries.map fun e => (e.1, .samples e.2))
  let averaged ← (order.order res.keys).foldlM PerfStat.averages entries
  averaged.entries.foldlM (fun out e => do some (out.set e.1 (← e.2.value))) .empty

end Nicmem
