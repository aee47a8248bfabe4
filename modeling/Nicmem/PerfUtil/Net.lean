/-
The readers of the network and processor counter logs.

Lines `name: value` are grouped by name, the samples of a name are trimmed and
averaged, and `read_net` adds up the counters whose names end alike.  A line the
parser rejects is skipped, but not always without a trace: the list of a new name is
created before its value is converted, so a value that is no number leaves an empty
list behind.
-/
import Nicmem.Python.Dict
import Nicmem.Python.Number
import Nicmem.Python.Sorting

namespace Nicmem

open Python

variable {F : Type} [PyFloat F]

/-- Samples collected under a key. -/
abbrev Samples (α : Type) := Dict Str (List α)

/-- The result of a reader. -/
abbrev Result (F : Type) := Dict Str (Value F)

/-- `d[k].append(v)`, with an empty list created where there is none. -/
def appendSample {α : Type} (d : Samples α) (k : Str) (v : α) : Samples α :=
  d.set k ((d.get? k).getD [] ++ [v])

/-- `reject_outliers` with its default arguments: from five samples on, both ends go. -/
def rejectOutliersBy [Sorting] {α : Type} (lt : α → α → Bool) (data : List α) : List α :=
  if 8 < data.length then ((Sorting.sorted lt data).drop 1).dropLast
  else if 4 < data.length then ((Sorting.sorted lt data).drop 1).dropLast
  else data

/-- `reject_outliers` of numbers. -/
def rejectOutliers [Sorting] (data : List F) : List F := rejectOutliersBy PyFloat.lt data

/-- `align_std`. -/
def alignStd (x : F) : F := if PyFloat.lt x (PyFloat.lit (1 / 10000)) then PyFloat.lit 0 else x

/-- `k, v = l.split(': ')`, for a line that holds a colon; `none` if it is skipped. -/
def netCpuParts (l : Str) : Option (Str × Str) :=
  if ':' ∈ l then
    match splitStr ": ".toList l with
    | [k, v] => some (k, v)
    | _ => none
  else none

/-- One line of `_read_net_cpu`. -/
def netCpuLine (res : Samples F) (l : Str) : Samples F :=
  match netCpuParts l with
  | none => res
  | some (k, v) =>
    match PyFloat.ofStr v with
    | some x => appendSample res k x
    | none => if k ∈ res.keys then res else res.set k []

/-- The samples of a log, by name. -/
def netCpuSamples (data : Str) : Samples F := (data.splitOn '\n').foldl netCpuLine .empty

/-- The name under which a deviation is kept. -/
def stdName (k : Str) : Str := k ++ "_std".toList

/-- The averages of one name: its mean, and its deviation under the name with `_std`. -/
def netCpuAverages [Sorting] (out : Result F) (e : Str × List F) : Result F :=
  let noOutliers := rejectOutliers e.2
  (out.set e.1 (.str (PyFloat.fmt2 (PyFloat.average noOutliers)))).set (stdName e.1)
    (.str (PyFloat.fmt2 (alignStd (PyFloat.std noOutliers))))

/-- `_read_net_cpu`. -/
def readNetCpu [Sorting] (order : Enumeration Str) (data : Str) : Result F :=
  ((netCpuSamples data).items order).foldl netCpuAverages .empty

/-- `read_cpu`. -/
def readCpu [Sorting] (order : Enumeration Str) (data : Str) : Result F := readNetCpu order data

/-! ### Totals -/

/-- The counters `read_net` totals, in the order it tests for them. -/
inductive Counter where
  | txBw | rxBw | txBwPhy | rxBwPhy | txBytes | rxBytes | txPackets | rxPackets
  deriving DecidableEq, Repr

namespace Counter

/-- How the names of the counter end. -/
def suffix : Counter → Str
  | txBw => "tx_bw".toList
  | rxBw => "rx_bw".toList
  | txBwPhy => "tx_bw_phy".toList
  | rxBwPhy => "rx_bw_phy".toList
  | txBytes => "tx_bytes".toList
  | rxBytes => "rx_bytes".toList
  | txPackets => "tx_packets".toList
  | rxPackets => "rx_packets".toList

/-- The key of its total. -/
def total (c : Counter) : Str := "Total_".toList ++ c.suffix

def all : List Counter :=
  [txBw, rxBw, txBwPhy, rxBwPhy, txBytes, rxBytes, txPackets, rxPackets]

/-- The counter a name is totalled under: the first whose suffix it has. -/
def ofName (k : Str) : Option Counter := all.find? fun c => c.suffix.isSuffixOf k

end Counter

/-- The totals start at zero, set in the order of the chained assignment. -/
def zeroTotals (res : Result F) : Result F :=
  [Counter.txBwPhy, .rxBwPhy, .txBw, .rxBw, .txBytes, .rxBytes, .txPackets, .rxPackets].foldl
    (fun res c => res.set c.total (.int 0)) res

/-- `res[total] += float(v)` for the counter the name belongs to, if any. -/
def addToTotal (res : Result F) (e : Str × Value F) : Option (Result F) :=
  match Counter.ofName e.1 with
  | none => some res
  | some c => do
    let x ← e.2.toFloat
    let sum ← (res.get? c.total).bind Value.toFloat
    some (res.set c.total (.flt (PyFloat.add sum x)))

/-- `read_net`: the loop runs over the entries as they were before it. -/
def readNet [Sorting] (order : Enumeration Str) (data : Str) : Option (Result F) :=
  let res := zeroTotals (readNetCpu order data)
  (res.items order).foldlM addToTotal res

end Nicmem
