/-
The readers of the applications' own logs.

Most of them look every line over for a fixed list of patterns, collect what each one
captures under its own key, and average: `collect` is that loop, and a reader is its
table of patterns.  `read_env` copies its lines, `read_neo` builds its keys from the
cells of a printed table, and `read_mica_lat` reads the percentiles off a histogram in
the order the dictionary lists it.
-/
import Nicmem.PerfUtil.Trex

namespace Nicmem

open Python

variable {F : Type} [PyFloat F]

/-- `int` of a captured text. -/
def capturedInt (s : Str) : Option F := (parseInt s).map fun n => PyFloat.lit n

/-- One line against every pattern of a table: the first match of each is collected. -/
def collectLine (conv : Str → Option F) (table : List (Pattern × Str)) (res : Samples F)
    (l : Str) : Option (Samples F) :=
  table.foldlM (fun res (p, key) =>
    match findall p l with
    | [] => some res
    | r :: _ => do some (appendSample res key (← conv (← r[0]?)))) res

/-- The samples of a whole log. -/
def collect (conv : Str → Option F) (table : List (Pattern × Str)) (data : Str) :
    Option (Samples F) :=
  (data.splitOn '\n').foldlM (collectLine conv table) .empty

/-- `res[k] = reject_outliers(res[k])`; `none` is the `KeyError`. -/
def trimAt [Sorting] (res : Samples F) (k : Str) : Option (Samples F) :=
  (res.get? k).map fun l => res.set k (rejectOutliers l)

/-! ### The environment -/

/-- `is_ascii`. -/
def isAscii (s : Str) : Bool :=
  s.all fun c => c.isLower || c.isUpper || c.isDigit || c ∈ ['-', '_', '+', '.']

/-- One line of `read_env`. -/
def envLine (res : Result F) (l : Str) : Result F :=
  match l.splitOn '=' with
  | [name, val] =>
    if name.isEmpty || val.isEmpty || !isAscii name || !isAscii val then res
    else res.set name (.str val)
  | _ => res

/-- `read_env`. -/
def readEnv (data : Str) : Result F := (data.splitOn '\n').foldl envLine .empty

/-! ### l3fwd -/

namespace L3fwd

open Pattern

def counter (name : String) : Pattern :=
  plus .space ++ lit name ++ lit "=" ++ group (plus .digit)

def table : List (Pattern × Str) :=
  [(counter "tx_cyc", "l3fwd_tx_cyc".toList), (counter "rx_cyc", "l3fwd_rx_cyc".toList),
    (counter "lookup_cyc", "l3fwd_lookup_cyc".toList),
    (counter "idle_cyc", "l3fwd_idle_cyc".toList),
    (counter "total_cyc", "l3fwd_total_cyc".toList),
    (counter "sw drop pkts", "l3fwd_sw_drops".toList),
    (counter "txq occupied", "l3fwd_txq_occupied".toList)]

/-- `max(x - (2.1 * (10**9)) * 0.5, 0)`: half a second is not idle time. -/
def withoutStartup (x : F) : F :=
  let y := PyFloat.sub x (PyFloat.mul (PyFloat.mul (PyFloat.lit (21 / 10)) (PyFloat.lit (10 ^ 9)))
    (PyFloat.lit (1 / 2)))
  if PyFloat.lt y (PyFloat.lit 0) then PyFloat.lit 0 else y

/-- The trimming of one counter; a counter that is not there is passed over. -/
def trim [Sorting] (res : Samples F) (k : Str) : Samples F :=
  match res.get? k with
  | none => res
  | some l =>
    if k = "l3fwd_idle_cyc".toList then res.set k ((rejectOutliers l).map withoutStartup)
    else res.set k (rejectOutliers l)

end L3fwd

/-- `read_l3fwd`. -/
def readL3fwd [Sorting] (order : Enumeration Str) (data : Str) : Option (Result F) := do
  let res ← collect capturedInt L3fwd.table data
  some (averagesOut order (["l3fwd_rx_cyc".toList, "l3fwd_tx_cyc".toList,
    "l3fwd_lookup_cyc".toList, "l3fwd_idle_cyc".toList, "l3fwd_total_cyc".toList,
    "l3fwd_sw_drops".toList, "l3fwd_txq_occupied".toList].foldl L3fwd.trim res))

/-! ### The NIC's own counters -/

namespace Neo

/-- A row that only rules a line: no counter. -/
def rule (key : Str) : Bool :=
  "===========".toList.isPrefixOf key || "-----------".toList.isPrefixOf key

/-- The key of a cell, without its first `skip` characters. -/
def key (skip : Nat) (cell : Str) : Str :=
  "neo_".toList ++ (replace [' '] ['_'] (rstrip (lower cell))).drop skip

/-- The text of a value: what stands before its unit, without thousands separators. -/
def valueText (cell : Str) : Str := replace [','] [] (sliceTo cell (find ['['] cell))

/--
A counter and its value, if the two cells hold one.  `bars` are the characters that are
removed from the value before it is converted.
-/
def cells (skip : Nat) (bars : List Char) (name val : Str) : Option (Str × F) :=
  if rule name then none
  else
    let text := valueText val
    if (replace [' '] [] text).isEmpty then none
    else (PyFloat.ofStr (text.filter (· ∉ bars))).map fun x => (key skip name, x)

/-- What a line records: a raw counter, and where there is one an analysed counter after it. -/
def lineCells (l : Str) : List (Str × F) :=
  if "==============".toList.isPrefixOf l || hasSub "Counter Name".toList l then []
  else match splitStr "||".toList l with
    | _ :: name :: val :: rest =>
      match cells 1 ['|'] name val with
      | none => []
      | some e => e :: match rest with
        | name :: val :: _ => (cells 2 [] name val).toList
        | _ => []
    | _ => []

def line (res : Samples F) (l : Str) : Samples F :=
  (lineCells l).foldl (fun res e => appendSample res e.1 e.2) res

/-- The text without the colour codes. -/
def plainText (data : Str) : Str :=
  erase (Pattern.lit "[" ++ Pattern.group (Pattern.plus .digit) ++ Pattern.lit "m")
    (replace ['\x1b'] [] data)

/-- A utilization of at most one percent is a faulty measurement. -/
def kept (k : Str) (v : List F) : List F :=
  if hasSub "utilization".toList k then v.filter fun x => PyFloat.lt (PyFloat.lit 1) x else v

end Neo

/-- The samples of the counters. -/
def neoSamples (data : Str) : Samples F :=
  ((Neo.plainText data).splitOn '\n').foldl Neo.line .empty

/-- `read_neo`. -/
def readNeo [Sorting] (order : Enumeration Str) (data : Str) : Result F :=
  ((neoSamples data).items order).foldl (fun out e =>
    out.set e.1 (.flt (PyFloat.average (rejectOutliers (Neo.kept e.1 e.2))))) .empty

/-! ### FastClick -/

/-- `to_bps` with its default packet size and duration. -/
def toBps (pkts : F) : F :=
  PyFloat.div (PyFloat.mul (PyFloat.mul pkts (PyFloat.lit 1500)) (PyFloat.lit 8)) (PyFloat.lit 20)

namespace FclickWp

/-- The rate of the packets in the third field, for the two interfaces together. -/
def packets (l1 : List Str) : Option F := do
  some (PyFloat.mul (toBps (← PyFloat.ofStr (← l1[2]?))) (PyFloat.lit 2))

/-- The integer in the second field. -/
def cycles (l1 : List Str) : Option F := do capturedInt (← l1[1]?)

/-- The number in the second field. -/
def idle (l1 : List Str) : Option F := do PyFloat.ofStr (← l1[1]?)

/-- How a line starts, the key it is collected under, and how its number is read. -/
def table : List (Str × Str × (List Str → Option F)) :=
  [("rx_missed_errors".toList, "fclick_missed_bps".toList, packets),
    ("rx_discards_phy".toList, "fclick_discards_bps".toList, packets),
    ("rx_out_of_buffer".toList, "fclick_oob_bps".toList, packets),
    ("RESULT-CYCLEPP".toList, "fclick_cycles".toList, cycles),
    ("RESULT-CYCLEPB".toList, "fclick_cycles_pb".toList, cycles),
    ("RESULT-CYCLE_IDLE".toList, "fclick_cycles_idle".toList, idle)]

def line (res : Samples F) (l : Str) : Option (Samples F) :=
  table.foldlM (fun res (start, key, read) =>
    if start.isPrefixOf l then do some (appendSample res key (← read (l.splitOn ' ')))
    else some res)
    res

def keys : List Str :=
  ["fclick_cycles".toList, "fclick_cycles_pb".toList, "fclick_cycles_idle".toList,
    "fclick_oob_bps".toList, "fclick_missed_bps".toList, "fclick_discards_bps".toList]

end FclickWp

/-- `read_fclick_wp`. -/
def readFclickWp [Sorting] (order : Enumeration Str) (data : Str) : Option (Result F) := do
  let res ← (data.splitOn '\n').foldlM FclickWp.line
    (Dict.ofList (FclickWp.keys.map fun k => (k, [])))
  let avg (k : Str) : Option F := (res.get? k).map fun v => PyFloat.average (rejectOutliers v)
  let out : Result F := (res.items order).foldl (fun out e =>
    out.set e.1 (.flt (PyFloat.average (rejectOutliers e.2)))) .empty
  let drops := PyFloat.add (PyFloat.add (← avg "fclick_discards_bps".toList)
    (← avg "fclick_oob_bps".toList)) (← avg "fclick_missed_bps".toList)
  some (out.set "fclick_total_drops".toList (.flt drops))

/-! ### Round-trip times -/

namespace Ping

open Pattern

def rtt : Pattern :=
  plus .digit ++ lit " iters in " ++ decimal ++ lit " seconds = " ++ group decimal
    ++ lit " usec/iter"

def tsc (name : String) : Pattern :=
  lit name ++ lit " tsc: " ++ group (plus .digit) ++ lit " cycles"

def client : List (Pattern × Str) :=
  [(rtt, "dpdk_ping_rtt".toList), (tsc "average", "dpdk_ping_tsc".toList),
    (tsc "tx", "dpdk_ping_tx_tsc".toList), (tsc "rx", "dpdk_ping_rx_tsc".toList)]

def server : List (Pattern × Str) :=
  [(tsc "average", "dpdk_pong_tsc".toList), (tsc "tx", "dpdk_pong_tx_tsc".toList),
    (tsc "rx", "dpdk_pong_rx_tsc".toList)]

def ibvClient : List (Pattern × Str) := [(rtt, "ibvping_rtt".toList)]

/-- Collect, trim every key of the table, average. -/
def read [Sorting] (table : List (Pattern × Str)) (order : Enumeration Str) (data : Str) :
    Option (Result F) := do
  let res ← collect PyFloat.ofStr table data
  some (averagesOut order (← (table.map Prod.snd).foldlM trimAt res))

end Ping

/-- `read_dpdk_ping_client`. -/
def readDpdkPingClient [Sorting] (order : Enumeration Str) (data : Str) : Option (Result F) :=
  Ping.read Ping.client order data

/-- `read_dpdk_ping_server`. -/
def readDpdkPingServer [Sorting] (order : Enumeration Str) (data : Str) : Option (Result F) :=
  Ping.read Ping.server order data

/-- `read_ibvping_client`. -/
def readIbvpingClient [Sorting] (order : Enumeration Str) (data : Str) : Option (Result F) :=
  Ping.read Ping.ibvClient order data

/-! ### The key-value store -/

namespace Mica

open Pattern

def bucket : Pattern :=
  Pattern.star .space ++ group (plus .digit) ++ plus .space ++ group (plus .digit)

/-- One line of the histogram; the overflow bucket 1920 is left out. -/
def line (histogram : Dict Nat Nat) (l : Str) : Option (Dict Nat Nat) :=
  match findall bucket l with
  | [] => some histogram
  | r :: _ => do
    let k := natVal (← r[0]?)
    let v := natVal (← r[1]?)
    some (if k = 1920 then histogram else histogram.set k ((histogram.get? k).getD 0 + v))

/-- The loop that looks for a percentile; zero stands for one not yet found. -/
def percentile (F : Type) [PyFloat F] (numItems p : Nat) (st e : Nat × Nat) : Nat × Nat :=
  let cdf := st.1 + e.2
  let bound : F :=
    PyFloat.div (PyFloat.mul (PyFloat.lit numItems) (PyFloat.lit p)) (PyFloat.lit 100)
  (cdf, if st.2 = 0 ∧ PyFloat.le bound (PyFloat.lit cdf) = true then e.1 else st.2)

def mops : Pattern := lit "current_ops:" ++ Pattern.star .space ++ group decimal ++ lit " Mops"

/-- A sample of the throughput; zero is left out. -/
def mopsLine (res : List F) (l : Str) : Option (List F) :=
  match findall mops l with
  | [] => some res
  | r :: _ => do
    let x ← PyFloat.ofStr (← r[0]?)
    some (if PyFloat.le x (PyFloat.lit 0) && PyFloat.le (PyFloat.lit 0) x then res else res ++ [x])

end Mica

/-- `th50`, `th90` and `th99` of the histogram as it is listed. -/
def percentileOf (F : Type) [PyFloat F] (numItems : Nat) (items : List (Nat × Nat)) (p : Nat) :
    Nat :=
  (items.foldl (Mica.percentile F numItems p) (0, 0)).2

/-- `read_mica_lat`; an empty histogram is the `ZeroDivisionError`, and what is too large for
a float the `OverflowError`. -/
def readMicaLat (order : Enumeration Nat) (data : Str) : Option (Result F) := do
  let histogram ← (data.splitOn '\n').foldlM Mica.line .empty
  let items := histogram.items order
  let numItems : Nat := (items.map Prod.snd).sum
  let total : Nat := (items.map fun e => e.1 * e.2).sum
  let sum : F ← PyFloat.ofInt total
  let number : F ← if numItems = 0 then none else PyFloat.ofInt numItems
  some (Dict.ofList [("mica_avg".toList, .str (PyFloat.fmt2 (PyFloat.div sum number))),
    ("mica_50th".toList, .int (percentileOf F numItems items 50)),
    ("mica_90th".toList, .int (percentileOf F numItems items 90)),
    ("mica_99th".toList, .int (percentileOf F numItems items 99))])

/-- `read_mica_server`. -/
def readMicaServer [Sorting] (data : Str) : Option (Result F) := do
  let mops ← (data.splitOn '\n').foldlM Mica.mopsLine ([] : List F)
  some (Dict.ofList [("mica_mops".toList,
    .str (PyFloat.fmt2 (PyFloat.average (rejectOutliers mops))))])

end Nicmem
