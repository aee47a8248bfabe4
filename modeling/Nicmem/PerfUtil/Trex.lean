/-
The readers of the load generator's output.

`read_trex` first cuts the text into records.  The loop looks for an opening brace and
for the three closing ones that end a record, and uses both positions as slice bounds
whether or not anything was found.  It is written with fuel, since a text without
`}}}` keeps it in place.  Each record is then read as a literal, and each entry of its
latency dictionary adds to five lists inside one handler that swallows every failure.
-/
import Nicmem.PerfUtil.Net
import Nicmem.Python.Regex

namespace Nicmem

open Python

variable {F : Type} [PyFloat F]

/-- The out-dictionary most readers build: average and deviation of each key. -/
def averagesOut (order : Enumeration Str) (res : Samples F) : Result F :=
  (res.items order).foldl (fun out e =>
    if e.2.isEmpty then out.set e.1 (.int 0)
    else (out.set e.1 (.flt (PyFloat.average e.2))).set (stdName e.1)
      (.flt (PyFloat.std e.2))) .empty

/-! ### Cutting the text into records -/

/-- The text `}}}` that ends a record. -/
def recordEnd : Str := ['}', '}', '}']

/-- One round of the loop: the piece that is appended, and the text that is left. -/
def splitStep (data : Str) : Str × Str :=
  let data := sliceFrom data (find ['{'] data)
  let lastBracket := find recordEnd data
  (sliceTo data lastBracket, sliceFrom data (lastBracket + 1))

/-- `while len(data) >= 10`; `none` when the fuel runs out first. -/
def splitRecords : Nat → Str → Option (List Str)
  | 0, data => if data.length < 10 then some [] else none
  | fuel + 1, data =>
    if data.length < 10 then some []
    else (splitRecords fuel (splitStep data).2).map ((splitStep data).1 :: ·)

/-- The texts handed to `literal_eval`. -/
def recordTexts (fuel : Nat) (data : Str) : Option (List Str) :=
  (splitRecords fuel data).map fun dicts => dicts.map (· ++ recordEnd)

/-! ### Records -/

/-- What `literal_eval` returns, as far as the reader looks at it.  As a value, `other` is
anything that is neither a number, a text nor a dictionary; as a key it is `None`. -/
inductive Obj (F : Type) where
  | int (n : Int)
  | flt (x : F)
  | str (s : Str)
  | dict (entries : List (Obj F × Obj F))
  | other

namespace Obj

/-- `o[k]`; `none` is the `KeyError` or `TypeError`. -/
def item (o : Obj F) (k : String) : Option (Obj F) :=
  match o with
  | .dict entries => (entries.find? fun e =>
      match e.1 with
      | .str s => s == k.toList
      | _ => false).map Prod.snd
  | _ => none

/-- The number an object is, if it is one. -/
def number : Obj F → Option F
  | .int n => some (PyFloat.lit n)
  | .flt x => some x
  | _ => none

/-- `float(o)`. -/
def toFloat : Obj F → Option F
  | .int n => some (PyFloat.lit n)
  | .flt x => some x
  | .str s => PyFloat.ofStr s
  | _ => none

/-- `o != {}`. -/
def nonEmpty : Obj F → Bool
  | .dict entries => !entries.isEmpty
  | _ => true

/-- The order of dictionary keys: `None`, then numbers by value, then texts. -/
def lt : Obj F → Obj F → Bool
  | .other, .other => false
  | .other, _ => true
  | _, .other => false
  | .str s, .str t => decide (s < t)
  | x, y =>
    match x.number, y.number with
    | some a, some b => PyFloat.lt a b
    | some _, none => true
    | _, _ => false

end Obj

/-- The lists `read_trex` collects. -/
structure TrexSamples (F : Type) where
  latAvg : List (Obj F)
  latAvg2 : List F
  lat50th : List (Obj F)
  lat90th : List (Obj F)
  lat99th : List (Obj F)
  txBps : List (Obj F)
  rxBps : List (Obj F)

/-- `float(total_measured) * cur / 100.0`. -/
def percentileBound (total : F) (cur : Nat) : F :=
  PyFloat.div (PyFloat.mul total (PyFloat.lit cur)) (PyFloat.lit 100)

/-- The inner loop: the percentiles a bucket of latency `k` fills up to the count `upTo`. -/
def fillPercentiles (total upTo : F) (k : Obj F) :
    Nat → Nat → List (Obj F) → Option (Nat × List (Obj F))
  | 0, cur, percentiles =>
    if PyFloat.lt (percentileBound total cur) upTo then none else some (cur, percentiles)
  | fuel + 1, cur, percentiles =>
    if PyFloat.lt (percentileBound total cur) upTo then
      fillPercentiles total upTo k fuel (cur + 1) (percentiles ++ [k])
    else some (cur, percentiles)

/-- The outer loop, over the buckets in order. -/
def percentileLoop (fuel : Nat) (total : F) :
    List (Obj F × F) → Nat → F → List (Obj F) → Option (List (Obj F))
  | [], _, _, percentiles => some percentiles
  | (k, v) :: buckets, cur, curSum, percentiles => do
    let (cur, percentiles) ← fillPercentiles total (PyFloat.add v curSum) k fuel cur percentiles
    percentileLoop fuel total buckets cur (PyFloat.add curSum v) percentiles

/-- The buckets of a histogram: every count has to be a number. -/
def buckets (hist : List (Obj F × Obj F)) : Option (List (Obj F × F)) :=
  hist.mapM fun e => e.2.number.map fun v => (e.1, v)

/-- `sum([v for v in lat_hist.values()])`. -/
def totalMeasured (bs : List (Obj F × F)) : F :=
  (bs.map Prod.snd).foldl PyFloat.add (PyFloat.lit 0)

/-- The percentiles of a histogram. -/
def percentilesOf [Sorting] (fuel : Nat) (bs : List (Obj F × F)) : Option (List (Obj F)) :=
  percentileLoop fuel (totalMeasured bs) (Sorting.sorted (fun x y => Obj.lt x.1 y.1) bs) 1
    (PyFloat.lit 0) []

/-- The histogram an entry is read from: the first of the three that is not empty. -/
def histogramOf (latency : Obj F) : Option (Obj F) := do
  let h ← latency.item "histogram"
  if h.nonEmpty then return h
  let h ← latency.item "histogram1us"
  if h.nonEmpty then return h
  let h ← latency.item "histogram100ns"
  if h.nonEmpty then return h
  none

/-- How an entry of the latency dictionary ends: read, or failed after some of its appends. -/
inductive EntryOutcome (F : Type) where
  | read (s : TrexSamples F)
  | failed (s : TrexSamples F)
  | stuck

/-- The part of the handler after the histogram is chosen. -/
def readHistogram [Sorting] (fuel : Nat) (s : TrexSamples F) (hist : Obj F) : EntryOutcome F :=
  match hist with
  | .dict entries =>
    match buckets entries with
    | none => .failed s
    | some bs =>
      match percentilesOf fuel bs with
      | none => .stuck
      | some ps =>
        if ps.length = 99 then
          let s := { s with lat50th := s.lat50th ++ (ps[49]?).toList,
                            lat90th := s.lat90th ++ (ps[89]?).toList,
                            lat99th := s.lat99th ++ (ps[98]?).toList }
          match ps.mapM Obj.number with
          | some xs => .read { s with latAvg2 := s.latAvg2 ++ [PyFloat.average xs] }
          | none => .failed s
        else .failed s
  | _ => .failed s

/-- The body of the `try` for one entry of the latency dictionary. -/
def readLatency [Sorting] (fuel : Nat) (s : TrexSamples F) (lat : Obj F) : EntryOutcome F :=
  match (lat.item "latency").bind (·.item "average") with
  | none => .failed s
  | some avg =>
    let s := { s with latAvg := s.latAvg ++ [avg] }
    match (lat.item "latency").bind histogramOf with
    | none => .failed s
    | some hist => readHistogram fuel s hist

/-- The entries of the latency dictionary: whatever an entry does, the loop goes on. -/
def readLatencies [Sorting] (fuel : Nat) : TrexSamples F → List (Obj F) → Option (TrexSamples F)
  | s, [] => some s
  | s, lat :: rest =>
    match readLatency fuel s lat with
    | .read s => readLatencies fuel s rest
    | .failed s => readLatencies fuel s rest
    | .stuck => none

/-- One record. -/
def readRecord [Sorting] (fuel : Nat) (s : TrexSamples F) (d : Obj F) : Option (TrexSamples F) := do
  let tx ← (← d.item "global").item "tx_bps"
  let rx ← (← d.item "global").item "rx_bps"
  let s := { s with txBps := s.txBps ++ [tx], rxBps := s.rxBps ++ [rx] }
  match ← d.item "latency" with
  | .dict entries => readLatencies fuel s (entries.map Prod.snd)
  | _ => none

/-- `filter(lambda x: float(x) >= 1, l)`, then trimmed; only numbers can be averaged. -/
def trexList [Sorting] (l : List (Obj F)) : Option (List F) := do
  let kept ← l.filterM fun o => o.toFloat.map fun x => PyFloat.le (PyFloat.lit 1) x
  (rejectOutliersBy Obj.lt kept).mapM Obj.number

/-- `read_trex`. -/
def readTrex [Sorting] (order : Enumeration Str) (fuel : Nat) (literalEval : Str → Option (Obj F))
    (data : Str) : Option (Result F) := do
  let dicts ← (← recordTexts fuel data).mapM literalEval
  let s ← dicts.foldlM (readRecord fuel) ⟨[], [], [], [], [], [], []⟩
  let res : Samples F := Dict.ofList
    [("trex_lat_avg".toList, ← trexList s.latAvg), ("trex_lat_avg2".toList, s.latAvg2),
      ("trex_lat_50th".toList, ← trexList s.lat50th),
      ("trex_lat_90th".toList, ← trexList s.lat90th),
      ("trex_lat_99th".toList, ← trexList s.lat99th), ("trex_tx_bps".toList, ← trexList s.txBps),
      ("trex_rx_bps".toList, ← trexList s.rxBps)]
  some (averagesOut order res)

/-! ### The non-drop rate -/

namespace TrexNdr

open Pattern

def ndr (unit : String) : Pattern :=
  lit "NDR(s) uni-directional" ++ plus .space ++ lit ":" ++ group decimal ++ lit unit

/-- One line: a rate in Gbps, and where there is none one in Mbps. -/
def line (res : Samples F) (l : Str) : Option (Samples F) :=
  let items := findall (ndr " Gbps") l
  let items := if items.isEmpty then findall (ndr " Mbps") l else items
  match items with
  | [] => some res
  | r :: _ => do some (appendSample res "trex_ndr".toList (← PyFloat.ofStr (← r[0]?)))

end TrexNdr

/-- `read_trex_ndr`; a log without a rate is the `KeyError`. -/
def readTrexNdr [Sorting] (order : Enumeration Str) (data : Str) : Option (Result F) := do
  let res ← (data.splitOn '\n').foldlM TrexNdr.line .empty
  let ndr ← res.get? "trex_ndr".toList
  some (averagesOut order (res.set "trex_ndr".toList (rejectOutliers ndr)))

end Nicmem
