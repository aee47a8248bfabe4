/-
The selections the plot scripts make from `filter.csv`.

For the scatter plot there are sixteen files, one for each memory type on each side of
the two thresholds, and each is filled by a pipeline of its own; `Pipeline` is what they
have in common and `pipeline` lists the sixteen as they are written.  For the key-value
store the base rows and the nic rows are selected, sorted, and pasted side by side.
-/
import Nicmem.Csv
import Nicmem.Shell.Text

namespace Nicmem

open Python Shell

/-- The comment a result file starts with: the words of the header of the CSV. -/
def commentLine (csv : List Str) : Str := echo (['#'] :: words (csv.headD []))

/-! ### The scatter plot of figure 7 -/

/-- The keys `filter.py` of figure 7 prints when it is given none. -/
def scatterKeys : List Str :=
  ["sys_Memory", "sys_pcie_0_hit_mem", "sys_pcie_0_miss_mem", "RXDESC", "MEMTYPE", "CORES",
    "l3fwd_rx_cyc", "l3fwd_tx_cyc", "l3fwd_idle_cyc", "l3fwd_lookup_cyc", "l3fwd_total_cyc",
    "TIME", "trex_lat_avg2", "LOAD", "trex_tx_bps", "trex_rx_bps", "trex_lat_99th",
    "neo_pcie_avg_latency", "DDIO_WAYS", "perf_cache-references", "perf_cache-misses",
    "PKT_SIZE", "WP_CPU", "WP_MEMN", "WP_MEMSIZE", "fclick_cycles", "fclick_cycles_pb",
    "fclick_cycles_idle", "neo_outbound_stalled_writes", "fclick_oob_bps", "fclick_discards_bps",
    "fclick_total_drops"].map String.toList

/-- The first line of `filter.csv`. -/
def scatterHeader : Str := filterHeader scatterKeys

/-- The sides of the cycles threshold. -/
inductive CpuSide where
  | lowc | highc
  deriving DecidableEq, Repr

/-- The sides of the memory bandwidth threshold. -/
inductive MemSide where
  | lowm | highm
  deriving DecidableEq, Repr

inductive MemType where
  | nic | nicInline | host | base
  deriving DecidableEq, Repr

def MemType.text : MemType → Str
  | .nic => "nic".toList
  | .nicInline => "nic-inline".toList
  | .host => "host".toList
  | .base => "base".toList

/-- `THRESHOLD_CPU`. -/
def thresholdCpu : Str := "1815".toList

/-- `THRESHOLD_MEM`. -/
def thresholdMem : Str := "30".toList

/-- What differs between the pipelines. -/
structure Pipeline where
  keep : Str
  drop : Option Str
  cpu : Op
  mem : Op

section Scatter

variable {N : Type} [LinearOrder N] (number : Str → Option N) (C : Collation)

/-- The rows a pipeline appends to its file. -/
def Pipeline.run (p : Pipeline) (csv : List Str) : List Str :=
  let kept := grep p.keep csv
  let kept := match p.drop with
    | some pat => grepV pat kept
    | none => kept
  sortNumeric C (keyFrom 30)
    (awk number 4 p.mem thresholdMem (awk number 30 p.cpu thresholdCpu kept))

/-- The sixteen pipelines. -/
def pipeline : CpuSide → MemSide → MemType → Pipeline
  | .lowc, .highm, .nic => ⟨"nic".toList, some "inline".toList, .lt, .gt⟩
  | .lowc, .highm, .nicInline => ⟨"nic-inline".toList, none, .lt, .gt⟩
  | .lowc, .highm, .host => ⟨"host".toList, none, .lt, .gt⟩
  | .lowc, .highm, .base => ⟨"base".toList, none, .lt, .gt⟩
  | .lowc, .lowm, .nic => ⟨"nic".toList, some "inline".toList, .lt, .le⟩
  | .lowc, .lowm, .nicInline => ⟨"nic-inline".toList, none, .lt, .le⟩
  | .lowc, .lowm, .host => ⟨"host".toList, none, .lt, .le⟩
  | .lowc, .lowm, .base => ⟨"base".toList, none, .lt, .le⟩
  | .highc, .highm, .nic => ⟨"nic".toList, some "inline".toList, .ge, .gt⟩
  | .highc, .highm, .nicInline => ⟨"nic-inline".toList, none, .ge, .gt⟩
  | .highc, .highm, .host => ⟨"host".toList, none, .ge, .gt⟩
  | .highc, .highm, .base => ⟨"base".toList, none, .ge, .gt⟩
  | .highc, .lowm, .nic => ⟨"nic".toList, some "inline".toList, .ge, .le⟩
  | .highc, .lowm, .nicInline => ⟨"nic-inline".toList, none, .ge, .le⟩
  | .highc, .lowm, .host => ⟨"host".toList, none, .ge, .le⟩
  | .highc, .lowm, .base => ⟨"base".toList, none, .ge, .le⟩

/-- `result.<cpu>.<mem>.<memtype>.csv`. -/
def scatterFile (cpu : CpuSide) (mem : MemSide) (ty : MemType) (csv : List Str) : List Str :=
  commentLine csv :: (pipeline cpu mem ty).run number C csv

end Scatter

/-! ### The comparison of figure 11 -/

/-- The sizes of the hot area that are compared. -/
inductive HotArea where
  | k256 | k65536
  deriving DecidableEq, Repr

/-- The pattern a row of the size is selected by. -/
def HotArea.pattern : HotArea → Str
  | .k256 => "-256-".toList
  | .k65536 => "-65536-".toList

/-- The nic rows of a size, before they are sorted. -/
def nicSelection (size : HotArea) (csv : List Str) : List Str :=
  grepV "inline".toList (grep size.pattern (grep "nic-4".toList csv))

/-- The base rows of a size, before they are sorted. -/
def baseSelection (size : HotArea) (csv : List Str) : List Str :=
  grep size.pattern (grep "base-4".toList csv)

/-- The rows of `result.lat.nic.4.<size>.csv`. -/
def nicRows (C : Collation) (size : HotArea) (csv : List Str) : List Str :=
  sortNumeric C (keyAt 16) (nicSelection size csv)

/-- The rows of `result.lat.base.4.<size>.csv`. -/
def baseRows (C : Collation) (size : HotArea) (csv : List Str) : List Str :=
  sortNumeric C (keyAt 16) (baseSelection size csv)

/-- `result.lat.all.<size>.csv`, the halves of each line kept apart. -/
def latAllRows (C : Collation) (size : HotArea) (csv : List Str) : List (Option Str × Option Str) :=
  pasteRows (commentLine csv :: baseRows C size csv) (commentLine csv :: nicRows C size csv)

end Nicmem
