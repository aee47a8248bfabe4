/-
`parse.py`: from a directory of logs to one dictionary, and from a directory of
directories to the result table.

A directory is the list of its files in the order `glob` returned them.  What the
interpreter leaves open, the order in which it lists a dictionary and the literals it
evaluates, is collected in one record that every reader gets.
-/
import Nicmem.Csv
import Nicmem.PerfUtil.Pcm
import Nicmem.PerfUtil.Apps

namespace Nicmem

open Python

variable {F : Type} [PyFloat F]

/-- What the interpreter decides. -/
structure Runtime (F : Type) where
  order : Enumeration Str
  histogramOrder : Enumeration Nat
  literalEval : Str → Option (Obj F)
  fuel : Nat

/-- The readers of `perf_util.py`. -/
inductive Reader where
  | net | cpu | memory | pcie | perfStat | env | l3fwd | trex | trexNdr | neo | fclickWp
  | dpdkPingClient | dpdkPingServer | ibvpingClient | micaLat | micaServer
  deriving DecidableEq, Repr

/-- What a reader returns for the contents of a file; `none` is an exception. -/
def Reader.read [Sorting] (rt : Runtime F) : Reader → Str → Option (Result F)
  | .net, data => readNet rt.order data
  | .cpu, data => some (readCpu rt.order data)
  | .memory, data => readMemory rt.order data
  | .pcie, data => readPcie rt.order data
  | .perfStat, data => readPerfStat rt.order data
  | .env, data => some (readEnv data)
  | .l3fwd, data => readL3fwd rt.order data
  | .trex, data => readTrex rt.order rt.fuel rt.literalEval data
  | .trexNdr, data => readTrexNdr rt.order data
  | .neo, data => some (readNeo rt.order data)
  | .fclickWp, data => readFclickWp rt.order data
  | .dpdkPingClient, data => readDpdkPingClient rt.order data
  | .dpdkPingServer, data => readDpdkPingServer rt.order data
  | .ibvpingClient, data => readIbvpingClient rt.order data
  | .micaLat, data => readMicaLat rt.histogramOrder data
  | .micaServer, data => readMicaServer data

/-- The table `parsers`. -/
def parsers : Dict Str Reader where
  entries := [("eth.txt".toList, .net), ("if1.eth.txt".toList, .net), ("if2.eth.txt".toList, .net),
    ("if3.eth.txt".toList, .net), ("if4.eth.txt".toList, .net), ("cpu.txt".toList, .cpu),
    ("memory.txt".toList, .memory), ("pcie.txt".toList, .pcie),
    ("perf_stat.txt".toList, .perfStat), ("env.txt".toList, .env), ("l3fwd.txt".toList, .l3fwd),
    ("trex.txt".toList, .trex), ("trex_ndr.txt".toList, .trexNdr), ("if2.neo.txt".toList, .neo),
    ("fclick_wp.txt".toList, .fclickWp), ("dpdk-ping-client.txt".toList, .dpdkPingClient),
    ("dpdk-ping-server.txt".toList, .dpdkPingServer),
    ("ibvping-client.txt".toList, .ibvpingClient), ("output_latency.0".toList, .micaLat),
    ("mica_server.txt".toList, .micaServer)]
  nodup := by decide

/-- A file: its name and its contents. -/
abbrev File := Str × Str

/-- A directory in the order it is listed; no two files have the same name. -/
structure Listing where
  files : List File
  nodup : (files.map Prod.fst).Nodup

/-- What a file adds to the result; a file of an unknown name adds nothing. -/
def readFile [Sorting] (rt : Runtime F) (f : File) : Option (Result F) :=
  match parsers.get? f.1 with
  | none => some .empty
  | some r => r.read rt f.2

/-- `parse`: `res.update(parsers[fname](f))` for one file after the other. -/
def parse [Sorting] (rt : Runtime F) (d : Listing) : Option (Result F) :=
  d.files.foldlM (fun res f => (readFile rt f).map res.update) .empty

/-- An entry of the base directory. -/
inductive Entry where
  | file
  | dir (d : Listing)

/-- `parse_base`; what is not a directory is skipped. -/
def parseBase [Sorting] (rt : Runtime F) (base : List (Str × Entry)) : Option (Table F) :=
  base.foldlM (fun res e =>
    match e.2 with
    | .file => some res
    | .dir d => (parse rt d).map (res.set e.1)) .empty

end Nicmem
