/-
`sample_eth.py`: two snapshots of an interface's counters, and the rates between them.

The script prints a line per counter, and before it, for a counter of bytes, a line with
the bandwidth.  Its output is appended to the interface's log, once per run.
-/
import Nicmem.PerfUtil.Net

namespace Nicmem

open Python

variable {F : Type} [PyFloat F]

/-- `comp_ethtool` on the output of `ethtool -S`: lines that are not `name: integer` are skipped. -/
def compEthtool (output : Str) : List (Str × Int) :=
  (output.splitOn '\n').filterMap fun l =>
    match l.splitOn ':' with
    | [name, count] => (parseInt count).map fun n => (name, n)
    | _ => none

/-- `bytes2gbps`. -/
def bytes2gbps (n : F) : F :=
  PyFloat.div (PyFloat.div (PyFloat.div (PyFloat.mul n (PyFloat.lit 8)) (PyFloat.lit 1000))
    (PyFloat.lit 1000)) (PyFloat.lit 1000)

/-- The name a counter is printed under. -/
def counterName (iface name : Str) : Str := iface ++ '_' :: lstrip name

/-- The name the bandwidth of a counter of bytes is printed under. -/
def bandwidthName (iface name : Str) : Str :=
  iface ++ '_' :: replace "bytes".toList "bw".toList (lstrip name)

/-- `"%s: %s"`. -/
def logLine (name value : Str) : Str := name ++ ':' :: ' ' :: value

/--
The lines of one counter.  Different names are the failed assertion, an interval of zero
is the division by zero; a counter that did not move prints nothing.  Numbers too large for
a float, and a rate that is no number, raise.
-/
def sampleCounter (F : Type) [PyFloat F] (iface : Str) (t : Int) (s e : Str × Int) :
    Option (List Str) :=
  if s.1 ≠ e.1 then none
  else if s.2 = e.2 then some []
  else if t = 0 then none
  else do
    let difference : F ← PyFloat.ofInt |e.2 - s.2|
    let value := PyFloat.div difference (← PyFloat.ofInt t)
    let rate ← PyFloat.trunc value
    let bandwidth := if hasSub "bytes".toList s.1
      then [logLine (bandwidthName iface s.1) (PyFloat.fmt2 (bytes2gbps value))] else []
    some (bandwidth ++ [logLine (counterName iface s.1) (intStr rate)])

/-- `main`: the lines of one run, from the outputs of `ethtool` before and after. -/
def sampleRun (F : Type) [PyFloat F] (iface : Str) (t : Int) (run : Str × Str) :
    Option (List Str) :=
  (((compEthtool run.1).zip (compEthtool run.2)).mapM fun p =>
    sampleCounter F iface t p.1 p.2).map List.flatten

/-- The log of several runs, each appended to the one before. -/
def sampleLog (F : Type) [PyFloat F] (iface : Str) (t : Int) (runs : List (Str × Str)) :
    Option Str :=
  (runs.mapM (sampleRun F iface t)).map fun ls => ls.flatten.flatMap (· ++ ['\n'])

end Nicmem
