/-
The table the plots read: `parse.py` writes it, `filter.py` reads it back.

`hash2csv` lists the tests of a result table against the union of their keys, and
`pretty_csv` right-justifies every cell to the width of its column and follows it
with a comma and a blank.  `parse_csv` splits that text at newlines and commas again
and `filter_csv` prints, for every test, the bandwidth and the requested keys.

Exceptions are `none`: an index or a key that is not there, and a `float` of a text
that is no number.  A loop over indices is written as a walk along the lists it
indexes, which fails where the index would.
-/
import Nicmem.Python.Dict
import Nicmem.Python.Number

namespace Nicmem

open Python

variable {F : Type} [PyFloat F]

/-- The results of the tests of one base directory: test, key, value. -/
abbrev Table (F : Type) := Dict Str (Dict Str (Value F))

/-! ### Writing -/

/-- One line of `pretty_csv`: each cell in its column's width, then a comma and a blank. -/
def prettyLine : List Nat → List (Value F) → Option Str
  | [], _ => some []
  | _ :: _, [] => none
  | w :: ws, x :: xs => (prettyLine ws xs).map fun l => rjust w x.toStr ++ [',', ' '] ++ l

/-- The width of a column: one more than its longest text. -/
def columnWidth (col : List (Value F)) : Nat :=
  (col.map fun x => x.toStr.length).foldr max 0 + 1

/-- `pretty_csv`: the first row decides how many columns there are. -/
def prettyCsv (csv : List (List (Value F))) : Option Str := do
  let first ← csv[0]?
  let csvt ← (List.range first.length).mapM fun j => csv.mapM fun row => row[j]?
  let csvWidths := csvt.map columnWidth
  let lines ← csv.mapM (prettyLine csvWidths)
  some (lines.flatMap (· ++ ['\n']))

/-- The cell of test `k` in column `c`: its value, or 0 where the test has none. -/
def tableCell (res : Table F) (k c : Str) : Value F :=
  ((res.get? k).bind (·.get? c)).getD (.int 0)

/-- The columns of a table: `list(set(cols))` over the keys of all its tests. -/
def tableCols (setOrder testOrder : Enumeration Str) (res : Table F) : List Str :=
  setOrder.ofSet ((testOrder.order res.keys).flatMap fun t => ((res.get? t).getD .empty).keys)

/-- The rows `hash2csv` hands to `pretty_csv`, the header first. -/
def tableRows (setOrder testOrder : Enumeration Str) (name : Str) (res : Table F) :
    List (List (Value F)) :=
  let cols := tableCols setOrder testOrder res
  ([.str "name".toList, .str "test".toList] ++ cols.map Value.str) ::
    (testOrder.order res.keys).map fun k => [.str name, .str k] ++ cols.map (tableCell res k)

/-- `hash2csv`. -/
def hash2csv (setOrder testOrder : Enumeration Str) (name : Str) (res : Table F) : Option Str :=
  prettyCsv (tableRows setOrder testOrder name res)

/-! ### Reading -/

/-- The inner loop of `parse_csv`: keys against the cells from the third on. -/
def readRow : List Str → List Str → Dict Str Str → Option (Dict Str Str)
  | [], _, row => some row
  | _ :: _, [], _ => none
  | k :: keys, v :: values, row =>
    readRow keys values (if strip k ≠ [] then row.set (strip k) (strip v) else row)

/-- The outer loop of `parse_csv`: tests against the lines after the header. -/
def readRows (keys : List Str) :
    List Str → List Str → Dict Str (Dict Str Str) → Option (Dict Str (Dict Str Str))
  | [], _, res => some res
  | _ :: _, [], _ => none
  | t :: tests, l :: lines, res => do
    let row ← readRow keys ((l.splitOn ',').drop 2) .empty
    readRows keys tests lines (res.set t row)

/-- `parse_csv`.  Keys and values are stripped, test names are not. -/
def parseCsv (csvData : Str) : Option (Dict Str (Dict Str Str)) := do
  let lines := csvData.splitOn '\n'
  let first ← lines[0]?
  let keys := ((first.splitOn ',').filter fun x => 0 < x.length).drop 2
  let tests ← lines.dropLast.mapM fun l => (l.splitOn ',')[1]?
  readRows keys (tests.drop 1) (lines.drop 1) .empty

/-- The header line of `filter_csv`. -/
def filterHeader (keys : List Str) : Str :=
  "test,bandwidth,cpu,".toList ++ [','].intercalate keys

/-- What a requested key prints: its value, or the marker for a missing one. -/
def filterCell (row : Dict Str Str) (k : Str) : Str := (row.get? k).getD "Nan".toList

/-- `float(row[k])`. -/
def floatAt (F : Type) [PyFloat F] (row : Dict Str Str) (k : Str) : Option F := do
  PyFloat.ofStr (← row.get? k)

/-- One data line of `filter_csv`. -/
def filterLine (F : Type) [PyFloat F] (keys : List Str) (test : Str) (row : Dict Str Str) :
    Option Str := do
  let rx ← floatAt F row "Total_rx_bw".toList
  let tx ← floatAt F row "Total_tx_bw".toList
  some (test ++ [','] ++ PyFloat.fmt2 (PyFloat.add rx tx) ++ [',']
    ++ PyFloat.fmt2 (PyFloat.lit 0 : F) ++ [',']
    ++ keys.flatMap fun k => filterCell row k ++ [','])

/-- `filter_csv`: the lines it joins with newlines and prints. -/
def filterCsv (F : Type) [PyFloat F] (order : Enumeration Str) (csvData : Str)
    (keys : List Str) : Option (List Str) := do
  let res ← parseCsv csvData
  let rows ← (res.items order).mapM fun e => filterLine F keys e.1 e.2
  some (filterHeader keys :: rows)

/-- `print '\n'.join(out)`. -/
def printLines (out : List Str) : Str := ['\n'].intercalate out ++ ['\n']

/-- `setup.csv` written from a table and filtered again. -/
def filteredTable (setOrder testOrder order : Enumeration Str) (name : Str) (res : Table F)
    (keys : List Str) : Option (List Str) := do
  filterCsv F order (← hash2csv setOrder testOrder name res) keys

end Nicmem
