/-
What a line of `filter.csv` says about a test.

`filteredTable_eq` gives every data line, cell by cell: the test name behind its
padding, the two bandwidth cells, and for each requested key what survived of the
test's value.  Both results below read off it.  A value that is there arrives
unchanged under the position of its key in the header.  A value that is missing
arrives as `Nan` only when no test of the table has the key: as soon as one test has
it the key is a column, and `hash2csv` fills the hole with 0.
-/
import Nicmem.Proofs.Csv
import Nicmem.Python.Exact

namespace Nicmem

open Python

variable {F : Type} [PyFloat F]

/-! ### The lines -/

/-- The cells of a data line of `filter_csv`. -/
private theorem splitOn_filterLine {keys : List Str} {test bw cpu : Str} {cell : Str → Str}
    (htest : ',' ∉ test) (hbw : ',' ∉ bw) (hcpu : ',' ∉ cpu)
    (hcell : ∀ k ∈ keys, ',' ∉ cell k) :
    (test ++ [','] ++ bw ++ [','] ++ cpu ++ [','] ++ keys.flatMap fun k => cell k ++ [',']).splitOn
      ','
      = [test, bw, cpu] ++ keys.map cell ++ [[]] := by
  have hshape :
      test ++ [','] ++ bw ++ [','] ++ cpu ++ [','] ++ keys.flatMap (fun k => cell k ++ [','])
      = ([test, bw, cpu] ++ keys.map cell).flatMap (· ++ [',']) := by
    simp [List.flatMap_map]
  rw [hshape]
  refine splitOn_flatMap_terminated ?_
  intro l hl
  simp only [List.mem_append, List.mem_cons, List.not_mem_nil, or_false, List.mem_map] at hl
  rcases hl with (rfl | rfl | rfl) | ⟨k, hk, rfl⟩
  · exact htest
  · exact hbw
  · exact hcpu
  · exact hcell k hk

/-- What the trip leaves of the value of key `k` in test `t`. -/
def survivingCell (res : Table F) (cols : List Str) (t k : Str) : Str :=
  if k ∈ cols then (tableCell res t k).toStr else "Nan".toList

section Lines

variable {setOrder testOrder : Enumeration Str} {name : Str} {res : Table F}

/-- A row whose bandwidths are numbers prints a line of comma-separated cells. -/
private theorem filterLine_eq {keys : List Str} {test : Str} {row : Dict Str Str} {rx tx : F}
    (hrx : floatAt F row "Total_rx_bw".toList = some rx)
    (htx : floatAt F row "Total_tx_bw".toList = some tx) (htest : ',' ∉ test)
    (hcell : ∀ k ∈ keys, ',' ∉ filterCell row k) :
    ∃ line bw cpu, filterLine F keys test row = some line ∧
      plain bw = true ∧ plain cpu = true ∧
      line.splitOn ',' = [test, bw, cpu] ++ keys.map (filterCell row) ++ [[]] := by
  have hline : filterLine F keys test row
      = some (test ++ [','] ++ PyFloat.fmt2 (PyFloat.add rx tx) ++ [',']
        ++ PyFloat.fmt2 (PyFloat.lit 0 : F) ++ [',']
        ++ keys.flatMap fun k => filterCell row k ++ [',']) := by
    unfold filterLine
    rw [hrx, htx]
    rfl
  exact ⟨_, _, _, hline, PyFloat.plain_fmt2 _, PyFloat.plain_fmt2 _, splitOn_filterLine htest
    (plain_not_mem (PyFloat.plain_fmt2 _) (by decide))
    (plain_not_mem (PyFloat.plain_fmt2 _) (by decide)) hcell⟩

/-- Where the column of a numeric key exists, every row reads a number in it. -/
private theorem floatAt_numeric {k : Str} (hnum : NumericKey res k) {row : Dict Str Str} {t : Str}
    (hrow : ∀ k, row.get? k
      = if k ∈ tableCols setOrder testOrder res then some (tableCell res t k).toStr else none) :
    ∃ x : F, floatAt F row k = some x := by
  have hmem : k ∈ tableCols setOrder testOrder res := mem_tableCols.mpr hnum.present
  have hread : (PyFloat.ofStr (tableCell res t k).toStr : Option F).isSome = true := by
    unfold tableCell
    cases ht : res.get? t with
    | none => exact Option.isSome_iff_exists.mpr ⟨_, PyFloat.ofStr_intStr 0⟩
    | some r =>
        rw [Option.bind_some]
        cases hv : r.get? k with
        | none => exact Option.isSome_iff_exists.mpr ⟨_, PyFloat.ofStr_intStr 0⟩
        | some v => exact hnum.numeric t r v ht hv
  obtain ⟨x, hx⟩ := Option.isSome_iff_exists.mp hread
  refine ⟨x, ?_⟩
  unfold floatAt
  rw [hrow k, if_pos hmem]
  exact hx

/-- The line of a test: its padded name, two bandwidth cells, and what survived. -/
private theorem filterLine_test (keys : List Str) (hsafe : SafeTable name res)
    (hrx : NumericKey res "Total_rx_bw".toList) (htx : NumericKey res "Total_tx_bw".toList)
    (w : Nat) {t : Str} (ht : t ∈ res.keys) {row : Dict Str Str}
    (hrow : ∀ k, row.get? k
      = if k ∈ tableCols setOrder testOrder res then some (tableCell res t k).toStr else none) :
    ∃ line, filterLine F keys (paddedCell w t) row = some line ∧
      ∃ bw cpu, plain bw = true ∧ plain cpu = true ∧
        line.splitOn ',' = [paddedCell w t, bw, cpu]
          ++ keys.map (survivingCell res (tableCols setOrder testOrder res) t) ++ [[]] := by
  have hcell : ∀ k, filterCell row k
      = survivingCell res (tableCols setOrder testOrder res) t k := by
    intro k
    rw [filterCell, hrow k, survivingCell]
    split <;> rfl
  have hcomma : ∀ k, ',' ∉ filterCell row k := by
    intro k
    rw [hcell k, survivingCell]
    split
    · exact (tableCell_safe hsafe t k).comma
    · decide
  have hname : ',' ∉ paddedCell w t := by
    have hpad : ',' ∉ rjust w t := by
      rw [mem_rjust (by decide)]
      exact (hsafe.test t ht).comma
    simpa [paddedCell] using hpad
  obtain ⟨rx, hrx'⟩ := floatAt_numeric hrx hrow
  obtain ⟨tx, htx'⟩ := floatAt_numeric htx hrow
  obtain ⟨line, bw, cpu, hline, hbw, hcpu, hsplit⟩ :=
    filterLine_eq hrx' htx' hname fun k (_ : k ∈ keys) => hcomma k
  refine ⟨line, hline, bw, cpu, hbw, hcpu, ?_⟩
  rw [hsplit, List.map_congr_left fun k _ => hcell k]

/-- The padded names are distinct, so the dictionary has one row for each test. -/
private theorem nodup_paddedCell (hsafe : SafeTable name res) (testOrder : Enumeration Str)
    (w : Nat) (rowOf : Str → Dict Str Str) :
    (((testOrder.order res.keys).map fun t => (paddedCell w t, rowOf t)).map Prod.fst).Nodup := by
  rw [List.map_map]
  refine (testOrder.nodup_order res.nodup_keys).map_on ?_
  intro t ht t' ht' heq
  have hlt := lstrip_paddedCell (hsafe.test t (by simpa using ht)).trimmed w
  have hlt' := lstrip_paddedCell (hsafe.test t' (by simpa using ht')).trimmed w
  rw [← hlt, ← hlt']
  exact congrArg lstrip heq

/--
The filtered table, line by line.

Each test has a line of its own; its cells are the padded name, the two bandwidth
cells, and for each requested key what survived of the test's value.
-/
theorem filteredTable_eq (setOrder testOrder order : Enumeration Str) (hsafe : SafeTable name res)
    (hrx : NumericKey res "Total_rx_bw".toList) (htx : NumericKey res "Total_tx_bw".toList)
    (keys : List Str) :
    ∃ (data : List Str) (w : Nat) (lineOf : Str → Str),
      filteredTable setOrder testOrder order name res keys = some (filterHeader keys :: data) ∧
      data.Perm (res.keys.map lineOf) ∧
      ∀ t ∈ res.keys, ∃ bw cpu, plain bw = true ∧ plain cpu = true ∧
        (lineOf t).splitOn ',' = [paddedCell w t, bw, cpu]
          ++ keys.map (survivingCell res (tableCols setOrder testOrder res) t) ++ [[]] := by
  obtain ⟨text, w, rowOf, htext, hparse, hrow⟩ :=
    parseCsv_hash2csv setOrder testOrder hsafe
  have hline := fun t ht => filterLine_test keys hsafe hrx htx w ht (hrow t ht)
  choose! lineOf hprint hcells using hline
  set read := Dict.ofList ((testOrder.order res.keys).map fun t => (paddedCell w t, rowOf t))
  have hperm : (read.items order).Perm
      ((testOrder.order res.keys).map fun t => (paddedCell w t, rowOf t)) :=
    Dict.items_ofList_perm order (nodup_paddedCell hsafe testOrder w rowOf)
  -- `filter_csv` prints the rows in the order in which the dictionary lists them.
  let lineFor : Str × Dict Str Str → Str := fun e => (filterLine F keys e.1 e.2).getD []
  have hlineFor : ∀ t ∈ res.keys, lineFor (paddedCell w t, rowOf t) = lineOf t := by
    intro t ht
    show (filterLine F keys (paddedCell w t) (rowOf t)).getD [] = lineOf t
    rw [hprint t ht, Option.getD_some]
  have hmap : (read.items order).mapM (fun e => filterLine F keys e.1 e.2)
      = some ((read.items order).map lineFor) := by
    refine mapM_eq_some_map _ _ _ fun e he => ?_
    obtain ⟨t, ht, rfl⟩ := List.mem_map.mp (hperm.mem_iff.mp he)
    have hmem : t ∈ res.keys := by simpa using ht
    rw [hlineFor t hmem]
    exact hprint t hmem
  refine ⟨(read.items order).map lineFor, w, lineOf, ?_, ?_, hcells⟩
  · unfold filteredTable filterCsv
    simp only [htext, hparse, hmap, Option.bind_eq_bind, Option.bind_some]
  · have hlines := hperm.map lineFor
    rw [List.map_map] at hlines
    have hordered : (testOrder.order res.keys).map (lineFor ∘ fun t => (paddedCell w t, rowOf t))
        = (testOrder.order res.keys).map lineOf :=
      List.map_congr_left fun t ht => hlineFor t (by simpa using ht)
    rw [hordered] at hlines
    exact hlines.trans ((testOrder.perm res.keys).map lineOf)

end Lines

/-! ### The results -/

/-- The requested keys stand in the header from the fourth cell on. -/
theorem filterHeader_cell {keys : List Str} (hkeys : ∀ k ∈ keys, ',' ∉ k) {i : Nat} {k : Str}
    (hi : keys[i]? = some k) : ((filterHeader keys).splitOn ',')[3 + i]? = some k := by
  have hne : keys ≠ [] := by
    rintro rfl
    simp at hi
  have hshape : filterHeader keys = "test".toList ++ ',' :: ("bandwidth".toList
      ++ ',' :: ("cpu".toList ++ ',' :: [','].intercalate keys)) := rfl
  rw [hshape, List.splitOn_append_cons_self_of_not_mem (by decide),
    List.splitOn_append_cons_self_of_not_mem (by decide),
    List.splitOn_append_cons_self_of_not_mem (by decide), List.splitOn_intercalate ',' hkeys hne]
  rw [Nat.add_comm]
  exact hi

private theorem newline_filterHeader {keys : List Str} (hkeys : ∀ k ∈ keys, ',' ∉ k)
    (hnewline : ∀ k ∈ keys, '\n' ∉ k) : '\n' ∉ filterHeader keys := by
  intro hmem
  rcases List.mem_append.mp hmem with hmem | hmem
  · exact absurd hmem (by decide)
  · by_cases hne : keys = []
    · simp [hne] at hmem
    · obtain ⟨k, hk, hn⟩ := exists_mem_splitOn ',' (by decide) hmem
      rw [List.splitOn_intercalate ',' hkeys hne] at hk
      exact hnewline k hk hn

/-- Cells without newlines make a line without one. -/
private theorem newline_line {name : Str} {res : Table F} (hsafe : SafeTable name res)
    {cols keys : List Str} {t bw cpu line : Str} {w : Nat} (ht : t ∈ res.keys)
    (hbw : plain bw = true) (hcpu : plain cpu = true)
    (h : line.splitOn ',' = [paddedCell w t, bw, cpu]
      ++ keys.map (survivingCell res cols t) ++ [[]]) : '\n' ∉ line := by
  intro hmem
  obtain ⟨cell, hcell, hn⟩ := exists_mem_splitOn ',' (by decide) hmem
  rw [h] at hcell
  simp only [List.mem_append, List.mem_cons, List.not_mem_nil, or_false, List.mem_map] at hcell
  rcases hcell with ((rfl | rfl | rfl) | ⟨k, -, rfl⟩) | rfl
  · have hname : '\n' ∈ rjust w t := by simpa [paddedCell] using hn
    rw [mem_rjust (by decide)] at hname
    exact (hsafe.test t ht).newline hname
  · exact plain_not_mem hbw (by decide) hn
  · exact plain_not_mem hcpu (by decide) hn
  · unfold survivingCell at hn
    split at hn
    · exact (tableCell_safe hsafe t k).newline hn
    · exact absurd hn (by decide)
  · simp at hn

/-- Printed lines without newlines come back as they were. -/
private theorem splitOn_printLines {out : List Str} (hne : out ≠ []) (h : ∀ l ∈ out, '\n' ∉ l) :
    (printLines out).splitOn '\n' = out ++ [[]] := by
  unfold printLines
  rw [List.splitOn_append_cons_self, List.splitOn_intercalate '\n' h hne]
  rfl

/-- Cell `3 + i` of a line is what survived under the `i`-th requested key. -/
private theorem line_cell {keys : List Str} {cell : Str → Str} {line a b c : Str} {i : Nat}
    {k : Str} (h : line.splitOn ',' = [a, b, c] ++ keys.map cell ++ [[]])
    (hi : keys[i]? = some k) : (line.splitOn ',')[3 + i]? = some (cell k) := by
  have hlt : i < keys.length := (List.getElem?_eq_some_iff.mp hi).1
  rw [h, List.getElem?_append_left (by simp; omega), List.getElem?_append_right (by simp)]
  simp [hi]

/--
**The trip through `setup.csv` and `filter.csv` keeps every value in its column.**
One line for each test, distinct tests on distinct lines; under the position a
requested key has in the header stands the test's value for it, or `Nan` when no test
has the key.
-/
theorem filteredTable_faithful (setOrder testOrder order : Enumeration Str) (name : Str)
    (res : Table F) (keys : List Str) (hsafe : SafeTable name res)
    (hrx : NumericKey res "Total_rx_bw".toList) (htx : NumericKey res "Total_tx_bw".toList)
    (hkeys : ∀ k ∈ keys, ',' ∉ k) :
    ∃ (data : List Str) (lineOf : Str → Str),
      filteredTable setOrder testOrder order name res keys = some (filterHeader keys :: data) ∧
      data.Perm (res.keys.map lineOf) ∧
      (∀ t ∈ res.keys, ∀ t' ∈ res.keys, lineOf t = lineOf t' → t = t') ∧
      (∀ t ∈ res.keys, ∃ n, ((lineOf t).splitOn ',')[0]? = some (List.replicate n ' ' ++ t)) ∧
      (∀ i k, keys[i]? = some k → ((filterHeader keys).splitOn ',')[3 + i]? = some k) ∧
      (∀ t row i k, res.get? t = some row → keys[i]? = some k →
        (∀ v, row.get? k = some v → ((lineOf t).splitOn ',')[3 + i]? = some v.toStr) ∧
        ((∀ t' row', res.get? t' = some row' → k ∉ row'.keys) →
          ((lineOf t).splitOn ',')[3 + i]? = some "Nan".toList)) ∧
      ((∀ k ∈ keys, '\n' ∉ k) →
        (printLines (filterHeader keys :: data)).splitOn '\n'
          = filterHeader keys :: data ++ [[]]) := by
  obtain ⟨data, w, lineOf, hout, hperm, hline⟩ :=
    filteredTable_eq setOrder testOrder order hsafe hrx htx keys
  refine ⟨data, lineOf, hout, hperm, ?_, ?_, fun i k hi => filterHeader_cell hkeys hi, ?_, ?_⟩
  · -- The first cell determines the test.
    intro t ht t' ht' heq
    obtain ⟨bw, cpu, -, -, h⟩ := hline t ht
    obtain ⟨bw', cpu', -, -, h'⟩ := hline t' ht'
    have hcells : paddedCell w t = paddedCell w t' := by
      rw [heq, h'] at h
      exact (List.cons.inj h).1.symm
    rw [← lstrip_paddedCell (hsafe.test t ht).trimmed w, hcells,
      lstrip_paddedCell (hsafe.test t' ht').trimmed w]
  · intro t ht
    obtain ⟨bw, cpu, -, -, h⟩ := hline t ht
    refine ⟨w - t.length + 1, ?_⟩
    rw [h]
    rfl
  · intro t row i k hrow hi
    obtain ⟨bw, cpu, -, -, h⟩ := hline t (Dict.mem_keys_of_get? hrow)
    rw [line_cell h hi, survivingCell]
    refine ⟨fun v hv => ?_, fun hnone => ?_⟩
    · rw [if_pos (mem_tableCols.mpr ⟨t, row, hrow, Dict.mem_keys_of_get? hv⟩), tableCell, hrow,
        Option.bind_some, hv]
      rfl
    · rw [if_neg]
      intro hc
      obtain ⟨t', row', hrow', hk⟩ := mem_tableCols.mp hc
      exact hnone t' row' hrow' hk
  · intro hnl
    refine splitOn_printLines (by simp) ?_
    intro l hl
    rcases List.mem_cons.mp hl with rfl | hl
    · exact newline_filterHeader hkeys hnl
    · obtain ⟨t, ht, rfl⟩ := List.mem_map.mp (hperm.mem_iff.mp hl)
      obtain ⟨bw, cpu, hbw, hcpu, h⟩ := hline t ht
      exact newline_line hsafe ht hbw hcpu h

/-- Two tests, the second without a latency. -/
def twoTests : Table Exact := Dict.ofList
  [("base".toList, Dict.ofList [("Total_rx_bw".toList, .flt (.fin 3)),
      ("Total_tx_bw".toList, .str "2.50".toList), ("lat".toList, .int 17)]),
    ("nic".toList, Dict.ofList [("Total_tx_bw".toList, .int 4)])]

theorem filteredTable_faithful_twoTests :
    ∃ (data : List Str) (lineOf : Str → Str),
      filteredTable (.insertion _) (.insertion _) (.insertion _) "Results".toList twoTests
        ["lat".toList, "ndr".toList]
        = some ("test,bandwidth,cpu,lat,ndr".toList :: data) ∧
      data.Perm (["base".toList, "nic".toList].map lineOf) ∧
      ((lineOf "base".toList).splitOn ',')[3]? = some "17".toList ∧
      ((lineOf "base".toList).splitOn ',')[4]? = some "Nan".toList := by
  obtain ⟨data, lineOf, hout, hperm, -, -, -, hcell, -⟩ :=
    filteredTable_faithful (.insertion _) (.insertion _) (.insertion _) "Results".toList twoTests
      ["lat".toList, "ndr".toList] (by decide +kernel) (by decide +kernel) (by decide +kernel)
      (by decide)
  have hbase : twoTests.get? "base".toList = some (Dict.ofList
      [("Total_rx_bw".toList, .flt (.fin 3)), ("Total_tx_bw".toList, .str "2.50".toList),
        ("lat".toList, .int 17)]) := rfl
  refine ⟨data, lineOf, hout, hperm, ?_, ?_⟩
  · exact (hcell _ _ 0 _ hbase rfl).1 _ rfl
  · refine (hcell _ _ 1 _ hbase rfl).2 ?_
    intro t row hrow
    have hmem := Dict.get?_eq_some_iff.mp hrow
    have hall : ∀ e ∈ twoTests.entries, "ndr".toList ∉ e.2.keys := by decide
    exact hall _ hmem

/-! ### Missing values -/

/-- Every value a test does not have shows as `Nan` on its line. -/
def MissingShowsNan (res : Table F) (keys out : List Str) : Prop :=
  ∀ t row i k line, res.get? t = some row → keys[i]? = some k → row.get? k = none →
    line ∈ out.tail → ((line.splitOn ',')[0]?).map lstrip = some t →
      (line.splitOn ',')[3 + i]? = some "Nan".toList

/-- One test, with a key and a value that do not fit a cell. -/
def commaTable : Table Exact := Dict.ofList
  [("base".toList, Dict.ofList [("Total_rx_bw".toList, .int 1), ("Total_tx_bw".toList, .int 1),
      ("a,b".toList, .str "7,8".toList)])]

/-- A hole under a key another test has prints 0; a comma in a key can fill a hole too. -/
theorem missing_not_always_nan :
    (∃ out, filteredTable (.insertion _) (.insertion _) (.insertion _) "R".toList twoTests
        ["lat".toList] = some out ∧ ¬ MissingShowsNan twoTests ["lat".toList] out) ∧
    ∃ out, filteredTable (.insertion _) (.insertion _) (.insertion _) "R".toList commaTable
        ["a".toList] = some out ∧ ¬ MissingShowsNan commaTable ["a".toList] out := by
  refine ⟨⟨["test,bandwidth,cpu,lat".toList, "  base,5.50,0.00,17,".toList,
      "   nic,4.00,0.00,0,".toList], by decide +kernel, fun h => ?_⟩,
    ⟨["test,bandwidth,cpu,a".toList, "  base,2.00,0.00,7,".toList], by decide +kernel,
      fun h => ?_⟩⟩
  · exact absurd (h "nic".toList _ 0 _ "   nic,4.00,0.00,0,".toList rfl rfl rfl (by decide)
      (by decide)) (by decide)
  · exact absurd (h "base".toList _ 0 _ "  base,2.00,0.00,7,".toList rfl rfl rfl (by decide)
      (by decide)) (by decide)

/--
**What a missing value shows as.**  `Nan` when no test of the table has the key, and 0
when some other test has it: the key is a column then, and `hash2csv` writes its
default into every hole of a column.
-/
theorem filteredTable_missing (setOrder testOrder order : Enumeration Str) (name : Str)
    (res : Table F) (keys : List Str) (hsafe : SafeTable name res)
    (hrx : NumericKey res "Total_rx_bw".toList) (htx : NumericKey res "Total_tx_bw".toList) :
    ∃ (data : List Str) (lineOf : Str → Str),
      filteredTable setOrder testOrder order name res keys = some (filterHeader keys :: data) ∧
      data.Perm (res.keys.map lineOf) ∧
      (∀ t ∈ res.keys, ∃ n, ((lineOf t).splitOn ',')[0]? = some (List.replicate n ' ' ++ t)) ∧
      ∀ t row i k, res.get? t = some row → keys[i]? = some k → row.get? k = none →
        ((∀ t' row', res.get? t' = some row' → k ∉ row'.keys) →
          ((lineOf t).splitOn ',')[3 + i]? = some "Nan".toList) ∧
        ((∃ t' row', res.get? t' = some row' ∧ k ∈ row'.keys) →
          ((lineOf t).splitOn ',')[3 + i]? = some "0".toList) := by
  obtain ⟨data, w, lineOf, hout, hperm, hline⟩ :=
    filteredTable_eq setOrder testOrder order hsafe hrx htx keys
  refine ⟨data, lineOf, hout, hperm, ?_, ?_⟩
  · intro t ht
    obtain ⟨bw, cpu, -, -, h⟩ := hline t ht
    refine ⟨w - t.length + 1, ?_⟩
    rw [h]
    rfl
  · intro t row i k hrow hi hnone
    obtain ⟨bw, cpu, -, -, h⟩ := hline t (Dict.mem_keys_of_get? hrow)
    rw [line_cell h hi, survivingCell]
    refine ⟨fun habsent => ?_, fun hpresent => ?_⟩
    · rw [if_neg]
      intro hc
      obtain ⟨t', row', hrow', hk⟩ := mem_tableCols.mp hc
      exact habsent t' row' hrow' hk
    · rw [if_pos (mem_tableCols.mpr hpresent), tableCell, hrow, Option.bind_some, hnone]
      rfl

theorem filteredTable_missing_twoTests :
    ∃ (data : List Str) (lineOf : Str → Str),
      filteredTable (.insertion _) (.insertion _) (.insertion _) "R".toList twoTests
        ["lat".toList, "ndr".toList]
        = some ("test,bandwidth,cpu,lat,ndr".toList :: data) ∧
      ((lineOf "nic".toList).splitOn ',')[3]? = some "0".toList ∧
      ((lineOf "nic".toList).splitOn ',')[4]? = some "Nan".toList := by
  obtain ⟨data, lineOf, hout, -, -, hcell⟩ :=
    filteredTable_missing (.insertion _) (.insertion _) (.insertion _) "R".toList twoTests
      ["lat".toList, "ndr".toList] (by decide +kernel) (by decide +kernel) (by decide +kernel)
  have hnic : twoTests.get? "nic".toList
      = some (Dict.ofList [("Total_tx_bw".toList, .int 4)]) := rfl
  have hbase : twoTests.get? "base".toList = some (Dict.ofList
      [("Total_rx_bw".toList, .flt (.fin 3)), ("Total_tx_bw".toList, .str "2.50".toList),
        ("lat".toList, .int 17)]) := rfl
  refine ⟨data, lineOf, hout, ?_, ?_⟩
  · exact (hcell _ _ 0 _ hnic rfl rfl).2 ⟨_, _, hbase, by decide⟩
  · refine (hcell _ _ 1 _ hnic rfl rfl).1 ?_
    intro t row hrow
    have hall : ∀ e ∈ twoTests.entries, "ndr".toList ∉ e.2.keys := by decide
    exact hall _ (Dict.get?_eq_some_iff.mp hrow)

end Nicmem
