/-
What survives the trip through `setup.csv`.

A table is written with every cell right-justified and followed by a comma and a
blank, and read back by splitting at newlines and commas.  Three shifts have to
cancel: the blank after a comma becomes the first character of the next cell, the
blank after the last comma becomes a cell of its own, and the two leading columns
are sliced off the keys and skipped in the values.  `readRow_padded` is where they
do: it reads a padded line against the padded header, and the row it returns holds
under each column exactly the text written there.

Nothing is needed of the column widths: whatever they are, the blank after a comma
keeps every header cell non-empty, so `parse_csv` drops none of them.
-/
import Nicmem.Csv
import Nicmem.Python.Merge

namespace Nicmem

open Python

variable {F : Type} [PyFloat F]

/-! ### Which tables can be written -/

/-- A text that can stand in a cell and be read back. -/
structure CsvSafe (s : Str) : Prop where
  comma : ',' ∉ s
  newline : '\n' ∉ s
  trimmed : trimmed s = true

/-- A table whose name, tests, keys and printed values can all stand in cells. -/
structure SafeTable (name : Str) (res : Table F) : Prop where
  name : CsvSafe name
  test : ∀ t ∈ res.keys, CsvSafe t
  key : ∀ t row, res.get? t = some row → ∀ k ∈ row.keys, CsvSafe k ∧ k ≠ []
  value : ∀ t row k v, res.get? t = some row → row.get? k = some v → CsvSafe v.toStr

/-- Some test has the key, and wherever it is there it prints a number. -/
structure NumericKey (res : Table F) (k : Str) : Prop where
  present : ∃ t row, res.get? t = some row ∧ k ∈ row.keys
  numeric : ∀ t row v, res.get? t = some row → row.get? k = some v →
    (PyFloat.ofStr v.toStr : Option F).isSome = true

instance (s : Str) : Decidable (CsvSafe s) :=
  decidable_of_iff (',' ∉ s ∧ '\n' ∉ s ∧ trimmed s = true)
    ⟨fun h => ⟨h.1, h.2.1, h.2.2⟩, fun h => ⟨h.comma, h.newline, h.trimmed⟩⟩

/-- The test for a safe table, entry by entry. -/
theorem safeTable_iff {name : Str} {res : Table F} :
    SafeTable name res ↔ CsvSafe name ∧ ∀ e ∈ res.entries, CsvSafe e.1 ∧
      ∀ p ∈ e.2.entries, (CsvSafe p.1 ∧ p.1 ≠ []) ∧ CsvSafe p.2.toStr := by
  constructor
  · intro h
    refine ⟨h.name, fun e he => ⟨h.test e.1 (List.mem_map_of_mem he), fun p hp => ?_⟩⟩
    have hrow : res.get? e.1 = some e.2 := Dict.get?_eq_some_iff.mpr he
    exact ⟨h.key e.1 e.2 hrow p.1 (List.mem_map_of_mem hp),
      h.value e.1 e.2 p.1 p.2 hrow (Dict.get?_eq_some_iff.mpr hp)⟩
  · rintro ⟨hname, h⟩
    refine ⟨hname, fun t ht => ?_, fun t row hrow k hk => ?_, fun t row k v hrow hv => ?_⟩
    · obtain ⟨e, he, rfl⟩ := List.mem_map.mp ht
      exact (h e he).1
    · obtain ⟨p, hp, rfl⟩ := List.mem_map.mp hk
      exact ((h _ (Dict.get?_eq_some_iff.mp hrow)).2 p hp).1
    · exact ((h _ (Dict.get?_eq_some_iff.mp hrow)).2 _ (Dict.get?_eq_some_iff.mp hv)).2

instance (name : Str) (res : Table F) : Decidable (SafeTable name res) :=
  decidable_of_iff _ safeTable_iff.symm

/-- The test for a numeric key, entry by entry. -/
theorem numericKey_iff {res : Table F} {k : Str} :
    NumericKey res k ↔ (∃ e ∈ res.entries, k ∈ e.2.keys) ∧
      ∀ e ∈ res.entries, ∀ p ∈ e.2.entries, p.1 = k →
        (PyFloat.ofStr p.2.toStr : Option F).isSome = true := by
  constructor
  · rintro ⟨⟨t, row, hrow, hk⟩, hnum⟩
    refine ⟨⟨(t, row), Dict.get?_eq_some_iff.mp hrow, hk⟩, ?_⟩
    rintro e he p hp rfl
    exact hnum e.1 e.2 p.2 (Dict.get?_eq_some_iff.mpr he) (Dict.get?_eq_some_iff.mpr hp)
  · rintro ⟨⟨e, he, hk⟩, h⟩
    refine ⟨⟨e.1, e.2, Dict.get?_eq_some_iff.mpr he, hk⟩, fun t row v hrow hv => ?_⟩
    exact h _ (Dict.get?_eq_some_iff.mp hrow) _ (Dict.get?_eq_some_iff.mp hv) rfl

instance (res : Table F) (k : Str) : Decidable (NumericKey res k) :=
  decidable_of_iff _ numericKey_iff.symm

theorem csvSafe_of_plain {s : Str} (h : plain s = true) : CsvSafe s :=
  ⟨plain_not_mem h (by decide), plain_not_mem h (by decide), trimmed_of_plain h⟩

omit [PyFloat F] in
theorem mem_tableCols {setOrder testOrder : Enumeration Str} {res : Table F} {c : Str} :
    c ∈ tableCols setOrder testOrder res ↔ ∃ t row, res.get? t = some row ∧ c ∈ row.keys := by
  simp only [tableCols, Enumeration.mem_ofSet, List.mem_flatMap, Enumeration.mem_order]
  constructor
  · rintro ⟨t, ht, hc⟩
    obtain ⟨row, hrow⟩ := Dict.mem_keys_iff.mp ht
    rw [hrow] at hc
    exact ⟨t, row, hrow, hc⟩
  · rintro ⟨t, row, hrow, hc⟩
    exact ⟨t, Dict.mem_keys_of_get? hrow, by rw [hrow]; exact hc⟩

theorem tableCell_safe {name : Str} {res : Table F} (hsafe : SafeTable name res) (t c : Str) :
    CsvSafe (tableCell res t c).toStr := by
  unfold tableCell
  cases hrow : res.get? t with
  | none => exact csvSafe_of_plain (plain_intStr 0)
  | some row =>
      rw [Option.bind_some]
      cases hv : row.get? c with
      | none => exact csvSafe_of_plain (plain_intStr 0)
      | some v => exact hsafe.value t row c v hrow hv

/-! ### Writing the lines -/

/-- The line `pretty_csv` writes for a row that fits the widths. -/
def paddedLine (ws : List Nat) (row : List (Value F)) : Str :=
  (List.zipWith (fun w x => rjust w x.toStr) ws row).flatMap (· ++ [',', ' '])

theorem prettyLine_eq (ws : List Nat) :
    ∀ row : List (Value F), row.length = ws.length →
      prettyLine ws row = some (paddedLine ws row) := by
  induction ws with
  | nil => intro row _; rfl
  | cons w ws ih =>
      intro row hlen
      cases row with
      | nil => simp at hlen
      | cons x xs =>
          have hlen' : xs.length = ws.length := by simpa using hlen
          rw [prettyLine, ih xs hlen']
          simp [paddedLine]

/-- A rectangular table prints, one line for each row. -/
theorem prettyCsv_eq (csv : List (List (Value F))) (n : Nat) (hne : csv ≠ [])
    (hlen : ∀ row ∈ csv, row.length = n) :
    ∃ ws : List Nat, ws.length = n ∧
      prettyCsv csv = some ((csv.map (paddedLine ws)).flatMap (· ++ ['\n'])) := by
  obtain ⟨first, rest, rfl⟩ := List.exists_cons_of_ne_nil hne
  have hfirst : first.length = n := hlen first (by simp)
  let column : Nat → List (Value F) := fun j => (first :: rest).map fun row => row.getD j (.int 0)
  have hcols : (List.range first.length).mapM (fun j => (first :: rest).mapM fun row => row[j]?)
      = some ((List.range first.length).map column) := by
    refine mapM_eq_some_map _ _ _ fun j hj => ?_
    refine mapM_eq_some_map _ _ _ fun row hrow => ?_
    have hj' : j < row.length := by
      rw [hlen row hrow, ← hfirst]
      exact List.mem_range.mp hj
    rw [List.getD_eq_getElem?_getD, List.getElem?_eq_getElem hj']
    rfl
  have hlines : (first :: rest).mapM
        (prettyLine (((List.range first.length).map column).map columnWidth))
      = some ((first :: rest).map
          (paddedLine (((List.range first.length).map column).map columnWidth))) :=
    mapM_eq_some_map _ _ _ fun row hrow =>
      prettyLine_eq _ row (by rw [hlen row hrow]; simp [hfirst])
  have hhead : (first :: rest)[0]? = some first := rfl
  refine ⟨((List.range first.length).map column).map columnWidth, by simp [hfirst], ?_⟩
  unfold prettyCsv
  simp only [hhead, hcols, hlines, Option.bind_eq_bind, Option.bind_some]

/-! ### Splitting a line -/

/-- Behind a blank, a padded line splits into its cells and a last blank. -/
private theorem splitOn_blank_cells (cells : List Str) (h : ∀ c ∈ cells, ',' ∉ c) :
    (' ' :: cells.flatMap (· ++ [',', ' '])).splitOn ',' = cells.map (' ' :: ·) ++ [[' ']] := by
  induction cells with
  | nil => rfl
  | cons c rest ih =>
      have hc : ',' ∉ ' ' :: c := by simpa using h c (by simp)
      have hshape : ' ' :: (c :: rest).flatMap (· ++ [',', ' '])
          = (' ' :: c) ++ ',' :: (' ' :: rest.flatMap (· ++ [',', ' '])) := by simp
      rw [hshape, List.splitOn_append_cons_self_of_not_mem hc,
        ih fun x hx => h x (by simp [hx])]
      rfl

/-- A padded line: its first cell, the others behind a blank, and a last blank. -/
theorem splitOn_cells (c : Str) (cells : List Str) (h : ∀ x ∈ c :: cells, ',' ∉ x) :
    ((c :: cells).flatMap (· ++ [',', ' '])).splitOn ','
      = c :: cells.map (' ' :: ·) ++ [[' ']] := by
  have hshape : (c :: cells).flatMap (· ++ [',', ' '])
      = c ++ ',' :: (' ' :: cells.flatMap (· ++ [',', ' '])) := by simp
  rw [hshape, List.splitOn_append_cons_self_of_not_mem (h c (by simp)),
    splitOn_blank_cells cells fun x hx => h x (by simp [hx])]
  rfl

theorem mem_rjust {w : Nat} {s : Str} {c : Char} (hc : c ≠ ' ') : c ∈ rjust w s ↔ c ∈ s := by
  simp [rjust, List.leftpad, hc]

/-! ### Reading a row back -/

/-- A cell of a column after the first, as it comes out of the split. -/
def paddedCell (w : Nat) (s : Str) : Str := ' ' :: rjust w s

theorem strip_paddedCell {s : Str} (h : trimmed s = true) (w : Nat) :
    strip (paddedCell w s) = s := strip_cons_rjust h w

/--
Reading a padded line against the padded header.

The header ends in a blank cell and so does the line.  Stripped, that key is empty and
is not set, so the row holds the columns and nothing else.
-/
theorem readRow_padded (f : Str → Str) :
    ∀ (cols : List Str) (ws : List Nat) (row : Dict Str Str), ws.length = cols.length →
      (∀ c ∈ cols, trimmed c = true ∧ c ≠ [] ∧ trimmed (f c) = true) →
      ∃ row', readRow (List.zipWith paddedCell ws cols ++ [[' ']])
          (List.zipWith paddedCell ws (cols.map f) ++ [[' ']]) row = some row' ∧
        ∀ k, row'.get? k = if k ∈ cols then some (f k) else row.get? k := by
  intro cols
  induction cols with
  | nil =>
      intro ws row _ _
      refine ⟨row, ?_, fun k => by simp⟩
      simp [readRow, show strip [' '] = [] by decide]
  | cons c cols ih =>
      intro ws row hlen hcols
      cases ws with
      | nil => simp at hlen
      | cons w ws =>
          obtain ⟨hc, hcne, hfc⟩ := hcols c (by simp)
          obtain ⟨row', hread, hget⟩ := ih ws (row.set c (f c)) (by simpa using hlen)
            fun x hx => hcols x (by simp [hx])
          refine ⟨row', ?_, ?_⟩
          · simp only [List.map_cons, List.zipWith_cons_cons, List.cons_append, readRow]
            rw [strip_paddedCell hc, strip_paddedCell hfc, if_pos hcne]
            exact hread
          · intro k
            rw [hget k, Dict.get?_set]
            by_cases hkc : k = c
            · subst hkc
              by_cases hmem : k ∈ cols <;> simp [hmem]
            · simp [hkc]

/-- Reading the lines of the tests `ks`, each of which reads as a row of its own. -/
theorem readRows_eq (keys : List Str) (nameOf lineOf : Str → Str) (rowOf : Str → Dict Str Str)
    (rest : List Str) :
    ∀ (ks : List Str) (res : Dict Str (Dict Str Str)),
      (∀ k ∈ ks, readRow keys (((lineOf k).splitOn ',').drop 2) .empty = some (rowOf k)) →
      readRows keys (ks.map nameOf) (ks.map lineOf ++ rest) res
        = some
          ((ks.map fun k => (nameOf k, rowOf k)).foldl (fun acc e => acc.set e.1 e.2) res) := by
  intro ks
  induction ks with
  | nil => intro res _; simp [readRows]
  | cons k ks ih =>
      intro res h
      simp only [List.map_cons, List.cons_append, readRows, List.foldl_cons]
      rw [h k (by simp), Option.bind_eq_bind, Option.bind_some,
        ih _ fun x hx => h x (by simp [hx])]

/-- `parse_csv` on a header line and the lines of the tests. -/
theorem parseCsv_lines {text header : Str} {keys tests : List Str} {nameOf lineOf : Str → Str}
    {rowOf : Str → Dict Str Str}
    (hlines : text.splitOn '\n' = header :: tests.map lineOf ++ [[]])
    (hkeys : ((header.splitOn ',').filter fun x => 0 < x.length).drop 2 = keys)
    (hheader : ∃ c, (header.splitOn ',')[1]? = some c)
    (hnames : ∀ t ∈ tests, ((lineOf t).splitOn ',')[1]? = some (nameOf t))
    (hrows : ∀ t ∈ tests, readRow keys (((lineOf t).splitOn ',').drop 2) .empty = some (rowOf t)) :
    parseCsv text = some (Dict.ofList (tests.map fun t => (nameOf t, rowOf t))) := by
  obtain ⟨c, hc⟩ := hheader
  have hcells : (header :: tests.map lineOf).mapM (fun l => (l.splitOn ',')[1]?)
      = some (c :: tests.map nameOf) := by
    have htests : (tests.map lineOf).mapM (fun l => (l.splitOn ',')[1]?)
        = some (tests.map nameOf) := by
      rw [List.mapM_map]
      exact mapM_eq_some_map _ _ _ hnames
    rw [List.mapM_cons, hc, htests]
    rfl
  have hfirst : (header :: tests.map lineOf ++ [[]])[0]? = some header := rfl
  have hinit : (header :: tests.map lineOf ++ [[]]).dropLast = header :: tests.map lineOf :=
    List.dropLast_concat
  unfold parseCsv
  simp only [hlines, hfirst, hinit, hcells, hkeys, Option.bind_eq_bind, Option.bind_some]
  exact readRows_eq keys nameOf lineOf rowOf [[]] tests .empty hrows

/-! ### The table read back -/

theorem lstrip_paddedCell {s : Str} (h : trimmed s = true) (w : Nat) :
    lstrip (paddedCell w s) = s := by
  have hshape : paddedCell w s = List.replicate (w - s.length + 1) ' ' ++ s := rfl
  rw [hshape, lstrip_replicate_append]
  exact lstrip_eq_self (Bool.and_eq_true_iff.mp h).1

/-- A line, split: two leading cells, the others in column order, a blank. -/
theorem splitOn_paddedLine (a b : Value F) (xs : List (Value F))
    (h : ∀ x ∈ a :: b :: xs, ',' ∉ x.toStr) (w₀ w₁ : Nat) (ws : List Nat) :
    (paddedLine (w₀ :: w₁ :: ws) (a :: b :: xs)).splitOn ','
      = [rjust w₀ a.toStr, paddedCell w₁ b.toStr]
        ++ List.zipWith paddedCell ws (xs.map Value.toStr) ++ [[' ']] := by
  have hcells : ∀ x ∈ rjust w₀ a.toStr :: rjust w₁ b.toStr ::
      List.zipWith rjust ws (xs.map Value.toStr), ',' ∉ x := by
    intro x hx
    simp only [List.mem_cons] at hx
    rcases hx with rfl | rfl | hx
    · rw [mem_rjust (by decide)]
      exact h a (by simp)
    · rw [mem_rjust (by decide)]
      exact h b (by simp)
    · obtain ⟨i, hi, rfl⟩ := List.getElem_of_mem hx
      rw [List.getElem_zipWith, mem_rjust (by decide), List.getElem_map]
      exact h _ (by simp)
  have hline := splitOn_cells _ _ hcells
  simp only [List.map_cons, List.map_zipWith, List.zipWith_map_right] at hline
  rw [paddedLine]
  simp only [List.zipWith_cons_cons, List.zipWith_map_right]
  exact hline

theorem newline_paddedLine (ws : List Nat) (row : List (Value F))
    (h : ∀ x ∈ row, '\n' ∉ x.toStr) : '\n' ∉ paddedLine ws row := by
  intro hmem
  obtain ⟨cell, hcell, hc⟩ := List.mem_flatMap.mp hmem
  obtain ⟨i, hi, rfl⟩ := List.getElem_of_mem hcell
  rw [List.getElem_zipWith] at hc
  simp only [List.mem_append, List.mem_cons, List.not_mem_nil, or_false] at hc
  rcases hc with hc | hc | hc
  · rw [mem_rjust (by decide)] at hc
    exact h _ (List.getElem_mem _) hc
  · exact absurd hc (by decide)
  · exact absurd hc (by decide)

section Trip

variable (setOrder testOrder : Enumeration Str) {name : Str} {res : Table F}

omit [PyFloat F] in
/-- Every row has the two leading cells and one for each column. -/
private theorem tableRows_length (row : List (Value F))
    (h : row ∈ tableRows setOrder testOrder name res) :
    row.length = (tableCols setOrder testOrder res).length + 2 := by
  simp only [tableRows, List.mem_cons, List.mem_map] at h
  rcases h with rfl | ⟨k, -, rfl⟩ <;> simp

/-- Every cell of a safe table is safe, those of the header included. -/
private theorem tableRows_safe (hsafe : SafeTable name res) (row : List (Value F))
    (h : row ∈ tableRows setOrder testOrder name res) : ∀ x ∈ row, CsvSafe x.toStr := by
  intro x hx
  simp only [tableRows, List.mem_cons, List.mem_map] at h
  rcases h with rfl | ⟨k, hk, rfl⟩
  · simp only [List.cons_append, List.nil_append, List.mem_cons, List.mem_map] at hx
    rcases hx with rfl | rfl | ⟨c, hc, rfl⟩
    · show CsvSafe "name".toList
      exact csvSafe_of_plain (by decide)
    · show CsvSafe "test".toList
      exact csvSafe_of_plain (by decide)
    · obtain ⟨t, row, hrow, hck⟩ := mem_tableCols.mp hc
      exact (hsafe.key t row hrow c hck).1
  · simp only [List.cons_append, List.nil_append, List.mem_cons, List.mem_map] at hx
    rcases hx with rfl | rfl | ⟨c, -, rfl⟩
    · exact hsafe.name
    · exact hsafe.test k (by simpa using hk)
    · exact tableCell_safe hsafe k c

/-- The line written for the header. -/
def headerLine (F : Type) [PyFloat F] (ws : List Nat) (cols : List Str) : Str :=
  paddedLine ws ((.str "name".toList : Value F) :: .str "test".toList :: cols.map Value.str)

/-- The line written for a test. -/
def testLine (ws : List Nat) (name : Str) (res : Table F) (cols : List Str) (t : Str) : Str :=
  paddedLine ws (.str name :: .str t :: cols.map (tableCell res t))

/-- The text splits back into the lines that were written. -/
private theorem splitOn_tableRows (hsafe : SafeTable name res) (ws : List Nat) :
    (((tableRows setOrder testOrder name res).map (paddedLine ws)).flatMap (· ++ ['\n'])).splitOn
        '\n'
      = headerLine F ws (tableCols setOrder testOrder res) :: (testOrder.order res.keys).map
          (testLine ws name res (tableCols setOrder testOrder res)) ++ [[]] := by
  have hrows : (tableRows setOrder testOrder name res).map (paddedLine ws)
      = headerLine F ws (tableCols setOrder testOrder res) :: (testOrder.order res.keys).map
          (testLine ws name res (tableCols setOrder testOrder res)) := by
    simp only [tableRows, List.map_cons, List.map_map, List.cons_append, List.nil_append]
    rfl
  rw [← hrows]
  refine splitOn_flatMap_terminated ?_
  intro l hl
  obtain ⟨row, hrow, rfl⟩ := List.mem_map.mp hl
  refine newline_paddedLine _ row fun x hx => ?_
  exact (tableRows_safe setOrder testOrder hsafe row hrow x hx).newline

private theorem splitOn_headerLine (hsafe : SafeTable name res) (w₀ w₁ : Nat) (ws : List Nat) :
    (headerLine F (w₀ :: w₁ :: ws) (tableCols setOrder testOrder res)).splitOn ','
      = [rjust w₀ "name".toList, paddedCell w₁ "test".toList]
        ++ List.zipWith paddedCell ws (tableCols setOrder testOrder res) ++ [[' ']] := by
  have hsplit := splitOn_paddedLine (.str "name".toList : Value F) (.str "test".toList)
    ((tableCols setOrder testOrder res).map Value.str)
    (fun x hx => (tableRows_safe setOrder testOrder hsafe _ List.mem_cons_self x hx).comma)
    w₀ w₁ ws
  rw [headerLine, hsplit, List.map_map]
  congr 2
  simp [Function.comp_def, Value.toStr]

private theorem splitOn_testLine (hsafe : SafeTable name res) (w₀ w₁ : Nat) (ws : List Nat)
    {t : Str} (ht : t ∈ testOrder.order res.keys) :
    (testLine (w₀ :: w₁ :: ws) name res (tableCols setOrder testOrder res) t).splitOn ','
      = [rjust w₀ name, paddedCell w₁ t] ++ List.zipWith paddedCell ws
          ((tableCols setOrder testOrder res).map fun c => (tableCell res t c).toStr)
        ++ [[' ']] := by
  have hsplit := splitOn_paddedLine (.str name : Value F) (.str t)
    ((tableCols setOrder testOrder res).map (tableCell res t))
    (fun x hx => (tableRows_safe setOrder testOrder hsafe _
      (List.mem_cons_of_mem _ (List.mem_map_of_mem ht)) x hx).comma) w₀ w₁ ws
  rw [testLine, hsplit, List.map_map]
  rfl

/-- No header cell is empty, so the keys are the columns and the last blank. -/
private theorem keys_headerLine (hsafe : SafeTable name res) (w₀ w₁ : Nat) (ws : List Nat) :
    (((headerLine F (w₀ :: w₁ :: ws) (tableCols setOrder testOrder res)).splitOn ',').filter
        fun x => 0 < x.length).drop 2
      = List.zipWith paddedCell ws (tableCols setOrder testOrder res) ++ [[' ']] := by
  rw [splitOn_headerLine setOrder testOrder hsafe, List.filter_eq_self.mpr]
  · rfl
  · intro x hx
    simp only [List.mem_append, List.mem_cons, List.not_mem_nil, or_false] at hx
    rcases hx with ((rfl | rfl) | hx) | rfl
    · simp [rjust]
    · simp [paddedCell]
    · obtain ⟨i, hi, rfl⟩ := List.getElem_of_mem hx
      simp [paddedCell]
    · rfl

/-- The dictionary `parse_csv` rebuilds: a row for each padded test name. -/
theorem parseCsv_hash2csv (hsafe : SafeTable name res) :
    ∃ (text : Str) (w : Nat) (rowOf : Str → Dict Str Str),
      hash2csv setOrder testOrder name res = some text ∧
      parseCsv text = some (Dict.ofList ((testOrder.order res.keys).map
        fun t => (paddedCell w t, rowOf t))) ∧
      ∀ t ∈ res.keys, ∀ k, (rowOf t).get? k
        = if k ∈ tableCols setOrder testOrder res then some (tableCell res t k).toStr
          else none := by
  obtain ⟨widths, hlen, htext⟩ := prettyCsv_eq (tableRows setOrder testOrder name res)
    ((tableCols setOrder testOrder res).length + 2) (by simp [tableRows])
    (tableRows_length setOrder testOrder)
  obtain ⟨w₀, widths', rfl⟩ := List.exists_cons_of_length_eq_add_one hlen
  obtain ⟨w₁, ws, rfl⟩ := List.exists_cons_of_length_eq_add_one (by simpa using hlen)
  have hws : ws.length = (tableCols setOrder testOrder res).length := by simpa using hlen
  -- Each line reads as a row of its own.
  have hrow : ∀ t, t ∈ testOrder.order res.keys → ∃ row,
      readRow (List.zipWith paddedCell ws (tableCols setOrder testOrder res) ++ [[' ']])
          (((testLine (w₀ :: w₁ :: ws) name res (tableCols setOrder testOrder res) t).splitOn
            ',').drop 2) .empty = some row ∧
        ∀ k, row.get? k = if k ∈ tableCols setOrder testOrder res
          then some (tableCell res t k).toStr else none := by
    intro t ht
    rw [splitOn_testLine setOrder testOrder hsafe w₀ w₁ ws ht]
    refine readRow_padded (fun c => (tableCell res t c).toStr) _ ws .empty hws ?_
    intro c hc
    obtain ⟨t', row, hrow, hck⟩ := mem_tableCols.mp hc
    obtain ⟨hsafeKey, hne⟩ := hsafe.key t' row hrow c hck
    exact ⟨hsafeKey.trimmed, hne, (tableCell_safe hsafe t c).trimmed⟩
  have : Nonempty (Dict Str Str) := ⟨.empty⟩
  choose! rowOf hread hget using hrow
  refine ⟨_, w₁, rowOf, htext, ?_, fun t ht => hget t (by simpa using ht)⟩
  refine parseCsv_lines (splitOn_tableRows setOrder testOrder hsafe _)
    (keys_headerLine setOrder testOrder hsafe w₀ w₁ ws)
    ⟨_, by rw [splitOn_headerLine setOrder testOrder hsafe]; rfl⟩ ?_ hread
  intro t ht
  rw [splitOn_testLine setOrder testOrder hsafe w₀ w₁ ws ht]
  rfl

end Trip

end Nicmem
