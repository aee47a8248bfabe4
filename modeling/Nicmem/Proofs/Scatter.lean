/-
The sixteen selections partition the measurements.

A row's memory type is the only one of the four words it holds, so the substring tests
tell the types apart although `nic` is a part of `nic-inline`.  The two thresholds are
each tested by an operator and its complement on one number, the one `awk` reads.  Together
a row meets the tests of exactly one pipeline, and sorting neither drops nor repeats a line.
-/
import Nicmem.Plot
import Nicmem.Python.Double

namespace Nicmem

open Python Shell

variable {N : Type} [LinearOrder N] (number : Str → Option N)

/-! ### What a pipeline selects -/

/-- The tests of a pipeline on one line. -/
def Pipeline.selects (p : Pipeline) (l : Str) : Bool :=
  hasSub p.keep l && !(p.drop.any fun pat => hasSub pat l) &&
    awkCompare number p.cpu (awkField 30 l) thresholdCpu &&
      awkCompare number p.mem (awkField 4 l) thresholdMem

/-- A pipeline keeps the lines that meet its tests, each as often as it is there. -/
theorem Pipeline.run_perm (C : Collation) (p : Pipeline) (csv : List Str) :
    (p.run number C csv).Perm (csv.filter (p.selects number)) := by
  unfold run
  refine (sortNumeric_perm C _ _).trans (List.Perm.of_eq ?_)
  cases hdrop : p.drop with
  | none =>
      simp only [awk, grep, List.filter_filter]
      refine List.filter_congr fun l _ => ?_
      simp [selects, hdrop, Bool.and_comm, Bool.and_left_comm]
  | some pat =>
      simp only [awk, grep, grepV, List.filter_filter]
      refine List.filter_congr fun l _ => ?_
      simp [selects, hdrop, Bool.and_assoc, Bool.and_comm, Bool.and_left_comm]

/-! ### Rows of measurements -/

/-- The words the pipelines look for. -/
def typeWords : List Str := ["nic".toList, "inline".toList, "host".toList, "base".toList]

/-- The cell of a row. -/
def cell (i : Nat) (l : Str) : Str := ((l.splitOn ',')[i]?).getD []

/-- The thresholds look like numbers. -/
structure Thresholds : Prop where
  cpu : (number thresholdCpu).isSome = true
  mem : (number thresholdMem).isSome = true

/-- A row of a measurement with memory type `ty`. -/
structure DataRow (ty : MemType) (l : Str) : Prop where
  /-- The test name carries the type. -/
  test : hasSub ty.text (cell 0 l) = true
  /-- It holds none of the words that are not part of the type. -/
  only : ∀ w ∈ typeWords, hasSub w (cell 0 l) = true → hasSub w ty.text = true
  /-- The `MEMTYPE` cell says the same, or is the default of a missing value. -/
  memtype : cell 7 l = ty.text ∨ cell 7 l = "0".toList
  /-- The words occur nowhere else. -/
  other : ∀ i, i ≠ 0 → i ≠ 7 → ∀ w ∈ typeWords, hasSub w (cell i l) = false
  cycles : (number (awkField 30 l)).isSome = true
  bandwidth : (number (awkField 4 l)).isSome = true

/-- The number of the first text is below that of the second. -/
def below (x y : Str) : Bool :=
  match number x, number y with
  | some a, some b => decide (a < b)
  | _, _ => false

/-- The side of the cycles threshold a row is on. -/
def cpuSide (l : Str) : CpuSide :=
  if below number (awkField 30 l) thresholdCpu then .lowc else .highc

/-- The side of the bandwidth threshold a row is on. -/
def memSide (l : Str) : MemSide :=
  if below number thresholdMem (awkField 4 l) then .highm else .lowm

variable {number}

theorem hasSub_iff_exists_cell {w l : Str} (hw : ',' ∉ w) :
    hasSub w l = true ↔ ∃ piece ∈ l.splitOn ',', hasSub w piece = true := by
  simp only [hasSub_iff]
  exact infix_splitOn hw

theorem mem_cell {l piece : Str} (h : piece ∈ l.splitOn ',') : ∃ i, piece = cell i l := by
  obtain ⟨i, hi, rfl⟩ := List.getElem_of_mem h
  exact ⟨i, by simp [cell, hi]⟩

theorem infix_cell (i : Nat) (l : Str) : cell i l <:+: l := by
  unfold cell
  by_cases hi : i < (l.splitOn ',').length
  · rw [List.getElem?_eq_getElem hi, Option.getD_some]
    have hmem := List.getElem_mem hi
    exact (infix_splitOn (not_mem_of_mem_splitOn hmem)).mpr ⟨_, hmem, List.infix_refl _⟩
  · rw [List.getElem?_eq_none (by omega)]
    exact List.nil_infix

omit [LinearOrder N] in
/-- Of the words, a row holds those of its type. -/
theorem DataRow.hasSub_word {ty : MemType} {l : Str} (h : DataRow number ty l) :
    ∀ w ∈ typeWords, (hasSub w l = true ↔ hasSub w ty.text = true) := by
  intro w hw
  have hcomma : ∀ w ∈ typeWords, ',' ∉ w := by decide
  have hzero : ∀ w ∈ typeWords, hasSub w "0".toList = false := by decide
  rw [hasSub_iff_exists_cell (hcomma w hw)]
  constructor
  · rintro ⟨piece, hpiece, hsub⟩
    obtain ⟨i, rfl⟩ := mem_cell hpiece
    by_cases h0 : i = 0
    · subst h0
      exact h.only w hw hsub
    by_cases h7 : i = 7
    · subst h7
      rcases h.memtype with heq | heq
      · rwa [heq] at hsub
      · rw [heq, hzero w hw] at hsub
        cases hsub
    · rw [h.other i h0 h7 w hw] at hsub
      cases hsub
  · intro hsub
    rw [← hasSub_iff_exists_cell (hcomma w hw), hasSub_iff]
    exact ((hasSub_iff.mp hsub).trans (hasSub_iff.mp h.test)).trans (infix_cell 0 l)

/-! ### The sixteen tests -/

/-- What the sixteen pipelines have in common. -/
theorem pipeline_eq (c : CpuSide) (m : MemSide) (ty : MemType) :
    pipeline c m ty =
      ⟨ty.text, if ty = .nic then some "inline".toList else none,
        if c = .lowc then .lt else .ge, if m = .highm then .gt else .le⟩ := by
  cases c <;> cases m <;> cases ty <;> rfl

omit [LinearOrder N] in
/-- The substring tests of a type are met by the rows of the type. -/
theorem DataRow.greps {ty : MemType} {l : Str} (h : DataRow number ty l) (ty' : MemType) :
    (hasSub ty'.text l &&
      !((if ty' = .nic then some "inline".toList else none).any fun pat => hasSub pat l)) =
        decide (ty' = ty) := by
  have hword : ∀ w ∈ typeWords, hasSub w l = hasSub w ty.text := fun w hw =>
    Bool.eq_iff_iff.mpr (h.hasSub_word w hw)
  have hnic : hasSub "nic".toList l = hasSub "nic".toList ty.text := hword _ (by decide)
  have hinline : hasSub "inline".toList l = hasSub "inline".toList ty.text := hword _ (by decide)
  have hhost : hasSub "host".toList l = hasSub "host".toList ty.text := hword _ (by decide)
  have hbase : hasSub "base".toList l = hasSub "base".toList ty.text := hword _ (by decide)
  cases ty' with
  | nic =>
      show (hasSub "nic".toList l && !hasSub "inline".toList l) = decide (MemType.nic = ty)
      rw [hnic, hinline]
      cases ty <;> decide
  | host =>
      show (hasSub "host".toList l && true) = decide (MemType.host = ty)
      rw [hhost]
      cases ty <;> decide
  | base =>
      show (hasSub "base".toList l && true) = decide (MemType.base = ty)
      rw [hbase]
      cases ty <;> decide
  | nicInline =>
      show (hasSub "nic-inline".toList l && true) = decide (MemType.nicInline = ty)
      rw [Bool.and_true]
      by_cases hty : MemType.nicInline = ty
      · subst hty
        rw [decide_eq_true rfl, hasSub_iff]
        exact (hasSub_iff.mp h.test).trans (infix_cell 0 l)
      · -- the longer text occurs only where `inline` does
        rw [decide_eq_false hty, ← Bool.not_eq_true, hasSub_iff]
        intro hin
        have hsub : hasSub "inline".toList l = true :=
          hasSub_iff.mpr (List.IsInfix.trans (by decide) hin)
        rw [hinline] at hsub
        cases ty <;> first | exact hty rfl | exact absurd hsub (by decide)

/-- An operator and its complement tell whether one number is below another. -/
theorem awkCompare_eq {x y : Str} (hx : (number x).isSome = true) (hy : (number y).isSome = true) :
    awkCompare number .lt x y = below number x y ∧ awkCompare number .ge x y = !below number x y ∧
      awkCompare number .gt x y = below number y x ∧
      awkCompare number .le x y = !below number y x := by
  obtain ⟨a, ha⟩ := Option.isSome_iff_exists.mp hx
  obtain ⟨b, hb⟩ := Option.isSome_iff_exists.mp hy
  unfold awkCompare below
  rw [ha, hb]
  exact ⟨rfl, rfl, rfl, rfl⟩

/-- The tests of the two thresholds are met on the row's own sides. -/
theorem DataRow.thresholds {ty : MemType} {l : Str} (h : DataRow number ty l)
    (ht : Thresholds number) (c : CpuSide) (m : MemSide) :
    awkCompare number (if c = .lowc then .lt else .ge) (awkField 30 l) thresholdCpu =
        decide (c = cpuSide number l) ∧
      awkCompare number (if m = .highm then .gt else .le) (awkField 4 l) thresholdMem =
        decide (m = memSide number l) := by
  obtain ⟨hlt, hge, -, -⟩ := awkCompare_eq h.cycles ht.cpu
  obtain ⟨-, -, hgt, hle⟩ := awkCompare_eq h.bandwidth ht.mem
  constructor
  · unfold cpuSide
    cases c with
    | lowc =>
        rw [if_pos rfl, hlt]
        cases below number (awkField 30 l) thresholdCpu <;> rfl
    | highc =>
        rw [if_neg (by decide), hge]
        cases below number (awkField 30 l) thresholdCpu <;> rfl
  · unfold memSide
    cases m with
    | highm =>
        rw [if_pos rfl, hgt]
        cases below number thresholdMem (awkField 4 l) <;> rfl
    | lowm =>
        rw [if_neg (by decide), hle]
        cases below number thresholdMem (awkField 4 l) <;> rfl

/-- A row meets the tests of its own pipeline and of no other. -/
theorem DataRow.selects_iff {ty : MemType} {l : Str} (h : DataRow number ty l)
    (ht : Thresholds number) (c : CpuSide) (m : MemSide) (ty' : MemType) :
    (pipeline c m ty').selects number l = true ↔
      c = cpuSide number l ∧ m = memSide number l ∧ ty' = ty := by
  obtain ⟨hcpu, hmem⟩ := h.thresholds ht c m
  rw [pipeline_eq, Pipeline.selects, h.greps ty', hcpu, hmem]
  simp only [Bool.and_eq_true, decide_eq_true_eq]
  exact ⟨fun ⟨⟨hty, hc⟩, hm⟩ => ⟨hc, hm, hty⟩, fun ⟨hc, hm, hty⟩ => ⟨⟨hty, hc⟩, hm⟩⟩

/-- The header holds none of the words. -/
theorem selects_header (c : CpuSide) (m : MemSide) (ty : MemType) :
    (pipeline c m ty).selects number scatterHeader = false := by
  have hall : ∀ ty : MemType, hasSub ty.text scatterHeader = false := by
    have hlist : ∀ ty ∈ [MemType.nic, .nicInline, .host, .base],
        hasSub ty.text scatterHeader = false := by decide +kernel
    intro ty
    exact hlist ty (by cases ty <;> decide)
  have hkeep := hall ty
  rw [pipeline_eq, Pipeline.selects, hkeep, Bool.false_and, Bool.false_and, Bool.false_and]

/-! ### The partition -/

/--
**The sixteen files partition the measurements.**  For every `filter.csv` whose rows each
carry one memory type and have numbers in the two columns that are tested: below its
comment, the file of a memory type and two sides holds exactly the rows of that type on
those sides, each as often as it is in the CSV, and the header is in none of them.  The
numbers are those `awk` reads, of any ordered type.
-/
theorem scatterFiles_partition (number : Str → Option N) (ht : Thresholds number) (C : Collation)
    (rows : List Str) (typeOf : Str → MemType)
    (hrows : ∀ l ∈ rows, DataRow number (typeOf l) l) (c : CpuSide) (m : MemSide) (ty : MemType) :
    (∀ l, (scatterFile number C c m ty (scatterHeader :: rows)).tail.count l =
      if c = cpuSide number l ∧ m = memSide number l ∧ ty = typeOf l then rows.count l else 0) ∧
    scatterHeader ∉ (scatterFile number C c m ty (scatterHeader :: rows)).tail := by
  have hheader : scatterHeader ∉ rows := by
    intro hmem
    have h := (hrows _ hmem).selects_iff ht (cpuSide number scatterHeader)
      (memSide number scatterHeader) (typeOf scatterHeader)
    rw [selects_header] at h
    exact Bool.false_ne_true (h.mpr ⟨rfl, rfl, rfl⟩)
  have hcount : ∀ l, (scatterFile number C c m ty (scatterHeader :: rows)).tail.count l =
      if c = cpuSide number l ∧ m = memSide number l ∧ ty = typeOf l then rows.count l else 0 := by
    intro l
    rw [scatterFile, List.tail_cons, ((pipeline c m ty).run_perm number C _).count_eq,
      List.filter_cons_of_neg (by rw [selects_header]; decide)]
    by_cases hl : l ∈ rows
    · by_cases hsel : (pipeline c m ty).selects number l = true
      · rw [List.count_filter hsel, if_pos (((hrows l hl).selects_iff ht c m ty).mp hsel)]
      · rw [if_neg fun hc => hsel (((hrows l hl).selects_iff ht c m ty).mpr hc),
          List.count_eq_zero]
        intro hmem
        exact hsel (List.mem_filter.mp hmem).2
    · rw [List.count_eq_zero.mpr hl, ite_self, List.count_eq_zero]
      intro hmem
      exact hl (List.mem_filter.mp hmem).1
  refine ⟨hcount, ?_⟩
  rw [← List.count_eq_zero, hcount, List.count_eq_zero.mpr hheader, ite_self]

/-- The finite double a text is read as. -/
def doubleNumber (s : Str) : Option ℚ :=
  match (PyFloat.ofStr s : Option Double).map IeeeFloat.exact with
  | some (.fin q) => some q
  | _ => none

/-- A row with one in every column but the test name and the memory type. -/
def onesRow (test memtype : String) : Str :=
  [','].intercalate
    (test.toList :: List.replicate 6 ['1'] ++ memtype.toList :: List.replicate 27 ['1'])

/-- Beyond its last cell a row has empty ones, which hold no word. -/
theorem hasSub_cell_of_length_le {l w : Str} (hw : w ∈ typeWords) {i : Nat}
    (hi : (l.splitOn ',').length ≤ i) : hasSub w (cell i l) = false := by
  have hnil : ∀ w ∈ typeWords, hasSub w [] = false := by decide
  rw [cell, List.getElem?_eq_none hi]
  exact hnil w hw

theorem dataRow_onesRow :
    DataRow doubleNumber .nicInline (onesRow "fw-nic-inline-1" "nic-inline") where
  test := by decide
  only := by decide
  memtype := by decide
  other := by
    intro i h0 h7 w hw
    have hcells : ∀ i < 35, i ≠ 0 → i ≠ 7 → ∀ w ∈ typeWords,
        hasSub w (cell i (onesRow "fw-nic-inline-1" "nic-inline")) = false := by decide
    by_cases hi : i < 35
    · exact hcells i hi h0 h7 w hw
    · refine hasSub_cell_of_length_le hw ?_
      have hlen : ((onesRow "fw-nic-inline-1" "nic-inline").splitOn ',').length = 35 := by
        decide
      omega
  cycles := by decide +kernel
  bandwidth := by decide +kernel

theorem scatterFiles_partition_onesRow :
    cpuSide doubleNumber (onesRow "fw-nic-inline-1" "nic-inline") = .lowc ∧
    (∀ l, (scatterFile doubleNumber .bytes .lowc .lowm .nicInline
        [scatterHeader, onesRow "fw-nic-inline-1" "nic-inline"]).tail.count l =
      if CpuSide.lowc = cpuSide doubleNumber l ∧ MemSide.lowm = memSide doubleNumber l ∧
        MemType.nicInline = .nicInline
      then [onesRow "fw-nic-inline-1" "nic-inline"].count l else 0) ∧
    scatterHeader ∉ (scatterFile doubleNumber .bytes .lowc .lowm .nicInline
      [scatterHeader, onesRow "fw-nic-inline-1" "nic-inline"]).tail := by
  refine ⟨by decide +kernel, scatterFiles_partition doubleNumber
    ⟨by decide +kernel, by decide +kernel⟩ .bytes [onesRow "fw-nic-inline-1" "nic-inline"]
    (fun _ => .nicInline) ?_ .lowc .lowm .nicInline⟩
  intro l hl
  rw [List.mem_singleton.mp hl]
  exact dataRow_onesRow

end Nicmem
