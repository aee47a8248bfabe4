/-
The two halves of a row of the NIC's counters.

A row shows a raw counter and beside it an analysed one.  `read_neo` reads the raw one
first and leaves the row where it cannot: at a value that is blank or no number.  So the
analysed counter of a row is recorded exactly when the raw one is.
-/
import Nicmem.PerfUtil.Apps
import Nicmem.Proofs.Collected
import Nicmem.Proofs.Keys

namespace Nicmem

open Python

namespace Neo

variable {F : Type} [PyFloat F]

/-! ### Cells -/

/-- The text of a value in front of its unit. -/
theorem valueText_unit {text : Str} (htext : '[' ∉ text) (unit : Str) :
    valueText (text ++ '[' :: unit) = replace [','] [] text := by
  rw [valueText, find_eq_of_index? (index?_char htext unit), sliceTo_natCast, List.take_left]

/-- The raw value of a row can be read. -/
def Readable (F : Type) [PyFloat F] (val : Str) : Prop :=
  replace [' '] [] (valueText val) ≠ [] ∧
    ∃ y : F, PyFloat.ofStr ((valueText val).filter (· ∉ ['|'])) = some y

theorem cells_of_readable {skip : Nat} {bars : List Char} {name val : Str}
    (hname : rule name = false)
    (hblank : replace [' '] [] (valueText val) ≠ []) :
    (cells skip bars name val : Option (Str × F)) =
      (PyFloat.ofStr ((valueText val).filter (· ∉ bars))).map fun x => (key skip name, x) := by
  rw [cells, hname, if_neg Bool.false_ne_true]
  exact if_neg fun hempty => hblank (List.isEmpty_iff.mp hempty)

theorem cells_raw_iff {name val : Str} (hname : rule name = false) :
    (∃ e : Str × F, cells 1 ['|'] name val = some e) ↔ Readable F val := by
  by_cases hblank : replace [' '] [] (valueText val) = []
  · have hnone : (cells 1 ['|'] name val : Option (Str × F)) = none := by
      rw [cells, hname, if_neg Bool.false_ne_true]
      exact if_pos (List.isEmpty_iff.mpr hblank)
    rw [hnone]
    constructor
    · rintro ⟨e, he⟩
      cases he
    · exact fun h => absurd hblank h.1
  · rw [cells_of_readable hname hblank]
    constructor
    · rintro ⟨e, he⟩
      obtain ⟨y, hy, -⟩ := Option.map_eq_some_iff.mp he
      exact ⟨hblank, y, hy⟩
    · rintro ⟨-, y, hy⟩
      exact ⟨_, by rw [hy, Option.map_some]⟩

/-- An analysed value: a number, and a unit in brackets. -/
structure Analysis (name val : Str) (x : F) : Prop where
  name : rule name = false
  value : ∃ text unit, val = text ++ '[' :: unit ∧ '[' ∉ text ∧
    replace [' '] [] (replace [','] [] text) ≠ [] ∧ PyFloat.ofStr (replace [','] [] text) = some x

theorem Analysis.cells {name val : Str} {x : F} (h : Analysis name val x) :
    cells 2 [] name val = some (key 2 name, x) := by
  obtain ⟨text, unit, rfl, htext, hblank, hx⟩ := h.value
  have hall : (replace [','] [] text).filter (· ∉ ([] : List Char)) = replace [','] [] text :=
    List.filter_eq_self.mpr fun c _ => by simp
  rw [cells_of_readable h.name (by rw [valueText_unit htext]; exact hblank), valueText_unit htext,
    hall, hx, Option.map_some]

/-! ### Rows -/

theorem lineCells_row {row t rawName rawVal name val : Str} {rest : List Str} {x : F}
    (hrow : Counted row)
    (hterms : splitStr "||".toList row = t :: rawName :: rawVal :: name :: val :: rest)
    (h : Analysis name val x) :
    lineCells row = (cells 1 ['|'] rawName rawVal).elim [] fun e => [e, (key 2 name, x)] := by
  rw [lineCells, hrow.1, hrow.2, Bool.or_false, if_neg Bool.false_ne_true, hterms]
  simp only [h.cells, Option.toList_some]
  cases (cells 1 ['|'] rawName rawVal : Option (Str × F)) with
  | none => rfl
  | some e => rfl

/-- The samples of all lines. -/
theorem neoSamples_eq (data : Str) : (neoSamples data : Samples F) =
    appendAll .empty (((plainText data).splitOn '\n').flatMap lineCells) :=
  foldl_appendAll lineCells _ .empty

end Neo

open Neo

variable {F : Type} [PyFloat F]

/-- The samples some lines record for a key. -/
def neoSamplesOf (k : Str) (lines : List Str) : List F := samplesAt k (lines.flatMap Neo.lineCells)

/--
**The analysed value of a row is recorded, between what the lines before and after record, if
and only if the raw value of the row can be read.**
-/
theorem neoSamples_analysis_iff {data row t rawName rawVal name val : Str}
    {before after rest : List Str}
    {x : F} (hdata : (plainText data).splitOn '\n' = before ++ row :: after) (hrow : Counted row)
    (hterms : splitStr "||".toList row = t :: rawName :: rawVal :: name :: val :: rest)
    (hraw : rule rawName = false) (h : Analysis name val x) :
    (neoSamples data : Samples F).get? (key 2 name) =
      some (neoSamplesOf (key 2 name) before ++
        samplesAt (key 2 name) (cells 1 ['|'] rawName rawVal).toList ++ [x] ++
        neoSamplesOf (key 2 name) after) ↔ Readable F rawVal := by
  have hcells := lineCells_row hrow hterms h
  have hget := get?_appendAll (((plainText data).splitOn '\n').flatMap lineCells) (key 2 name)
    (.empty : Samples F)
  rw [← neoSamples_eq, hdata, List.flatMap_append, List.flatMap_cons, samplesAt_append,
    samplesAt_append, hcells] at hget
  rw [← cells_raw_iff hraw, hget, neoSamplesOf, neoSamplesOf]
  cases (cells 1 ['|'] rawName rawVal : Option (Str × F)) with
  | none =>
      -- the row adds nothing, so one sample is missing
      constructor
      · intro heq
        split at heq
        · cases heq
        · have hlen := congrArg List.length (Option.some.inj heq)
          simp [samplesAt] at hlen
      · rintro ⟨e, he⟩
        cases he
  | some e =>
      have hrow : samplesAt (key 2 name) [e, (key 2 name, x)] =
          samplesAt (key 2 name) [e] ++ [x] := by
        rw [← List.singleton_append, samplesAt_append]
        simp [samplesAt]
      refine ⟨fun _ => ⟨e, rfl⟩, fun _ => ?_⟩
      rw [Option.elim_some, Option.toList_some, hrow, if_neg (by simp)]
      simp

/-- A row whose raw value is a number, and one whose raw value is blank. -/
def rawNumber : Str := "|| RX Packets || 5 ||| PCIe Inbound Used BW || 12.5 [Gb/s] ||".toList

def rawBlank : Str := "|| RX Packets ||  ||| PCIe Inbound Used BW || 12.5 [Gb/s] ||".toList

theorem neoSamples_analysis_rawNumber :
    (neoSamples rawNumber : Samples Exact).get? "neo_pcie_inbound_used_bw".toList =
      some [.fin (25 / 2)] := by
  have hvalue : Analysis "| PCIe Inbound Used BW ".toList " 12.5 [Gb/s] ".toList
      (.fin (25 / 2) : Exact) := by
    refine ⟨by decide, " 12.5 ".toList, "Gb/s] ".toList, ?_⟩
    decide +kernel
  have hdata : (plainText rawNumber).splitOn '\n' = [] ++ rawNumber :: [] := by decide
  have hrow : Counted rawNumber := by
    unfold Counted
    decide
  have hterms : splitStr "||".toList rawNumber = [] :: " RX Packets ".toList :: " 5 ".toList ::
      "| PCIe Inbound Used BW ".toList :: " 12.5 [Gb/s] ".toList :: [[]] := by
    decide
  have hread : Readable Exact " 5 ".toList := ⟨by decide +kernel, .fin 5, by decide +kernel⟩
  have hget := (neoSamples_analysis_iff hdata hrow hterms (by decide) hvalue).mpr hread
  have hkey : key 2 "| PCIe Inbound Used BW ".toList = "neo_pcie_inbound_used_bw".toList := by
    decide
  rw [hkey] at hget
  refine hget.trans ?_
  decide +kernel

/-- With the raw value blank, the analysed one is lost. -/
theorem neoSamples_rawBlank :
    splitStr "||".toList rawBlank = [[], " RX Packets ".toList, "  ".toList,
      "| PCIe Inbound Used BW ".toList, " 12.5 [Gb/s] ".toList, []] ∧
    (neoSamples rawBlank : Samples Exact).get? "neo_pcie_inbound_used_bw".toList = none := by
  decide

end Nicmem
