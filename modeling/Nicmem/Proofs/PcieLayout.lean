/-
The tables `pcm-pcie` prints, and what the patterns of `read_pcie` find in them.

A row names a socket or, with a star, all of them, shows nine counts and ends in a tag.  A
count may have a unit behind it.  The reader expands the units by replacing text in the
whole log, one unit after the other; each replacement turns a log of this layout into
another one with the same counts, in which the unit does not occur any more.

A row pattern is not anchored.  A row with another tag lacks a letter of it.  A row of
another socket has the right tag, and the pattern could start inside a count that ends in
zero: but then too few columns are left.  What is counted is how often a digit is followed
by a blank, ten times in a match and nine times behind the name of the socket.
-/
import Nicmem.Proofs.MemoryLayout
import Nicmem.Python.Exact

namespace Nicmem

open Python

namespace Pcie

open Pattern

/-! ### Rows -/

/-- The units of a count. -/
inductive Scale where
  | kilo
  | mega
  | giga
  deriving DecidableEq, Repr

namespace Scale

def letter : Scale → Char
  | .kilo => 'K'
  | .mega => 'M'
  | .giga => 'G'

def exponent : Scale → Nat
  | .kilo => 3
  | .mega => 6
  | .giga => 9

/-- The unit as it stands behind a count. -/
def mark (u : Scale) : Str := [' ', u.letter]

/-- What it is replaced by. -/
def zeros (u : Scale) : Str := List.replicate u.exponent '0'

theorem zeros_ne (u : Scale) : u.zeros ≠ [] := by
  cases u <;> decide

theorem isDigit_letter (u : Scale) : u.letter.isDigit = false := by
  cases u <;> decide

theorem not_blank (u : Scale) : isSpace u.letter = true → u.letter = '\n' := by
  cases u <;> decide

end Scale

/-- Blanks inside a line. -/
def Blank (s : Str) : Prop := ∀ c ∈ s, isSpace c = true ∧ c ≠ '\n'

/-- A count with its unit, if it has one, and the blanks behind. -/
structure Cell where
  digits : Str
  unit : Option Scale
  gap : Str
  digits_ne : digits ≠ []
  isDigit : ∀ c ∈ digits, c.isDigit = true
  gap_ne : gap ≠ []
  blank : Blank gap

namespace Cell

def unitText (x : Cell) : Str := (x.unit.map Scale.mark).getD []

def text (x : Cell) : Str := x.digits ++ (x.unitText ++ x.gap)

/-- The number the cell denotes. -/
def value (x : Cell) : Nat := natVal x.digits * 10 ^ ((x.unit.map Scale.exponent).getD 0)

end Cell

inductive Tag where
  | total
  | miss
  | hit
  deriving DecidableEq, Repr

def Tag.label : Tag → Str
  | .total => "(Total)".toList
  | .miss => "(Miss)".toList
  | .hit => "(Hit)".toList

/-- What a row is about. -/
inductive Source where
  | socket (number : Char) (isDigit : number.isDigit = true) (tag : Tag)
  | aggregate

namespace Source

/-- The first column. -/
def first : Source → Char
  | .socket number _ _ => number
  | .aggregate => '*'

theorem not_blank (s : Source) : isSpace s.first = true → s.first = '\n' := by
  intro h
  cases s with
  | socket number hd tag =>
      rw [first, isSpace_of_isDigit hd] at h
      cases h
  | aggregate => cases h

/-- The last one. -/
def label : Source → Str
  | .socket _ _ tag => tag.label
  | .aggregate => "(Aggregate)".toList

end Source

/-- A row of the table: seven counts that are not read, and the two that are. -/
structure Row where
  source : Source
  lead : Str
  gap : Str
  counts : List Cell
  rdb : Cell
  wrb : Cell
  trail : Str
  lead_blank : Blank lead
  gap_ne : gap ≠ []
  gap_blank : Blank gap
  seven : counts.length = 7
  trail_blank : Blank trail

namespace Row

def cells (r : Row) : List Cell := r.counts ++ [r.rdb, r.wrb]

/-- What stands behind the last count. -/
def ending (r : Row) : Str := r.source.label ++ r.trail

/-- What stands behind the first column. -/
def body (r : Row) : Str := r.gap ++ (r.cells.flatMap Cell.text ++ r.ending)

def text (r : Row) : Str := r.lead ++ r.source.first :: r.body

end Row

/-- The tags of the rows that are read. -/
def labels : List Str := ["(Miss)".toList, "(Hit)".toList, "(Aggregate)".toList]

theorem Source.label_mem (s : Source) : s.label ∈ "(Total)".toList :: labels := by
  cases s with
  | socket number hd tag =>
      show tag.label ∈ _
      cases tag <;> decide
  | aggregate => decide

/-- A line of a log: a row, or any line without the tag of a row that is read. -/
inductive Line where
  | row (r : Row)
  | other (s : Str) (newline : '\n' ∉ s) (noLabel : ∀ w ∈ labels, ¬ w <:+: s)

def Line.text : Line → Str
  | .row r => r.text
  | .other s _ _ => s

theorem not_mem_of_digits {c : Char} (hc : c.isDigit = false) {s : Str}
    (hs : ∀ d ∈ s, d.isDigit = true) : c ∉ s := by
  intro hmem
  rw [hs c hmem] at hc
  cases hc

theorem not_mem_of_blank {c : Char} (hc : isSpace c = true → c = '\n') {s : Str} (hs : Blank s) :
    c ∉ s := by
  intro hmem
  obtain ⟨hspace, hne⟩ := hs c hmem
  exact hne (hc hspace)

def logText (lines : List Line) : Str := List.intercalate ['\n'] (lines.map Line.text)

theorem blank_replicate (n : Nat) : Blank (List.replicate n ' ') := by
  intro c hc
  rw [List.eq_of_mem_replicate hc]
  decide

/-- A count, its unit and the blanks behind it; there is at least one. -/
def cell (n : Nat) (unit : Option Scale) (pad : Nat) : Cell where
  digits := natStr n
  unit := unit
  gap := List.replicate (pad + 1) ' '
  digits_ne := natStr_ne_nil n
  isDigit := fun _ => isDigit_of_mem_natStr
  gap_ne := List.cons_ne_nil _ _
  blank := blank_replicate (pad + 1)

/-- A row of the table the source documents. -/
def sampleRow : Row where
  source := .socket '0' rfl .miss
  lead := [' ']
  gap := List.replicate 4 ' '
  counts :=
    [cell 8100 none 9, cell 24 none 5, cell 84 none 5, cell 74 (some .kilo) 5, cell 0 none 6,
     cell 0 none 4, cell 108 none 9]
  rdb := cell 5323 (some .kilo) 7
  wrb := cell 1536 none 4
  trail := []
  lead_blank := blank_replicate 1
  gap_ne := List.cons_ne_nil _ _
  gap_blank := blank_replicate 4
  seven := rfl
  trail_blank := blank_replicate 0

example : sampleRow.text =
    " 0    8100          24      84      74 K      0       0     108          ".toList ++
      "5323 K        1536     (Miss)".toList := by
  decide

/-! ### One unit expanded -/

section Expand

variable (u : Scale)

/-- The digits of a cell with the unit expanded. -/
def Cell.expandedDigits (x : Cell) : Str :=
  if x.unit = some u then x.digits ++ u.zeros else x.digits

theorem Cell.isDigit_expandedDigits (x : Cell) : ∀ c ∈ x.expandedDigits u, c.isDigit = true := by
  intro c hc
  rw [expandedDigits] at hc
  split at hc
  · rcases List.mem_append.mp hc with hc | hc
    · exact x.isDigit c hc
    · rw [List.eq_of_mem_replicate hc]
      rfl
  · exact x.isDigit c hc

theorem Cell.expandedDigits_ne (x : Cell) : x.expandedDigits u ≠ [] := by
  rw [expandedDigits]
  split
  · exact List.append_ne_nil_of_left_ne_nil x.digits_ne _
  · exact x.digits_ne

def Cell.expand (x : Cell) : Cell where
  digits := x.expandedDigits u
  unit := if x.unit = some u then none else x.unit
  gap := x.gap
  digits_ne := x.expandedDigits_ne u
  isDigit := x.isDigit_expandedDigits u
  gap_ne := x.gap_ne
  blank := x.blank

def Row.expand (r : Row) : Row :=
  { r with
    counts := r.counts.map (Cell.expand u)
    rdb := r.rdb.expand u
    wrb := r.wrb.expand u
    seven := (List.length_map _).trans r.seven }

theorem label_of_replace {w s : Str} (hw : w ∈ labels) (h : w <:+: replace u.mark u.zeros s) :
    w <:+: s := by
  have hlabel : ∀ w ∈ labels, w ≠ [] ∧ '0' ∉ w := by decide
  refine infix_of_infix_replace (hlabel w hw).1 u.zeros_ne ?_ h
  intro c hc
  rw [List.eq_of_mem_replicate hc]
  exact (hlabel w hw).2

theorem newline_not_mem_replace {s : Str} (h : '\n' ∉ s) : '\n' ∉ replace u.mark u.zeros s := by
  intro hmem
  rcases mem_of_mem_replace hmem with hzero | hs
  · exact absurd (List.eq_of_mem_replicate hzero) (by decide)
  · exact h hs

def Line.expand : Line → Line
  | .row r => .row (r.expand u)
  | .other s newline noLabel =>
    .other (replace u.mark u.zeros s) (newline_not_mem_replace u newline)
      fun w hw hin => noLabel w hw (label_of_replace u hw hin)

/-- A text without the letter is left as it is, and so is what stands in front of another one. -/
theorem replace_append_of_not_mem {s t : Str} (hs : u.letter ∉ s) (ht : t.head? ≠ some u.letter) :
    replace u.mark u.zeros (s ++ t) = s ++ replace u.mark u.zeros t := by
  rw [Scale.mark, replace_pair_append fun _ => ht, replace_eq_self]
  intro hin
  exact hs (hin.subset (by simp))

theorem Cell.letter_not_mem_text {x : Cell} (hx : x.unit ≠ some u) : u.letter ∉ x.text := by
  have hunit : u.letter ∉ x.unitText := by
    rw [unitText]
    cases hv : x.unit with
    | none => exact List.not_mem_nil
    | some v =>
        have hne : v ≠ u := fun h => hx (h ▸ hv)
        show u.letter ∉ [' ', v.letter]
        revert hne
        cases u <;> cases v <;> decide
  rw [text, List.mem_append, List.mem_append, not_or, not_or]
  exact ⟨not_mem_of_digits u.isDigit_letter x.isDigit, hunit,
    not_mem_of_blank u.not_blank x.blank⟩

theorem Cell.replace_text (x : Cell) {rest : Str} (hrest : rest.head? ≠ some u.letter) :
    replace u.mark u.zeros (x.text ++ rest) =
      (x.expand u).text ++ replace u.mark u.zeros rest := by
  by_cases hx : x.unit = some u
  · have hshape : x.text ++ rest = x.digits ++ (u.mark ++ (x.gap ++ rest)) := by
      simp [text, unitText, hx]
    have hshape' : (x.expand u).text = x.digits ++ (u.zeros ++ x.gap) := by
      simp [text, unitText, expand, expandedDigits, hx]
    have hlast : x.digits.getLast? = some ' ' → False := by
      intro h
      exact absurd (x.isDigit ' ' (List.mem_of_getLast? h)) (by decide)
    have hdigits : ¬ u.mark <:+: x.digits := by
      intro h
      exact not_mem_of_digits u.isDigit_letter x.isDigit (h.subset (by simp [Scale.mark]))
    have hgap := replace_append_of_not_mem u (not_mem_of_blank u.not_blank x.blank) hrest
    calc replace u.mark u.zeros (x.text ++ rest)
        = replace u.mark u.zeros x.digits ++
          replace u.mark u.zeros (u.mark ++ (x.gap ++ rest)) := by
          rw [hshape]
          exact replace_pair_append fun h => (hlast h).elim
      _ = x.digits ++ (u.zeros ++ (x.gap ++ replace u.mark u.zeros rest)) := by
          rw [replace_eq_self hdigits, replace_append_old (by simp [Scale.mark]), hgap]
      _ = (x.expand u).text ++ replace u.mark u.zeros rest := by
          rw [hshape']
          simp
  · have hsame : (x.expand u).text = x.text := by
      simp [text, unitText, expand, expandedDigits, hx]
    rw [hsame]
    exact replace_append_of_not_mem u (Cell.letter_not_mem_text u hx) hrest

theorem head?_cells {c : Char} (hc : c.isDigit = false) {rest : Str} (hrest : rest.head? ≠ some c)
    (xs : List Cell) : (xs.flatMap Cell.text ++ rest).head? ≠ some c := by
  cases xs with
  | nil => exact hrest
  | cons x xs =>
      obtain ⟨d, ds, hd⟩ := List.exists_cons_of_ne_nil x.digits_ne
      have hdigit := x.isDigit d (by simp [hd])
      rw [List.flatMap_cons, Cell.text, hd]
      intro h
      obtain rfl : d = c := by simpa using h
      rw [hdigit] at hc
      cases hc

theorem replace_cells {rest : Str} (hrest : rest.head? ≠ some u.letter) (xs : List Cell) :
    replace u.mark u.zeros (xs.flatMap Cell.text ++ rest) =
      (xs.map (Cell.expand u)).flatMap Cell.text ++ replace u.mark u.zeros rest := by
  induction xs with
  | nil => rfl
  | cons x xs ih =>
      rw [List.flatMap_cons, List.append_assoc,
        x.replace_text u (head?_cells u.isDigit_letter hrest xs), ih, List.map_cons,
        List.flatMap_cons, List.append_assoc]

theorem Row.head?_ending (r : Row) : r.ending.head? = some '(' := by
  have hlabel : ∀ w ∈ "(Total)".toList :: labels, w.head? = some '(' := by decide
  rw [ending, List.head?_append, hlabel _ r.source.label_mem]
  rfl

theorem Row.replace_ending (r : Row) : replace u.mark u.zeros r.ending = r.ending := by
  have hlabels : ∀ w ∈ "(Total)".toList :: labels, ' ' ∉ w ∧ w.getLast? = some ')' := by
    decide
  have hlabel := hlabels _ r.source.label_mem
  have hseam : r.source.label.getLast? = some ' ' → r.trail.head? ≠ some u.letter := by
    intro h
    rw [hlabel.2] at h
    exact absurd h (by decide)
  have hfirst : ¬ u.mark <:+: r.source.label := fun h => hlabel.1 (h.subset (by simp [Scale.mark]))
  have htrail : ¬ u.mark <:+: r.trail := fun h =>
    not_mem_of_blank u.not_blank r.trail_blank (h.subset (by simp [Scale.mark]))
  rw [ending, Scale.mark, replace_pair_append hseam]
  exact congrArg₂ (· ++ ·) (replace_eq_self hfirst) (replace_eq_self htrail)

theorem Source.first_ne_letter (s : Source) : s.first ≠ u.letter := by
  cases s with
  | socket number hd tag =>
      intro h
      have hletter := u.isDigit_letter
      rw [← show number = u.letter from h, hd] at hletter
      cases hletter
  | aggregate => cases u <;> decide

theorem Row.cells_expand (r : Row) : (r.expand u).cells = r.cells.map (Cell.expand u) := by
  simp [cells, expand]

/-- One unit expanded in a row. -/
theorem Row.replace_text (r : Row) : replace u.mark u.zeros r.text = (r.expand u).text := by
  have hfront : u.letter ∉ r.lead ++ r.source.first :: r.gap := by
    rw [List.mem_append, List.mem_cons, not_or, not_or]
    exact ⟨not_mem_of_blank u.not_blank r.lead_blank, (r.source.first_ne_letter u).symm,
      not_mem_of_blank u.not_blank r.gap_blank⟩
  have hending : r.ending.head? ≠ some u.letter := by
    rw [r.head?_ending]
    cases u <;> decide
  have hshape : r.text =
      (r.lead ++ r.source.first :: r.gap) ++ (r.cells.flatMap Cell.text ++ r.ending) := by
    simp [text, body]
  rw [hshape, replace_append_of_not_mem u hfront (head?_cells u.isDigit_letter hending _),
    replace_cells u hending, r.replace_ending u, text, body, r.cells_expand u]
  simp [expand, ending]

/-- One unit expanded in a log. -/
theorem replace_logText (lines : List Line) :
    replace u.mark u.zeros (logText lines) = logText (lines.map (Line.expand u)) := by
  have hline : ∀ l : Line, replace u.mark u.zeros l.text = (l.expand u).text := by
    intro l
    cases l with
    | row r => exact r.replace_text u
    | other s newline noLabel => rfl
  have hletter : '\n' ≠ u.letter := by
    cases u <;> decide
  rw [logText, logText]
  induction lines with
  | nil => rfl
  | cons l lines ih =>
      cases lines with
      | nil => simpa using hline l
      | cons l' lines =>
          simp only [List.map_cons, List.intercalate_cons_cons] at ih ⊢
          have hseam : ∀ t : Str, replace u.mark u.zeros (l.text ++ ['\n'] ++ t) =
              replace u.mark u.zeros l.text ++ ['\n'] ++ replace u.mark u.zeros t := by
            intro t
            have hnewline : replace u.mark u.zeros ['\n'] = ['\n'] := by
              cases u <;> decide
            rw [Scale.mark] at hnewline ⊢
            rw [replace_pair_append (s := l.text ++ ['\n']) (by simp),
              replace_pair_append (s := l.text) (by simpa using fun _ => hletter), hnewline]
          rw [hseam, ih, hline]

end Expand

/-! ### All units expanded -/

theorem Cell.value_expand (u : Scale) (x : Cell) : (x.expand u).value = x.value := by
  rw [value, value]
  by_cases hx : x.unit = some u
  · have hdigits : (x.expand u).digits = x.digits ++ u.zeros := if_pos hx
    have hunit : (x.expand u).unit = none := if_pos hx
    rw [hdigits, hunit, hx, Scale.zeros, natVal_append_zeros]
    exact Nat.mul_one _
  · have hdigits : (x.expand u).digits = x.digits := if_neg hx
    have hunit : (x.expand u).unit = x.unit := if_neg hx
    rw [hdigits, hunit]

def Cell.expandAll (x : Cell) : Cell := ((x.expand .giga).expand .mega).expand .kilo

theorem Cell.unit_expand (u : Scale) (x : Cell) :
    (x.expand u).unit = if x.unit = some u then none else x.unit := rfl

theorem Cell.unit_expandAll (x : Cell) : x.expandAll.unit = none := by
  rw [expandAll, unit_expand, unit_expand, unit_expand]
  match x.unit with
  | none | some .kilo | some .mega | some .giga => rfl

theorem Cell.natVal_expandAll (x : Cell) : natVal x.expandAll.digits = x.value := by
  have hvalue : x.expandAll.value = x.value := by
    rw [expandAll, value_expand, value_expand, value_expand]
  rw [← hvalue, value, x.unit_expandAll]
  exact (Nat.mul_one _).symm

def Row.expandAll (r : Row) : Row := ((r.expand .giga).expand .mega).expand .kilo

def Line.expandAll (l : Line) : Line := ((l.expand .giga).expand .mega).expand .kilo

/-- The units of a log expanded. -/
theorem expandUnits_logText (lines : List Line) :
    expandUnits (logText lines) = logText (lines.map Line.expandAll) := by
  have hall : expandUnits (logText lines) = replace (Scale.mark .kilo) (Scale.zeros .kilo)
      (replace (Scale.mark .mega) (Scale.zeros .mega)
        (replace (Scale.mark .giga) (Scale.zeros .giga) (logText lines))) := rfl
  rw [hall, replace_logText, replace_logText, replace_logText, List.map_map, List.map_map]
  rfl

/-! ### Columns -/

theorem Cell.text_of_plain {x : Cell} (h : x.unit = none) : x.text = x.digits ++ x.gap := by
  rw [text, unitText, h]
  rfl

theorem Cell.head_gap (x : Cell) : ∃ b, x.gap.head? = some b ∧ isSpace b = true := by
  obtain ⟨b, gap, hgap⟩ := List.exists_cons_of_ne_nil x.gap_ne
  exact ⟨b, by rw [hgap]; rfl, (x.blank b (by simp [hgap])).1⟩

/-- How often a digit is followed by a blank. -/
def breaks : Str → Nat
  | c :: d :: s => (if c.isDigit && isSpace d then 1 else 0) + breaks (d :: s)
  | _ => 0

theorem breaks_le_cons (c : Char) (s : Str) : breaks s ≤ breaks (c :: s) := by
  cases s with
  | nil => exact Nat.zero_le _
  | cons d s => exact Nat.le_add_left _ _

theorem breaks_le_append (u : Str) (s : Str) : breaks s ≤ breaks (u ++ s) := by
  induction u with
  | nil => exact le_refl _
  | cons c u ih => exact ih.trans (breaks_le_cons c _)

theorem breaks_append_ge (t s : Str) : breaks t ≤ breaks (t ++ s) := by
  match t with
  | [] => exact Nat.zero_le _
  | [c] => exact Nat.zero_le _
  | c :: d :: t => exact Nat.add_le_add_left (breaks_append_ge (d :: t) s) _

theorem breaks_le_of_infix {t s : Str} (h : t <:+: s) : breaks t ≤ breaks s := by
  obtain ⟨u, v, rfl⟩ := h
  exact (breaks_le_append u t).trans (breaks_append_ge (u ++ t) v)

/-- A number in front of a blank. -/
theorem breaks_number {n s : Str} (hne : n ≠ []) (hn : ∀ c ∈ n, c.isDigit = true)
    (hs : ∃ b, s.head? = some b ∧ isSpace b = true) : breaks (n ++ s) = 1 + breaks s := by
  induction n with
  | nil => exact absurd rfl hne
  | cons c n ih =>
      have hc := hn c List.mem_cons_self
      cases n with
      | nil =>
          obtain ⟨b, hb, hblank⟩ := hs
          obtain ⟨s, rfl⟩ := List.head?_eq_some_iff.mp hb
          show (if c.isDigit && isSpace b then 1 else 0) + breaks (b :: s) = _
          rw [hc, hblank]
          rfl
      | cons d n =>
          have hd := isSpace_of_isDigit (hn d (by simp))
          show (if c.isDigit && isSpace d then 1 else 0) + breaks (d :: n ++ s) = _
          rw [hd, Bool.and_false, if_neg Bool.false_ne_true, Nat.zero_add]
          exact ih (List.cons_ne_nil d n) fun e he => hn e (List.mem_cons_of_mem c he)

/-- No digit, nothing to count. -/
theorem breaks_append_of_not_digit {u : Str} (hu : ∀ c ∈ u, c.isDigit = false) (s : Str) :
    breaks (u ++ s) = breaks s := by
  induction u with
  | nil => rfl
  | cons c u ih =>
      have hrest := ih fun d hd => hu d (List.mem_cons_of_mem c hd)
      rw [← hrest, List.cons_append]
      cases u ++ s with
      | nil => rfl
      | cons d t =>
          show (if c.isDigit && isSpace d then 1 else 0) + breaks (d :: t) = _
          rw [hu c List.mem_cons_self, Bool.false_and, if_neg Bool.false_ne_true, Nat.zero_add]

theorem isDigit_of_isSpace {c : Char} (h : isSpace c = true) : c.isDigit = false := by
  cases hc : c.isDigit with
  | false => rfl
  | true =>
      rw [isSpace_of_isDigit hc] at h
      cases h

theorem breaks_column {n b : Str} (hn : n ≠ []) (hnd : ∀ c ∈ n, c.isDigit = true) (hb : b ≠ [])
    (hbs : ∀ c ∈ b, isSpace c = true) (s : Str) : breaks (n ++ (b ++ s)) = 1 + breaks s := by
  obtain ⟨c, b', rfl⟩ := List.exists_cons_of_ne_nil hb
  rw [breaks_number hn hnd ⟨c, rfl, hbs c List.mem_cons_self⟩,
    breaks_append_of_not_digit fun d hd => isDigit_of_isSpace (hbs d hd)]

theorem breaks_cells {xs : List Cell} (h : ∀ x ∈ xs, x.unit = none) (s : Str) :
    breaks (xs.flatMap Cell.text ++ s) = xs.length + breaks s := by
  induction xs with
  | nil => exact (Nat.zero_add _).symm
  | cons x xs ih =>
      rw [List.flatMap_cons, Cell.text_of_plain (h x List.mem_cons_self), List.append_assoc,
        List.append_assoc,
        breaks_column x.digits_ne x.isDigit x.gap_ne fun c hc => (x.blank c hc).1,
        ih fun y hy => h y (List.mem_cons_of_mem x hy), List.length_cons]
      omega

/-! ### The patterns -/

/-- A count that is passed over. -/
def column : Pattern := plus .digit ++ plus .space

/-- The two counts that are read, and the tag. -/
def lastColumns (w : String) : Pattern :=
  group (plus .digit) ++ (plus .space ++ (group (plus .digit) ++ (plus .space ++ lit w)))

def columns (w : String) : Pattern :=
  plus .space ++ ((List.replicate 7 column).flatten ++ lastColumns w)

theorem row_socket (w : String) : row "0" w = .one (.ch '0') :: columns w := rfl

section Fits

variable {p : Pattern} {t : Str}

theorem breaks_of_fits_column (h : Pattern.Fits (plus .digit ++ (plus .space ++ p)) t) :
    ∃ v, Pattern.Fits p v ∧ breaks t = 1 + breaks v := by
  obtain ⟨n, t', rfl, hn, ht'⟩ := fits_append h
  obtain ⟨b, v, rfl, hb, hv⟩ := fits_append ht'
  obtain ⟨hne, hdigits⟩ := fits_plus hn
  obtain ⟨hbne, hblank⟩ := fits_plus hb
  exact ⟨v, hv, breaks_column hne hdigits hbne hblank v⟩

theorem breaks_of_fits_columns {n : Nat} :
    ∀ {t : Str}, Pattern.Fits ((List.replicate n column).flatten ++ p) t →
      ∃ v, Pattern.Fits p v ∧ breaks t = n + breaks v := by
  induction n with
  | zero =>
      intro t h
      exact ⟨t, h, (Nat.zero_add _).symm⟩
  | succ n ih =>
      intro t h
      rw [List.replicate_succ, List.flatten_cons, column, List.append_assoc, List.append_assoc] at h
      obtain ⟨v, hv, hbreaks⟩ := breaks_of_fits_column h
      obtain ⟨v', hv', hrest⟩ := ih hv
      exact ⟨v', hv', by omega⟩

/-- A group matches what stands in it. -/
theorem fits_of_group {q : Pattern} (h : Pattern.Fits (group q ++ p) t) :
    Pattern.Fits (q ++ p) t := by
  have hopen : Pattern.Fits ((q ++ [.rpar]) ++ p) t := h
  rw [List.append_assoc] at hopen
  obtain ⟨u, v, rfl, hu, hv⟩ := fits_append hopen
  exact fits_of_append hu hv

/-- What matches a row of a socket has ten columns in front of the tag. -/
theorem ten_le_breaks {w : String} (h : Pattern.Fits (row "0" w) t) : 10 ≤ breaks t := by
  rw [row_socket] at h
  obtain ⟨c, u, rfl, hc, hu⟩ := h
  obtain ⟨b, v, rfl, hb, hv⟩ := fits_append hu
  obtain ⟨hbne, hblank⟩ := fits_plus hb
  have hdigit : c.isDigit = true := by
    rw [show c = '0' from eq_of_beq hc]
    rfl
  have hfirst : breaks (c :: (b ++ v)) = 1 + breaks v :=
    breaks_column (n := [c]) (List.cons_ne_nil c []) (by simpa using hdigit) hbne hblank v
  obtain ⟨v₇, hv₇, hseven⟩ := breaks_of_fits_columns hv
  obtain ⟨v₈, hv₈, height⟩ := breaks_of_fits_column (fits_of_group hv₇)
  obtain ⟨v₉, -, hnine⟩ := breaks_of_fits_column (fits_of_group hv₈)
  omega

end Fits

section Match

variable {p : Pattern} {s : Str} {g : Groups} {r : Groups × Str}

/-- Blanks in front of what is no blank. -/
theorem matchAt_blanks {b : Str} (hne : b ≠ []) (hb : Blank b)
    (hs : ∀ c ∈ s.head?, isSpace c = false) (hg : g.current = none) (h : matchAt p s g = some r) :
    matchAt (plus .space ++ p) (b ++ s) g = some r := by
  refine matchAt_plus hne (fun c hc => (hb c hc).1) hs ?_
  obtain ⟨current, closed⟩ := g
  obtain rfl : current = none := hg
  exact h

theorem Cell.matchAt_column {x : Cell} (hx : x.unit = none) {closed : List Str}
    (hs : ∀ c ∈ s.head?, isSpace c = false) (h : matchAt p s ⟨none, closed⟩ = some r) :
    matchAt (column ++ p) (x.text ++ s) ⟨none, closed⟩ = some r := by
  rw [text_of_plain hx, List.append_assoc, column, List.append_assoc]
  refine matchAt_plus x.digits_ne x.isDigit ?_ (matchAt_blanks x.gap_ne x.blank hs rfl h)
  intro c hc
  obtain ⟨b, hb, hblank⟩ := x.head_gap
  rw [List.head?_append, hb] at hc
  cases hc
  exact isDigit_of_isSpace hblank

theorem Cell.matchAt_group {x : Cell} (hx : x.unit = none) (closed : List Str)
    (hs : ∀ c ∈ s.head?, isSpace c = false)
    (h : matchAt p s ⟨none, closed ++ [x.digits]⟩ = some r) :
    matchAt (group (plus .digit) ++ (plus .space ++ p)) (x.text ++ s) ⟨none, closed⟩ = some r := by
  rw [text_of_plain hx, List.append_assoc]
  show matchAt (plus .digit ++ (.rpar :: (plus .space ++ p))) (x.digits ++ (x.gap ++ s))
    ⟨some [], closed⟩ = some r
  refine matchAt_plus x.digits_ne x.isDigit ?_ ?_
  · intro c hc
    obtain ⟨b, hb, hblank⟩ := x.head_gap
    rw [List.head?_append, hb] at hc
    cases hc
    exact isDigit_of_isSpace hblank
  · exact matchAt_blanks (g := ⟨none, closed ++ [x.digits]⟩) x.gap_ne x.blank hs rfl h

theorem Cell.head_text (x : Cell) (s : Str) : ∀ c ∈ (x.text ++ s).head?, isSpace c = false := by
  intro c hc
  obtain ⟨d, ds, hd⟩ := List.exists_cons_of_ne_nil x.digits_ne
  rw [text, hd] at hc
  cases hc
  exact isSpace_of_isDigit (x.isDigit c (by simp [hd]))

theorem head_cells {xs : List Cell} (hs : ∀ c ∈ s.head?, isSpace c = false) :
    ∀ c ∈ (xs.flatMap Cell.text ++ s).head?, isSpace c = false := by
  cases xs with
  | nil => exact hs
  | cons x xs =>
      rw [List.flatMap_cons, List.append_assoc]
      exact x.head_text _

theorem matchAt_cells {closed : List Str} (hs : ∀ c ∈ s.head?, isSpace c = false)
    (h : matchAt p s ⟨none, closed⟩ = some r) {xs : List Cell} (hxs : ∀ x ∈ xs, x.unit = none) :
    matchAt ((List.replicate xs.length column).flatten ++ p) (xs.flatMap Cell.text ++ s)
      ⟨none, closed⟩ = some r := by
  induction xs with
  | nil => exact h
  | cons x xs ih =>
      rw [List.length_cons, List.replicate_succ, List.flatten_cons, List.append_assoc,
        List.flatMap_cons, List.append_assoc]
      exact Cell.matchAt_column (hxs x List.mem_cons_self) (head_cells hs)
        (ih fun y hy => hxs y (List.mem_cons_of_mem x hy))

end Match

namespace Row

variable {r : Row}

/-- Every unit of the row is expanded. -/
def Plain (r : Row) : Prop := ∀ x ∈ r.cells, x.unit = none

theorem plain_expandAll (r : Row) : r.expandAll.Plain := by
  intro x hx
  rw [expandAll, cells_expand, cells_expand, cells_expand, List.map_map, List.map_map] at hx
  obtain ⟨y, -, rfl⟩ := List.mem_map.mp hx
  exact y.unit_expandAll

/-- The columns of a row, from the first blank to the tag. -/
theorem matchAt_columns (h : r.Plain) {w : String} (hw : r.source.label = w.toList) :
    matchAt (columns w) r.body .start = some (⟨none, [r.rdb.digits, r.wrb.digits]⟩, r.trail) := by
  have hlabel : ∀ c ∈ (w.toList ++ r.trail).head?, isSpace c = false := by
    intro c hc
    rw [← hw, show r.source.label ++ r.trail = r.ending from rfl, r.head?_ending] at hc
    cases hc
    rfl
  have hshape : r.body = r.gap ++ (r.counts.flatMap Cell.text ++
      (r.rdb.text ++ (r.wrb.text ++ (w.toList ++ r.trail)))) := by
    simp [body, cells, ending, hw]
  have hcounts : ∀ x ∈ r.counts, x.unit = none := fun x hx => h x (by simp [cells, hx])
  have hrdb := h r.rdb (by simp [cells])
  have hwrb := h r.wrb (by simp [cells])
  have hlast := Cell.matchAt_group hrdb [] (r.wrb.head_text _)
    (Cell.matchAt_group hwrb [r.rdb.digits] hlabel (matchAt_lit_end w r.trail _))
  have hall := matchAt_cells (r.rdb.head_text _) hlast hcounts
  rw [r.seven] at hall
  rw [hshape]
  exact matchAt_blanks r.gap_ne r.gap_blank (head_cells (r.rdb.head_text _)) rfl hall

/-- A row that a pattern matches. -/
theorem findall_text (h : r.Plain) {w : String} (hw : r.source.label = w.toList) :
    ∃ rest, findall (.one (.ch r.source.first) :: columns w) r.text =
      [r.rdb.digits, r.wrb.digits] :: rest := by
  have hmatch : matchAt (.one (.ch r.source.first) :: columns w) (r.source.first :: r.body) .start =
      some (⟨none, [r.rdb.digits, r.wrb.digits]⟩, r.trail) := by
    show (if r.source.first == r.source.first then matchAt (columns w) r.body .start else none) = _
    rw [beq_self_eq_true, if_pos rfl, matchAt_columns h hw]
  rw [text, findall_skip (not_mem_of_blank r.source.not_blank r.lead_blank), findall, findallFrom,
    hmatch]
  exact ⟨_, rfl⟩

theorem breaks_body (h : r.Plain) : breaks r.body = 9 := by
  have hending : ∀ c ∈ r.ending, c.isDigit = false := by
    intro c hc
    rcases List.mem_append.mp hc with hc | hc
    · have hlabel : ∀ w ∈ "(Total)".toList :: labels,
        w.all (fun c => !c.isDigit) = true := by decide
      have hnot := List.all_eq_true.mp (hlabel _ r.source.label_mem) c hc
      rwa [Bool.not_eq_true'] at hnot
    · exact isDigit_of_isSpace (r.trail_blank c hc).1
  have hzero : breaks r.ending = 0 := by
    have hall := breaks_append_of_not_digit hending []
    rw [List.append_nil] at hall
    exact hall
  rw [body, breaks_append_of_not_digit fun c hc => isDigit_of_isSpace (r.gap_blank c hc).1,
    breaks_cells h, hzero, cells, List.length_append, r.seven]
  rfl

/-- A row of another socket is not matched, whatever its tag. -/
theorem findall_other_socket (h : r.Plain) (hfirst : r.source.first ≠ '0') (w : String) :
    findall (row "0" w) r.text = [] := by
  have hlead : '0' ∉ r.lead := not_mem_of_blank (by decide) r.lead_blank
  have hstart : matchAt (row "0" w) (r.source.first :: r.body) .start = none := by
    show (if r.source.first == '0' then _ else none) = none
    rw [beq_eq_false_iff_ne.mpr hfirst, if_neg Bool.false_ne_true]
  have hskip : findall (row "0" w) r.text = findall (row "0" w) (r.source.first :: r.body) := by
    rw [row_socket, text, findall_skip hlead]
  rw [hskip, findall_cons hstart]
  refine findall_eq_nil fun t ht hfits => ?_
  have hten := ten_le_breaks hfits
  have hle := breaks_le_of_infix ht
  rw [breaks_body h] at hle
  omega

/-- A row has no capital letters but those of its tag. -/
theorem not_mem_text (h : r.Plain) {c : Char} (hdigit : c.isDigit = false)
    (hspace : isSpace c = true → c = '\n') (hstar : c ≠ '*') (hlabel : c ∉ r.source.label) :
    c ∉ r.text := by
  have hfirst : c ≠ r.source.first := by
    rintro rfl
    match hsource : r.source with
    | .socket number hd tag =>
        rw [hsource, Source.first, hd] at hdigit
        cases hdigit
    | .aggregate =>
        rw [hsource] at hstar
        exact hstar rfl
  have hcells : c ∉ r.cells.flatMap Cell.text := by
    intro hmem
    obtain ⟨x, hx, hc⟩ := List.mem_flatMap.mp hmem
    rw [Cell.text_of_plain (h x hx)] at hc
    rcases List.mem_append.mp hc with hc | hc
    · exact not_mem_of_digits hdigit x.isDigit hc
    · exact not_mem_of_blank hspace x.blank hc
  simp only [text, body, ending, List.mem_append, List.mem_cons, not_or]
  exact ⟨not_mem_of_blank hspace r.lead_blank, hfirst, not_mem_of_blank hspace r.gap_blank, hcells,
    hlabel, not_mem_of_blank hspace r.trail_blank⟩

end Row

/-! ### Which rows are read -/

/-- The rows that are read. -/
inductive Reported where
  | miss
  | hit
  | aggregate
  deriving DecidableEq, Repr

namespace Reported

def pattern : Reported → Pattern
  | .miss => row "0" "(Miss)"
  | .hit => row "0" "(Hit)"
  | .aggregate => row "*" "(Aggregate)"

/-- How the two keys start. -/
def stem : Reported → Str
  | .miss => "sys_pcie_0_miss".toList
  | .hit => "sys_pcie_0_hit".toList
  | .aggregate => "sys_pcie_agg".toList

/-- The letter by which the tag differs from all others. -/
def mark : Reported → Char
  | .miss => 'M'
  | .hit => 'H'
  | .aggregate => 'A'

def label : Reported → Str
  | .miss => "(Miss)".toList
  | .hit => "(Hit)".toList
  | .aggregate => "(Aggregate)".toList

end Reported

def Tag.reported : Tag → Option Reported
  | .total => none
  | .miss => some .miss
  | .hit => some .hit

/-- What a row is read as: only socket 0 and the sum of all sockets are. -/
def Source.reported : Source → Option Reported
  | .socket number _ tag => if number = '0' then tag.reported else none
  | .aggregate => some .aggregate

theorem findall_of_not_mem_mark {k : Reported} {l : Str} (h : k.mark ∉ l) :
    findall k.pattern l = [] := by
  have hmark : .one (.ch k.mark) ∈ k.pattern := by
    cases k <;> decide
  exact findall_eq_nil_of_not_mem hmark h

/-- The pattern of a row that is read starts with its first column and ends in its tag. -/
theorem Source.pattern_of_reported {s : Source} {k : Reported} (h : s.reported = some k) :
    ∃ w : String, s.label = w.toList ∧ k.pattern = .one (.ch s.first) :: columns w := by
  cases s with
  | aggregate =>
      cases h
      exact ⟨"(Aggregate)", rfl, rfl⟩
  | socket number hd tag =>
      rw [reported] at h
      split at h
      · rename_i hzero
        subst hzero
        cases tag with
        | total => cases h
        | miss =>
            cases h
            exact ⟨"(Miss)", rfl, rfl⟩
        | hit =>
            cases h
            exact ⟨"(Hit)", rfl, rfl⟩
      · cases h

theorem Row.findall_reported {r : Row} (h : r.Plain) {k : Reported}
    (hk : r.source.reported = some k) :
    ∃ rest, findall k.pattern r.text = [r.rdb.digits, r.wrb.digits] :: rest := by
  obtain ⟨w, hlabel, hpattern⟩ := Source.pattern_of_reported hk
  rw [hpattern]
  exact r.findall_text h hlabel

/-- A tag has the letter of no other one. -/
theorem Source.label_of_mark {s : Source} {k : Reported} (h : k.mark ∈ s.label) :
    s = .aggregate ∧ k = .aggregate ∨
      ∃ number hd tag, s = .socket number hd tag ∧ tag.reported = some k := by
  cases s with
  | aggregate =>
      refine .inl ⟨rfl, ?_⟩
      revert h
      cases k <;> decide
  | socket number hd tag =>
      have htag : ∀ (k : Reported) (tag : Tag), k.mark ∈ tag.label → tag.reported = some k := by
        intro k tag
        cases k <;> cases tag <;> decide
      exact .inr ⟨number, hd, tag, rfl, htag k tag h⟩

theorem Row.findall_not_reported {r : Row} (h : r.Plain) {k : Reported}
    (hk : r.source.reported ≠ some k) : findall k.pattern r.text = [] := by
  by_cases hlabel : k.mark ∈ r.source.label
  · rcases Source.label_of_mark hlabel with ⟨hsource, rfl⟩ | ⟨number, hd, tag, hsource, htag⟩
    · rw [hsource] at hk
      exact absurd rfl hk
    · have hfirst : r.source.first ≠ '0' := by
        rw [hsource]
        rintro rfl
        rw [hsource, Source.reported, if_pos rfl] at hk
        exact hk htag
      cases k with
      | miss => exact r.findall_other_socket h hfirst "(Miss)"
      | hit => exact r.findall_other_socket h hfirst "(Hit)"
      | aggregate => cases tag <;> cases htag
  · refine findall_of_not_mem_mark (r.not_mem_text h ?_ ?_ ?_ hlabel) <;> cases k <;> decide

/-- A line without the tag of a row that is read has no match. -/
theorem findall_of_no_label {s : Str} (h : ∀ w ∈ labels, ¬ w <:+: s) (k : Reported) :
    findall k.pattern s = [] := by
  refine findall_eq_nil fun t ht hfits => h k.label ?_ ?_
  · cases k <;> decide
  · have hlabel : ∀ (first w : String), Pattern.Fits (row first w) t → w.toList <:+: t := by
      intro first w hrow
      obtain ⟨u, v, rfl, -, hv⟩ := fits_append hrow
      rw [fits_lit hv]
      exact (List.suffix_append u _).isInfix
    refine List.IsInfix.trans ?_ ht
    cases k with
    | miss => exact hlabel "0" "(Miss)" hfits
    | hit => exact hlabel "0" "(Hit)" hfits
    | aggregate => exact hlabel "*" "(Aggregate)" hfits

theorem firstMatch_rows_eq_none {l : Str} (h : ∀ k : Reported, findall k.pattern l = []) :
    firstMatch rows l = none := by
  exact (Memory.firstMatch_cons_of_nil (h .miss)).trans
    ((Memory.firstMatch_cons_of_nil (h .hit)).trans
      (Memory.firstMatch_cons_of_nil (h .aggregate)))

/-- The row of a pattern is read by this pattern. -/
theorem Row.firstMatch_reported {r : Row} (h : r.Plain) {k : Reported}
    (hk : r.source.reported = some k) :
    ∃ rest, firstMatch rows r.text = some (k.stem, [r.rdb.digits, r.wrb.digits], rest) := by
  obtain ⟨rest, hfind⟩ := r.findall_reported h hk
  have hother : ∀ k', k' ≠ k → findall k'.pattern r.text = [] := by
    intro k' hne
    refine r.findall_not_reported h ?_
    rw [hk]
    exact fun heq => hne (Option.some.inj heq).symm
  refine ⟨rest, ?_⟩
  cases k with
  | miss => exact Memory.firstMatch_cons hfind
  | hit =>
      exact (Memory.firstMatch_cons_of_nil (hother .miss (by decide))).trans
        (Memory.firstMatch_cons hfind)
  | aggregate =>
      exact (Memory.firstMatch_cons_of_nil (hother .miss (by decide))).trans
        ((Memory.firstMatch_cons_of_nil (hother .hit (by decide))).trans
          (Memory.firstMatch_cons hfind))

theorem Row.firstMatch_not_reported {r : Row} (h : r.Plain) (hk : r.source.reported = none) :
    firstMatch rows r.text = none := by
  refine firstMatch_rows_eq_none fun k => r.findall_not_reported h ?_
  rw [hk]
  exact Option.some_ne_none k ∘ Eq.symm

end Pcie

end Nicmem
