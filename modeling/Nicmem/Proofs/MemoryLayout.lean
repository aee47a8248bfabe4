/-
The tables `pcm-memory` prints, and what the patterns of `read_memory` find in them.

A row shows one value for each socket between fixed texts, and what is free in it is the
padding, the numbers and the digit that names a channel.  So a row is composed from its
labels, and two facts about a row are proved once for all of them: what a pattern finds
in the whole row, and what it finds in the row cut anywhere.  A cut row shows none, one or
two of its values, since a number counts from the first digit behind its decimal point.

Which row a pattern does not match is decided by single letters: every pattern has a
letter that the rows of the other counters lack.  From that follows which branch of the
loop body takes a row.
-/
import Nicmem.PerfUtil.Pcm
import Nicmem.Python.Match

namespace Nicmem

open Python

namespace Memory

open Pattern

/-! ### Numbers in a cell -/

/-- A decimal number as it is printed. -/
structure Decimal where
  whole : Str
  fraction : Str
  whole_ne : whole ≠ []
  fraction_ne : fraction ≠ []
  whole_digits : ∀ c ∈ whole, c.isDigit = true
  fraction_digits : ∀ c ∈ fraction, c.isDigit = true

def Decimal.text (d : Decimal) : Str := d.whole ++ '.' :: d.fraction

/-- A number behind the blanks that align it; there is at least one. -/
structure Cell where
  pad : Nat
  number : Decimal

/-- The cell up to the decimal point. -/
def Cell.lead (c : Cell) : Str := List.replicate (c.pad + 1) ' ' ++ c.number.whole

def Cell.text (c : Cell) : Str := c.lead ++ '.' :: c.number.fraction

/-- What is read from the cell. -/
def Cell.value (c : Cell) : Str := c.number.text

/-- A character that labels are told apart by: no cell and no frame of a row has it. -/
def IsLetter (c : Char) : Prop := c.isDigit = false ∧ c ∉ [' ', '.', '|', '-']

instance (c : Char) : Decidable (IsLetter c) := inferInstanceAs (Decidable (_ ∧ _))

theorem Cell.not_mem_lead {c : Char} (hdigit : c.isDigit = false) (hspace : c ≠ ' ') (x : Cell) :
    c ∉ x.lead := by
  intro hc
  rcases List.mem_append.mp hc with hc | hc
  · exact hspace (List.eq_of_mem_replicate hc)
  · rw [x.number.whole_digits c hc] at hdigit
    cases hdigit

theorem Cell.not_mem_text {c : Char} (hc : IsLetter c) (x : Cell) : c ∉ x.text := by
  obtain ⟨hdigit, hframe⟩ := hc
  rw [Cell.text, List.mem_append, List.mem_cons, not_or, not_or]
  refine ⟨x.not_mem_lead hdigit ?_, ?_, ?_⟩
  · rintro rfl
    exact hframe (by decide)
  · rintro rfl
    exact hframe (by decide)
  · intro hmem
    rw [x.number.fraction_digits c hmem] at hdigit
    cases hdigit

/-- A text with its only decimal point at its end, or cut before. -/
theorem not_pointed_of_cut {u v : Str} (hu : '.' ∉ u) (hv : v <+: u ++ ['.']) : ¬ Pointed v := by
  rintro ⟨d, hd, hin⟩
  rcases List.infix_concat_iff.mp (hin.trans hv.isInfix) with hend | hmid
  · rcases List.suffix_concat_iff.mp hend with hnil | ⟨t, ht, -⟩
    · cases hnil
    · -- the last character would be both the digit and the point
      obtain ⟨-, hlast⟩ := List.append_inj' (show ['.'] ++ [d] = t ++ ['.'] from ht) rfl
      obtain rfl : d = '.' := by simpa using hlast
      exact absurd hd (by decide)
  · exact hu (hmid.subset (by simp))

/--
A text cut in front of a cell, in it or behind it: either nothing behind the decimal point
is left, or a cell is, with perhaps fewer digits.
-/
theorem cut_cell {u pre rest : Str} {x : Cell} (hu : u <+: pre ++ (x.text ++ rest)) :
    u <+: (pre ++ x.lead) ++ ['.'] ∨
      ∃ (y : Cell) (v : Str), u = pre ++ (y.text ++ v) ∧ v <+: rest := by
  have hshape : pre ++ (x.text ++ rest) =
      ((pre ++ x.lead) ++ ['.']) ++ (x.number.fraction ++ rest) := by
    simp [Cell.text]
  rw [hshape] at hu
  rcases prefix_append_cases hu with hlead | ⟨w, rfl, hw⟩
  · exact Or.inl hlead
  rcases prefix_append_cases hw with hfraction | ⟨v, rfl, hv⟩
  · cases w with
    | nil => exact Or.inl (by simp)
    | cons d w =>
        -- at least one digit behind the point: a shorter number
        let number : Decimal := { x.number with
          fraction := d :: w
          fraction_ne := List.cons_ne_nil d w
          fraction_digits := fun c hc => x.number.fraction_digits c (hfraction.subset hc) }
        exact Or.inr ⟨⟨x.pad, number⟩, [], by simp [Cell.text, Cell.lead, number], List.nil_prefix⟩
  · exact Or.inr ⟨x, v, by simp [Cell.text], hv⟩

/-! ### What stands in front of a number -/

/-- The text `pre` introduces the numbers of a pattern, with the groups `gs` in front. -/
structure Heads (p : Pattern) (pre : Str) (gs : List Str) : Prop where
  point : '.' ∉ pre
  shows : ∀ x : Cell, p.Shows (pre ++ x.text) (gs ++ [x.value])

/-- The patterns end in a number; what is in front of it decides. -/
def valued (q : Pattern) : Pattern := q ++ plus .space ++ group decimal

theorem shows_valued {q : Pattern} {t : Str} {gs : List Str} (h : q.Takes t [] gs) (x : Cell) :
    (valued q).Shows (t ++ x.text) (gs ++ [x.value]) := by
  intro s hs
  have hmatch : matchAt (valued q) (t ++ x.text ++ s) .start =
      some (⟨none, gs ++ [x.value]⟩, s) := by
    have hshape : x.text ++ s =
        List.replicate (x.pad + 1) ' ' ++ (x.number.whole ++ '.' :: (x.number.fraction ++ s)) := by
      simp [Cell.text, Cell.lead]
    rw [valued, List.append_assoc, List.append_assoc, hshape]
    refine h _ _ _ (matchAt_plus (by simp) ?_ ?_ ?_)
    · intro c hc
      rw [List.eq_of_mem_replicate hc]
      rfl
    · intro c hc
      obtain ⟨d, w, hw⟩ := List.exists_cons_of_ne_nil x.number.whole_ne
      rw [hw] at hc
      obtain rfl : d = c := by simpa using hc
      exact isSpace_of_isDigit (x.number.whole_digits d (by simp [hw]))
    · rw [Groups.pushAll_of_closed]
      exact matchAt_group_decimal x.number.whole_ne x.number.whole_digits x.number.fraction_ne
        x.number.fraction_digits hs
  exact findall_append (by simp [Cell.text]) hmatch

/-- A fixed frame the pattern passes over, and behind it a label it takes. -/
theorem heads_of_takes {q : Pattern} {f t : Str} {gs : List Str} (hf : (valued q).Passes f)
    (ht : q.Takes t [] gs) (hpoint : '.' ∉ f ++ t) : Heads (valued q) (f ++ t) gs := by
  refine ⟨hpoint, fun x => ?_⟩
  rw [List.append_assoc]
  exact (shows_valued ht x).of_passes hf

/-- A text cut before the number shows none. -/
theorem Heads.not_pointed {p : Pattern} {pre u : Str} {gs : List Str} {x : Cell}
    (h : Heads p pre gs) (hu : u <+: (pre ++ x.lead) ++ ['.']) : ¬ Pointed u := by
  refine not_pointed_of_cut ?_ hu
  rw [List.mem_append, not_or]
  exact ⟨h.point, x.not_mem_lead (by decide) (by decide)⟩

/-! ### Rows of a table -/

inductive Socket where
  | zero
  | one
  deriving DecidableEq, Repr

def Socket.number : Socket → Nat
  | .zero => 0
  | .one => 1

/-- The values of a row, one for each socket. -/
abbrev Row := Socket → Cell

/-- The frame of a row, left, between the sockets and right. -/
def leftFrame : Str := [' ', '|', '-', '-']

def middleFrame : Str := [' ', '-', '-', '|', '|', '-', '-']

def rightFrame : Str := [' ', '-', '-', '|']

/-- A row: for each socket a label and a value. -/
def row (label : Socket → Str) (r : Row) : Str :=
  leftFrame ++ label .zero ++ ((r .zero).text ++
    (middleFrame ++ label .one ++ ((r .one).text ++ rightFrame)))

theorem not_mem_frame {c : Char} (hc : IsLetter c) {f : Str} (hf : f ⊆ [' ', '.', '|', '-']) :
    c ∉ f := fun hmem => hc.2 (hf hmem)

theorem replicate_subset_frame (n : Nat) : List.replicate n ' ' ⊆ [' ', '.', '|', '-'] := by
  intro d hd
  rw [List.eq_of_mem_replicate hd]
  exact .head _

theorem not_mem_row {c : Char} (hc : IsLetter c) {label : Socket → Str} (hlabel : ∀ s, c ∉ label s)
    (r : Row) : c ∉ row label r := by
  simp only [row, List.mem_append, not_or]
  exact ⟨⟨not_mem_frame hc (by simp [leftFrame]), hlabel .zero⟩, (r .zero).not_mem_text hc,
    ⟨not_mem_frame hc (by simp [middleFrame]), hlabel .one⟩, (r .one).not_mem_text hc,
    not_mem_frame hc (by simp [rightFrame])⟩

/-- A pattern whose values the labels introduce, in the frame of a row. -/
structure RowHeads (p : Pattern) (label : Socket → Str) (gs : Socket → List Str) : Prop where
  first : Heads p (leftFrame ++ label .zero) (gs .zero)
  second : Heads p (middleFrame ++ label .one) (gs .one)

section Row

variable {q : Pattern} {label : Socket → Str} {gs : Socket → List Str}

/-- A whole row shows both values. -/
theorem findall_row (h : RowHeads (valued q) label gs) (r : Row) :
    findall (valued q) (row label r) =
      [gs .zero ++ [(r .zero).value], gs .one ++ [(r .one).value]] := by
  have hend : findall (valued q) rightFrame = [] :=
    findall_eq_nil_of_not_pointed (not_pointed_of_cut (by decide) (List.prefix_append _ _))
  have hfirst :=
    h.first.shows (r .zero) (middleFrame ++ label .one ++ ((r .one).text ++ rightFrame))
    (stops_cons (by decide) _)
  have hsecond := h.second.shows (r .one) rightFrame (stops_cons (by decide) _)
  rw [List.append_assoc] at hfirst hsecond
  rw [row, hfirst, hsecond, hend]

/-- A row cut anywhere shows no number, the first or both, perhaps with fewer digits. -/
theorem findall_cut_row (h : RowHeads (valued q) label gs) {r : Row} {u : Str}
    (hu : u <+: row label r) :
    ¬ Pointed u ∨ (∃ v, findall (valued q) u = [gs .zero ++ [v]]) ∨
      ∃ v w, findall (valued q) u = [gs .zero ++ [v], gs .one ++ [w]] := by
  rcases cut_cell hu with hcut | ⟨x, u₁, rfl, hu₁⟩
  · exact Or.inl (h.first.not_pointed hcut)
  have hstops : Stops u₁ := Stops.of_prefix (stops_cons (by decide) _) hu₁
  rw [← List.append_assoc, h.first.shows x u₁ hstops]
  rcases cut_cell hu₁ with hcut | ⟨y, u₂, rfl, hu₂⟩
  · refine Or.inr (Or.inl ⟨x.value, ?_⟩)
    rw [valued, findall_eq_nil_of_not_pointed (h.second.not_pointed hcut)]
  · refine Or.inr (Or.inr ⟨x.value, y.value, ?_⟩)
    have hend : ¬ Pointed u₂ := not_pointed_of_cut (by decide) (hu₂.trans (List.prefix_append _ _))
    rw [← List.append_assoc, h.second.shows y u₂ (Stops.of_prefix (stops_cons (by decide) _) hu₂),
      valued, findall_eq_nil_of_not_pointed hend]

end Row

/-! ### The rows of a channel -/

/-- The digit of a channel or of a node. -/
def digit (n : Nat) : Char := Nat.digitChar n

theorem isDigit_digit : ∀ d : Fin 10, (digit d).isDigit = true := by decide

theorem parseInt_digit : ∀ d : Fin 10, parseInt [digit d] = some ((d : Nat) : Int) := by decide

/-- A label with a digit in it, such as `Mem Ch  0: Reads (MB/s):`. -/
def numberedLabel (w : String) (d : Nat) (w' : String) : Str :=
  ' ' :: (w.toList ++ [digit d] ++ w'.toList)

/-- The pattern for such a label. -/
def numbered (w w' : String) : Pattern := lit w ++ group (one .digit) ++ lit w'

theorem heads_numbered {w w' : String} {f : Str} {c : Char} {d : Fin 10}
    (hfirst : (valued (numbered w w')).head? = some (.one (.ch c))) (hf : c ∉ f ++ [' '])
    (hpoint : '.' ∉ f ++ numberedLabel w d w') :
    Heads (valued (numbered w w')) (f ++ numberedLabel w d w') [[digit d]] := by
  have htakes : (numbered w w').Takes (w.toList ++ [digit d] ++ w'.toList) [] [[digit d]] :=
    ((takes_lit w).append (takes_group_digit (isDigit_digit d))).append (takes_lit w')
  rw [numberedLabel, List.append_cons] at hpoint ⊢
  exact heads_of_takes (passes_of_not_mem hfirst hf) htakes hpoint

def readsLabel (ch : Fin 10) : Str := numberedLabel "Mem Ch  " ch ": Reads (MB/s):"

def readsRow (ch : Fin 10) (r : Row) : Str := row (fun _ => readsLabel ch) r

theorem rowHeads_reads (ch : Fin 10) :
    RowHeads reads (fun _ => readsLabel ch) fun _ => [[digit ch]] := by
  have hfirst : (valued (numbered "Mem Ch  " ": Reads (MB/s):")).head? = some (.one (.ch 'M')) := by
    decide
  have hpoint : ∀ ch, '.' ∉ leftFrame ++ readsLabel ch ∧ '.' ∉ middleFrame ++ readsLabel ch := by
    decide
  exact ⟨heads_numbered hfirst (by decide) (hpoint ch).1,
    heads_numbered hfirst (by decide) (hpoint ch).2⟩

def writesLabel : Str := List.replicate 12 ' ' ++ "Writes(MB/s):".toList

def writesRow (r : Row) : Str := row (fun _ => writesLabel) r

/-- The frame has a blank, but what follows it is no `Writes`. -/
theorem passes_writes : writes.Passes leftFrame ∧ writes.Passes middleFrame := by
  have hwrites : writes = .one .space :: .star .space :: .one (.ch 'W') :: writes.drop 3 := by
    decide
  generalize writes.drop 3 = p at hwrites
  rw [hwrites]
  constructor
  · intro s
    show findall _ (' ' :: '|' :: '-' :: '-' :: s) = _
    rw [findall_cons rfl, findall_cons rfl, findall_cons rfl, findall_cons rfl]
  · intro s
    show findall _ (' ' :: '-' :: '-' :: '|' :: '|' :: '-' :: '-' :: s) = _
    rw [findall_cons rfl, findall_cons rfl, findall_cons rfl, findall_cons rfl, findall_cons rfl,
      findall_cons rfl, findall_cons rfl]

theorem rowHeads_writes : RowHeads writes (fun _ => writesLabel) fun _ => [] := by
  have hblank : ∀ c ∈ List.replicate 12 ' ', isSpace c = true := by
    intro c hc
    rw [List.eq_of_mem_replicate hc]
    rfl
  have htakes : Pattern.Takes (plus .space ++ lit "Writes(MB/s):") writesLabel [] [] :=
    takes_plus_lit (by simp) hblank _ ⟨'W', "rites(MB/s):".toList, by decide, by decide⟩
  exact ⟨heads_of_takes passes_writes.1 htakes (by decide),
    heads_of_takes passes_writes.2 htakes (by decide)⟩

/-! ### The node and system counters -/

inductive NodeCounter where
  | read
  | write
  | memory
  deriving DecidableEq, Repr

namespace NodeCounter

/-- What stands behind the number of the node. -/
def label : NodeCounter → String
  | .read => " Mem Read (MB/s) :"
  | .write => " Mem Write(MB/s) :"
  | .memory => " Memory (MB/s):"

def name : NodeCounter → Str
  | .read => "Mem_Read".toList
  | .write => "Mem_Write".toList
  | .memory => "Memory".toList

/-- The letter only this counter has in its row. -/
def mark : NodeCounter → Char
  | .read => 'R'
  | .write => 'W'
  | .memory => 'y'

theorem isLetter_mark (c : NodeCounter) : IsLetter c.mark := by
  cases c <;> decide

end NodeCounter

def nodeLabel (c : NodeCounter) (n : Socket) : Str := numberedLabel "NODE " n.number c.label

def nodeRow (c : NodeCounter) (r : Row) : Str := row (nodeLabel c) r

theorem rowHeads_node (c : NodeCounter) :
    RowHeads (node (lit c.label)) (nodeLabel c) fun n => [[digit n.number]] := by
  have hfirst : (valued (numbered "NODE " c.label)).head? = some (.one (.ch 'N')) := by
    cases c <;> decide
  have hpoint : '.' ∉ leftFrame ++ nodeLabel c .zero ∧ '.' ∉ middleFrame ++ nodeLabel c .one := by
    cases c <;> decide
  exact ⟨heads_numbered (d := 0) hfirst (by decide) hpoint.1,
    heads_numbered (d := 1) hfirst (by decide) hpoint.2⟩

inductive SystemCounter where
  | read
  | write
  | memory
  deriving DecidableEq, Repr

namespace SystemCounter

def word : SystemCounter → String
  | .read => "Read"
  | .write => "Write"
  | .memory => "Memory"

def key : SystemCounter → Str
  | .read => "sys_Read".toList
  | .write => "sys_Write".toList
  | .memory => "sys_Memory".toList

end SystemCounter

/-- A value of the whole system, centred in its row. -/
structure Centred where
  left : Nat
  cell : Cell
  right : Nat

def systemLabel (c : SystemCounter) : Str :=
  "System ".toList ++ c.word.toList ++ " Throughput(MB/s):".toList

def systemRow (c : SystemCounter) (x : Centred) : Str :=
  leftFrame ++ List.replicate x.left ' ' ++ systemLabel c ++
    (x.cell.text ++ (List.replicate x.right ' ' ++ ['-', '-', '|']))

theorem heads_system (c : SystemCounter) (left : Nat) :
    Heads (system (lit c.word)) (leftFrame ++ List.replicate left ' ' ++ systemLabel c) [] := by
  have hfirst : (system (lit c.word)).head? = some (.one (.ch 'S')) := by
    cases c <;> decide
  have hpoint : '.' ∉ systemLabel c := by
    cases c <;> decide
  refine heads_of_takes (passes_of_not_mem hfirst ?_)
    (((takes_lit _).append (takes_lit _)).append (takes_lit _)) ?_
  · simp [leftFrame]
  · simpa [leftFrame] using hpoint

theorem stops_margin (n : Nat) : Stops (List.replicate n ' ' ++ ['-', '-', '|']) := by
  cases n with
  | zero => exact stops_cons (by decide) _
  | succ n => exact stops_cons (by decide) _

theorem not_pointed_margin {n : Nat} {u : Str}
    (hu : u <+: List.replicate n ' ' ++ ['-', '-', '|']) :
    ¬ Pointed u := not_pointed_of_cut (by simp) (hu.trans (List.prefix_append _ _))

theorem findall_systemRow (c : SystemCounter) (x : Centred) :
    findall (system (lit c.word)) (systemRow c x) = [[x.cell.value]] := by
  have hshow := (heads_system c x.left).shows x.cell _ (stops_margin x.right)
  rw [List.append_assoc] at hshow
  rw [systemRow, hshow, system,
    findall_eq_nil_of_not_pointed (not_pointed_margin (List.prefix_refl _))]
  rfl

/-- A system row cut anywhere shows no number or one. -/
theorem findall_cut_systemRow {c : SystemCounter} {x : Centred} {u : Str}
    (hu : u <+: systemRow c x) : ¬ Pointed u ∨ ∃ v, findall (system (lit c.word)) u = [[v]] := by
  have hheads := heads_system c x.left
  rcases cut_cell hu with hcut | ⟨y, v, rfl, hv⟩
  · exact Or.inl (hheads.not_pointed hcut)
  · refine Or.inr ⟨y.value, ?_⟩
    rw [← List.append_assoc, hheads.shows y v (Stops.of_prefix (stops_margin x.right) hv), system,
      findall_eq_nil_of_not_pointed (not_pointed_margin hv)]
    rfl

/-! ### Which row a pattern does not match -/

/-- A line that no pattern matches while no channel is pending. -/
def Plain (l : Str) : Prop :=
  findall reads l = [] ∧ (∀ e ∈ nodes, findall (node e.1) l = []) ∧
    ∀ e ∈ systems, findall (system e.1) l = []

/-- Every pattern ends in a number. -/
theorem plain_of_not_pointed {l : Str} (h : ¬ Pointed l) : Plain l :=
  ⟨findall_eq_nil_of_not_pointed h, fun _ _ => findall_eq_nil_of_not_pointed h,
    fun _ _ => findall_eq_nil_of_not_pointed h⟩

/-- Every pattern has the unit in it. -/
theorem plain_of_not_mem {l : Str} (h : 'B' ∉ l) : Plain l := by
  have hreads : .one (.ch 'B') ∈ reads := by decide
  have hnodes : ∀ e ∈ nodes, .one (.ch 'B') ∈ node e.1 := by decide
  have hsystems : ∀ e ∈ systems, .one (.ch 'B') ∈ system e.1 := by decide
  exact ⟨findall_eq_nil_of_not_mem hreads h, fun e he => findall_eq_nil_of_not_mem (hnodes e he) h,
    fun e he => findall_eq_nil_of_not_mem (hsystems e he) h⟩

theorem findall_reads_of_not_mem {l : Str} (h : 'C' ∉ l) : findall reads l = [] := by
  have hreads : .one (.ch 'C') ∈ reads := by decide
  exact findall_eq_nil_of_not_mem hreads h

theorem findall_nodes_of_not_mem {l : Str} (h : 'N' ∉ l) :
    ∀ e ∈ nodes, findall (node e.1) l = [] := by
  have hnodes : ∀ e ∈ nodes, .one (.ch 'N') ∈ node e.1 := by decide
  exact fun e he => findall_eq_nil_of_not_mem (hnodes e he) h

theorem not_mem_readsRow (ch : Fin 10) (r : Row) : 'N' ∉ readsRow ch r := by
  have hlabel : ∀ ch, 'N' ∉ readsLabel ch := by decide
  exact not_mem_row (by decide) (fun _ => hlabel ch) r

theorem not_mem_writesRow (r : Row) : 'C' ∉ writesRow r ∧ 'N' ∉ writesRow r := by
  have hlabel : 'C' ∉ writesLabel ∧ 'N' ∉ writesLabel := by decide
  exact ⟨not_mem_row (by decide) (fun _ => hlabel.1) r,
    not_mem_row (by decide) (fun _ => hlabel.2) r⟩

theorem not_mem_nodeRow (c : NodeCounter) (r : Row) : 'C' ∉ nodeRow c r := by
  have hlabel : ∀ n, 'C' ∉ nodeLabel c n := by
    intro n
    cases c <;> cases n <;> decide
  exact not_mem_row (by decide) hlabel r

/-- The pattern of another node counter finds nothing in the row, cut or not. -/
theorem findall_other_node {c c' : NodeCounter} (hne : c' ≠ c) {r : Row} {u : Str}
    (hu : u <+: nodeRow c r) : findall (node (lit c'.label)) u = [] := by
  have hlabel : ∀ n, c'.mark ∉ nodeLabel c n := by
    intro n
    cases c <;> cases c' <;> first | exact absurd rfl hne | cases n <;> decide
  have hmark : .one (.ch c'.mark) ∈ node (lit c'.label) := by
    cases c' <;> decide
  exact findall_eq_nil_of_not_mem hmark fun hmem =>
    not_mem_row c'.isLetter_mark hlabel r (hu.subset hmem)

section FirstMatch

variable {p : Pattern} {key l : Str} {ps : List (Pattern × Str)}

theorem firstMatch_cons_of_nil (h : findall p l = []) :
    firstMatch ((p, key) :: ps) l = firstMatch ps l := by
  simp [firstMatch, h]

theorem firstMatch_cons {g : List Str} {gs : List (List Str)} (h : findall p l = g :: gs) :
    firstMatch ((p, key) :: ps) l = some (key, g, gs) := by
  simp [firstMatch, h]

theorem firstMatch_map_eq_none {f : Pattern → Pattern} (h : ∀ e ∈ ps, findall (f e.1) l = []) :
    firstMatch (ps.map fun (p, key) => (f p, key)) l = none := by
  rw [firstMatch, List.findSome?_eq_none_iff]
  intro e he
  obtain ⟨⟨p, key⟩, he', rfl⟩ := List.mem_map.mp he
  have hnil : findall (f p) l = [] := h (p, key) he'
  simp [hnil]

end FirstMatch

theorem firstMatch_nodeRow {c : NodeCounter} {r : Row} {u : Str} (hu : u <+: nodeRow c r)
    {g : List Str} {gs : List (List Str)} (h : findall (node (lit c.label)) u = g :: gs) :
    firstMatch (nodes.map fun (p, key) => (node p, key)) u = some (c.name, g, gs) := by
  have hother : ∀ c' ≠ c, findall (node (lit c'.label)) u = [] := fun c' hne =>
    findall_other_node hne hu
  cases c with
  | read => exact firstMatch_cons h
  | write =>
      have hread := hother .read (by decide)
      exact (firstMatch_cons_of_nil hread).trans (firstMatch_cons h)
  | memory =>
      have hread := hother .read (by decide)
      have hwrite := hother .write (by decide)
      exact (firstMatch_cons_of_nil hread).trans
        ((firstMatch_cons_of_nil hwrite).trans (firstMatch_cons h))

theorem not_mem_systemRow {d : Char} (hd : IsLetter d) {c : SystemCounter}
    (hlabel : d ∉ systemLabel c) (x : Centred) : d ∉ systemRow c x := by
  simp only [systemRow, List.mem_append, not_or]
  exact ⟨⟨⟨not_mem_frame hd (by simp [leftFrame]), not_mem_frame hd (replicate_subset_frame _)⟩,
    hlabel⟩, x.cell.not_mem_text hd, not_mem_frame hd (replicate_subset_frame _),
    not_mem_frame hd (by simp)⟩

theorem not_mem_systemRow_channel (c : SystemCounter) (x : Centred) :
    'C' ∉ systemRow c x ∧ 'N' ∉ systemRow c x := by
  have hlabel : 'C' ∉ systemLabel c ∧ 'N' ∉ systemLabel c := by
    cases c <;> decide
  exact ⟨not_mem_systemRow (by decide) hlabel.1 x, not_mem_systemRow (by decide) hlabel.2 x⟩

theorem firstMatch_systemRow {c : SystemCounter} {x : Centred} {u : Str} (hu : u <+: systemRow c x)
    {g : List Str} {gs : List (List Str)} (h : findall (system (lit c.word)) u = g :: gs) :
    firstMatch (systems.map fun (p, key) => (system p, key)) u = some (c.key, g, gs) := by
  have hread : 'R' ∉ systemLabel c → findall (system (lit "Read")) u = [] := fun hlabel =>
    findall_eq_nil_of_not_mem (c := 'R') (by decide) fun hmem =>
      not_mem_systemRow (by decide) hlabel x (hu.subset hmem)
  have hwrite : 'W' ∉ systemLabel c → findall (system (lit "Write")) u = [] := fun hlabel =>
    findall_eq_nil_of_not_mem (c := 'W') (by decide) fun hmem =>
      not_mem_systemRow (by decide) hlabel x (hu.subset hmem)
  cases c with
  | read => exact firstMatch_cons h
  | write => exact (firstMatch_cons_of_nil (hread (by decide))).trans (firstMatch_cons h)
  | memory =>
      exact (firstMatch_cons_of_nil (hread (by decide))).trans
        ((firstMatch_cons_of_nil (hwrite (by decide))).trans (firstMatch_cons h))

/-! ### The loop body on a line -/

section Body

variable {res : Samples Str} {l key : Str} {g : List Str} {gs : List (List Str)}

theorem line_plain (h : Plain l) : line ⟨res, none⟩ l = some (.next ⟨res, none⟩) := by
  obtain ⟨hreads, hnodes, hsystems⟩ := h
  rw [line, hreads, firstMatch_map_eq_none hnodes, firstMatch_map_eq_none hsystems]

theorem line_reads (h : findall reads l = g :: gs) : line ⟨res, none⟩ l = readsLine res g gs := by
  rw [line, h]

theorem line_node (hreads : findall reads l = [])
    (h : firstMatch (nodes.map fun (p, key) => (node p, key)) l = some (key, g, gs)) :
    line ⟨res, none⟩ l = nodeLine res key g gs := by
  rw [line, hreads, h]

theorem line_system {v : Str} (hreads : findall reads l = [])
    (hnodes : ∀ e ∈ nodes, findall (node e.1) l = [])
    (h : firstMatch (systems.map fun (p, key) => (system p, key)) l = some (key, [v], gs)) :
    line ⟨res, none⟩ l = some (.next ⟨appendSample res key v, none⟩) := by
  rw [line, hreads, firstMatch_map_eq_none hnodes, h]
  rfl

end Body

/-! ### Tables -/

/-- The two rows of a channel. -/
structure Channel where
  number : Fin 10
  reads : Row
  writes : Row

/-- A count of events, which has no decimal point. -/
structure Count where
  pad : Nat
  digits : Str
  all_digits : ∀ c ∈ digits, c.isDigit = true

def Count.text (n : Count) : Str := List.replicate n.pad ' ' ++ n.digits

def eventsLabel (n : Socket) : Str := numberedLabel "NODE " n.number " P. Write (T/s):"

/-- The row of the persistent writes, which is not read. -/
def eventsRow (n : Socket → Count) : Str :=
  leftFrame ++ eventsLabel .zero ++ ((n .zero).text ++
    (middleFrame ++ eventsLabel .one ++ ((n .one).text ++ rightFrame)))

theorem Count.not_mem_text {c : Char} (hc : IsLetter c) (n : Count) : c ∉ n.text := by
  rw [Count.text, List.mem_append, not_or]
  refine ⟨not_mem_frame hc (replicate_subset_frame _), fun hmem => ?_⟩
  have hdigit := hc.1
  rw [n.all_digits c hmem] at hdigit
  cases hdigit

theorem not_mem_eventsRow {c : Char} (hc : IsLetter c) (hlabel : ∀ n, c ∉ eventsLabel n)
    (n : Socket → Count) : c ∉ eventsRow n := by
  simp only [eventsRow, List.mem_append, not_or]
  exact ⟨⟨not_mem_frame hc (by simp [leftFrame]), hlabel .zero⟩, (n .zero).not_mem_text hc,
    ⟨not_mem_frame hc (by simp [middleFrame]), hlabel .one⟩, (n .one).not_mem_text hc,
    not_mem_frame hc (by simp [rightFrame])⟩

def separator : Str :=
  [' ', '|'] ++ List.replicate 39 '-' ++ ['|', '|'] ++ List.replicate 39 '-' ++ ['|']

def socketHeading : Str :=
  " |--             Socket  0             --||--             Socket  1             --|".toList

def channelHeading : Str :=
  " |--     Memory Channel Monitoring     --||--     Memory Channel Monitoring     --|".toList

/-- The values of a table: any channels, in any order. -/
structure Table where
  channels : List Channel
  node : NodeCounter → Row
  events : Socket → Count
  system : SystemCounter → Centred

/-- The table as it is printed. -/
def Table.lines (t : Table) : List Str :=
  [separator, socketHeading, separator, channelHeading, separator] ++
  t.channels.flatMap (fun c => [readsRow c.number c.reads, writesRow c.writes]) ++
  [nodeRow .read (t.node .read), nodeRow .write (t.node .write), eventsRow t.events,
    nodeRow .memory (t.node .memory), separator, separator, systemRow .read (t.system .read),
    systemRow .write (t.system .write), systemRow .memory (t.system .memory), separator]

/-! ### The table in the source -/

/-- A cell with two digits behind the point. -/
def cell (pad whole hundredths : Nat) : Cell where
  pad := pad
  number :=
    { whole := natStr whole
      fraction := natStr (hundredths / 10 % 10) ++ natStr (hundredths % 10)
      whole_ne := natStr_ne_nil whole
      fraction_ne := List.append_ne_nil_of_left_ne_nil (natStr_ne_nil _) _
      whole_digits := fun _ => isDigit_of_mem_natStr
      fraction_digits := fun _ hc =>
        (List.mem_append.mp hc).elim isDigit_of_mem_natStr isDigit_of_mem_natStr }

def count (pad n : Nat) : Count := ⟨pad, natStr n, fun _ => isDigit_of_mem_natStr⟩

/-- The two values of a row. -/
def pair {α : Type} (x y : α) : Socket → α
  | .zero => x
  | .one => y

/-- The sample table in the comment of `read_memory`. -/
def sampleTable : Table where
  channels :=
    [⟨0, pair (cell 1 2599 10) (cell 2 449 15),
        pair (cell 2 262 32) (cell 3 11 88)⟩,
      ⟨1, pair (cell 1 2602 5) (cell 2 444 88),
        pair (cell 2 258 62) (cell 4 7 96)⟩,
      ⟨2, pair (cell 1 2600 20) (cell 2 448 79),
        pair (cell 2 262 60) (cell 3 11 87)⟩,
      ⟨3, pair (cell 1 2598 12) (cell 2 444 91),
        pair (cell 2 258 53) (cell 4 7 96)⟩]
  node
    | .read => pair (cell 0 10399 46) (cell 1 1787 73)
    | .write => pair (cell 1 1042 7) (cell 3 39 66)
    | .memory => pair (cell 3 11441 53) (cell 4 1827 39)
  events := pair (count 1 4802627619) (count 1 4802550306)
  system
    | .read => ⟨17, cell 5 12187 19, 16⟩
    | .write => ⟨16, cell 6 1081 73, 16⟩
    | .memory => ⟨15, cell 5 13268 92, 16⟩

example : sampleTable.lines.map String.ofList = [
    " |---------------------------------------||---------------------------------------|",
    " |--             Socket  0             --||--             Socket  1             --|",
    " |---------------------------------------||---------------------------------------|",
    " |--     Memory Channel Monitoring     --||--     Memory Channel Monitoring     --|",
    " |---------------------------------------||---------------------------------------|",
    " |-- Mem Ch  0: Reads (MB/s):  2599.10 --||-- Mem Ch  0: Reads (MB/s):   449.15 --|",
    " |--            Writes(MB/s):   262.32 --||--            Writes(MB/s):    11.88 --|",
    " |-- Mem Ch  1: Reads (MB/s):  2602.05 --||-- Mem Ch  1: Reads (MB/s):   444.88 --|",
    " |--            Writes(MB/s):   258.62 --||--            Writes(MB/s):     7.96 --|",
    " |-- Mem Ch  2: Reads (MB/s):  2600.20 --||-- Mem Ch  2: Reads (MB/s):   448.79 --|",
    " |--            Writes(MB/s):   262.60 --||--            Writes(MB/s):    11.87 --|",
    " |-- Mem Ch  3: Reads (MB/s):  2598.12 --||-- Mem Ch  3: Reads (MB/s):   444.91 --|",
    " |--            Writes(MB/s):   258.53 --||--            Writes(MB/s):     7.96 --|",
    " |-- NODE 0 Mem Read (MB/s) : 10399.46 --||-- NODE 1 Mem Read (MB/s) :  1787.73 --|",
    " |-- NODE 0 Mem Write(MB/s) :  1042.07 --||-- NODE 1 Mem Write(MB/s) :    39.66 --|",
    " |-- NODE 0 P. Write (T/s): 4802627619 --||-- NODE 1 P. Write (T/s): 4802550306 --|",
    " |-- NODE 0 Memory (MB/s):    11441.53 --||-- NODE 1 Memory (MB/s):     1827.39 --|",
    " |---------------------------------------||---------------------------------------|",
    " |---------------------------------------||---------------------------------------|",
    " |--                 System Read Throughput(MB/s):      12187.19                --|",
    " |--                System Write Throughput(MB/s):       1081.73                --|",
    " |--               System Memory Throughput(MB/s):      13268.92                --|",
    " |---------------------------------------||---------------------------------------|"] := by
  rfl

end Memory

end Nicmem
