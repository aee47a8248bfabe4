/-
What `read_memory` stores of a log of complete tables.

The counters of a table are a fixed finite set, and each has its own key.  `Holds` relates
the dictionary of the loop to one column of values per counter: a counter without values
has no entry, except that the entries of a family (the four of a channel, the two of a
node counter) are created together, before the first value of the family arrives.

A table is read block by block.  A block is a row, or the two rows of a channel: between
two blocks no channel is pending, so the relation is stated there.  Each block adds its
own values to the columns and nothing else, and a log adds them in order.
-/
import Nicmem.Proofs.MemoryLayout

namespace Nicmem

open Python

namespace Memory

open Pattern

/-! ### Counters and columns -/

inductive Direction where
  | read
  | write
  deriving DecidableEq, Repr

def Direction.word : Direction → String
  | .read => "Rd"
  | .write => "Wr"

/-- What is counted in a table. -/
inductive Counter where
  | channel (socket : Socket) (number : Fin 10) (d : Direction)
  | node (n : Socket) (c : NodeCounter)
  | system (c : SystemCounter)
  deriving DecidableEq, Repr

def Counter.key : Counter → Str
  | .channel socket number d => channelKey socket.number number d.word
  | .node n c => nodeKey n.number c.name
  | .system c => c.key

section Keys

/-- The digit at a place of a key. -/
def digitAt (k : Str) (i : Nat) : Nat := (k[i]?.getD '0').toNat - '0'.toNat

/-- The counter a key is of, told from its letters. -/
def Counter.ofKey (k : Str) : Counter :=
  let socket (i : Nat) : Socket := if k[i]? = some '0' then .zero else .one
  if 'C' ∈ k then .channel (socket 7) ⟨digitAt k 12 % 10, Nat.mod_lt _ (by decide)⟩
    (if 'R' ∈ k then .read else .write)
  else if k.head? = some 'n' then .node (socket 5)
    (if 'R' ∈ k then .read else if 'W' ∈ k then .write else .memory)
  else .system (if 'R' ∈ k then .read else if 'W' ∈ k then .write else .memory)

theorem ofKey_key : Function.LeftInverse Counter.ofKey Counter.key := by
  have hread : ∀ ch : Fin 10,
      Counter.ofKey (Counter.channel .zero ch .read).key = .channel .zero ch .read ∧
        Counter.ofKey (Counter.channel .one ch .read).key = .channel .one ch .read := by
    decide
  have hwrite : ∀ ch : Fin 10,
      Counter.ofKey (Counter.channel .zero ch .write).key = .channel .zero ch .write ∧
        Counter.ofKey (Counter.channel .one ch .write).key = .channel .one ch .write := by
    decide
  intro c
  match c with
  | .channel .zero ch .read => exact (hread ch).1
  | .channel .one ch .read => exact (hread ch).2
  | .channel .zero ch .write => exact (hwrite ch).1
  | .channel .one ch .write => exact (hwrite ch).2
  | .node n c => cases n <;> cases c <;> decide
  | .system c => cases c <;> decide

/-- No two counters share a key. -/
theorem key_injective : Function.Injective Counter.key := ofKey_key.injective

end Keys

/-- The value of a channel for one socket and direction. -/
def Channel.value (c : Channel) (socket : Socket) : Direction → Str
  | .read => (c.reads socket).value
  | .write => (c.writes socket).value

/-- The values a table shows of a counter. -/
def Table.column (t : Table) : Counter → List Str
  | .channel socket number d =>
    (t.channels.filter (·.number = number)).map (·.value socket d)
  | .node n c => [(t.node c n).value]
  | .system c => [(t.system c).cell.value]

/-- A line that is not of a table. -/
structure OtherLine where
  text : Str
  newline : '\n' ∉ text
  plain : Plain text

/-- A log: tables, and other lines anywhere between them. -/
abbrev Log := List (Table ⊕ OtherLine)

def Log.lines (log : Log) : List Str := log.flatMap (Sum.elim Table.lines fun l => [l.text])

/-- The lines, joined by newlines; an empty last line is a log that ends in a newline. -/
def Log.text (log : Log) : Str := ['\n'].intercalate log.lines

def Log.column (log : Log) (c : Counter) : List Str :=
  log.flatMap (Sum.elim (·.column c) fun _ => [])

/-- The entry of a counter: there is none before its first value. -/
def stored : List Str → Option (List Str)
  | [] => none
  | v :: l => some (v :: l)

theorem stored_of_ne_nil {l : List Str} (h : l ≠ []) : stored l = some l := by
  cases l with
  | nil => exact absurd rfl h
  | cons v l => rfl

theorem stored_eq_none_iff {l : List Str} : stored l = none ↔ l = [] := by
  cases l <;> simp [stored]

theorem getD_stored (l : List Str) : (stored l).getD [] = l := by
  cases l <;> rfl

/-! ### The dictionary and the columns -/

/-- The columns after one more value of a counter. -/
def push (col : Counter → List Str) (c : Counter) (v : Str) : Counter → List Str :=
  Function.update col c (col c ++ [v])

theorem push_self (col : Counter → List Str) (c : Counter) (v : Str) :
    push col c v c = col c ++ [v] := Function.update_self ..

theorem push_of_ne (col : Counter → List Str) {c c' : Counter} (v : Str) (h : c' ≠ c) :
    push col c v c' = col c' := Function.update_of_ne h ..

/--
The dictionary holds these columns.  The lists of the counters in `cs` are there even if
they are empty.
-/
structure Holds (res : Samples Str) (cs : List Counter) (col : Counter → List Str) : Prop where
  get : ∀ c : Counter, res.get? c.key = if c ∈ cs then some (col c) else stored (col c)
  keys : ∀ k ∈ res.keys, ∃ c : Counter, k = c.key

namespace Holds

variable {res : Samples Str} {cs : List Counter} {col : Counter → List Str} {c : Counter}

theorem empty : Holds .empty [] fun _ => [] :=
  ⟨fun _ => rfl, fun _ hk => absurd hk List.not_mem_nil⟩

/-- A write to the list of a counter. -/
theorem set (h : Holds res cs col) {cs' : List Counter} {col' : Counter → List Str} {l : List Str}
    (hself : (if c ∈ cs' then some (col' c) else stored (col' c)) = some l)
    (hother : ∀ c' ≠ c, (c' ∈ cs' ↔ c' ∈ cs) ∧ col' c' = col c') :
    Holds (res.set c.key l) cs' col' := by
  refine ⟨fun c' => ?_, fun k hk => ?_⟩
  · by_cases hc : c' = c
    · rw [hc, Dict.get?_set_self, hself]
    · obtain ⟨hmem, hcol⟩ := hother c' hc
      rw [Dict.get?_set_ne _ _ (key_injective.ne hc), h.get, hcol]
      simp only [hmem]
  · rcases Dict.mem_keys_set.mp hk with rfl | hk
    · exact ⟨c, rfl⟩
    · exact h.keys k hk

/-- The list of a counter without values is created. -/
theorem create (h : Holds res cs col) (hc : col c = []) :
    Holds (res.set c.key []) (cs ++ [c]) col := by
  refine h.set ?_ fun c' hne => ⟨?_, rfl⟩
  · rw [if_pos (by simp), hc]
  · simp [hne]

/-- `d[k].append(v)` where the list exists. -/
theorem appendAt (h : Holds res cs col) (hc : c ∈ cs) (v : Str) :
    ∃ res', appendAt res c.key v = some res' ∧ Holds res' cs (push col c v) := by
  have hget : res.get? c.key = some (col c) := by
    rw [h.get, if_pos hc]
  refine ⟨res.set c.key (col c ++ [v]), ?_, h.set ?_ fun c' hne => ?_⟩
  · rw [Nicmem.appendAt, hget]
    rfl
  · rw [if_pos hc, push_self]
  · exact ⟨Iff.rfl, push_of_ne col v hne⟩

/-- `d[k].append(v)` where the list is created on demand. -/
theorem appendSample (h : Holds res [] col) (v : Str) :
    Holds (appendSample res c.key v) [] (push col c v) := by
  have hget : (res.get? c.key).getD [] = col c := by
    rw [h.get, if_neg List.not_mem_nil, getD_stored]
  rw [Nicmem.appendSample, hget]
  refine h.set ?_ fun c' hne => ⟨Iff.rfl, push_of_ne col v hne⟩
  rw [if_neg List.not_mem_nil, push_self, stored_of_ne_nil (by simp)]

/-- Lists that have values need no mention. -/
theorem iff_of_ne_nil (hcs : ∀ c ∈ cs, col c ≠ []) : Holds res cs col ↔ Holds res [] col := by
  have hsame : ∀ c, (if c ∈ cs then some (col c) else stored (col c)) = stored (col c) := by
    intro c
    split
    · rename_i hc
      rw [stored_of_ne_nil (hcs c hc)]
    · rfl
  constructor
  · intro h
    exact ⟨fun c => by rw [h.get, hsame, if_neg List.not_mem_nil], h.keys⟩
  · intro h
    exact ⟨fun c => by rw [h.get, hsame, if_neg List.not_mem_nil], h.keys⟩

theorem mem_keys_iff (h : Holds res [] col) : c.key ∈ res.keys ↔ col c ≠ [] := by
  rw [← not_iff_not, ← Dict.get?_eq_none_iff, h.get, if_neg List.not_mem_nil, stored_eq_none_iff,
    not_not]

/-- The lists of a family are created together, if the first of them is missing. -/
theorem opened {cs : List Counter} (h : Holds res [] col)
    (hlevel : ∀ c' ∈ c :: cs, (col c').length = (col c).length) :
    Holds (if c.key ∈ res.keys then res else (c :: cs).foldl (fun res c => res.set c.key []) res)
      (c :: cs) col := by
  have hcreate : ∀ (new old : List Counter) {res : Samples Str}, Holds res old col →
      (∀ c ∈ new, col c = []) →
      Holds (new.foldl (fun res c => res.set c.key []) res) (old ++ new) col := by
    intro new
    induction new with
    | nil =>
        intro old res h _
        rw [List.append_nil]
        exact h
    | cons d new ih =>
        intro old res h hnew
        rw [List.append_cons]
        exact ih _ (h.create (hnew d (by simp))) fun c hc => hnew c (by simp [hc])
  by_cases hc : col c = []
  · rw [if_neg fun hmem => h.mem_keys_iff.mp hmem hc]
    refine hcreate _ [] h fun c' hc' => List.length_eq_zero_iff.mp ?_
    rw [hlevel c' hc', hc]
    rfl
  · rw [if_pos (h.mem_keys_iff.mpr hc), iff_of_ne_nil fun c' hc' hnil => hc ?_]
    · exact h
    · rw [← List.length_eq_zero_iff, ← hlevel c' hc', hnil]
      rfl

end Holds

/-! ### What one line does -/

/-- The columns of a family have the same length. -/
structure Level (col : Counter → List Str) : Prop where
  channel : ∀ ch s d s' d', (col (.channel s ch d)).length = (col (.channel s' ch d')).length
  node : ∀ c n n', (col (.node n c)).length = (col (.node n' c)).length

def channelFamily (ch : Fin 10) : List Counter :=
  [.channel .zero ch .read, .channel .one ch .read, .channel .zero ch .write,
    .channel .one ch .write]

def nodeFamily (c : NodeCounter) : List Counter := [.node .zero c, .node .one c]

section Lines

variable {res : Samples Str} {col : Counter → List Str}

/-- The lists of the channel, before the values of its `Reads` line. -/
def channelLists (res : Samples Str) (ch : Fin 10) : Samples Str :=
  if (Counter.channel .zero ch .read).key ∈ res.keys then res
  else (channelFamily ch).foldl (fun res c => res.set c.key []) res

theorem holds_channelLists (h : Holds res [] col) (hlevel : Level col) (ch : Fin 10) :
    Holds (channelLists res ch) (channelFamily ch) col := by
  refine h.opened fun c hc => ?_
  rcases (by simpa using hc : _ ∨ _ ∨ _ ∨ _) with rfl | rfl | rfl | rfl
  all_goals exact hlevel.channel _ _ _ _ _

/-- A `Reads` line up to its first value. -/
theorem readsLine_eq {res res₁ : Samples Str} {ch : Fin 10} {v : Str} (gs : List (List Str))
    (h : appendAt (channelLists res ch) (Counter.channel .zero ch .read).key v = some res₁) :
    readsLine res [[digit ch], v] gs =
      match gs with
      | [] => some (.stop ⟨res₁, some ch⟩)
      | g :: _ =>
        g[1]?.bind fun w =>
          match appendAt res₁ (Counter.channel .one ch .read).key w with
          | none => some (.stop ⟨res₁, some ch⟩)
          | some res => some (.next ⟨res, some ch⟩) := by
  have hchannel : (parseInt [digit ch]).map Int.toNat = some (ch : Nat) := by
    rw [parseInt_digit]
    rfl
  have hlists : (if (Counter.channel .zero ch .read).key ∉ res.keys then
      (channelFamily ch).foldl (fun res c => res.set c.key []) res else res) =
        channelLists res ch :=
    ite_not ..
  show ((parseInt [digit ch]).map Int.toNat).bind _ = _
  rw [hchannel]
  show (match appendAt (if (Counter.channel .zero ch .read).key ∉ res.keys then
      (channelFamily ch).foldl (fun res c => res.set c.key []) res else res)
      (Counter.channel .zero ch .read).key v with
    | none => some (Flow.stop (⟨_, some (ch : Nat)⟩ : State))
    | some res => _) = _
  rw [hlists, h]
  cases gs <;> rfl

theorem readsLine_one (h : Holds res [] col) (hlevel : Level col) (ch : Fin 10) (v : Str) :
    ∃ res', readsLine res [[digit ch], v] [] = some (.stop ⟨res', some ch⟩) ∧
      Holds res' (channelFamily ch) (push col (.channel .zero ch .read) v) := by
  obtain ⟨res₁, h₁, hres₁⟩ := (holds_channelLists h hlevel ch).appendAt
    (c := .channel .zero ch .read) (by simp [channelFamily]) v
  exact ⟨res₁, readsLine_eq [] h₁, hres₁⟩

theorem readsLine_two (h : Holds res [] col) (hlevel : Level col) (ch : Fin 10) (v w x : Str) :
    ∃ res', readsLine res [[digit ch], v] [[x, w]] = some (.next ⟨res', some ch⟩) ∧
      Holds res' (channelFamily ch)
        (push (push col (.channel .zero ch .read) v) (.channel .one ch .read) w) := by
  obtain ⟨res₁, h₁, hres₁⟩ := (holds_channelLists h hlevel ch).appendAt
    (c := .channel .zero ch .read) (by simp [channelFamily]) v
  obtain ⟨res₂, h₂, hres₂⟩ :=
    hres₁.appendAt (c := .channel .one ch .read) (by simp [channelFamily]) w
  refine ⟨res₂, ?_, hres₂⟩
  rw [readsLine_eq [[x, w]] h₁]
  show (match appendAt res₁ _ w with | none => _ | some res => _) = _
  rw [h₂]

theorem writesLine_two {ch : Fin 10} (h : Holds res (channelFamily ch) col) {l v w : Str}
    (hl : findall writes l = [[v], [w]]) :
    ∃ res', writesLine res ch l = some (.next ⟨res', none⟩) ∧
      Holds res' (channelFamily ch)
        (push (push col (.channel .zero ch .write) v) (.channel .one ch .write) w) := by
  obtain ⟨res₁, h₁, hres₁⟩ := h.appendAt (c := .channel .zero ch .write) (by simp [channelFamily]) v
  obtain ⟨res₂, h₂, hres₂⟩ :=
    hres₁.appendAt (c := .channel .one ch .write) (by simp [channelFamily]) w
  refine ⟨res₂, ?_, hres₂⟩
  rw [writesLine, hl]
  show (appendAt res (Counter.channel .zero ch .write).key v).bind _ = _
  rw [h₁]
  show (appendAt res₁ (Counter.channel .one ch .write).key w).bind _ = _
  rw [h₂]
  rfl

/-- The lists of the node counter, before the values of its line. -/
def nodeLists (res : Samples Str) (c : NodeCounter) : Samples Str :=
  if (Counter.node .zero c).key ∈ res.keys then res
  else (nodeFamily c).foldl (fun res c => res.set c.key []) res

theorem holds_nodeLists (h : Holds res [] col) (hlevel : Level col) (c : NodeCounter) :
    Holds (nodeLists res c) (nodeFamily c) col := by
  refine h.opened fun c' hc' => ?_
  rcases (by simpa using hc' : _ ∨ _) with rfl | rfl
  all_goals exact hlevel.node _ _ _

/-- A node line up to its first value. -/
theorem nodeLine_eq {res res₁ : Samples Str} {c : NodeCounter} {v x : Str} (gs : List (List Str))
    (h : appendAt (nodeLists res c) (Counter.node .zero c).key v = some res₁) :
    nodeLine res c.name [x, v] gs =
      gs[0]?.bind fun g => g[1]?.bind fun w =>
        (appendAt res₁ (Counter.node .one c).key w).bind fun res => some (.next ⟨res, none⟩) := by
  show (appendAt (nodeLists res c) (Counter.node .zero c).key v).bind _ = _
  rw [h]
  rfl

/-- The second append of a node line is not guarded. -/
theorem nodeLine_one (h : Holds res [] col) (hlevel : Level col) (c : NodeCounter) (v x : Str) :
    nodeLine res c.name [x, v] [] = none := by
  obtain ⟨res₁, h₁, -⟩ := (holds_nodeLists h hlevel c).appendAt (c := .node .zero c)
    (by simp [nodeFamily]) v
  exact nodeLine_eq [] h₁

theorem nodeLine_two (h : Holds res [] col) (hlevel : Level col) (c : NodeCounter) (v w x y : Str) :
    ∃ res', nodeLine res c.name [x, v] [[y, w]] = some (.next ⟨res', none⟩) ∧
      Holds res' (nodeFamily c) (push (push col (.node .zero c) v) (.node .one c) w) := by
  obtain ⟨res₁, h₁, hres₁⟩ := (holds_nodeLists h hlevel c).appendAt (c := .node .zero c)
    (by simp [nodeFamily]) v
  obtain ⟨res₂, h₂, hres₂⟩ := hres₁.appendAt (c := .node .one c) (by simp [nodeFamily]) w
  refine ⟨res₂, ?_, hres₂⟩
  rw [nodeLine_eq [[y, w]] h₁]
  show (appendAt res₁ _ w).bind _ = _
  rw [h₂]
  rfl

end Lines

/-! ### Blocks -/

/-- The rows of a table that belong together. -/
inductive Block where
  | heading (l : Str) (unit : 'B' ∉ l) (newline : '\n' ∉ l)
  | channel (c : Channel)
  | node (c : NodeCounter) (r : Row)
  | system (c : SystemCounter) (x : Centred)

def Block.lines : Block → List Str
  | .heading l _ _ => [l]
  | .channel c => [readsRow c.number c.reads, writesRow c.writes]
  | .node c r => [nodeRow c r]
  | .system c x => [systemRow c x]

/-- The values a block shows of a counter. -/
def Block.column : Block → Counter → List Str
  | .channel c, .channel socket number d => if number = c.number then [c.value socket d] else []
  | .node c r, .node n c' => if c' = c then [(r n).value] else []
  | .system c x, .system c' => if c' = c then [x.cell.value] else []
  | _, _ => []

/-- The columns after one more block. -/
def Block.added (b : Block) (col : Counter → List Str) (c : Counter) : List Str :=
  col c ++ b.column c

theorem Level.added {col : Counter → List Str} (h : Level col) (b : Block) :
    Level (b.added col) := by
  constructor
  · intro ch s d s' d'
    rw [Block.added, Block.added, List.length_append, List.length_append, h.channel ch s d s' d']
    cases b <;> simp [Block.column]
    split <;> rfl
  · intro c n n'
    rw [Block.added, Block.added, List.length_append, List.length_append, h.node c n n']
    cases b <;> simp [Block.column]
    split <;> rfl

theorem push_channel (col : Counter → List Str) (c : Channel) :
    push (push (push (push col (.channel .zero c.number .read) (c.reads .zero).value)
      (.channel .one c.number .read) (c.reads .one).value)
      (.channel .zero c.number .write) (c.writes .zero).value)
      (.channel .one c.number .write) (c.writes .one).value = (Block.channel c).added col := by
  funext k
  cases k with
  | channel s ch d =>
      by_cases hch : ch = c.number
      · subst hch
        cases s <;> cases d <;> simp [push, Block.added, Block.column, Channel.value]
      · simp [push, Block.added, Block.column, hch]
  | node n c => simp [push, Block.added, Block.column]
  | system c => simp [push, Block.added, Block.column]

theorem push_node (col : Counter → List Str) (c : NodeCounter) (r : Row) :
    push (push col (.node .zero c) (r .zero).value) (.node .one c) (r .one).value =
      (Block.node c r).added col := by
  funext k
  cases k with
  | channel s ch d => simp [push, Block.added, Block.column]
  | node n c' =>
      by_cases hc : c' = c
      · subst hc
        cases n <;> simp [push, Block.added, Block.column]
      · simp [push, Block.added, Block.column, hc]
  | system c => simp [push, Block.added, Block.column]

theorem push_system (col : Counter → List Str) (c : SystemCounter) (x : Centred) :
    push col (.system c) x.cell.value = (Block.system c x).added col := by
  funext k
  cases k with
  | channel s ch d => simp [push, Block.added, Block.column]
  | node n c => simp [push, Block.added, Block.column]
  | system c' =>
      by_cases hc : c' = c
      · subst hc
        simp [push, Block.added, Block.column]
      · simp [push, Block.added, Block.column, hc]

section Run

variable {res : Samples Str} {col : Counter → List Str}

/-- The two rows of a channel. -/
theorem runLines_channel (h : Holds res [] col) (hlevel : Level col) (c : Channel)
    (rest : List Str) :
    ∃ res', runLines line ⟨res, none⟩ ((Block.channel c).lines ++ rest) =
        runLines line ⟨res', none⟩ rest ∧ Holds res' [] ((Block.channel c).added col) := by
  obtain ⟨res₁, h₁, hres₁⟩ := readsLine_two h hlevel c.number (c.reads .zero).value
    (c.reads .one).value [digit c.number]
  obtain ⟨res₂, h₂, hres₂⟩ := writesLine_two hres₁ (findall_row rowHeads_writes c.writes)
  rw [push_channel] at hres₂
  refine ⟨res₂, ?_, (Holds.iff_of_ne_nil ?_).mp hres₂⟩
  · have hreads := (line_reads (findall_row (rowHeads_reads c.number) c.reads)).trans h₁
    have hwrites : line ⟨res₁, some c.number⟩ (writesRow c.writes) = _ := h₂
    show runLines line _ (readsRow c.number c.reads :: writesRow c.writes :: rest) = _
    rw [runLines, show line ⟨res, none⟩ (readsRow c.number c.reads) = _ from hreads]
    show runLines line ⟨res₁, some c.number⟩ (writesRow c.writes :: rest) = _
    rw [runLines, hwrites]
  · intro k hk
    rcases (by simpa [channelFamily] using hk : _ ∨ _ ∨ _ ∨ _) with rfl | rfl | rfl | rfl
    all_goals simp [Block.added, Block.column]

theorem line_nodeRow (h : Holds res [] col) (hlevel : Level col) (c : NodeCounter) (r : Row) :
    ∃ res', line ⟨res, none⟩ (nodeRow c r) = some (.next ⟨res', none⟩) ∧
      Holds res' [] ((Block.node c r).added col) := by
  obtain ⟨res', h', hres'⟩ := nodeLine_two h hlevel c (r .zero).value (r .one).value [digit 0]
    [digit 1]
  rw [push_node] at hres'
  have hmatch := firstMatch_nodeRow (List.prefix_refl _) (findall_row (rowHeads_node c) r)
  refine ⟨res', ?_, (Holds.iff_of_ne_nil ?_).mp hres'⟩
  · exact (line_node (findall_reads_of_not_mem (not_mem_nodeRow c r)) hmatch).trans h'
  · intro k hk
    rcases (by simpa [nodeFamily] using hk : _ ∨ _) with rfl | rfl
    all_goals simp [Block.added, Block.column]

theorem line_systemRow (h : Holds res [] col) (c : SystemCounter) (x : Centred) :
    ∃ res', line ⟨res, none⟩ (systemRow c x) = some (.next ⟨res', none⟩) ∧
      Holds res' [] ((Block.system c x).added col) := by
  have hmatch := firstMatch_systemRow (List.prefix_refl _) (findall_systemRow c x)
  obtain ⟨hreads, hnodes⟩ := not_mem_systemRow_channel c x
  refine ⟨_, line_system (findall_reads_of_not_mem hreads) (findall_nodes_of_not_mem hnodes) hmatch,
    ?_⟩
  rw [← push_system]
  exact h.appendSample (c := .system c) x.cell.value

/-- A block adds its values, and no channel is pending behind it. -/
theorem runLines_block (h : Holds res [] col) (hlevel : Level col) (b : Block) (rest : List Str) :
    ∃ res', runLines line ⟨res, none⟩ (b.lines ++ rest) = runLines line ⟨res', none⟩ rest ∧
      Holds res' [] (b.added col) := by
  have hone : ∀ {l : Str} {res' : Samples Str}, line ⟨res, none⟩ l = some (.next ⟨res', none⟩) →
      runLines line ⟨res, none⟩ ([l] ++ rest) = runLines line ⟨res', none⟩ rest := by
    intro l res' hl
    rw [List.singleton_append, runLines, hl]
  cases b with
  | heading l hunit hnewline =>
      refine ⟨res, hone (line_plain (plain_of_not_mem hunit)), ?_⟩
      have hadded : (Block.heading l hunit hnewline).added col = col := by
        funext c
        simp [Block.added, Block.column]
      rw [hadded]
      exact h
  | channel c => exact runLines_channel h hlevel c rest
  | node c r =>
      obtain ⟨res', hline, hres'⟩ := line_nodeRow h hlevel c r
      exact ⟨res', hone hline, hres'⟩
  | system c x =>
      obtain ⟨res', hline, hres'⟩ := line_systemRow h c x
      exact ⟨res', hone hline, hres'⟩

/-- The columns after several blocks. -/
def addAll (bs : List Block) (col : Counter → List Str) (c : Counter) : List Str :=
  col c ++ bs.flatMap (·.column c)

theorem addAll_cons (b : Block) (bs : List Block) (col : Counter → List Str) :
    addAll (b :: bs) col = addAll bs (b.added col) := by
  funext c
  simp [addAll, Block.added]

theorem runLines_blocks (bs : List Block) (rest : List Str) :
    ∀ {res : Samples Str} {col : Counter → List Str}, Holds res [] col → Level col →
      Level (addAll bs col) ∧
      ∃ res', runLines line ⟨res, none⟩ (bs.flatMap Block.lines ++ rest) =
        runLines line ⟨res', none⟩ rest ∧ Holds res' [] (addAll bs col) := by
  induction bs with
  | nil =>
      intro res col h hlevel
      have hnone : addAll [] col = col := by
        funext c
        simp [addAll]
      rw [hnone]
      exact ⟨hlevel, res, rfl, h⟩
  | cons b bs ih =>
      intro res col h hlevel
      obtain ⟨res₁, hrun, h₁⟩ := runLines_block h hlevel b (bs.flatMap Block.lines ++ rest)
      obtain ⟨hlevel', res', hrun', h'⟩ := ih h₁ (hlevel.added b)
      rw [addAll_cons, List.flatMap_cons, List.append_assoc, hrun]
      exact ⟨hlevel', res', hrun', h'⟩

end Run

/-! ### Tables and logs -/

theorem separator_heading : 'B' ∉ separator ∧ '\n' ∉ separator := by
  decide

theorem socketHeading_heading : 'B' ∉ socketHeading ∧ '\n' ∉ socketHeading := by
  decide

theorem channelHeading_heading : 'B' ∉ channelHeading ∧ '\n' ∉ channelHeading := by
  decide

theorem eventsRow_heading (n : Socket → Count) : 'B' ∉ eventsRow n ∧ '\n' ∉ eventsRow n := by
  have hlabel : ∀ n, 'B' ∉ eventsLabel n ∧ '\n' ∉ eventsLabel n := by
    intro n
    cases n <;> decide
  exact ⟨not_mem_eventsRow (by decide) (fun s => (hlabel s).1) n,
    not_mem_eventsRow (by decide) (fun s => (hlabel s).2) n⟩

/-- The blocks of a table. -/
def Table.blocks (t : Table) : List Block :=
  let line := Block.heading separator separator_heading.1 separator_heading.2
  [line, .heading socketHeading socketHeading_heading.1 socketHeading_heading.2, line,
    .heading channelHeading channelHeading_heading.1 channelHeading_heading.2, line] ++
  t.channels.map .channel ++
  [.node .read (t.node .read), .node .write (t.node .write),
    .heading (eventsRow t.events) (eventsRow_heading t.events).1 (eventsRow_heading t.events).2,
    .node .memory (t.node .memory), line, line, .system .read (t.system .read),
    .system .write (t.system .write), .system .memory (t.system .memory), line]

theorem lines_blocks (t : Table) : t.blocks.flatMap Block.lines = t.lines := by
  simp [Table.blocks, Table.lines, Block.lines, List.flatMap_map]

theorem column_blocks (t : Table) (c : Counter) : t.blocks.flatMap (·.column c) = t.column c := by
  cases c with
  | channel s ch d =>
      have hchannels : ∀ l : List Channel,
          l.flatMap (fun c => if ch = c.number then [c.value s d] else []) =
            (l.filter (·.number = ch)).map (·.value s d) := by
        intro l
        induction l with
        | nil => rfl
        | cons c l ih =>
            rw [List.flatMap_cons, ih]
            by_cases hc : c.number = ch
            · simp [hc]
            · simp [hc, Ne.symm hc]
      simp [Table.blocks, Block.column, Table.column, List.flatMap_map, hchannels]
  | node n c => cases c <;> simp [Table.blocks, Block.column, Table.column, List.flatMap_map]
  | system c => cases c <;> simp [Table.blocks, Block.column, Table.column, List.flatMap_map]

theorem Block.newline (b : Block) : ∀ l ∈ b.lines, '\n' ∉ l := by
  have hreads : ∀ ch, '\n' ∉ readsLabel ch := by decide
  have hwrites : '\n' ∉ writesLabel := by decide
  have hnode : ∀ c n, '\n' ∉ nodeLabel c n := by
    intro c n
    cases c <;> cases n <;> decide
  have hsystem : ∀ c, '\n' ∉ systemLabel c := by
    intro c
    cases c <;> decide
  intro l hl
  cases b with
  | heading l' hunit hnewline =>
      obtain rfl : l = l' := by simpa [Block.lines] using hl
      exact hnewline
  | channel c =>
      rcases (by simpa [Block.lines] using hl : _ ∨ _) with rfl | rfl
      · exact not_mem_row (by decide) (fun _ => hreads c.number) c.reads
      · exact not_mem_row (by decide) (fun _ => hwrites) c.writes
  | node c r =>
      obtain rfl : l = nodeRow c r := by simpa [Block.lines] using hl
      exact not_mem_row (by decide) (hnode c) r
  | system c x =>
      obtain rfl : l = systemRow c x := by simpa [Block.lines] using hl
      exact not_mem_systemRow (by decide) (hsystem c) x

theorem Table.newline (t : Table) : ∀ l ∈ t.lines, '\n' ∉ l := by
  rw [← lines_blocks]
  intro l hl
  obtain ⟨b, -, hb⟩ := List.mem_flatMap.mp hl
  exact b.newline l hb

theorem Log.newline (log : Log) : ∀ l ∈ log.lines, '\n' ∉ l := by
  intro l hl
  obtain ⟨item, -, hitem⟩ := List.mem_flatMap.mp hl
  cases item with
  | inl t => exact t.newline l hitem
  | inr other =>
      obtain rfl : l = other.text := by simpa using hitem
      exact other.newline

/-- The loop over the lines of a log. -/
theorem runLines_log (log : Log) :
    ∀ {res : Samples Str} {col : Counter → List Str}, Holds res [] col → Level col →
      ∃ res', runLines line ⟨res, none⟩ log.lines = some ⟨res', none⟩ ∧
        Holds res' [] fun c => col c ++ log.column c := by
  induction log with
  | nil =>
      intro res col h _
      refine ⟨res, rfl, ?_⟩
      simpa [Log.column] using h
  | cons item log ih =>
      intro res col h hlevel
      cases item with
      | inl t =>
          obtain ⟨hlevel₁, res₁, hrun, h₁⟩ := runLines_blocks t.blocks (Log.lines log) h hlevel
          obtain ⟨res', hrun', h'⟩ := ih h₁ hlevel₁
          rw [lines_blocks] at hrun
          refine ⟨res', hrun.trans hrun', ?_⟩
          simpa [addAll, column_blocks, Log.column] using h'
      | inr other =>
          obtain ⟨res', hrun', h'⟩ := ih h hlevel
          refine ⟨res', ?_, ?_⟩
          · show runLines line ⟨res, none⟩ (other.text :: Log.lines log) = _
            rw [runLines, line_plain other.plain]
            exact hrun'
          · simpa [Log.column] using h'

end Memory

/--
Of a log of complete tables, the loop stores for each counter exactly the values printed for
it, in the order of the tables, and nothing under any other key.
-/
theorem memorySamples_log (log : Memory.Log) :
    ∃ res, memorySamples log.text = some res ∧
      (∀ c : Memory.Counter, res.get? c.key = Memory.stored (log.column c)) ∧
      ∀ k ∈ res.keys, ∃ c : Memory.Counter, k = c.key := by
  have hlevel : Memory.Level fun _ => [] := ⟨fun _ _ _ _ _ => rfl, fun _ _ _ => rfl⟩
  obtain ⟨res, hrun, hres⟩ := Memory.runLines_log log Memory.Holds.empty hlevel
  refine ⟨res, ?_, fun c => ?_, hres.keys⟩
  · by_cases hlines : log.lines = []
    · -- the text is then empty too, which is one empty line
      have hplain : Memory.line ⟨.empty, none⟩ [] = some (.next ⟨.empty, none⟩) :=
        Memory.line_plain (Memory.plain_of_not_mem (by simp))
      rw [hlines] at hrun
      have hres : res = .empty := by simpa [runLines] using hrun.symm
      rw [memorySamples, Memory.Log.text, hlines, hres]
      show (runLines Memory.line ⟨.empty, none⟩ [[]]).map _ = _
      rw [runLines, hplain]
      rfl
    · rw [memorySamples, Memory.Log.text, List.splitOn_intercalate _ log.newline hlines, hrun]
      rfl
  · rw [hres.get, if_neg List.not_mem_nil]
    rfl

end Nicmem
