/-
What `read_memory` makes of a log that was cut off.

The sampler is stopped while it prints, so a log may end anywhere.  A cut text is whole
blocks and one block cut in its last line, and in that line each row behaves in its own
way where it shows only the first of its two values.  A `Writes` row is then dropped, for
its values are stored together.  A `Reads` row has stored the first already when the second
is missing, and the loop is left with lists of unequal length.  A node row has no handler
at all, and the missing value raises.

So the cut is harmless exactly if the last line is no half row of these two kinds.
-/
import Nicmem.Proofs.MemoryLog

namespace Nicmem

open Python

namespace Memory

open Pattern

/-- The text of complete tables, each line ended by a newline. -/
def tablesText (ts : List Table) : Str := (ts.flatMap Table.lines).flatMap (· ++ ['\n'])

/-- What stands behind the last newline. -/
def lastLine (s : Str) : Str := (s.splitOn '\n').getLastD []

/-- A `Reads` or a node line that shows one value only. -/
def HalfRow (l : Str) : Prop :=
  (findall reads l).length = 1 ∨ ∃ e ∈ nodes, (findall (node e.1) l).length = 1

instance (l : Str) : Decidable (HalfRow l) := inferInstanceAs (Decidable (_ ∨ _))

/-- The two sockets have as many values, for every channel and direction and every node counter. -/
def Balanced (res : Samples Str) : Prop :=
  (∀ ch d, (res.get? (Counter.channel .zero ch d).key).map List.length =
    (res.get? (Counter.channel .one ch d).key).map List.length) ∧
  ∀ c, (res.get? (Counter.node .zero c).key).map List.length =
    (res.get? (Counter.node .one c).key).map List.length

/-! ### The two sockets -/

def Socket.other : Socket → Socket
  | .zero => .one
  | .one => .zero

/-- The same counter of the other socket. -/
def Counter.twin : Counter → Counter
  | .channel s ch d => .channel s.other ch d
  | .node n c => .node n.other c
  | .system c => .system c

theorem twin_twin (c : Counter) : c.twin.twin = c := by
  cases c with
  | channel s ch d => cases s <;> rfl
  | node n c => cases n <;> rfl
  | system c => rfl

/-- Both columns of a counter have the same length. -/
def Matched (col : Counter → List Str) : Prop := ∀ c, (col c.twin).length = (col c).length

theorem Level.matched {col : Counter → List Str} (h : Level col) : Matched col := by
  intro c
  cases c with
  | channel s ch d => exact h.channel ch _ _ _ _
  | node n c => exact h.node c _ _
  | system c => rfl

/-- A value for each socket. -/
theorem Matched.push {col : Counter → List Str} (h : Matched col) {c c' : Counter}
    (hc' : c.twin = c') (hne : c' ≠ c) (v w : Str) : Matched (push (push col c v) c' w) := by
  subst hc'
  intro k
  by_cases hk : k = c
  · subst hk
    rw [push_self, push_of_ne _ _ hne, push_of_ne _ _ hne.symm, push_self]
    simp [h k]
  by_cases hk' : k = c.twin
  · subst hk'
    rw [twin_twin, push_self, push_of_ne _ _ hne.symm, push_of_ne _ _ hne, push_self]
    simp [h c]
  · have hk₁ : k.twin ≠ c := fun hc => hk' (by rw [← hc, twin_twin])
    have hk₂ : k.twin ≠ c.twin := fun hc => hk (by rw [← twin_twin k, hc, twin_twin])
    rw [push_of_ne _ _ hk₂, push_of_ne _ _ hk₁, push_of_ne _ _ hk', push_of_ne _ _ hk, h k]

theorem Matched.push_channel {col : Counter → List Str} (h : Matched col) (ch : Fin 10)
    (d : Direction) (v w : Str) :
    Matched (Memory.push (Memory.push col (.channel .zero ch d) v) (.channel .one ch d) w) :=
  h.push rfl (by simp [Counter.twin, Socket.other]) v w

theorem Matched.push_node {col : Counter → List Str} (h : Matched col) (c : NodeCounter)
    (v w : Str) : Matched (Memory.push (Memory.push col (.node .zero c) v) (.node .one c) w) :=
  h.push rfl (by simp [Counter.twin, Socket.other]) v w

theorem Holds.balanced {res : Samples Str} {cs : List Counter} {col : Counter → List Str}
    (h : Holds res cs col) (hcol : Matched col) (hcs : ∀ c ∈ cs, c.twin ∈ cs) : Balanced res := by
  have hpair : ∀ c : Counter, (res.get? c.key).map List.length =
      (res.get? c.twin.key).map List.length := by
    intro c
    have hmem : c.twin ∈ cs ↔ c ∈ cs := ⟨fun hc => by rw [← twin_twin c]; exact hcs _ hc, hcs c⟩
    have hstored : (stored (col c)).map List.length = (stored (col c.twin)).map List.length := by
      have hlen := hcol c
      cases hc : col c <;> cases hc' : col c.twin <;> simp_all [stored]
    rw [h.get, h.get]
    by_cases hc : c ∈ cs
    · rw [if_pos hc, if_pos (hmem.mpr hc), Option.map_some, Option.map_some, hcol c]
    · rw [if_neg hc, if_neg (mt hmem.mp hc), hstored]
  exact ⟨fun ch d => hpair (.channel .zero ch d), fun c => hpair (.node .zero c)⟩

/-! ### Half rows -/

theorem not_halfRow_of_plain {l : Str} (h : Plain l) : ¬ HalfRow l := by
  obtain ⟨hreads, hnodes, -⟩ := h
  rintro (hone | ⟨e, he, hone⟩)
  · rw [hreads] at hone
    cases hone
  · rw [hnodes e he] at hone
    cases hone

theorem not_halfRow_of_not_mem {l : Str} (hreads : 'C' ∉ l) (hnodes : 'N' ∉ l) : ¬ HalfRow l := by
  rintro (hone | ⟨e, he, hone⟩)
  · rw [findall_reads_of_not_mem hreads] at hone
    cases hone
  · rw [findall_nodes_of_not_mem hnodes e he] at hone
    cases hone

theorem mem_nodes {e : Pattern × Str} :
    e ∈ nodes ↔ ∃ c : NodeCounter, e = (lit c.label, c.name) := by
  constructor
  · intro he
    rcases List.mem_cons.mp he with rfl | he
    · exact ⟨.read, rfl⟩
    rcases List.mem_cons.mp he with rfl | he
    · exact ⟨.write, rfl⟩
    · exact ⟨.memory, List.mem_singleton.mp he⟩
  · rintro ⟨c, rfl⟩
    cases c with
    | read => exact .head _
    | write => exact .tail _ (.head _)
    | memory => exact .tail _ (.tail _ (.head _))

theorem halfRow_nodeRow_iff {c : NodeCounter} {r : Row} {u : Str} (hu : u <+: nodeRow c r) :
    HalfRow u ↔ (findall (node (lit c.label)) u).length = 1 := by
  have hreads : findall reads u = [] :=
    findall_reads_of_not_mem fun hmem => not_mem_nodeRow c r (hu.subset hmem)
  constructor
  · rintro (hone | ⟨e, he, hone⟩)
    · rw [hreads] at hone
      cases hone
    · obtain ⟨c', rfl⟩ := mem_nodes.mp he
      by_cases hc : c' = c
      · rw [← hc]
        exact hone
      · rw [findall_other_node hc hu] at hone
        cases hone
  · intro hone
    exact Or.inr ⟨_, mem_nodes.mpr ⟨c, rfl⟩, hone⟩

theorem halfRow_readsRow_iff {ch : Fin 10} {r : Row} {u : Str} (hu : u <+: readsRow ch r) :
    HalfRow u ↔ (findall reads u).length = 1 := by
  have hnodes := findall_nodes_of_not_mem fun hmem => not_mem_readsRow ch r (hu.subset hmem)
  refine ⟨?_, Or.inl⟩
  rintro (hone | ⟨e, he, hone⟩)
  · exact hone
  · rw [hnodes e he] at hone
    cases hone

/-! ### The last line -/

/-- The loop ends without an exception, and the sockets have as many values. -/
def Survives (r : Option State) : Prop := ∃ st, r = some st ∧ Balanced st.res

section LastLine

variable {res : Samples Str} {col : Counter → List Str}

theorem survives_next {st st' : State} {l : Str} (h : line st l = some (.next st'))
    (hst : Balanced st'.res) : Survives (runLines line st [l]) := by
  refine ⟨st', ?_, hst⟩
  rw [runLines, h]
  rfl

theorem cut_plain (h : Holds res [] col) (hlevel : Level col) {l : Str} (hl : Plain l) :
    Survives (runLines line ⟨res, none⟩ [l]) ↔ ¬ HalfRow l := by
  have hbalanced : Balanced res := h.balanced hlevel.matched fun _ hc => absurd hc List.not_mem_nil
  exact iff_of_true (survives_next (line_plain hl) hbalanced) (not_halfRow_of_plain hl)

theorem twin_nodeFamily {c : NodeCounter} : ∀ k ∈ nodeFamily c, k.twin ∈ nodeFamily c := by
  intro k hk
  rcases (by simpa [nodeFamily] using hk : _ ∨ _) with rfl | rfl
  · exact .tail _ (.head _)
  · exact .head _

theorem twin_channelFamily {ch : Fin 10} : ∀ k ∈ channelFamily ch, k.twin ∈ channelFamily ch := by
  intro k hk
  rcases (by simpa [channelFamily] using hk : _ ∨ _ ∨ _ ∨ _) with rfl | rfl | rfl | rfl
  · exact .tail _ (.head _)
  · exact .head _
  · exact .tail _ (.tail _ (.tail _ (.head _)))
  · exact .tail _ (.tail _ (.head _))

theorem cut_nodeRow (h : Holds res [] col) (hlevel : Level col) {c : NodeCounter} {r : Row}
    {u : Str} (hu : u <+: nodeRow c r) :
    Survives (runLines line ⟨res, none⟩ [u]) ↔ ¬ HalfRow u := by
  have hline : ∀ {g : List Str} {gs : List (List Str)}, findall (node (lit c.label)) u = g :: gs →
      line ⟨res, none⟩ u = nodeLine res c.name g gs := fun hfind =>
    line_node (findall_reads_of_not_mem fun hmem => not_mem_nodeRow c r (hu.subset hmem))
      (firstMatch_nodeRow hu hfind)
  rcases findall_cut_row (rowHeads_node c) hu with hnone | ⟨v, hone⟩ | ⟨v, w, htwo⟩
  · exact cut_plain h hlevel (plain_of_not_pointed hnone)
  · -- the second append raises
    have hraise : line ⟨res, none⟩ u = none :=
      (hline hone).trans (nodeLine_one h hlevel c v [digit 0])
    refine iff_of_false ?_ (not_not.mpr ((halfRow_nodeRow_iff hu).mpr (congrArg List.length hone)))
    rintro ⟨st, hst, -⟩
    rw [runLines, hraise] at hst
    cases hst
  · obtain ⟨res', h', hres'⟩ := nodeLine_two h hlevel c v w [digit 0] [digit 1]
    have hlen : (findall (node (lit c.label)) u).length = 2 := congrArg List.length htwo
    refine iff_of_true (survives_next ((hline htwo).trans h') ?_) fun hhalf => ?_
    · exact hres'.balanced (hlevel.matched.push_node c v w) twin_nodeFamily
    · rw [halfRow_nodeRow_iff hu, hlen] at hhalf
      cases hhalf

theorem cut_systemRow (h : Holds res [] col) (hlevel : Level col) {c : SystemCounter} {x : Centred}
    {u : Str} (hu : u <+: systemRow c x) :
    Survives (runLines line ⟨res, none⟩ [u]) ↔ ¬ HalfRow u := by
  have hreads : 'C' ∉ u := fun hmem => (not_mem_systemRow_channel c x).1 (hu.subset hmem)
  have hnodes : 'N' ∉ u := fun hmem => (not_mem_systemRow_channel c x).2 (hu.subset hmem)
  rcases findall_cut_systemRow hu with hnone | ⟨v, hone⟩
  · exact cut_plain h hlevel (plain_of_not_pointed hnone)
  · have hline : line ⟨res, none⟩ u = some (.next ⟨appendSample res c.key v, none⟩) :=
      line_system (findall_reads_of_not_mem hreads) (findall_nodes_of_not_mem hnodes)
        (firstMatch_systemRow hu hone)
    have hres' : Holds (appendSample res c.key v) [] (push col (.system c) v) :=
      h.appendSample (c := .system c) v
    refine iff_of_true (survives_next hline ?_) (not_halfRow_of_not_mem hreads hnodes)
    refine hres'.balanced (fun k => ?_) fun _ hc => absurd hc List.not_mem_nil
    by_cases hk : k = .system c
    · rw [hk]
      rfl
    · have hk' : k.twin ≠ .system c := fun htwin => hk (by rw [← twin_twin k, htwin]; rfl)
      rw [push_of_ne _ _ hk, push_of_ne _ _ hk', hlevel.matched k]

theorem cut_readsRow (h : Holds res [] col) (hlevel : Level col) {ch : Fin 10} {r : Row} {u : Str}
    (hu : u <+: readsRow ch r) : Survives (runLines line ⟨res, none⟩ [u]) ↔ ¬ HalfRow u := by
  rcases findall_cut_row (rowHeads_reads ch) hu with hnone | ⟨v, hone⟩ | ⟨v, w, htwo⟩
  · exact cut_plain h hlevel (plain_of_not_pointed hnone)
  · -- the loop is left between the two appends
    obtain ⟨res', h', hres'⟩ := readsLine_one h hlevel ch v
    have hstop : line ⟨res, none⟩ u = some (.stop ⟨res', some ch⟩) := (line_reads hone).trans h'
    refine iff_of_false ?_ (not_not.mpr ((halfRow_readsRow_iff hu).mpr (congrArg List.length hone)))
    rintro ⟨st, hst, hbalanced, -⟩
    rw [runLines, hstop] at hst
    obtain rfl : _ = st := Option.some.inj hst
    have hlen := hbalanced ch .read
    rw [hres'.get, hres'.get, if_pos (by simp [channelFamily]), if_pos (by simp [channelFamily]),
      push_self, push_of_ne _ _ (by simp)] at hlen
    have hsame := hlevel.channel ch .zero .read .one .read
    simp only [Option.map_some, List.length_append, List.length_singleton,
      Option.some.injEq] at hlen
    omega
  · obtain ⟨res', h', hres'⟩ := readsLine_two h hlevel ch v w [digit ch]
    have hlen : (findall reads u).length = 2 := congrArg List.length htwo
    refine iff_of_true (survives_next ((line_reads htwo).trans h') ?_) fun hhalf => ?_
    · exact hres'.balanced (hlevel.matched.push_channel ch .read v w) twin_channelFamily
    · rw [halfRow_readsRow_iff hu, hlen] at hhalf
      cases hhalf

/-- The `Writes` line of a pending channel. -/
theorem cut_writesRow {ch : Fin 10} (h : Holds res (channelFamily ch) col) (hcol : Matched col)
    {r : Row} {u : Str} (hu : u <+: writesRow r) :
    Survives (runLines line ⟨res, some ch⟩ [u]) ↔ ¬ HalfRow u := by
  have hbalanced : Balanced res := h.balanced hcol twin_channelFamily
  have hline : line ⟨res, some ch⟩ u = writesLine res ch u := rfl
  refine iff_of_true ?_ (not_halfRow_of_not_mem
    (fun hmem => (not_mem_writesRow r).1 (hu.subset hmem))
    fun hmem => (not_mem_writesRow r).2 (hu.subset hmem))
  rcases findall_cut_row rowHeads_writes hu with hnone | ⟨v, hone⟩ | ⟨v, w, htwo⟩
  · have hnil : findall writes u = [] := findall_eq_nil_of_not_pointed hnone
    have hnext : line ⟨res, some ch⟩ u = some (.next ⟨res, some ch⟩) := by
      rw [hline, writesLine, hnil]
    exact survives_next hnext hbalanced
  · have hfind : findall writes u = [[v]] := hone
    have hnext : line ⟨res, some ch⟩ u = some (.next ⟨res, none⟩) := by
      rw [hline, writesLine, hfind]
    exact survives_next hnext hbalanced
  · obtain ⟨res', h', hres'⟩ := writesLine_two h htwo
    refine survives_next (hline.trans h') ?_
    exact hres'.balanced (hcol.push_channel ch .write v w) twin_channelFamily

end LastLine

/-! ### The last block -/

def Block.text (b : Block) : Str := b.lines.flatMap (· ++ ['\n'])

theorem tablesText_eq (ts : List Table) :
    tablesText ts = (ts.flatMap Table.blocks).flatMap Block.text := by
  have hlines : Table.lines = fun t => t.blocks.flatMap Block.lines :=
    funext fun t => (lines_blocks t).symm
  rw [tablesText, hlines, List.flatMap_assoc, List.flatMap_assoc]
  refine List.flatMap_congr fun t _ => ?_
  rw [List.flatMap_assoc]
  rfl

theorem prefix_line {v l : Str} (h : v <+: l ++ ['\n']) : v <+: l ∨ v = l ++ ['\n'] := by
  rcases prefix_append_cases h with hl | ⟨w, rfl, hw⟩
  · exact Or.inl hl
  · cases w with
    | nil => exact Or.inl (by simp)
    | cons c w =>
        obtain ⟨rfl, hnil⟩ := List.cons_prefix_cons.mp hw
        rw [List.prefix_nil.mp hnil]
        exact Or.inr rfl

theorem lastLine_of_not_mem {v : Str} (h : '\n' ∉ v) : lastLine v = v := by
  rw [lastLine, List.splitOn_eq_singleton h]
  rfl

/-- The last line is not in front of a newline. -/
theorem lastLine_append {ls : List Str} (h : ∀ l ∈ ls, '\n' ∉ l) (v : Str) :
    lastLine (ls.flatMap (· ++ ['\n']) ++ v) = lastLine v := by
  obtain ⟨first, rest, hsplit⟩ := List.exists_cons_of_ne_nil (List.splitOn_ne_nil '\n' v)
  rw [lastLine, lastLine, splitOn_terminated_append h, hsplit]
  simp [List.getLastD_eq_getLast?, List.getLast?_cons]

section LastBlock

variable {res : Samples Str} {col : Counter → List Str}

/-- Cut right behind a block. -/
theorem cut_behind (h : Holds res [] col) (hlevel : Level col) (b : Block) :
    Survives (runLines line ⟨res, none⟩ (b.text.splitOn '\n')) ↔ ¬ HalfRow (lastLine b.text) := by
  obtain ⟨res', hrun, h'⟩ := runLines_block h hlevel b [[]]
  have hlast := lastLine_append b.newline []
  rw [List.append_nil] at hlast
  rw [Block.text, splitOn_flatMap_terminated b.newline, hrun, hlast]
  exact cut_plain h' (hlevel.added b) (plain_of_not_mem (by simp))

/-- A block of one row, cut in the row or behind it. -/
theorem cut_row (h : Holds res [] col) (hlevel : Level col) {b : Block} {l v : Str}
    (hb : b.lines = [l]) (hv : v <+: b.text)
    (hcut : v <+: l → (Survives (runLines line ⟨res, none⟩ [v]) ↔ ¬ HalfRow v)) :
    Survives (runLines line ⟨res, none⟩ (v.splitOn '\n')) ↔ ¬ HalfRow (lastLine v) := by
  have htext : b.text = l ++ ['\n'] := by simp [Block.text, hb]
  have hnewline : '\n' ∉ l := b.newline l (by simp [hb])
  rcases prefix_line (htext ▸ hv) with hl | hl
  · have hv' : '\n' ∉ v := fun hmem => hnewline (hl.subset hmem)
    rw [List.splitOn_eq_singleton hv', lastLine_of_not_mem hv']
    exact hcut hl
  · rw [hl, ← htext]
    exact cut_behind h hlevel b

/-- The rows of a channel, cut in the second. -/
theorem cut_pending (h : Holds res [] col) (hlevel : Level col) (c : Channel) {u : Str}
    (hu : u <+: writesRow c.writes) :
    Survives (runLines line ⟨res, none⟩ [readsRow c.number c.reads, u]) ↔ ¬ HalfRow u := by
  obtain ⟨res₁, h₁, hres₁⟩ := readsLine_two h hlevel c.number (c.reads .zero).value
    (c.reads .one).value [digit c.number]
  have hreads : line ⟨res, none⟩ (readsRow c.number c.reads) = some (.next ⟨res₁, some c.number⟩) :=
    (line_reads (findall_row (rowHeads_reads c.number) c.reads)).trans h₁
  rw [runLines, hreads]
  exact cut_writesRow hres₁ (hlevel.matched.push_channel c.number .read _ _) hu

theorem cut_channel (h : Holds res [] col) (hlevel : Level col) (c : Channel) {v : Str}
    (hv : v <+: (Block.channel c).text) :
    Survives (runLines line ⟨res, none⟩ (v.splitOn '\n')) ↔ ¬ HalfRow (lastLine v) := by
  have htext : (Block.channel c).text =
      (readsRow c.number c.reads ++ ['\n']) ++ (writesRow c.writes ++ ['\n']) := by
    simp [Block.text, Block.lines]
  have hreads : '\n' ∉ readsRow c.number c.reads := (Block.channel c).newline _ (.head _)
  have hwrites : '\n' ∉ writesRow c.writes := (Block.channel c).newline _ (.tail _ (.head _))
  have hsecond : ∀ {u : Str}, u <+: writesRow c.writes →
      (Survives (runLines line ⟨res, none⟩
        ((readsRow c.number c.reads ++ ['\n'] ++ u).splitOn '\n')) ↔
        ¬ HalfRow (lastLine (readsRow c.number c.reads ++ ['\n'] ++ u))) := by
    intro u hu
    have hu' : '\n' ∉ u := fun hmem => hwrites (hu.subset hmem)
    have hlast : lastLine (readsRow c.number c.reads ++ ['\n'] ++ u) = lastLine u := by
      rw [← List.flatMap_singleton (· ++ ['\n'])]
      exact lastLine_append (by simpa using hreads) u
    rw [hlast, lastLine_of_not_mem hu', List.append_assoc, List.singleton_append,
      List.splitOn_append_cons_self_of_not_mem hreads, List.splitOn_eq_singleton hu']
    exact cut_pending h hlevel c hu
  rcases prefix_append_cases (htext ▸ hv) with hfirst | ⟨u, rfl, hu⟩
  · rcases prefix_line hfirst with hl | rfl
    · have hv' : '\n' ∉ v := fun hmem => hreads (hl.subset hmem)
      rw [List.splitOn_eq_singleton hv', lastLine_of_not_mem hv']
      exact cut_readsRow h hlevel hl
    · have hempty := hsecond (List.nil_prefix : [] <+: writesRow c.writes)
      rw [List.append_nil] at hempty
      exact hempty
  · rcases prefix_line hu with hl | rfl
    · exact hsecond hl
    · rw [← htext]
      exact cut_behind h hlevel (.channel c)

theorem cut_block (h : Holds res [] col) (hlevel : Level col) (b : Block) {v : Str}
    (hv : v <+: b.text) :
    Survives (runLines line ⟨res, none⟩ (v.splitOn '\n')) ↔ ¬ HalfRow (lastLine v) := by
  cases b with
  | heading l hunit hnewline =>
      exact cut_row h hlevel rfl hv fun hl =>
        cut_plain h hlevel (plain_of_not_mem fun hmem => hunit (hl.subset hmem))
  | channel c => exact cut_channel h hlevel c hv
  | node c r => exact cut_row h hlevel rfl hv fun hl => cut_nodeRow h hlevel hl
  | system c x => exact cut_row h hlevel rfl hv fun hl => cut_systemRow h hlevel hl

end LastBlock

end Memory

/--
A log cut off anywhere is read without an exception and with as many values for both sockets,
unless its last line shows the first socket's value of a `Reads` or a node row and not the
second's.
-/
theorem memorySamples_cut_iff (ts : List Memory.Table) {u : Str} (hu : u <+: Memory.tablesText ts) :
    (∃ res, memorySamples u = some res ∧ Memory.Balanced res) ↔
      ¬ Memory.HalfRow (Memory.lastLine u) := by
  rw [Memory.tablesText_eq] at hu
  obtain ⟨done, rest, v, -, rfl, hv⟩ := prefix_flatMap hu
  have hlevel : Memory.Level fun _ => [] := ⟨fun _ _ _ _ _ => rfl, fun _ _ _ => rfl⟩
  obtain ⟨hlevel', res, hrun, hres⟩ :=
    Memory.runLines_blocks done (v.splitOn '\n') Memory.Holds.empty hlevel
  have hnewline : ∀ l ∈ done.flatMap Memory.Block.lines, '\n' ∉ l := by
    intro l hl
    obtain ⟨b, -, hb⟩ := List.mem_flatMap.mp hl
    exact b.newline l hb
  have hdone : done.flatMap Memory.Block.text =
      (done.flatMap Memory.Block.lines).flatMap (· ++ ['\n']) := by
    rw [List.flatMap_assoc]
    rfl
  have hlast : Memory.Survives (runLines Memory.line ⟨res, none⟩ (v.splitOn '\n')) ↔
      ¬ Memory.HalfRow (Memory.lastLine v) := by
    cases rest with
    | nil =>
        rw [List.prefix_nil.mp hv]
        exact Memory.cut_plain hres hlevel' (Memory.plain_of_not_mem (by simp))
    | cons b rest => exact Memory.cut_block hres hlevel' b hv
  rw [hdone, Memory.lastLine_append hnewline, ← hlast, memorySamples,
    splitOn_terminated_append hnewline, hrun]
  constructor
  · rintro ⟨res', hres', hbalanced⟩
    obtain ⟨st, hst, rfl⟩ := Option.map_eq_some_iff.mp hres'
    exact ⟨st, hst, hbalanced⟩
  · rintro ⟨st, hst, hbalanced⟩
    exact ⟨st.res, by rw [hst]; rfl, hbalanced⟩

/-- The sample table, cut in the second value of its first node row. -/
theorem memorySamples_cut_secondValue :
    ∃ res, memorySamples ((Memory.tablesText [Memory.sampleTable]).take 1170) = some res ∧
      Memory.Balanced res :=
  (memorySamples_cut_iff [Memory.sampleTable] (List.take_prefix 1170 _)).mpr (by decide)

/--
The sample table, cut behind the first value of its first node row, which raises, and behind
the first value of its first `Reads` row, which leaves the sockets with one value and none.
-/
theorem memorySamples_cut_firstValue :
    memorySamples ((Memory.tablesText [Memory.sampleTable]).take 1132) = none ∧
      ∃ res, memorySamples ((Memory.tablesText [Memory.sampleTable]).take 460) = some res ∧
        ¬ Memory.Balanced res := by
  constructor
  · rw [← Option.isNone_iff_eq_none]
    decide
  · have hlengths : (memorySamples ((Memory.tablesText [Memory.sampleTable]).take 460)).map
        (fun res => ((res.get? (Memory.Counter.channel .zero 0 .read).key).map List.length,
          (res.get? (Memory.Counter.channel .one 0 .read).key).map List.length)) =
        some (some 1, some 0) := by
      decide
    obtain ⟨res, hres, hlens⟩ := Option.map_eq_some_iff.mp hlengths
    refine ⟨res, hres, fun hbalanced => ?_⟩
    have hsame := hbalanced.1 0 .read
    obtain ⟨hfirst, hsecond⟩ := Prod.mk.inj hlens
    rw [hfirst, hsecond] at hsame
    cases hsame

end Nicmem
