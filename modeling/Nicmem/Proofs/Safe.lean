/-
Which logs keep the CSV in shape.

Values never break it: whatever a reader returns prints as a plain text.  Keys can.
The environment filters the characters it admits and most readers compose their keys,
but a counter log takes the text before the colon as it stands, a performance event
may end in a blank, and a counter of the NIC may hold a comma.  `parse_safe_iff` states
this exactly, as a condition on the names in those logs.
-/
import Nicmem.Proofs.Csv
import Nicmem.Proofs.Merge

namespace Nicmem

open Python

variable {F : Type} [PyFloat F]

/-! ### Safe keys -/

/-- A key that can head a column. -/
def SafeKey (k : Str) : Prop := CsvSafe k ∧ k ≠ []

instance (k : Str) : Decidable (SafeKey k) := inferInstanceAs (Decidable (_ ∧ _))

/-- Every key can head a column, and no printed value ends a cell or a line. -/
structure SafeResult (res : Result F) : Prop where
  key : ∀ k ∈ res.keys, SafeKey k
  value : ∀ k v, res.get? k = some v → ',' ∉ v.toStr ∧ '\n' ∉ v.toStr

theorem safeKey_of_plain {k : Str} (h : plain k = true) : SafeKey k := by
  refine ⟨csvSafe_of_plain h, ?_⟩
  rintro rfl
  cases h

/-- The deviation of a safe key has a safe key. -/
theorem SafeKey.std {n : Str} (h : SafeKey n) : SafeKey (stdName n) := by
  obtain ⟨⟨hcomma, hnewline, htrim⟩, hne⟩ := h
  have hstd : plain "_std".toList = true := by decide
  refine ⟨⟨?_, ?_, ?_⟩, by simp [stdName, hne]⟩
  · rw [stdName, List.mem_append, not_or]
    exact ⟨hcomma, plain_not_mem hstd (by decide)⟩
  · rw [stdName, List.mem_append, not_or]
    exact ⟨hnewline, plain_not_mem hstd (by decide)⟩
  · obtain ⟨c, rest, rfl⟩ := List.exists_cons_of_ne_nil hne
    rw [trimmed, Bool.and_eq_true] at htrim ⊢
    refine ⟨htrim.1, ?_⟩
    rw [stdName, List.getLast?_append_of_ne_nil _ (by decide)]
    decide

/-! ### The names of the logs -/

/-- A name before a colon that can head a column. -/
structure SafeName (n : Str) : Prop where
  nonempty : n ≠ []
  comma : ',' ∉ n
  trimmed : trimmed n = true

theorem newline_netCpuName {data l n : Str} (hl : l ∈ data.splitOn '\n')
    (h : netCpuName l = some n) : '\n' ∉ n := by
  obtain ⟨⟨k, v⟩, hparts, rfl⟩ := Option.map_eq_some_iff.mp h
  unfold netCpuParts at hparts
  split at hparts
  · split at hparts
    · rename_i hsplit
      cases hparts
      intro hc
      exact not_mem_of_mem_splitOn hl (mem_of_mem_splitStr (hsplit ▸ List.mem_cons_self) hc)
    · cases hparts
  · cases hparts

/-- The keys of a counter log are safe when the names it records are. -/
theorem safeKeys_netCpu_iff [Sorting] (order : Enumeration Str) (data : Str) :
    (∀ k ∈ (readNetCpu order data : Result F).keys, SafeKey k) ↔
      ∀ l ∈ data.splitOn '\n', ∀ n, netCpuName l = some n → SafeName n := by
  constructor
  · intro h l hl n hn
    have hmem : n ∈ (netCpuSamples data : Samples F).keys := mem_keys_netCpuSamples.mpr ⟨l, hl, hn⟩
    obtain ⟨hsafe, hne⟩ := h n (mem_keys_readNetCpu.mpr ⟨n, hmem, .inl rfl⟩)
    exact ⟨hne, hsafe.comma, hsafe.trimmed⟩
  · intro h k hk
    obtain ⟨n, hn, hk⟩ := mem_keys_readNetCpu.mp hk
    obtain ⟨l, hl, hname⟩ := mem_keys_netCpuSamples.mp hn
    obtain ⟨hne, hcomma, htrim⟩ := h l hl n hname
    have hsafe : SafeKey n := ⟨⟨hcomma, newline_netCpuName hl hname, htrim⟩, hne⟩
    rcases hk with rfl | rfl
    · exact hsafe
    · exact hsafe.std

/-- An event key holds no comma and no newline, whatever the line. -/
theorem PerfStat.eventKey_chars {data l k : Str} (hl : l ∈ data.splitOn '\n')
    (h : eventKey l = some k) : ',' ∉ k ∧ '\n' ∉ k ∧ k ≠ [] := by
  unfold eventKey at h
  split at h
  · cases h
  · split at h
    · rename_i name _ _ _ _ hsplit
      cases h
      have hname : name ∈ l.splitOn ',' := by rw [hsplit]; simp
      have hstem : plain "perf_".toList = true := by decide
      refine ⟨?_, ?_, by simp⟩
      · rw [List.mem_append, not_or]
        exact ⟨plain_not_mem hstem (by decide), not_mem_of_mem_splitOn hname⟩
      · rw [List.mem_append, not_or]
        refine ⟨plain_not_mem hstem (by decide), fun hc => ?_⟩
        exact not_mem_of_mem_splitOn hl (mem_of_mem_splitOn hname hc)
    · cases h

theorem safeKeys_perfStat_iff [Sorting] {order : Enumeration Str} {data : Str} {out : Result F}
    (h : readPerfStat order data = some out) :
    (∀ k ∈ out.keys, SafeKey k) ↔
      ∀ l ∈ data.splitOn '\n', ∀ k, PerfStat.eventKey l = some k → trimmed k = true := by
  have hkeys := (readPerfStat_spec h).1
  constructor
  · intro hsafe l hl k hk
    exact (hsafe k ((hkeys k).mpr ⟨l, hl, k, hk, .inl rfl⟩)).1.trimmed
  · intro htrim k hk
    obtain ⟨l, hl, n, hn, hk⟩ := (hkeys k).mp hk
    obtain ⟨hcomma, hnewline, hne⟩ := PerfStat.eventKey_chars hl hn
    have hsafe : SafeKey n := ⟨⟨hcomma, hnewline, htrim l hl n hn⟩, hne⟩
    rcases hk with rfl | rfl
    · exact hsafe
    · exact hsafe.std

/-- A counter name keeps its column apart from commas: it is trimmed and has no newline. -/
theorem Neo.key_chars (skip : Nat) {cell : Str} (hcell : '\n' ∉ cell) :
    '\n' ∉ key skip cell ∧ trimmed (key skip cell) = true := by
  rw [key, replace_char]
  constructor
  · rw [List.mem_append, not_or]
    refine ⟨by decide, fun hc => ?_⟩
    obtain ⟨c, hc, heq⟩ := List.mem_map.mp (List.mem_of_mem_drop hc)
    by_cases hsp : c = ' '
    · rw [if_pos hsp] at heq
      exact absurd heq (by decide)
    · rw [if_neg hsp] at heq
      subst heq
      exact hcell ((mem_lower_iff (by decide)).mp ((List.rdropWhile_prefix _ _).subset hc))
  · rw [trimmed, Bool.and_eq_true]
    refine ⟨rfl, ?_⟩
    rw [Option.all_eq_true]
    intro c hc
    rw [List.getLast?_append] at hc
    cases hlast : (((rstrip (lower cell)).map fun c => if c = ' ' then '_' else c).drop
        skip).getLast? with
    | none =>
        rw [hlast, Option.none_or] at hc
        cases hc
        rfl
    | some d =>
        rw [hlast, Option.some_or] at hc
        rw [← Option.some.inj hc]
        -- what is left of the cell ends as the stripped cell does
        have hd : ((rstrip (lower cell)).map fun c => if c = ' ' then '_' else c).getLast? =
            some d := by
          rw [List.getLast?_drop] at hlast
          split at hlast
          · cases hlast
          · exact hlast
        rw [List.getLast?_map] at hd
        obtain ⟨e, he, rfl⟩ := Option.map_eq_some_iff.mp hd
        have hsp := isSpace_getLast_rstrip he
        split
        · rfl
        · rw [hsp]
          rfl

/-- A comma in the key is one in the name cell, behind the characters that go. -/
theorem Neo.comma_mem_key_iff {skip : Nat} {cell : Str} :
    ',' ∈ key skip cell ↔ ',' ∈ cell.drop skip := by
  have hmap : ∀ s : Str, (',' ∈ s.map fun c => if c = ' ' then '_' else c) ↔ ',' ∈ s := by
    intro s
    rw [List.mem_map]
    constructor
    · rintro ⟨c, hc, heq⟩
      split at heq
      · cases heq
      · exact heq ▸ hc
    · intro h
      exact ⟨',', h, by decide⟩
  rw [key, replace_char, List.mem_append, or_iff_right (by decide), ← List.map_drop, hmap,
    mem_drop_rstrip_iff skip (by decide), lower, ← List.map_drop]
  exact mem_lower_iff (by decide)

theorem safeKeys_neo_iff [Sorting] (order : Enumeration Str) (data : Str) :
    (∀ k ∈ (readNeo order data : Result F).keys, SafeKey k) ↔
      ∀ row ∈ (Neo.plainText data).splitOn '\n', ∀ skip name, Neo.NameCell row skip name →
        ',' ∉ name.drop skip := by
  simp only [(readNeo_spec (F := F) order data).1]
  constructor
  · intro h row hrow skip name hname hcomma
    have hsafe := h _ ⟨row, hrow, skip, name, hname, rfl⟩
    exact hsafe.1.comma (Neo.comma_mem_key_iff.mpr hcomma)
  · rintro h k ⟨row, hrow, skip, name, hname, rfl⟩
    have hcell : '\n' ∉ name := fun hc =>
      not_mem_of_mem_splitOn hrow (mem_of_mem_splitStr hname.mem hc)
    obtain ⟨hnewline, htrim⟩ := Neo.key_chars skip hcell
    have hcomma := h row hrow skip name hname
    refine ⟨⟨fun hc => hcomma (Neo.comma_mem_key_iff.mp hc), hnewline, htrim⟩, ?_⟩
    simp [Neo.key]

/-! ### One file -/

/-- The values of a counter log print plainly, its totals included. -/
theorem readNet_plain [Sorting] {order : Enumeration Str} {data : Str} {out : Result F}
    (h : readNet order data = some out) : out.All fun _ v => plain v.toStr = true := by
  refine foldlM_invariant (fun out : Result F => out.All fun _ v => plain v.toStr = true) ?_ ?_ h
  · intro res hres e _ res' hstep
    unfold addToTotal at hstep
    split at hstep
    · cases hstep
      exact hres
    · simp only [Option.bind_eq_bind, Option.bind_eq_some_iff, Option.some.injEq] at hstep
      obtain ⟨x, -, sum, -, rfl⟩ := hstep
      exact hres.set (plain_flt _)
  · refine foldl_invariant (fun out : Result F => out.All fun _ v => plain v.toStr = true)
      (fun _ hres _ _ => hres.set (plain_int 0)) ?_
    refine (readNetCpu_all order data).imp ?_
    rintro k v ⟨x, rfl⟩
    exact plain_str_fmt2 x

/-- **Whatever a reader returns prints as a plain text.** -/
theorem Reader.values_plain [Sorting] {rt : Runtime F} {r : Reader} {data : Str} {out : Result F}
    (h : r.read rt data = some out) : out.All fun _ v => plain v.toStr = true := by
  rcases composes_or r with hr | rfl | rfl | rfl | rfl
  · exact (own_read hr h).imp fun _ _ hv => hv.2
  · exact readNet_plain h
  · cases h
    refine (readNetCpu_all rt.order data).imp ?_
    rintro k v ⟨x, rfl⟩
    exact plain_str_fmt2 x
  · exact (readPerfStat_spec h).2
  · cases h
    exact (readNeo_spec rt.order data).2

/-- The names a reader takes from the text of its log are safe. -/
def Reader.SafeNames : Reader → Str → Prop
  | .net, data | .cpu, data =>
    ∀ l ∈ data.splitOn '\n', ∀ n, netCpuName l = some n → SafeName n
  | .perfStat, data =>
    ∀ l ∈ data.splitOn '\n', ∀ k, PerfStat.eventKey l = some k → trimmed k = true
  | .neo, data =>
    ∀ row ∈ (Neo.plainText data).splitOn '\n', ∀ skip name, Neo.NameCell row skip name →
      ',' ∉ name.drop skip
  | _, _ => True

/-- The keys of a reader are safe exactly when the names of its log are. -/
theorem Reader.safeKeys_iff [Sorting] {rt : Runtime F} {r : Reader} {data : Str} {out : Result F}
    (h : r.read rt data = some out) :
    (∀ k ∈ out.keys, SafeKey k) ↔ r.SafeNames data := by
  rcases composes_or r with hr | rfl | rfl | rfl | rfl
  · have htrue : r.SafeNames data := by
      cases r <;> first | cases hr; done | trivial
    refine ⟨fun _ => htrue, fun _ k hk => ?_⟩
    obtain ⟨v, hv⟩ := Dict.mem_keys_iff.mp hk
    exact safeKey_of_plain (own_read hr h k v hv).1.2
  · obtain ⟨out', hout, -, hkeys, -⟩ := readNet_spec (F := F) rt.order data
    have heq : out' = out := Option.some.inj (hout.symm.trans h)
    subst heq
    rw [show net.SafeNames data ↔ _ from (safeKeys_netCpu_iff (F := F) rt.order data).symm]
    simp only [hkeys]
    refine ⟨fun hsafe k hk => hsafe k (.inr hk), ?_⟩
    rintro hsafe k (⟨c, rfl⟩ | hk)
    · cases c <;> decide
    · exact hsafe k hk
  · cases h
    exact safeKeys_netCpu_iff rt.order data
  · exact safeKeys_perfStat_iff h
  · cases h
    exact safeKeys_neo_iff rt.order data

/-! ### The whole directory -/

/-- The names a file's reader takes from its text are safe. -/
def SafeNames (f : File) : Prop := ∀ r, parsers.get? f.1 = some r → r.SafeNames f.2

/-- What a file adds has safe keys exactly when its names are safe, and always safe values. -/
theorem added_safe [Sorting] {rt : Runtime F} {f : File} (h : readFile rt f ≠ none) :
    ((∀ k ∈ (added rt f).keys, SafeKey k) ↔ SafeNames f) ∧
      (added rt f).All fun _ v => plain v.toStr = true := by
  have hread := readFile_eq_added h
  unfold readFile at hread
  unfold SafeNames
  cases hf : parsers.get? f.1 with
  | none =>
      rw [hf] at hread
      rw [← Option.some.inj hread]
      exact ⟨by simp, Dict.All.empty⟩
  | some r =>
      rw [hf] at hread
      refine ⟨?_, Reader.values_plain hread⟩
      rw [Reader.safeKeys_iff hread]
      exact ⟨fun hr r' hr' => Option.some.inj hr' ▸ hr, fun hall => hall r rfl⟩

/--
**When the dictionary of a directory can be written to the CSV.**  Either some reader
raises, or every name that a counter log records before a colon is non-empty, trimmed
and without comma, no performance event ends in a blank, and no name cell of a counter of the
NIC holds a comma behind the characters that are cut off.
-/
theorem parse_safe_iff [Sorting] (rt : Runtime F) (d : Listing) :
    (∀ res, parse rt d = some res → SafeResult res) ↔
      (∃ f ∈ d.files, readFile rt f = none) ∨ ∀ f ∈ d.files, SafeNames f := by
  by_cases hraise : ∃ f ∈ d.files, readFile rt f = none
  · refine ⟨fun _ => .inl hraise, fun _ res hres => ?_⟩
    rw [parse_eq_none hraise] at hres
    cases hres
  have hret : ∀ f ∈ d.files, readFile rt f ≠ none := fun f hf hnone => hraise ⟨f, hf, hnone⟩
  rw [parse_eq_merge hret]
  constructor
  · intro h
    refine .inr fun f hf => ?_
    rw [← (added_safe (hret f hf)).1]
    intro k hk
    exact (h _ rfl).key k (Dict.mem_keys_merge.mpr ⟨_, List.mem_map_of_mem hf, hk⟩)
  · rintro (h | h) res hres
    · exact absurd h hraise
    cases hres
    constructor
    · intro k hk
      obtain ⟨out, hout, hkout⟩ := Dict.mem_keys_merge.mp hk
      obtain ⟨f, hf, rfl⟩ := List.mem_map.mp hout
      exact (added_safe (hret f hf)).1.mpr (h f hf) k hkout
    · intro k v hv
      obtain ⟨out, hout, hvout⟩ := Dict.exists_of_get?_merge hv
      obtain ⟨f, hf, rfl⟩ := List.mem_map.mp hout
      have hplain := (added_safe (hret f hf)).2 k v hvout
      exact ⟨plain_not_mem hplain (by decide), plain_not_mem hplain (by decide)⟩

/-- A counter log whose name holds a comma. -/
def commaLog : Listing := ⟨[("cpu.txt".toList, "core0,user: 1.00".toList)], by decide⟩

section CommaLog

open scoped Sorting.Insertion

/-- The comma of a counter name stands in a key of the result. -/
theorem parse_unsafe_key :
    ∃ res, parse plainRuntime commaLog = some res ∧ "core0,user".toList ∈ res.keys ∧
      ¬ SafeResult res := by
  have hparse : (parse plainRuntime commaLog).map (·.keys) =
      some ["core0,user".toList, "core0,user_std".toList] := by decide
  obtain ⟨res, hres, hkeys⟩ := Option.map_eq_some_iff.mp hparse
  have hmem : "core0,user".toList ∈ res.keys := by
    rw [hkeys]
    exact List.mem_cons_self
  refine ⟨res, hres, hmem, fun hsafe => ?_⟩
  exact absurd (hsafe.key _ hmem) (by decide)

end CommaLog

end Nicmem
