/-
Does the listing order of a directory matter?

`parse` merges one dictionary per file, and of two files that write one key the later
one wins.  The readers that compose their own keys have disjoint stems and cannot
collide.  What is left are the logs whose keys come from their text: the eth logs,
which also all write the same eight totals, the processor log, and the environment.
`parse_order_independent_iff` is the exact condition on those.
-/
import Nicmem.Proofs.Net
import Nicmem.Python.Exact

namespace Nicmem

open Python

variable {F : Type} [PyFloat F]

/-! ### What a file adds -/

/-- The dictionary a file adds; empty where its reader raises. -/
def added [Sorting] (rt : Runtime F) (f : File) : Result F := (readFile rt f).getD .empty

theorem readFile_eq_added [Sorting] {rt : Runtime F} {f : File} (h : readFile rt f ≠ none) :
    readFile rt f = some (added rt f) := by
  unfold added
  cases hf : readFile rt f with
  | none => exact absurd hf h
  | some out => rfl

/-- `parse` returns when every reader does, and returns the merge of what the files add. -/
theorem parse_eq_merge [Sorting] {rt : Runtime F} {d : Listing}
    (h : ∀ f ∈ d.files, readFile rt f ≠ none) :
    parse rt d = some (Dict.merge (d.files.map (added rt))) :=
  foldlM_map_eq Dict.update (fun f hf => readFile_eq_added (h f hf)) _

theorem parse_eq_none [Sorting] {rt : Runtime F} {d : Listing}
    (h : ∃ f ∈ d.files, readFile rt f = none) :
    parse rt d = none :=
  foldlM_map_eq_none Dict.update h _

/-- In any other listing order too. -/
theorem parse_eq_merge_of_perm [Sorting] {rt : Runtime F} {d d' : Listing}
    (hraise : ¬ ∃ f ∈ d.files, readFile rt f = none) (hp : d'.files.Perm d.files) :
    parse rt d' = some (Dict.merge (d'.files.map (added rt))) := by
  apply parse_eq_merge
  intro f hf hnone
  exact hraise ⟨f, hp.mem_iff.mp hf, hnone⟩

/-- Any file can be listed last, and then its values are the ones that stay. -/
theorem exists_listing_last [Sorting] (rt : Runtime F) {d : Listing} {f : File}
    (hf : f ∈ d.files) :
    ∃ d' : Listing, d'.files.Perm d.files ∧ ∀ k v, (added rt f).get? k = some v →
      (Dict.merge (d'.files.map (added rt))).get? k = some v := by
  obtain ⟨rest, hp⟩ := exists_perm_concat hf
  refine ⟨⟨rest ++ [f], ((hp.map Prod.fst).nodup_iff).mpr d.nodup⟩, hp, fun k v hv => ?_⟩
  rw [List.map_append, List.map_singleton]
  exact Dict.get?_merge_last hv

/-! ### Readers that compose their own keys -/

/-- The readers that take their keys from the text of the log. -/
def Reader.freeText : Reader → Bool
  | .net | .cpu | .env => true
  | _ => false

theorem PerfStat.stem_eventKey {l k : Str} (h : eventKey l = some k) : "perf_".toList <+: k := by
  unfold eventKey at h
  split at h
  · cases h
  · split at h
    · cases h
      exact List.prefix_append _ _
    · cases h

/-- Every key of a reader starts with one of its stems. -/
theorem Reader.stem_of_mem [Sorting] {rt : Runtime F} {r : Reader} {data : Str} {out : Result F}
    (h : r.read rt data = some out) {k : Str} (hk : k ∈ out.keys) : ∃ s ∈ r.stems, s <+: k := by
  rcases composes_or r with hr | rfl | rfl | rfl | rfl
  · obtain ⟨v, hv⟩ := Dict.mem_keys_iff.mp hk
    exact (own_read hr h k v hv).1.1
  · exact ⟨[], by simp [stems], List.nil_prefix⟩
  · exact ⟨[], by simp [stems], List.nil_prefix⟩
  · obtain ⟨l, -, n, hn, hk⟩ := ((readPerfStat_spec h).1 k).mp hk
    refine ⟨_, List.mem_singleton.mpr rfl, ?_⟩
    rcases hk with rfl | rfl
    · exact PerfStat.stem_eventKey hn
    · exact (PerfStat.stem_eventKey hn).trans (List.prefix_append _ _)
  · cases h
    obtain ⟨row, -, skip, name, -, rfl⟩ := ((readNeo_spec rt.order data).1 k).mp hk
    exact ⟨_, List.mem_singleton.mpr rfl, List.prefix_append _ _⟩

/-- No stem of one such reader is the start of a stem of another. -/
theorem Reader.stems_incompatible : ∀ r r' : Reader, r.freeText = false → r'.freeText = false →
    r ≠ r' → ∀ s ∈ r.stems, ∀ s' ∈ r'.stems, ¬ s <+: s' ∧ ¬ s' <+: s := by
  intro r r'
  cases r <;> cases r' <;> decide

/-- Two different readers that compose their own keys never write the same one. -/
theorem Reader.keys_disjoint [Sorting] {rt : Runtime F} {r r' : Reader} {data data' : Str}
    {out out' : Result F} (h : r.read rt data = some out) (h' : r'.read rt data' = some out')
    (hr : r.freeText = false) (hr' : r'.freeText = false) (hne : r ≠ r') {k : Str}
    (hk : k ∈ out.keys) : k ∉ out'.keys := by
  intro hk'
  obtain ⟨s, hs, hsk⟩ := stem_of_mem h hk
  obtain ⟨s', hs', hsk'⟩ := stem_of_mem h' hk'
  obtain ⟨hno, hno'⟩ := stems_incompatible r r' hr hr' hne s hs s' hs'
  rcases List.prefix_or_prefix_of_prefix hsk hsk' with hp | hp
  · exact hno hp
  · exact hno' hp

/-- The file of a name goes to a reader that takes its keys from the text. -/
def File.freeText (f : File) : Bool := ((parsers.get? f.1).map Reader.freeText).getD false

/-- Each reader that composes its own keys has one file name only. -/
theorem parsers_inj : ∀ e ∈ parsers.entries, ∀ e' ∈ parsers.entries, e.2.freeText = false →
    e.2 = e'.2 → e.1 = e'.1 := by
  decide

/-- What a file adds comes from the reader of its name. -/
theorem added_reader [Sorting] {rt : Runtime F} {f : File} {k : Str} {v : Value F}
    (h : (added rt f).get? k = some v) :
    ∃ r, parsers.get? f.1 = some r ∧ r.read rt f.2 = some (added rt f) := by
  unfold added readFile at h ⊢
  cases hf : parsers.get? f.1 with
  | none => simp [hf] at h
  | some r =>
      cases hread : r.read rt f.2 with
      | none => simp [hf, hread] at h
      | some out => exact ⟨r, rfl, by simp [hread]⟩

/-- Two files whose readers compose their own keys never disagree. -/
theorem added_agree [Sorting] {rt : Runtime F} {d : Listing} {f g : File} (hf : f ∈ d.files)
    (hg : g ∈ d.files) (hff : File.freeText f = false) (hgf : File.freeText g = false) :
    (added rt f).Agree (added rt g) := by
  intro k v w hv hw
  obtain ⟨r, hr, hread⟩ := added_reader hv
  obtain ⟨r', hr', hread'⟩ := added_reader hw
  by_cases hrr : r = r'
  · -- one reader, so one name, so one file
    have hfree : r.freeText = false := by simpa [File.freeText, hr] using hff
    have hname : f.1 = g.1 := parsers_inj _ (Dict.get?_eq_some_iff.mp hr) _
      (Dict.get?_eq_some_iff.mp hr') hfree hrr
    have hfg : f = g := List.inj_on_of_nodup_map d.nodup hf hg hname
    subst hfg
    exact Dict.Agree.refl _ k v w hv hw
  · have hk : k ∉ (added rt g).keys := by
      refine Reader.keys_disjoint hread hread' ?_ ?_ hrr (Dict.mem_keys_of_get? hv)
      · simpa [File.freeText, hr] using hff
      · simpa [File.freeText, hr'] using hgf
    exact absurd (Dict.mem_keys_of_get? hw) hk

/-! ### The listing order -/

/-- Two runs end alike: both raise, or both return the same dictionary. -/
def SameOutcome : Option (Result F) → Option (Result F) → Prop
  | none, none => True
  | some a, some b => a.Same b
  | _, _ => False

/--
**When the listing order does not matter.**  Either some reader raises, whatever the
order, or no eth log, processor log or environment disagrees with another file of the
directory on a key both define.
-/
theorem parse_order_independent_iff [Sorting] (rt : Runtime F) (d : Listing) :
    (∀ d₁ d₂ : Listing, d₁.files.Perm d.files → d₂.files.Perm d.files →
      SameOutcome (parse rt d₁) (parse rt d₂)) ↔
    (∃ f ∈ d.files, readFile rt f = none) ∨
      ∀ f ∈ d.files, ∀ g ∈ d.files, File.freeText f = true →
        (added rt f).Agree (added rt g) := by
  by_cases hraise : ∃ f ∈ d.files, readFile rt f = none
  · refine ⟨fun _ => .inl hraise, fun _ d₁ d₂ h₁ h₂ => ?_⟩
    obtain ⟨f, hf, hnone⟩ := hraise
    rw [parse_eq_none ⟨f, h₁.mem_iff.mpr hf, hnone⟩, parse_eq_none ⟨f, h₂.mem_iff.mpr hf, hnone⟩]
    trivial
  · constructor
    · intro h
      refine .inr fun f hf g hg _ k v w hv hw => ?_
      -- list each of the two files last
      obtain ⟨d₁, hp₁, hv₁⟩ := exists_listing_last rt hf
      obtain ⟨d₂, hp₂, hv₂⟩ := exists_listing_last rt hg
      have hsame := h d₁ d₂ hp₁ hp₂
      rw [parse_eq_merge_of_perm hraise hp₁, parse_eq_merge_of_perm hraise hp₂] at hsame
      have hk := hsame k
      rw [hv₁ k v hv, hv₂ k w hw] at hk
      exact Option.some.inj hk
    · rintro (h | h) d₁ d₂ hp₁ hp₂
      · exact absurd h hraise
      · have hagree : ∀ f ∈ d.files, ∀ g ∈ d.files, (added rt f).Agree (added rt g) := by
          intro f hf g hg
          cases hff : File.freeText f with
          | true => exact h f hf g hg hff
          | false =>
              cases hgf : File.freeText g with
              | true => exact (h g hg f hf hgf).symm
              | false => exact added_agree hf hg hff hgf
        rw [parse_eq_merge_of_perm hraise hp₁, parse_eq_merge_of_perm hraise hp₂]
        refine Dict.merge_same_of_agree ?_ ((hp₁.trans hp₂.symm).map _)
        intro a ha b hb
        obtain ⟨f, hf, rfl⟩ := List.mem_map.mp ha
        obtain ⟨g, hg, rfl⟩ := List.mem_map.mp hb
        exact hagree f (hp₁.mem_iff.mp hf) g (hp₁.mem_iff.mp hg)

/-- A runtime that lists dictionaries in insertion order and evaluates no literal. -/
def plainRuntime : Runtime Exact := ⟨.insertion Str, .insertion Nat, fun _ => none, 0⟩

/-- One log per interface, with different traffic. -/
def twoInterfaces : Listing :=
  ⟨[("if1.eth.txt".toList, "a_rx_bw: 1.00".toList), ("if2.eth.txt".toList, "b_rx_bw: 2.00".toList)],
    by decide⟩

/-- The same directory listed the other way round. -/
def twoInterfacesReversed : Listing :=
  ⟨twoInterfaces.files.reverse, by decide⟩

section TwoInterfaces

open scoped Sorting.Insertion

/-- Two interfaces with different traffic: the total is that of the log listed last. -/
theorem parse_order_matters :
    twoInterfaces.files.Perm twoInterfacesReversed.files ∧
    (parse plainRuntime twoInterfaces).bind (·.get? "Total_rx_bw".toList)
      = some (.flt (.fin 2)) ∧
    (parse plainRuntime twoInterfacesReversed).bind (·.get? "Total_rx_bw".toList)
      = some (.flt (.fin 1)) :=
  ⟨(List.reverse_perm _).symm, by decide +kernel, by decide +kernel⟩

end TwoInterfaces

end Nicmem
