/-
What the readers return, key by key.

Apart from the two counter logs and the environment, a reader composes its keys
itself: each starts with one of a few stems that are the reader's own.  From that
follow both facts the merge depends on: two such readers never write the same key,
and none of them writes a total.  Every value, of whatever reader, prints as a plain
text.

The statements follow the loops.  `Own` is what every write of a reader satisfies,
and each reader's lemma goes from its line function to its result by the rules of
`Dict.All`.
-/
import Nicmem.Parse
import Nicmem.Python.Match
import Nicmem.Python.Merge

namespace Nicmem

open Python

variable {F : Type} [PyFloat F]

/-! ### Keys a reader composes itself -/

/-- A key that starts with one of the stems and holds neither a comma nor a blank. -/
def OwnKey (stems : List Str) (k : Str) : Prop := (∃ s ∈ stems, s <+: k) ∧ plain k = true

instance (stems : List Str) (k : Str) : Decidable (OwnKey stems k) :=
  inferInstanceAs (Decidable (_ ∧ _))

/-- What every entry of such a reader satisfies. -/
def Own (stems : List Str) (k : Str) (v : Value F) : Prop := OwnKey stems k ∧ plain v.toStr = true

/-- A key of samples, whatever they are. -/
def OwnSamples {α : Type} (stems : List Str) (k : Str) (_ : List α) : Prop := OwnKey stems k

theorem OwnKey.append {stems : List Str} {k t : Str} (h : OwnKey stems k) (ht : plain t = true) :
    OwnKey stems (k ++ t) := by
  obtain ⟨⟨s, hs, hk⟩, hp⟩ := h
  exact ⟨⟨s, hs, hk.trans (List.prefix_append k t)⟩, append_plain hp ht⟩

theorem OwnKey.std {stems : List Str} {k : Str} (h : OwnKey stems k) :
    OwnKey stems (stdName k) := h.append (by decide)

theorem plain_flt (x : F) : plain (Value.flt x).toStr = true := PyFloat.plain_str x

theorem plain_int (n : Int) : plain (Value.int n : Value F).toStr = true := plain_intStr n

theorem plain_str_fmt2 (x : F) : plain (Value.str (PyFloat.fmt2 x) : Value F).toStr = true :=
  PyFloat.plain_fmt2 x

theorem plain_str_intStr (n : Int) : plain (Value.str (intStr n) : Value F).toStr = true :=
  plain_intStr n

section Loops

variable {α : Type} {stems : List Str}

theorem own_appendSample {d : Samples α} (hd : d.All (OwnSamples stems)) {k : Str}
    (hk : OwnKey stems k) (v : α) : (appendSample d k v).All (OwnSamples stems) :=
  hd.set hk

theorem own_averagesOut (order : Enumeration Str) {res : Samples F}
    (hres : res.All (OwnSamples stems)) : (averagesOut order res).All (Own stems) := by
  refine foldl_invariant (fun out : Result F => out.All (Own stems)) ?_ Dict.All.empty
  intro out hout e he
  have hkey : OwnKey stems e.1 := hres.items e he
  split
  · exact hout.set ⟨hkey, plain_int 0⟩
  · exact (hout.set ⟨hkey, plain_flt _⟩).set ⟨hkey.std, plain_flt _⟩

omit [PyFloat F] in
theorem own_collectLine {conv : Str → Option F} {table : List (Pattern × Str)}
    (htable : ∀ e ∈ table, OwnKey stems e.2) {res res' : Samples F} {l : Str}
    (hres : res.All (OwnSamples stems)) (h : collectLine conv table res l = some res') :
    res'.All (OwnSamples stems) := by
  refine foldlM_invariant (fun res : Samples F => res.All (OwnSamples stems)) ?_ hres h
  rintro res hres ⟨p, key⟩ he res' hstep
  simp only at hstep
  split at hstep
  · cases hstep
    exact hres
  · simp only [Option.bind_eq_bind, Option.bind_eq_some_iff, Option.some.injEq] at hstep
    obtain ⟨text, -, x, -, rfl⟩ := hstep
    exact own_appendSample hres (htable _ he) x

omit [PyFloat F] in
theorem own_collect {conv : Str → Option F} {table : List (Pattern × Str)}
    (htable : ∀ e ∈ table, OwnKey stems e.2) {data : Str} {res : Samples F}
    (h : collect conv table data = some res) : res.All (OwnSamples stems) :=
  foldlM_invariant (fun res : Samples F => res.All (OwnSamples stems))
    (fun _ hres _ _ _ hstep => own_collectLine htable hres hstep) Dict.All.empty h

end Loops

/-! ### The processor's monitors -/

/-- The state a round of a loop ends in, whether it goes on or not. -/
def Flow.state {σ : Type} : Flow σ → σ
  | .next s => s
  | .stop s => s

/-- An invariant of every round that returns is one of the loop. -/
theorem runLines_invariant {σ : Type} {body : σ → Str → Option (Flow σ)} (Inv : σ → Prop)
    (hstep : ∀ s l flow, Inv s → body s l = some flow → Inv flow.state) :
    ∀ (ls : List Str) {s s' : σ}, Inv s → runLines body s ls = some s' → Inv s' := by
  intro ls
  induction ls with
  | nil =>
      intro s s' hs h
      cases h
      exact hs
  | cons l rest ih =>
      intro s s' hs h
      rw [runLines] at h
      cases hb : body s l with
      | none => simp [hb] at h
      | some flow =>
          have hflow := hstep s l flow hs hb
          rw [hb] at h
          cases flow with
          | next t => exact ih hflow h
          | stop t =>
              cases h
              exact hflow

/-- How the keys of `read_memory` start. -/
def memoryStems : List Str :=
  ["socket_".toList, "node_".toList, "sys_Read".toList, "sys_Write".toList, "sys_Memory".toList]

theorem ownKey_channelKey (socket channel : Nat) {direction : String}
    (h : plain direction.toList = true) :
    OwnKey memoryStems (Memory.channelKey socket channel direction) := by
  have hstem : OwnKey memoryStems "socket_".toList := by decide
  have htail : plain ('_' :: direction.toList) = true := append_plain (s := ['_']) (by decide) h
  have hch : plain "_Ch_".toList = true := by decide
  exact (((hstem.append (plain_natStr socket)).append hch).append (plain_natStr channel)).append
    htail

theorem ownKey_nodeKey (n : Nat) {name : Str} (h : plain name = true) :
    OwnKey memoryStems (Memory.nodeKey n name) := by
  have hstem : OwnKey memoryStems "node_".toList := by decide
  exact (hstem.append (plain_natStr n)).append (append_plain (s := ['_']) (by decide) h)

/-- What `firstMatch` returns are the matches of an entry of the table. -/
theorem firstMatch_key {ps : List (Pattern × Str)} {l key : Str} {r : List Str}
    {rest : List (List Str)} (h : firstMatch ps l = some (key, r, rest)) :
    ∃ p, (p, key) ∈ ps ∧ findall p l = r :: rest := by
  obtain ⟨⟨p, key'⟩, hmem, hp⟩ := List.exists_of_findSome?_eq_some h
  simp only at hp
  split at hp
  · cases hp
  · rename_i hfind
    cases hp
    exact ⟨p, hmem, hfind⟩

namespace Memory

/-- A property of the lists of samples that new lists have and that one more number keeps. -/
structure Grows (P : Str → List Str → Prop) : Prop where
  new : ∀ k, OwnKey memoryStems k → P k []
  add : ∀ k v t, P k v → Pattern.Fits Pattern.decimal t → P k (v ++ [t])

section Grows

variable {P : Str → List Str → Prop}

theorem Grows.appendAt (hP : Grows P) {d d' : Samples Str} (hd : d.All P) {k t : Str}
    (ht : Pattern.Fits Pattern.decimal t) (h : appendAt d k t = some d') : d'.All P := by
  obtain ⟨v, hv, rfl⟩ := Option.map_eq_some_iff.mp h
  exact hd.set (hP.add k v t (hd k v hv) ht)

theorem Grows.writesLine (hP : Grows P) {res : Samples Str} {channel : Nat} {l : Str}
    {flow : Flow State} (hres : res.All P) (h : writesLine res channel l = some flow) :
    flow.state.res.All P := by
  unfold Memory.writesLine at h
  split at h
  · cases h
    exact hres
  · rename_i r₀ r₁ rest hfind
    simp only [Option.bind_eq_bind, Option.bind_eq_some_iff, Option.some.injEq] at h
    obtain ⟨x, hx, res₁, h₁, y, hy, res₂, h₂, rfl⟩ := h
    have hx' := fits_of_getElem? (p := writes) (by rw [hfind]; simp) rfl hx
    have hy' := fits_of_getElem? (p := writes) (by rw [hfind]; simp) rfl hy
    exact hP.appendAt (hP.appendAt hres hx' h₁) hy' h₂
  · cases h
    exact hres

theorem Grows.readsLine (hP : Grows P) {res : Samples Str} {l : Str} {r₀ : List Str}
    {rest : List (List Str)} {flow : Flow State} (hres : res.All P)
    (hfind : findall reads l = r₀ :: rest) (h : readsLine res r₀ rest = some flow) :
    flow.state.res.All P := by
  unfold Memory.readsLine at h
  simp only [Option.bind_eq_bind, Option.bind_eq_some_iff] at h
  obtain ⟨text, -, channel, -, x, hx, h⟩ := h
  have hx' := fits_of_getElem? (p := reads) (by rw [hfind]; simp) rfl hx
  -- the four lists of a channel seen for the first time
  have hfresh : (if channelKey 0 channel "Rd" ∉ res.keys then
      [channelKey 0 channel "Rd", channelKey 1 channel "Rd", channelKey 0 channel "Wr",
        channelKey 1 channel "Wr"].foldl (fun res k => res.set k []) res
      else res).All P := by
    split
    · refine foldl_invariant (fun res : Samples Str => res.All P) ?_ hres
      intro res hres k hk
      refine hres.set (hP.new k ?_)
      simp only [List.mem_cons, List.not_mem_nil, or_false] at hk
      rcases hk with rfl | rfl | rfl | rfl <;> exact ownKey_channelKey _ _ (by decide)
    · exact hres
  split at h
  · cases h
    exact hfresh
  · rename_i res₁ h₁
    have hres₁ := hP.appendAt hfresh hx' h₁
    split at h
    · cases h
      exact hres₁
    · simp only [Option.bind_eq_some_iff] at h
      obtain ⟨y, hy, h⟩ := h
      have hy' := fits_of_getElem? (p := reads) (by rw [hfind]; simp) rfl hy
      split at h
      · cases h
        exact hres₁
      · rename_i res₂ h₂
        cases h
        exact hP.appendAt hres₁ hy' h₂

theorem Grows.nodeLine (hP : Grows P) {res : Samples Str} {p : Pattern} {l name : Str}
    {r₀ : List Str} {rest : List (List Str)} {flow : Flow State} (hname : plain name = true)
    (hres : res.All P) (hgroup : p.groups[1]? = some Pattern.decimal)
    (hfind : findall p l = r₀ :: rest) (h : nodeLine res name r₀ rest = some flow) :
    flow.state.res.All P := by
  unfold Memory.nodeLine at h
  simp only [Option.bind_eq_bind, Option.bind_eq_some_iff, Option.some.injEq] at h
  obtain ⟨x, hx, res₁, h₁, r₁, hr₁, y, hy, res₂, h₂, rfl⟩ := h
  have hx' := fits_of_getElem? (by rw [hfind]; simp) hgroup hx
  have hy' := fits_of_getElem? (by rw [hfind]; exact .tail _ (List.mem_of_getElem? hr₁)) hgroup hy
  refine hP.appendAt (hP.appendAt ?_ hx' h₁) hy' h₂
  split
  · exact hres
  · exact (hres.set (hP.new _ (ownKey_nodeKey 0 hname))).set (hP.new _ (ownKey_nodeKey 1 hname))

theorem Grows.systemLine (hP : Grows P) {res : Samples Str} {p : Pattern} {l key : Str}
    {r₀ : List Str} {rest : List (List Str)} {flow : Flow State} (hkey : OwnKey memoryStems key)
    (hres : res.All P) (hgroup : p.groups[0]? = some Pattern.decimal)
    (hfind : findall p l = r₀ :: rest) (h : systemLine res key r₀ = some flow) :
    flow.state.res.All P := by
  unfold Memory.systemLine at h
  simp only [Option.bind_eq_bind, Option.bind_eq_some_iff, Option.some.injEq] at h
  obtain ⟨x, hx, rfl⟩ := h
  refine hres.set (hP.add key _ x ?_ (fits_of_getElem? (by rw [hfind]; simp) hgroup hx))
  cases hget : res.get? key with
  | none => exact hP.new key hkey
  | some v => exact hres key v hget

/-- One round keeps it. -/
theorem Grows.line (hP : Grows P) {st : State} {l : Str} {flow : Flow State} (hst : st.res.All P)
    (h : line st l = some flow) : flow.state.res.All P := by
  unfold Memory.line at h
  split at h
  · exact hP.writesLine hst h
  · split at h
    · rename_i hfind
      exact hP.readsLine hst hfind h
    · split at h
      · rename_i key r rest hm
        obtain ⟨p, hp, hfind⟩ := firstMatch_key hm
        have hnode : ∀ e ∈ nodes.map (fun e => (node e.1, e.2)), plain e.2 = true ∧
            e.1.groups[1]? = some Pattern.decimal := by decide
        exact hP.nodeLine (hnode _ hp).1 hst (hnode _ hp).2 hfind h
      · split at h
        · rename_i key r rest hm
          obtain ⟨p, hp, hfind⟩ := firstMatch_key hm
          have hsystem : ∀ e ∈ systems.map (fun e => (system e.1, e.2)), OwnKey memoryStems e.2 ∧
              e.1.groups[0]? = some Pattern.decimal := by decide
          exact hP.systemLine (hsystem _ hp).1 hst (hsystem _ hp).2 hfind h
        · cases h
          exact hst

end Grows

end Memory

/-- What every round keeps, the samples of a log have. -/
theorem Memory.Grows.memorySamples {P : Str → List Str → Prop} (hP : Grows P) {data : Str}
    {res : Samples Str} (h : memorySamples data = some res) : res.All P := by
  obtain ⟨st, hst, rfl⟩ := Option.map_eq_some_iff.mp h
  have hstart : (⟨.empty, none⟩ : State).res.All P := Dict.All.empty
  exact runLines_invariant (fun st => st.res.All P) (fun _ _ _ hs hl => hP.line hs hl) _ hstart hst

theorem own_memorySamples {data : Str} {res : Samples Str} (h : memorySamples data = some res) :
    res.All (OwnSamples memoryStems) :=
  Memory.Grows.memorySamples ⟨fun _ hk => hk, fun _ _ _ hk _ => hk⟩ h

theorem own_readMemory {order : Enumeration Str} {data : Str} {out : Result F}
    (h : readMemory order data = some out) : out.All (Own memoryStems) := by
  unfold readMemory at h
  simp only [Option.bind_eq_bind, Option.bind_eq_some_iff] at h
  obtain ⟨samples, hsamples, res, hclean, h⟩ := h
  have hown := own_memorySamples hsamples
  have hres : res.All (OwnSamples memoryStems) := by
    refine foldlM_invariant (fun res : Samples Str => res.All (OwnSamples memoryStems)) ?_ hown
      hclean
    intro acc hacc e he acc' hstep
    simp only [Option.bind_eq_bind, Option.bind_eq_some_iff, Option.some.injEq] at hstep
    obtain ⟨v, -, rfl⟩ := hstep
    exact hacc.set (hown.items e he)
  refine foldlM_invariant (fun out : Result F => out.All (Own memoryStems)) ?_ Dict.All.empty h
  intro out hout e he out' hstep
  simp only [Option.bind_eq_some_iff, Option.some.injEq] at hstep
  obtain ⟨v, -, rfl⟩ := hstep
  exact hout.set ⟨hres.items e he, plain_str_fmt2 _⟩

/-- How the keys of `read_pcie` start. -/
def pcieStems : List Str := ["sys_pcie_".toList]

theorem own_pcieLine {res res' : Samples Str} {l : Str} (hres : res.All (OwnSamples pcieStems))
    (h : Pcie.line res l = some res') : res'.All (OwnSamples pcieStems) := by
  unfold Pcie.line at h
  split at h
  · cases h
    exact hres
  · rename_i key r rest hm
    obtain ⟨p, hp, -⟩ := firstMatch_key hm
    have hrows : ∀ e ∈ Pcie.rows, OwnKey pcieStems e.2 := by decide
    have hkey : OwnKey pcieStems key := hrows _ hp
    simp only [Option.bind_eq_bind, Option.bind_eq_some_iff, Option.some.injEq] at h
    obtain ⟨x, -, y, -, rfl⟩ := h
    exact own_appendSample (own_appendSample hres (hkey.append (by decide)) x)
      (hkey.append (by decide)) y

theorem own_addMem {out out' : Result F} {key : Str} (hkey : OwnKey pcieStems key)
    (hout : out.All (Own pcieStems)) (h : Pcie.addMem F out key = some out') :
    out'.All (Own pcieStems) := by
  unfold Pcie.addMem at h
  split at h
  · simp only [Option.bind_eq_bind, Option.bind_eq_some_iff, Option.some.injEq] at h
    obtain ⟨x, -, y, -, mem, -, rfl⟩ := h
    exact hout.set ⟨hkey.append (by decide), plain_str_intStr mem⟩
  · cases h
    exact hout

theorem own_readPcie {order : Enumeration Str} {data : Str} {out : Result F}
    (h : readPcie order data = some out) : out.All (Own pcieStems) := by
  unfold readPcie at h
  simp only [Option.bind_eq_bind, Option.bind_eq_some_iff] at h
  obtain ⟨res, hres, out₁, hout₁, out₂, hhit, hmiss⟩ := h
  have hown : res.All (OwnSamples pcieStems) :=
    foldlM_invariant (fun res : Samples Str => res.All (OwnSamples pcieStems))
      (fun _ hacc _ _ _ hstep => own_pcieLine hacc hstep) Dict.All.empty hres
  have hout : out₁.All (Own pcieStems) := by
    refine foldlM_invariant (fun out : Result F => out.All (Own pcieStems)) ?_ Dict.All.empty hout₁
    intro out hout e he out' hstep
    simp only [Option.bind_eq_some_iff, Option.some.injEq] at hstep
    obtain ⟨v, -, avg, -, rfl⟩ := hstep
    exact hout.set ⟨hown.items e he, plain_str_intStr avg⟩
  exact own_addMem (by decide) (own_addMem (by decide) hout hhit) hmiss

/-! ### The application logs -/

/-- How the keys of `read_l3fwd` start. -/
def l3fwdStems : List Str := ["l3fwd_".toList]

theorem own_readL3fwd [Sorting] {order : Enumeration Str} {data : Str} {out : Result F}
    (h : readL3fwd order data = some out) : out.All (Own l3fwdStems) := by
  unfold readL3fwd at h
  simp only [Option.bind_eq_bind, Option.bind_eq_some_iff, Option.some.injEq] at h
  obtain ⟨res, hres, rfl⟩ := h
  have hown : res.All (OwnSamples l3fwdStems) := own_collect (by decide) hres
  refine own_averagesOut order ?_
  refine foldl_invariant (fun res : Samples F => res.All (OwnSamples l3fwdStems)) ?_ hown
  intro res hres k _
  unfold L3fwd.trim
  split
  · exact hres
  · rename_i l hl
    split
    · exact hres.set (hres k l hl)
    · exact hres.set (hres k l hl)

/-- How the keys of `read_trex` start. -/
def trexStems : List Str := ["trex_lat".toList, "trex_tx_bps".toList, "trex_rx_bps".toList]

theorem own_readTrex [Sorting] {order : Enumeration Str} {fuel : Nat}
    {literalEval : Str → Option (Obj F)}
    {data : Str} {out : Result F} (h : readTrex order fuel literalEval data = some out) :
    out.All (Own trexStems) := by
  unfold readTrex at h
  simp only [Option.bind_eq_bind, Option.bind_eq_some_iff, Option.some.injEq] at h
  obtain ⟨texts, -, dicts, -, s, -, l₁, -, l₂, -, l₃, -, l₄, -, l₅, -, l₆, -, rfl⟩ := h
  refine own_averagesOut order (Dict.All.ofList ?_)
  intro e he
  simp only [List.mem_cons, List.not_mem_nil, or_false] at he
  rcases he with rfl | rfl | rfl | rfl | rfl | rfl | rfl <;>
    (dsimp only [OwnSamples]; decide)

/-- How the keys of `read_trex_ndr` start. -/
def trexNdrStems : List Str := ["trex_ndr".toList]

theorem own_readTrexNdr [Sorting] {order : Enumeration Str} {data : Str} {out : Result F}
    (h : readTrexNdr order data = some out) : out.All (Own trexNdrStems) := by
  unfold readTrexNdr at h
  simp only [Option.bind_eq_bind, Option.bind_eq_some_iff, Option.some.injEq] at h
  obtain ⟨res, hres, ndr, -, rfl⟩ := h
  have hndr : OwnKey trexNdrStems "trex_ndr".toList := by decide
  have hown : res.All (OwnSamples trexNdrStems) := by
    refine foldlM_invariant (fun res : Samples F => res.All (OwnSamples trexNdrStems)) ?_
      Dict.All.empty hres
    intro acc hacc l _ acc' hstep
    simp only [TrexNdr.line] at hstep
    split at hstep
    · cases hstep
      exact hacc
    · simp only [Option.bind_eq_bind, Option.bind_eq_some_iff, Option.some.injEq] at hstep
      obtain ⟨text, -, x, -, rfl⟩ := hstep
      exact own_appendSample hacc hndr x
  exact own_averagesOut order (hown.set hndr)

/-- How the keys of `read_fclick_wp` start. -/
def fclickWpStems : List Str := ["fclick_".toList]

theorem own_fclickWpLine {res res' : Samples F} {l : Str}
    (hres : res.All (OwnSamples fclickWpStems))
    (h : FclickWp.line res l = some res') : res'.All (OwnSamples fclickWpStems) := by
  refine foldlM_invariant (fun res : Samples F => res.All (OwnSamples fclickWpStems)) ?_ hres h
  intro acc hacc e he acc' hstep
  have htable : OwnKey fclickWpStems e.2.1 := by
    simp only [FclickWp.table, List.mem_cons, List.not_mem_nil, or_false] at he
    rcases he with rfl | rfl | rfl | rfl | rfl | rfl <;> (dsimp only; decide)
  split at hstep
  rename_i start key read
  split at hstep
  · simp only [Option.bind_eq_bind, Option.bind_eq_some_iff, Option.some.injEq] at hstep
    obtain ⟨x, -, rfl⟩ := hstep
    exact own_appendSample hacc htable x
  · cases hstep
    exact hacc

theorem own_readFclickWp [Sorting] {order : Enumeration Str} {data : Str} {out : Result F}
    (h : readFclickWp order data = some out) : out.All (Own fclickWpStems) := by
  unfold readFclickWp at h
  simp only [Option.bind_eq_bind, Option.bind_eq_some_iff, Option.some.injEq] at h
  obtain ⟨res, hres, d₁, -, d₂, -, d₃, -, rfl⟩ := h
  have hkeys : ∀ k ∈ FclickWp.keys, OwnKey fclickWpStems k := by decide
  have hown : res.All (OwnSamples fclickWpStems) := by
    refine foldlM_invariant (fun res : Samples F => res.All (OwnSamples fclickWpStems))
      (fun _ hacc _ _ _ hstep => own_fclickWpLine hacc hstep) (Dict.All.ofList ?_) hres
    intro e he
    obtain ⟨k, hk, rfl⟩ := List.mem_map.mp he
    exact hkeys k hk
  refine Dict.All.set ?_ ⟨by decide, plain_flt _⟩
  refine foldl_invariant (fun out : Result F => out.All (Own fclickWpStems)) ?_ Dict.All.empty
  intro out hout e he
  exact hout.set ⟨hown.items e he, plain_flt _⟩

/-- The three round-trip readers have one lemma: their keys are those of their table. -/
theorem own_pingRead [Sorting] {stems : List Str} {table : List (Pattern × Str)}
    (htable : ∀ e ∈ table, OwnKey stems e.2) {order : Enumeration Str} {data : Str}
    {out : Result F} (h : Ping.read table order data = some out) : out.All (Own stems) := by
  unfold Ping.read at h
  simp only [Option.bind_eq_bind, Option.bind_eq_some_iff, Option.some.injEq] at h
  obtain ⟨res, hres, trimmed, htrim, rfl⟩ := h
  refine own_averagesOut order ?_
  refine foldlM_invariant (fun res : Samples F => res.All (OwnSamples stems)) ?_
    (own_collect htable hres) htrim
  intro acc hacc k _ acc' hstep
  obtain ⟨l, hl, rfl⟩ := Option.map_eq_some_iff.mp hstep
  exact hacc.set (hacc k l hl)

/-- How the keys of `read_mica_lat` start. -/
def micaLatStems : List Str :=
  ["mica_avg".toList, "mica_50th".toList, "mica_90th".toList, "mica_99th".toList]

theorem own_readMicaLat {order : Enumeration Nat} {data : Str} {out : Result F}
    (h : readMicaLat order data = some out) : out.All (Own micaLatStems) := by
  unfold readMicaLat at h
  simp only [Option.bind_eq_bind, Option.bind_eq_some_iff] at h
  obtain ⟨histogram, -, sum, -, h⟩ := h
  split at h
  · cases h
  obtain ⟨number, -, rfl⟩ := by
    simpa only [Option.bind_eq_some_iff, Option.some.injEq] using h
  have hkeys : ∀ k ∈ micaLatStems, OwnKey micaLatStems k := by decide
  refine Dict.All.ofList ?_
  intro e he
  simp only [List.mem_cons, List.not_mem_nil, or_false] at he
  rcases he with rfl | rfl | rfl | rfl
  · exact ⟨hkeys _ (by simp [micaLatStems]), plain_str_fmt2 _⟩
  · exact ⟨hkeys _ (by simp [micaLatStems]), plain_int _⟩
  · exact ⟨hkeys _ (by simp [micaLatStems]), plain_int _⟩
  · exact ⟨hkeys _ (by simp [micaLatStems]), plain_int _⟩

/-- How the keys of `read_mica_server` start. -/
def micaServerStems : List Str := ["mica_mops".toList]

theorem own_readMicaServer [Sorting] {data : Str} {out : Result F}
    (h : readMicaServer data = some out) : out.All (Own micaServerStems) := by
  unfold readMicaServer at h
  simp only [Option.bind_eq_bind, Option.bind_eq_some_iff, Option.some.injEq] at h
  obtain ⟨mops, -, rfl⟩ := h
  have hkey : OwnKey micaServerStems "mica_mops".toList := by decide
  refine Dict.All.ofList ?_
  intro e he
  rw [List.mem_singleton.mp he]
  exact ⟨hkey, plain_str_fmt2 _⟩

/-! ### The environment -/

theorem plainChar_of_isAscii {c : Char} (h : isAscii [c] = true) : plainChar c = true := by
  have hne : ∀ d : Char, isAscii [d] = false → c ≠ d := by
    rintro d hd rfl
    rw [h] at hd
    cases hd
  simp [plainChar, isSpace, hne ',' (by decide), hne ' ' (by decide), hne '\t' (by decide),
    hne '\n' (by decide), hne '\r' (by decide), hne '\x0b' (by decide), hne '\x0c' (by decide)]

/-- A non-empty text of the characters `read_env` admits. -/
theorem plain_of_isAscii {s : Str} (hne : s ≠ []) (h : isAscii s = true) : plain s = true := by
  simp only [plain, Bool.and_eq_true, Bool.not_eq_true', List.isEmpty_eq_false_iff,
    List.all_eq_true]
  refine ⟨hne, fun c hc => plainChar_of_isAscii ?_⟩
  have hc' := List.all_eq_true.mp h c hc
  simpa [isAscii] using hc'

theorem readEnv_all (data : Str) :
    (readEnv data : Result F).All fun k v => plain k = true ∧ plain v.toStr = true := by
  refine foldl_invariant
    (fun res : Result F => res.All fun k v => plain k = true ∧ plain v.toStr = true) ?_
    Dict.All.empty
  intro res hres l _
  unfold envLine
  split
  · rename_i name val _
    split
    · exact hres
    · rename_i hc
      simp only [Bool.or_eq_true, List.isEmpty_iff, Bool.not_eq_true', not_or,
        Bool.not_eq_false] at hc
      obtain ⟨⟨⟨hname, hval⟩, haname⟩, haval⟩ := hc
      exact hres.set ⟨plain_of_isAscii hname haname, plain_of_isAscii hval haval⟩
  · exact hres

/-! ### Performance events -/

namespace PerfStat

/-- The key a line records its event under, if it records one. -/
def eventKey (l : Str) : Option Str :=
  if skipped l then none
  else match l.splitOn ',' with
    | [_, _, name, _, _, _, _] => some ("perf_".toList ++ name)
    | _ => none

theorem mem_keys_line {res res' : Samples F} {l k : Str} (h : line res l = some res') :
    k ∈ res'.keys ↔ k ∈ res.keys ∨ eventKey l = some k := by
  unfold line at h
  split at h
  · rename_i hskip
    cases h
    rw [eventKey, if_pos hskip]
    simp
  · rename_i hskip
    split at h
    · rename_i name _ _ _ _ hsplit
      have hkey : eventKey l = some ("perf_".toList ++ name) := by
        rw [eventKey, if_neg hskip, hsplit]
      simp only [Option.bind_eq_bind, Option.bind_eq_some_iff, Option.some.injEq] at h
      obtain ⟨x, -, rfl⟩ := h
      rw [appendSample, Dict.mem_keys_set, hkey, Option.some.injEq, or_comm, eq_comm]
    · cases h

/-- An entry that is a number prints as a plain text. -/
def PlainEntry (e : Entry F) : Prop := ∀ v, e = .number v → plain v.toStr = true

theorem averages_keys [Sorting] {res res' : Dict Str (Entry F)} {k k' : Str}
    (h : averages res k = some res') :
    k' ∈ res'.keys ↔ k' ∈ res.keys ∨ k' = stdName k := by
  have hk : k ∈ res.keys := by
    cases hget : res.get? k with
    | some e => exact Dict.mem_keys_of_get? hget
    | none => simp [averages, hget] at h
  have hset : ∀ v w : Entry F, k' ∈ ((res.set (stdName k) v).set k w).keys ↔
      k' ∈ res.keys ∨ k' = stdName k := by
    intro v w
    rw [Dict.mem_keys_set, Dict.mem_keys_set]
    constructor
    · rintro (rfl | rfl | h)
      · exact .inl hk
      · exact .inr rfl
      · exact .inl h
    · rintro (h | h)
      · exact .inr (.inr h)
      · exact .inr (.inl h)
  unfold averages at h
  split at h
  · cases h
    exact hset _ _
  · cases h
    exact hset _ _
  · cases h
    exact hset _ _
  · cases h

theorem averages_plain [Sorting] {res res' : Dict Str (Entry F)} {k : Str}
    (hres : res.All fun _ e => PlainEntry e) (h : averages res k = some res') :
    res'.All fun _ e => PlainEntry e := by
  have hint : PlainEntry (.number (.int 0) : Entry F) := by
    intro v hv
    cases hv
    exact plain_int 0
  have hflt : ∀ x : F, PlainEntry (.number (.flt x)) := by
    intro x v hv
    cases hv
    exact plain_flt x
  unfold averages at h
  split at h
  · cases h
    exact (hres.set (hflt _)).set (hflt _)
  · cases h
    exact (hres.set hint).set hint
  · cases h
    exact (hres.set hint).set hint
  · cases h

/-- The events recorded by the loop over the lines. -/
theorem mem_keys_samples {ls : List Str} {res : Samples F} {n : Str}
    (h : ls.foldlM line .empty = some res) :
    n ∈ res.keys ↔ ∃ l ∈ ls, eventKey l = some n := by
  rw [Dict.mem_keys_foldlM (fun l k => eventKey l = some k)
    (fun _ _ _ hstep => mem_keys_line hstep) h, Dict.keys_empty, List.mem_nil_iff, false_or]

/-- The loop over the events adds a deviation for each. -/
theorem averages_run [Sorting] {order : Enumeration Str} {res : Samples F}
    {averaged : Dict Str (Entry F)}
    (h : (order.order res.keys).foldlM averages
      (Dict.ofList (res.entries.map fun e => (e.1, (.samples e.2 : Entry F)))) = some averaged) :
    (∀ k, k ∈ averaged.keys ↔ k ∈ res.keys ∨ ∃ n ∈ res.keys, k = stdName n) ∧
      averaged.All fun _ e => PlainEntry e := by
  have hnodup : ((res.entries.map fun e => (e.1, (.samples e.2 : Entry F))).map
      Prod.fst).Nodup := by
    rw [List.map_map]
    exact res.nodup
  have hstart : ∀ k, k ∈ (Dict.ofList (res.entries.map fun e =>
      (e.1, (.samples e.2 : Entry F)))).keys ↔ k ∈ res.keys := by
    intro k
    rw [Dict.keys, Dict.entries_ofList hnodup, List.map_map]
    rfl
  constructor
  · intro k
    rw [Dict.mem_keys_foldlM (fun n k => k = stdName n)
      (fun _ _ _ hstep => averages_keys hstep) h, hstart]
    simp only [Enumeration.mem_order]
  · refine foldlM_invariant (fun res : Dict Str (Entry F) => res.All fun _ e => PlainEntry e)
      (fun _ hacc _ _ _ hstep => averages_plain hacc hstep) (Dict.All.ofList ?_) h
    intro e he v hv
    obtain ⟨p, -, rfl⟩ := List.mem_map.mp he
    cases hv

end PerfStat

/-- `read_perf_stat` returns the recorded events and their deviations, all printed plainly. -/
theorem readPerfStat_spec [Sorting] {order : Enumeration Str} {data : Str} {out : Result F}
    (h : readPerfStat order data = some out) :
    (∀ k, k ∈ out.keys ↔ ∃ l ∈ data.splitOn '\n', ∃ n, PerfStat.eventKey l = some n ∧
      (k = n ∨ k = stdName n)) ∧
    out.All fun _ v => plain v.toStr = true := by
  unfold readPerfStat at h
  simp only [Option.bind_eq_bind, Option.bind_eq_some_iff] at h
  obtain ⟨res, hres, averaged, haveraged, h⟩ := h
  obtain ⟨hkeys, hplain⟩ := PerfStat.averages_run haveraged
  constructor
  · intro k
    have hout : k ∈ out.keys ↔ k ∈ averaged.keys := by
      rw [Dict.mem_keys_foldlM (fun e k => e.1 = k) ?_ h]
      · rw [Dict.keys_empty, List.mem_nil_iff, false_or, Dict.keys, List.mem_map]
      · intro out e out' hstep
        simp only [Option.bind_eq_some_iff, Option.some.injEq] at hstep
        obtain ⟨v, -, rfl⟩ := hstep
        rw [Dict.mem_keys_set, or_comm, eq_comm]
    rw [hout, hkeys]
    simp only [PerfStat.mem_keys_samples hres]
    constructor
    · rintro (⟨l, hl, hn⟩ | ⟨n, ⟨l, hl, hn⟩, rfl⟩)
      · exact ⟨l, hl, k, hn, .inl rfl⟩
      · exact ⟨l, hl, n, hn, .inr rfl⟩
    · rintro ⟨l, hl, n, hn, rfl | rfl⟩
      · exact .inl ⟨l, hl, hn⟩
      · exact .inr ⟨n, ⟨l, hl, hn⟩, rfl⟩
  · refine foldlM_invariant (fun out : Result F => out.All fun _ v => plain v.toStr = true) ?_
      Dict.All.empty h
    rintro out hout ⟨k, e⟩ he out' hstep
    simp only [Option.bind_eq_some_iff, Option.some.injEq] at hstep
    obtain ⟨v, hv, rfl⟩ := hstep
    refine hout.set (hplain k e (Dict.get?_eq_some_iff.mpr he) v ?_)
    cases e with
    | samples l => cases hv
    | number w =>
        cases hv
        rfl

/-! ### The NIC's own counters -/

namespace Neo

/-- A row that is no heading. -/
def Counted (row : Str) : Prop :=
  "==============".toList.isPrefixOf row = false ∧ hasSub "Counter Name".toList row = false

/-- Two cells hold a counter: a name that is no ruler, and a numeral in front of the unit. -/
def Holds (bars : List Char) (name val : Str) : Prop :=
  rule name = false ∧ replace [' '] [] (valueText val) ≠ [] ∧
    (parseNumeral ((valueText val).filter (· ∉ bars))).isSome = true

theorem fst_of_cells {skip : Nat} {bars : List Char} {name val : Str} {e : Str × F}
    (h : cells skip bars name val = some e) : e.1 = key skip name := by
  unfold cells at h
  split at h
  · cases h
  · dsimp only at h
    split at h
    · cases h
    · obtain ⟨x, -, rfl⟩ := Option.map_eq_some_iff.mp h
      rfl

theorem isSome_cells_iff {skip : Nat} {bars : List Char} {name val : Str} :
    (cells skip bars name val : Option (Str × F)).isSome = true ↔ Holds bars name val := by
  rw [cells, Holds]
  by_cases hrule : rule name = true
  · simp [hrule]
  by_cases hblank : replace [' '] [] (valueText val) = []
  · simp [hblank]
  · simp [hrule, hblank, PyFloat.isSome_ofStr]

theorem Counted.not_heading {row : Str} (h : Counted row) :
    ¬ ("==============".toList.isPrefixOf row || hasSub "Counter Name".toList row) = true := by
  rw [h.1, h.2]
  exact Bool.false_ne_true

theorem lineCells_heading {row : Str} (hrow : ¬ Counted row) :
    (lineCells row : List (Str × F)) = [] := by
  rw [lineCells, if_pos]
  rw [Counted, not_and_or, Bool.not_eq_false, Bool.not_eq_false] at hrow
  exact Bool.or_eq_true_iff.mpr hrow

/-- The name cell of a counter that a row shows, and the number of characters that go. -/
inductive NameCell (row : Str) : Nat → Str → Prop
  | raw {t name val : Str} {rest : List Str} (hrow : Counted row)
      (hterms : splitStr "||".toList row = t :: name :: val :: rest)
      (h : Holds ['|'] name val) : NameCell row 1 name
  | analysed {t name val name' val' : Str} {rest : List Str} (hrow : Counted row)
      (hterms : splitStr "||".toList row = t :: name :: val :: name' :: val' :: rest)
      (h : Holds ['|'] name val) (h' : Holds [] name' val') : NameCell row 2 name'

/-- The recorded keys are those of the name cells. -/
theorem mem_lineCells_iff {row k : Str} :
    (∃ e ∈ (lineCells row : List (Str × F)), e.1 = k) ↔
      ∃ skip name, NameCell row skip name ∧ k = key skip name := by
  constructor
  · rintro ⟨e, he, rfl⟩
    by_cases hrow : Counted row
    · rw [lineCells, if_neg hrow.not_heading] at he
      match hterms : splitStr "||".toList row with
      | [] | [_] | [_, _] =>
          rw [hterms] at he
          exact absurd he List.not_mem_nil
      | t :: name :: val :: rest =>
          rw [hterms] at he
          dsimp only at he
          cases hraw : (cells 1 ['|'] name val : Option (Str × F)) with
          | none =>
              rw [hraw] at he
              exact absurd he List.not_mem_nil
          | some e₁ =>
              rw [hraw] at he
              have hholds : Holds ['|'] name val :=
                isSome_cells_iff.mp (Option.isSome_of_eq_some hraw)
              rcases List.mem_cons.mp he with rfl | he
              · exact ⟨1, name, .raw hrow hterms hholds, fst_of_cells hraw⟩
              · match rest with
                | [] | [_] => exact absurd he List.not_mem_nil
                | name' :: val' :: rest =>
                    have hcells := Option.mem_toList.mp he
                    exact ⟨2, name', .analysed hrow hterms hholds
                      (isSome_cells_iff.mp (Option.isSome_of_eq_some hcells)), fst_of_cells hcells⟩
    · rw [lineCells_heading hrow] at he
      exact absurd he List.not_mem_nil
  · rintro ⟨skip, name, hname, rfl⟩
    cases hname with
    | raw hrow hterms h =>
        obtain ⟨e, he⟩ : ∃ e, cells 1 ['|'] _ _ = some (e : Str × F) :=
          Option.isSome_iff_exists.mp (isSome_cells_iff.mpr h)
        rw [lineCells, if_neg hrow.not_heading, hterms]
        dsimp only
        rw [he]
        exact ⟨e, List.mem_cons_self, fst_of_cells he⟩
    | analysed hrow hterms h h' =>
        obtain ⟨e, he⟩ : ∃ e, cells 1 ['|'] _ _ = some (e : Str × F) :=
          Option.isSome_iff_exists.mp (isSome_cells_iff.mpr h)
        obtain ⟨e', he'⟩ : ∃ e', cells 2 [] _ _ = some (e' : Str × F) :=
          Option.isSome_iff_exists.mp (isSome_cells_iff.mpr h')
        rw [lineCells, if_neg hrow.not_heading, hterms]
        dsimp only
        rw [he, he']
        exact ⟨e', List.mem_cons_of_mem e (Option.mem_toList.mpr rfl), fst_of_cells he'⟩

/-- A name cell is a cell of its row. -/
theorem NameCell.mem {row name : Str} {skip : Nat} (h : NameCell row skip name) :
    name ∈ splitStr "||".toList row := by
  cases h with
  | raw _ hterms _ =>
      rw [hterms]
      exact List.mem_cons_of_mem _ List.mem_cons_self
  | analysed _ hterms _ _ =>
      rw [hterms]
      simp

end Neo

/-- The keys the rows of a log show. -/
def NeoKey (data k : Str) : Prop :=
  ∃ row ∈ (Neo.plainText data).splitOn '\n', ∃ skip name,
    Neo.NameCell row skip name ∧ k = Neo.key skip name

theorem mem_keys_neoSamples {data k : Str} :
    k ∈ (neoSamples data : Samples F).keys ↔ NeoKey data k := by
  have hline : ∀ (res : Samples F) (l : Str), k ∈ (Neo.line res l).keys ↔
      k ∈ res.keys ∨ ∃ e ∈ (Neo.lineCells l : List (Str × F)), e.1 = k := by
    intro res l
    refine Dict.mem_keys_foldl (fun (e : Str × F) k => e.1 = k) (fun d e => ?_) _ res
    rw [appendSample, Dict.mem_keys_set, or_comm, eq_comm]
  rw [neoSamples, Dict.mem_keys_foldl
    (fun l k => ∃ e ∈ (Neo.lineCells l : List (Str × F)), e.1 = k) hline, NeoKey]
  simp only [Neo.mem_lineCells_iff, Dict.keys_empty, List.not_mem_nil, false_or]

/-- `read_neo` returns the keys the rows show, each with a number. -/
theorem readNeo_spec [Sorting] (order : Enumeration Str) (data : Str) :
    (∀ k, k ∈ (readNeo order data : Result F).keys ↔ NeoKey data k) ∧
    (readNeo order data : Result F).All fun _ v => plain v.toStr = true := by
  constructor
  · intro k
    have hitem : (∃ e ∈ (neoSamples data : Samples F).items order, k = e.1) ↔
        k ∈ (neoSamples data : Samples F).keys := by
      rw [← Enumeration.mem_order order, ← Dict.map_fst_items, List.mem_map]
      simp only [eq_comm]
    rw [readNeo, Dict.mem_keys_foldl (fun e k => k = e.1) fun d e => by
      rw [Dict.mem_keys_set, or_comm], hitem, mem_keys_neoSamples]
    simp
  · refine foldl_invariant (fun out : Result F => out.All fun _ v => plain v.toStr = true) ?_
      Dict.All.empty
    intro out hout e _
    exact hout.set (plain_flt _)

/-! ### All readers -/

/-- How the keys of a reader start. -/
def Reader.stems : Reader → List Str
  | .net | .cpu | .env => [[]]
  | .memory => memoryStems
  | .pcie => pcieStems
  | .perfStat => ["perf_".toList]
  | .l3fwd => l3fwdStems
  | .trex => trexStems
  | .trexNdr => trexNdrStems
  | .neo => ["neo_".toList]
  | .fclickWp => fclickWpStems
  | .dpdkPingClient => ["dpdk_ping_".toList]
  | .dpdkPingServer => ["dpdk_pong_".toList]
  | .ibvpingClient => ["ibvping_".toList]
  | .micaLat => micaLatStems
  | .micaServer => micaServerStems

/-- The readers that compose their keys, or filter the characters of a name. -/
def Reader.composes : Reader → Bool
  | .net | .cpu | .perfStat | .neo => false
  | _ => true

theorem Reader.composes_or (r : Reader) :
    r.composes = true ∨ r = .net ∨ r = .cpu ∨ r = .perfStat ∨ r = .neo := by
  cases r <;> decide

/-- What such a reader returns has its own keys and plain values. -/
theorem Reader.own_read [Sorting] {rt : Runtime F} {r : Reader} (hr : r.composes = true)
    {data : Str}
    {out : Result F} (h : r.read rt data = some out) : out.All (Own r.stems) := by
  cases r with
  | net => cases hr
  | cpu => cases hr
  | perfStat => cases hr
  | neo => cases hr
  | env =>
      cases h
      refine (readEnv_all data).imp fun k v hkv => ⟨⟨⟨[], ?_, List.nil_prefix⟩, hkv.1⟩, hkv.2⟩
      simp [stems]
  | memory => exact own_readMemory h
  | pcie => exact own_readPcie h
  | l3fwd => exact own_readL3fwd h
  | trex => exact own_readTrex h
  | trexNdr => exact own_readTrexNdr h
  | fclickWp => exact own_readFclickWp h
  | dpdkPingClient => exact own_pingRead (by decide) h
  | dpdkPingServer => exact own_pingRead (by decide) h
  | ibvpingClient => exact own_pingRead (by decide) h
  | micaLat => exact own_readMicaLat h
  | micaServer => exact own_readMicaServer h

end Nicmem
