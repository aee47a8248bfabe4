/-
Doorbell records never share a cache line, and pages live as long as their records.

A page is read as the list of its slots in use: the positions below `num_db` whose bit is
clear.  Taking a record adds the lowest free slot to that list, and giving one back takes
its slot out.  The bits behind `num_db` in the last word are always set; they are never
handed out because a page with room has a lower free slot.

The invariant of a run is that the records the queues hold from pages are those of the
slots in use, page by page.  Everything else follows from where a slot lies in its page.
What is no record of a page is one of a custom allocator, or the pointer that a queue gets
if such an allocator asks for the default and there is no new page: it is in no page, and
giving it back changes nothing.
-/
import Nicmem.Mlx5.Dbrec
import Mathlib.Algebra.Order.BigOperators.Group.List
import Mathlib.Algebra.Order.Group.Nat
import Mathlib.Data.List.Range
import Mathlib.Data.List.Lattice
import Mathlib.Data.Nat.Bitwise

namespace Nicmem

open C

/-! ### Words -/

/-- The bit of a slot. -/
def Mlx5DbPage.bit (page : Mlx5DbPage) (i : Nat) : Bool :=
  (page.free.getD (i / 64) 0).getLsbD (i % 64)

/-- `ffsl` of a word that is not zero is one more than the position of its lowest set bit. -/
theorem ffsl_spec {w : BitVec 64} (hw : w ≠ 0) :
    ffsl w - 1 < 64 ∧ w.getLsbD (ffsl w - 1) = true ∧ ∀ j < ffsl w - 1, w.getLsbD j = false := by
  obtain ⟨k, hk, hbit⟩ : ∃ k < 64, w.getLsbD k = true := by
    by_contra hnone
    push Not at hnone
    refine hw (BitVec.eq_of_getLsbD_eq fun i hi => ?_)
    simpa using hnone i hi
  unfold ffsl
  rcases hfind : (List.range 64).find? w.getLsbD with _ | j
  · exact absurd hbit (List.find?_eq_none.mp hfind k (List.mem_range.mpr hk))
  · have hlt := List.mem_range.mp (List.mem_of_find?_eq_some hfind)
    refine ⟨hlt, List.find?_some hfind, fun i hi => ?_⟩
    have hi' : i < j := hi
    have hnone := List.find?_range_eq_some.mp hfind
    simpa using hnone.2.2 i hi'

theorem firstFreeWord_spec :
    ∀ {ws : List (BitVec 64)} {k : Nat}, ws.getD k 0 ≠ 0 →
      ∃ i ≤ k, firstFreeWord ws = some i ∧ i < ws.length ∧ ws.getD i 0 ≠ 0 ∧
        ∀ j < i, ws.getD j 0 = 0 := by
  intro ws
  induction ws with
  | nil =>
      intro k hk
      exact absurd (by simp) hk
  | cons w ws ih =>
      intro k hk
      unfold firstFreeWord
      by_cases hw : w = 0
      · rcases k with _ | k
        · exact absurd hw hk
        · obtain ⟨i, hik, hfirst, hlen, hne, hbefore⟩ := ih hk
          refine ⟨i + 1, Nat.succ_le_succ hik, by rw [if_pos hw, hfirst]; rfl,
            Nat.succ_lt_succ hlen, hne, fun j hj => ?_⟩
          rcases j with _ | j
          · exact hw
          · exact hbefore j (Nat.lt_of_succ_lt_succ hj)
      · exact ⟨0, Nat.zero_le k, if_neg hw, Nat.succ_pos _, hw,
          fun j hj => absurd hj (Nat.not_lt_zero j)⟩

/-- The first word with a set bit, and in it the lowest: the lowest of all. -/
theorem firstFree_le {page : Mlx5DbPage} {k : Nat} (hk : page.bit k = true) :
    ∃ i w, firstFreeWord page.free = some i ∧ page.free[i]? = some w ∧ i < page.free.length ∧
      page.bit (i * 64 + (ffsl w - 1)) = true ∧ ffsl w - 1 < 64 ∧ i * 64 + (ffsl w - 1) ≤ k := by
  have hne : page.free.getD (k / 64) 0 ≠ 0 := by
    intro h0
    unfold Mlx5DbPage.bit at hk
    rw [h0] at hk
    simp at hk
  obtain ⟨i, hik, hfirst, hlen, hw, -⟩ := firstFreeWord_spec hne
  obtain ⟨hlt, hset, hlow⟩ := ffsl_spec hw
  refine ⟨i, page.free.getD i 0, hfirst, getElem?_eq_getD 0 hlen, hlen, ?_, hlt, ?_⟩
  · unfold Mlx5DbPage.bit
    rw [show (i * 64 + (ffsl (page.free.getD i 0) - 1)) / 64 = i by omega,
      show (i * 64 + (ffsl (page.free.getD i 0) - 1)) % 64 = ffsl (page.free.getD i 0) - 1 by omega]
    exact hset
  · rcases Nat.lt_or_ge i (k / 64) with hlt' | hge
    · omega
    · have heq : i = k / 64 := Nat.le_antisymm hik hge
      subst heq
      by_contra hgt
      have h0 := hlow (k % 64) (by omega)
      unfold Mlx5DbPage.bit at hk
      rw [h0] at hk
      exact absurd hk Bool.false_ne_true

/-- One word of a page is changed in one bit. -/
theorem bit_set {page : Mlx5DbPage} {i j : Nat} {w : BitVec 64} {b : Bool}
    (hlen : i < page.free.length) (hj : j < 64)
    (hw : ∀ n < 64, w.getLsbD n = if n = j then b else (page.free.getD i 0).getLsbD n)
    (useCnt n : Nat) :
    Mlx5DbPage.bit { page with useCnt, free := page.free.set i w } n =
      if n = i * 64 + j then b else page.bit n := by
  have hmod : n % 64 < 64 := Nat.mod_lt n (by omega)
  unfold Mlx5DbPage.bit
  simp only
  rw [getD_set w 0 hlen]
  by_cases hni : n / 64 = i
  · rw [if_pos hni, hw _ hmod, hni]
    by_cases hnj : n % 64 = j
    · rw [if_pos hnj, if_pos (by omega)]
    · rw [if_neg hnj, if_neg (by omega)]
  · rw [if_neg hni, if_neg (by omega)]

theorem getLsbD_clear (w : BitVec 64) {j n : Nat} (hn : n < 64) :
    (w &&& ~~~(1#64 <<< j)).getLsbD n = if n = j then false else w.getLsbD n := by
  by_cases hnj : n = j
  · subst hnj
    simp [hn]
  · simp [hn, hnj]
    omega

theorem getLsbD_set (w : BitVec 64) {j n : Nat} (hn : n < 64) :
    (w ||| 1#64 <<< j).getLsbD n = if n = j then true else w.getLsbD n := by
  by_cases hnj : n = j
  · subst hnj
    simp [hn]
  · simp [hn, hnj]
    omega

/-! ### The slots of a page -/

/-- The slots in use. -/
def Mlx5DbPage.slots (page : Mlx5DbPage) : List Nat :=
  (List.range page.numDb).filter fun i => !page.bit i

/-- The records in use. -/
def Mlx5DbPage.records (dev : DbDevice) (page : Mlx5DbPage) : List Nat :=
  page.slots.map fun i => page.buf + i * dev.cacheLineSize

variable {dev : DbDevice} {page page' : Mlx5DbPage}

theorem mem_slots {i : Nat} : i ∈ page.slots ↔ i < page.numDb ∧ page.bit i = false := by
  simp [Mlx5DbPage.slots]

theorem nodup_slots (page : Mlx5DbPage) : page.slots.Nodup := List.nodup_range.filter _

/-- A page that differs in one bit, which is clear in `page'`, has one slot more. -/
theorem perm_slots {k : Nat} (hbit : ∀ n, page'.bit n = if n = k then false else page.bit n)
    (hnum : page'.numDb = page.numDb) (hk : k < page.numDb) (hset : page.bit k = true) :
    page'.slots.Perm (k :: page.slots) := by
  have hnot : k ∉ page.slots := fun hmem => by
    rw [(mem_slots.mp hmem).2] at hset
    exact Bool.false_ne_true hset
  rw [List.perm_ext_iff_of_nodup (nodup_slots page') (List.nodup_cons.mpr ⟨hnot, nodup_slots page⟩)]
  intro n
  rw [List.mem_cons, mem_slots, mem_slots, hnum, hbit]
  by_cases hnk : n = k
  · simp [hnk, hk]
  · simp [hnk]

/-- A page in order, except that it may have no record in use. -/
structure Mlx5DbPage.WF (dev : DbDevice) (page : Mlx5DbPage) : Prop where
  numDb : page.numDb = dev.pageSize / dev.cacheLineSize
  words : page.numDb ≤ 64 * page.free.length
  useCnt : page.useCnt = page.slots.length
  aligned : dev.pageSize ∣ page.buf
  top : page.buf + dev.pageSize < 2 ^ 64

theorem addPage_wf {buf : Nat} (haligned : dev.pageSize ∣ buf)
    (htop : buf + dev.pageSize < 2 ^ 64) :
    (addPage dev buf).WF dev ∧ (addPage dev buf).slots = [] := by
  have hwords : (addPage dev buf).numDb ≤ 64 * (addPage dev buf).free.length := by
    simp only [addPage, List.length_replicate]
    omega
  have hslots : (addPage dev buf).slots = [] := by
    refine List.filter_eq_nil_iff.mpr fun i hi => ?_
    have hlt := Nat.lt_of_lt_of_le (List.mem_range.mp hi) hwords
    have hword : i / 64 < (addPage dev buf).free.length := by omega
    have hones : (addPage dev buf).free.getD (i / 64) 0 = BitVec.allOnes 64 := by
      rw [List.getD_eq_getElem _ _ hword]
      simp [addPage]
    have hmod : i % 64 < 64 := Nat.mod_lt i (by omega)
    unfold Mlx5DbPage.bit
    rw [hones, BitVec.getLsbD_allOnes]
    simp [hmod]
  exact ⟨⟨rfl, hwords, by rw [hslots]; rfl, haligned, htop⟩, hslots⟩

/-- A page with a record more, at the slot `k`. -/
structure TookDb (dev : DbDevice) (page page' : Mlx5DbPage) (k : Nat) : Prop where
  wf : page'.WF dev
  buf : page'.buf = page.buf
  slots : page'.slots.Perm (k :: page.slots)

theorem takeDb_spec (h : page.WF dev) (hroom : page.useCnt < page.numDb) :
    ∃ page' k, takeDb dev page = some (page', page.buf + k * dev.cacheLineSize) ∧
      TookDb dev page page' k := by
  obtain ⟨n, hn, hbit⟩ : ∃ n < page.numDb, page.bit n = true := by
    by_contra hnone
    push Not at hnone
    have hall : page.slots = List.range page.numDb := by
      refine List.filter_eq_self.mpr fun i hi => ?_
      simpa using hnone i (List.mem_range.mp hi)
    rw [h.useCnt, hall, List.length_range] at hroom
    exact Nat.lt_irrefl _ hroom
  obtain ⟨i, w, hfirst, hw, hlen, hset, hj, hle⟩ := firstFree_le hbit
  have hwd : page.free.getD i 0 = w := by
    rw [getElem?_eq_getD 0 hlen, Option.some.injEq] at hw
    exact hw
  have hbits := bit_set (w := w &&& ~~~(1#64 <<< (ffsl w - 1))) (b := false) hlen hj
    (fun n hn => by rw [hwd]; exact getLsbD_clear w hn) (page.useCnt + 1)
  have hslots := perm_slots hbits rfl (Nat.lt_of_le_of_lt hle hn) hset
  refine ⟨{ page with
      useCnt := page.useCnt + 1, free := page.free.set i (w &&& ~~~(1#64 <<< (ffsl w - 1))) },
    i * 64 + (ffsl w - 1), ?_, ⟨h.numDb, ?_, ?_, h.aligned, h.top⟩, rfl, hslots⟩
  · simp only [takeDb, hfirst, hw, store, updateAt, bind, Option.bind_some, Option.map_some]
  · simp only [List.length_set]
    exact h.words
  · rw [hslots.length_eq, List.length_cons, ← h.useCnt]

/-- The mask of `mlx5_free_db` rounds an address down to a multiple of the page size. -/
theorem dbPageOf_eq (dev : DbDevice) {q r : Nat} (hq : q < 2 ^ (64 - dev.logPageSize))
    (hr : r < dev.pageSize) : dbPageOf dev (dev.pageSize * q + r) = dev.pageSize * q := by
  have hmask : 2 ^ 64 - 1 - (dev.pageSize - 1) =
      (2 ^ (64 - dev.logPageSize) - 1) <<< dev.logPageSize := by
    rw [Nat.shiftLeft_eq, Nat.sub_mul, ← Nat.pow_add, Nat.sub_add_cancel (Nat.le_of_lt dev.page_lt),
      Nat.one_mul]
    have := Nat.two_pow_pos dev.logPageSize
    unfold DbDevice.pageSize
    omega
  unfold dbPageOf
  rw [hmask]
  unfold DbDevice.pageSize at hr ⊢
  refine Nat.eq_of_testBit_eq fun i => ?_
  rw [Nat.testBit_and, Nat.testBit_shiftLeft, Nat.testBit_two_pow_sub_one,
    Nat.testBit_two_pow_mul_add _ hr, Nat.testBit_two_pow_mul]
  by_cases hi : i < dev.logPageSize
  · simp [hi, Nat.not_le.mpr hi]
  · by_cases hhigh : i - dev.logPageSize < 64 - dev.logPageSize
    · simp [hi, Nat.not_lt.mp hi, hhigh]
    · have h0 : q.testBit (i - dev.logPageSize) = false :=
        Nat.testBit_lt_two_pow (Nat.lt_of_lt_of_le hq
          (Nat.pow_le_pow_right (by omega) (Nat.not_lt.mp hhigh)))
      simp [hi, h0]

theorem pageSize_mul (dev : DbDevice) : dev.pageSize * 2 ^ (64 - dev.logPageSize) = 2 ^ 64 := by
  unfold DbDevice.pageSize
  rw [← Nat.pow_add, Nat.add_sub_cancel' (Nat.le_of_lt dev.page_lt)]

/-- The slot of a record is found again, and so is its page. -/
theorem dbPageOf_record (h : page.WF dev) {k : Nat} (hk : k < page.numDb) :
    dbPageOf dev (page.buf + k * dev.cacheLineSize) = page.buf ∧
      k * dev.cacheLineSize + dev.cacheLineSize ≤ dev.pageSize := by
  have hend : k * dev.cacheLineSize + dev.cacheLineSize ≤ dev.pageSize := by
    rw [h.numDb] at hk
    have := (Nat.le_div_iff_mul_le dev.line_pos).mp hk
    rw [← Nat.succ_mul]
    exact this
  refine ⟨?_, hend⟩
  obtain ⟨q, hq⟩ := h.aligned
  have hlt : dev.pageSize * q < dev.pageSize * 2 ^ (64 - dev.logPageSize) := by
    rw [pageSize_mul, ← hq]
    exact Nat.lt_of_le_of_lt (Nat.le_add_right _ _) h.top
  rw [hq]
  exact dbPageOf_eq dev (Nat.lt_of_mul_lt_mul_left hlt)
    (Nat.lt_of_lt_of_le (Nat.lt_add_of_pos_right dev.line_pos) hend)

/-- The pointer `(void *)-1` is in no page. -/
theorem Mlx5DbPage.WF.useDefault_ne (h : page.WF dev) :
    dbPageOf dev allocatorUseDefault ≠ page.buf := by
  have hpos : 0 < dev.pageSize := Nat.two_pow_pos _
  have hcount : 0 < 2 ^ (64 - dev.logPageSize) := Nat.two_pow_pos _
  have hmul := pageSize_mul dev
  have hsplit : dev.pageSize * (2 ^ (64 - dev.logPageSize) - 1) + dev.pageSize = 2 ^ 64 := by
    rw [← Nat.mul_succ, Nat.succ_eq_add_one, Nat.sub_add_cancel hcount, hmul]
  have hlast : allocatorUseDefault =
      dev.pageSize * (2 ^ (64 - dev.logPageSize) - 1) + (dev.pageSize - 1) := by
    unfold allocatorUseDefault
    omega
  have htop := h.top
  rw [hlast, dbPageOf_eq dev (by omega) (by omega)]
  omega

/-- A page that gives a record back, at the slot `k`. -/
theorem putDb_head {k : Nat} (h : page.WF dev) (hk : k ∈ page.slots) (pages : List Mlx5DbPage) :
    ∃ page', putDb dev (page.buf + k * dev.cacheLineSize) (page :: pages) =
        some (if page.useCnt - 1 = 0 then pages else page' :: pages) ∧
      page'.WF dev ∧ page'.buf = page.buf ∧ page.slots.Perm (k :: page'.slots) := by
  obtain ⟨hlt, hclear⟩ := mem_slots.mp hk
  have hlen : k / 64 < page.free.length := by
    have := h.words
    omega
  have hslot : (page.buf + k * dev.cacheLineSize - page.buf) / dev.cacheLineSize = k := by
    rw [Nat.add_sub_cancel_left, Nat.mul_div_cancel _ dev.line_pos]
  have hw : ∀ n < 64, (page.free.getD (k / 64) 0 ||| 1#64 <<< (k % 64)).getLsbD n =
      if n = k % 64 then true else (page.free.getD (k / 64) 0).getLsbD n :=
    fun n hn => getLsbD_set _ hn
  have hbits := bit_set hlen (Nat.mod_lt k (by omega)) hw (page.useCnt - 1)
  rw [show k / 64 * 64 + k % 64 = k by omega] at hbits
  have hslots : page.slots.Perm (k :: Mlx5DbPage.slots { page with
      useCnt := page.useCnt - 1
      free := page.free.set (k / 64) (page.free.getD (k / 64) 0 ||| 1#64 <<< (k % 64)) }) := by
    refine perm_slots (fun n => ?_) rfl hlt (by rw [hbits, if_pos rfl])
    rw [hbits]
    by_cases hnk : n = k
    · simp [hnk, hclear]
    · simp [hnk]
  refine ⟨{ page with
      useCnt := page.useCnt - 1
      free := page.free.set (k / 64) (page.free.getD (k / 64) 0 ||| 1#64 <<< (k % 64)) },
    ?_, ⟨h.numDb, ?_, ?_, h.aligned, h.top⟩, rfl, hslots⟩
  · rw [putDb, if_pos (dbPageOf_record h hlt).1, hslot]
    simp only [updateAt, getElem?_eq_getD 0 hlen, bind, Option.bind_some, Option.map_some]
    split_ifs <;> rfl
  · simp only [List.length_set]
    exact h.words
  · have hlength := hslots.length_eq
    rw [List.length_cons, ← h.useCnt] at hlength
    exact Nat.sub_eq_of_eq_add hlength

/-! ### The list of pages -/

/-- The records in use on a list of pages. -/
def recordsOf (dev : DbDevice) (pages : List Mlx5DbPage) : List Nat :=
  pages.flatMap (·.records dev)

/-- A list of pages in order, each with a record in use. -/
structure PagesOK (dev : DbDevice) (pages : List Mlx5DbPage) : Prop where
  wf : ∀ page ∈ pages, page.WF dev ∧ 0 < page.useCnt
  bufs : (pages.map (·.buf)).Nodup

variable {pages : List Mlx5DbPage}

theorem PagesOK.tail (h : PagesOK dev (page :: pages)) : PagesOK dev pages :=
  ⟨fun p hp => h.wf p (List.mem_cons_of_mem page hp), (List.nodup_cons.mp h.bufs).2⟩

theorem PagesOK.cons_of_buf_eq (h : PagesOK dev (page :: pages)) (hbuf : page'.buf = page.buf)
    (hwf : page'.WF dev) (hpos : 0 < page'.useCnt) : PagesOK dev (page' :: pages) := by
  refine ⟨fun p hp => ?_, ?_⟩
  · rcases List.mem_cons.mp hp with rfl | hp
    · exact ⟨hwf, hpos⟩
    · exact h.wf p (List.mem_cons_of_mem page hp)
  · have hbufs := h.bufs
    rwa [List.map_cons, ← hbuf] at hbufs

theorem TookDb.useCnt_pos {k : Nat} (h : TookDb dev page page' k) : 0 < page'.useCnt := by
  rw [h.wf.useCnt, h.slots.length_eq]
  exact Nat.succ_pos _

theorem TookDb.records {k : Nat} (h : TookDb dev page page' k) :
    (page'.records dev).Perm ((page.buf + k * dev.cacheLineSize) :: page.records dev) := by
  unfold Mlx5DbPage.records
  rw [h.buf]
  exact h.slots.map _

/-- The first page with room gives a record; without one every page is full. -/
theorem takeFirst_spec :
    ∀ {pages : List Mlx5DbPage}, PagesOK dev pages →
      (takeFirst dev pages = some none ∧ ∀ page ∈ pages, page.useCnt = page.numDb) ∨
      ∃ pages' db, takeFirst dev pages = some (some (pages', db)) ∧ PagesOK dev pages' ∧
        pages'.map (·.buf) = pages.map (·.buf) ∧
        (recordsOf dev pages').Perm (db :: recordsOf dev pages) ∧
        ∃ page ∈ pages, page.useCnt < page.numDb := by
  intro pages
  induction pages with
  | nil =>
      intro _
      exact Or.inl ⟨rfl, by simp⟩
  | cons page pages ih =>
      intro h
      have hwf := (h.wf page List.mem_cons_self).1
      by_cases hroom : page.useCnt < page.numDb
      · obtain ⟨page', k, htake, htook⟩ := takeDb_spec hwf hroom
        refine Or.inr ⟨page' :: pages, page.buf + k * dev.cacheLineSize, ?_,
          h.cons_of_buf_eq htook.buf htook.wf htook.useCnt_pos, ?_, ?_, page, List.mem_cons_self,
          hroom⟩
        · rw [takeFirst, if_pos hroom, htake, Option.map_some]
        · rw [List.map_cons, List.map_cons, htook.buf]
        · exact htook.records.append_right _
      · rcases ih h.tail with ⟨hnone, hfull⟩ | ⟨pages', db, htake, hok, hbufs, hperm, p, hp, hlt⟩
        · refine Or.inl ⟨by rw [takeFirst, if_neg hroom, hnone]; rfl, fun p hp => ?_⟩
          rcases List.mem_cons.mp hp with rfl | hp
          · refine Nat.le_antisymm ?_ (Nat.not_lt.mp hroom)
            rw [hwf.useCnt]
            exact (List.length_filter_le _ _).trans (Nat.le_of_eq List.length_range)
          · exact hfull p hp
        · refine Or.inr ⟨page :: pages', db, by rw [takeFirst, if_neg hroom, htake]; rfl,
            ⟨?_, ?_⟩, ?_, ?_, p, List.mem_cons_of_mem page hp, hlt⟩
          · intro q hq
            rcases List.mem_cons.mp hq with rfl | hq
            · exact h.wf q List.mem_cons_self
            · exact hok.wf q hq
          · rw [List.map_cons, hbufs]
            exact h.bufs
          · rw [List.map_cons, List.map_cons, hbufs]
          · refine (hperm.append_left _).trans ?_
            exact List.perm_middle

/-- A record of a page is given back to that page. -/
theorem putDb_spec {db : Nat} :
    ∀ {pages : List Mlx5DbPage}, PagesOK dev pages → db ∈ recordsOf dev pages →
      ∃ pages', putDb dev db pages = some pages' ∧ PagesOK dev pages' ∧
        (pages'.map (·.buf)).Sublist (pages.map (·.buf)) ∧
        (recordsOf dev pages).Perm (db :: recordsOf dev pages') := by
  intro pages
  induction pages with
  | nil =>
      intro _ hdb
      simp [recordsOf] at hdb
  | cons page pages ih =>
      intro h hdb
      have hwf := (h.wf page List.mem_cons_self).1
      rcases List.mem_append.mp hdb with hdb | hdb
      · obtain ⟨k, hk, rfl⟩ := List.mem_map.mp hdb
        obtain ⟨page', hput, hwf', hbuf, hslots⟩ := putDb_head hwf hk pages
        have hrecords : (page.records dev).Perm
            ((page.buf + k * dev.cacheLineSize) :: page'.records dev) := by
          unfold Mlx5DbPage.records
          rw [hbuf]
          exact hslots.map _
        have hcount : page.useCnt = page'.useCnt + 1 := by
          rw [hwf.useCnt, hwf'.useCnt, hslots.length_eq, List.length_cons]
        refine ⟨_, hput, ?_⟩
        split_ifs with hlast
        · -- the page's last record, and the page goes with it
          have hnil : page'.slots = [] := by
            rw [← List.length_eq_zero_iff, ← hwf'.useCnt]
            omega
          refine ⟨h.tail, (List.sublist_cons_self _ _), ?_⟩
          have hempty : page'.records dev = [] := by rw [Mlx5DbPage.records, hnil, List.map_nil]
          rw [hempty] at hrecords
          exact hrecords.append_right _
        · refine ⟨h.cons_of_buf_eq hbuf hwf' (by omega), ?_, hrecords.append_right _⟩
          rw [List.map_cons, List.map_cons, hbuf]
      · obtain ⟨pages', hput, hok, hbufs, hperm⟩ := ih h.tail hdb
        have hother : dbPageOf dev db ≠ page.buf := by
          obtain ⟨q, hq, hdbq⟩ := List.mem_flatMap.mp hdb
          obtain ⟨k, hk, rfl⟩ := List.mem_map.mp hdbq
          rw [(dbPageOf_record (h.tail.wf q hq).1 (mem_slots.mp hk).1).1]
          intro heq
          exact (List.nodup_cons.mp h.bufs).1 (List.mem_map.mpr ⟨q, hq, heq⟩)
        refine ⟨page :: pages', by rw [putDb, if_neg hother, hput]; rfl, ⟨?_, ?_⟩,
          hbufs.cons_cons _, ?_⟩
        · intro q hq
          rcases List.mem_cons.mp hq with rfl | hq
          · exact h.wf q List.mem_cons_self
          · exact hok.wf q hq
        · exact h.bufs.sublist (hbufs.cons_cons _)
        · refine (hperm.append_left _).trans ?_
          exact List.perm_middle

/-! ### Where records lie -/

/-- Two records whose cache lines do not meet. -/
def LinesApart (dev : DbDevice) (db db' : Nat) : Prop :=
  db + dev.cacheLineSize ≤ db' ∨ db' + dev.cacheLineSize ≤ db

theorem Mlx5DbPage.pairwise_records (page : Mlx5DbPage) :
    (page.records dev).Pairwise (LinesApart dev) := by
  unfold Mlx5DbPage.records
  rw [List.pairwise_map]
  refine List.Pairwise.imp (fun {i j} hij => ?_) ((List.pairwise_lt_range).filter _)
  refine Or.inl ?_
  have hmul := Nat.mul_le_mul_right dev.cacheLineSize (Nat.succ_le_of_lt hij)
  rw [Nat.succ_mul] at hmul
  omega

/-- A record lies with its whole line inside its page. -/
theorem Mlx5DbPage.WF.mem_records (h : page.WF dev) {db : Nat} (hdb : db ∈ page.records dev) :
    page.buf ≤ db ∧ db + dev.cacheLineSize ≤ page.buf + dev.pageSize ∧
      dev.cacheLineSize ∣ db - page.buf := by
  obtain ⟨k, hk, rfl⟩ := List.mem_map.mp hdb
  have hend := (dbPageOf_record h (mem_slots.mp hk).1).2
  refine ⟨Nat.le_add_right _ _, by omega, ?_⟩
  rw [Nat.add_sub_cancel_left]
  exact Nat.dvd_mul_left _ _

/-- Different pages do not overlap, being aligned. -/
theorem pages_apart (h : page.WF dev) (h' : page'.WF dev) (hne : page.buf ≠ page'.buf) :
    page.buf + dev.pageSize ≤ page'.buf ∨ page'.buf + dev.pageSize ≤ page.buf := by
  obtain ⟨q, hq⟩ := h.aligned
  obtain ⟨q', hq'⟩ := h'.aligned
  rw [hq, hq', ← Nat.mul_succ, ← Nat.mul_succ]
  have hqne : q ≠ q' := fun heq => hne (by rw [hq, hq', heq])
  rcases Nat.lt_or_gt_of_ne hqne with hlt | hgt
  · exact Or.inl (Nat.mul_le_mul_left _ hlt)
  · exact Or.inr (Nat.mul_le_mul_left _ hgt)

theorem PagesOK.pairwise_records (h : PagesOK dev pages) :
    (recordsOf dev pages).Pairwise (LinesApart dev) := by
  refine List.pairwise_flatMap.mpr ⟨fun p _ => p.pairwise_records, ?_⟩
  have hbufs := List.pairwise_map.mp h.bufs
  refine List.Pairwise.imp_of_mem (fun {p q} hp hq hne db hdb db' hdb' => ?_) hbufs
  have hin := ((h.wf p hp).1).mem_records hdb
  have hin' := ((h.wf q hq).1).mem_records hdb'
  unfold LinesApart
  rcases pages_apart (h.wf p hp).1 (h.wf q hq).1 hne with hle | hle <;> omega

theorem LinesApart.symm {db db' : Nat} (h : LinesApart dev db db') : LinesApart dev db' db :=
  Or.symm h

/-- Every page of a list in order has as many records in use as it counts. -/
theorem PagesOK.length_records (h : PagesOK dev pages) :
    (recordsOf dev pages).length = (pages.map (·.useCnt)).sum := by
  unfold recordsOf
  rw [List.length_flatMap]
  congr 1
  refine List.map_congr_left fun p hp => ?_
  rw [Mlx5DbPage.records, List.length_map, (h.wf p hp).1.useCnt]

/-! ### Runs -/

/-- A record that a queue holds from a page: of no custom allocator, and not the pointer
`(void *)-1`. -/
def isPageRecord (r : Nat × Bool) : Bool := !r.2 && r.1 ≠ allocatorUseDefault

/-- The records the queues hold from pages. -/
def DbUse.records (u : DbUse) : List Nat := (u.live.filter isPageRecord).map (·.1)

/-- The queues hold the records of the slots in use. -/
structure DbUse.Inv (dev : DbDevice) (u : DbUse) : Prop where
  pages : PagesOK dev u.dbList
  records : u.records.Perm (recordsOf dev u.dbList)

variable {u : DbUse}

/-- What an allocation does: it leaves the pages and gives no record of a page, or it gives
one more. -/
def AllocatedDb (dev : DbDevice) (pages pages' : List Mlx5DbPage) (db : Option Nat)
    (custom : Bool) : Prop :=
  (pages' = pages ∧ ∀ r ∈ db, isPageRecord (r, custom) = false) ∨
    ∃ r, db = some r ∧ isPageRecord (r, custom) = true ∧
      (recordsOf dev pages').Perm (r :: recordsOf dev pages)

theorem PagesOK.isPageRecord {db : Nat} (h : PagesOK dev pages) (hdb : db ∈ recordsOf dev pages) :
    isPageRecord (db, false) = true := by
  obtain ⟨p, hp, hdbp⟩ := List.mem_flatMap.mp hdb
  have hin := ((h.wf p hp).1).mem_records hdbp
  have htop := (h.wf p hp).1.top
  have hline := dev.line_pos
  have hne : db ≠ allocatorUseDefault := by
    unfold allocatorUseDefault
    omega
  simpa [Nicmem.isPageRecord] using hne

/-- The default path, reached with `NULL` or with `(void *)-1`. -/
theorem defaultAlloc_spec (h : PagesOK dev pages) (db : Option Nat) {newPage : Option Nat}
    (hdb : ∀ r ∈ db, r = allocatorUseDefault) (hfresh : FreshPage dev pages newPage) :
    ∃ pages' db', defaultAlloc dev pages db newPage = some (pages', db', false) ∧
      PagesOK dev pages' ∧ AllocatedDb dev pages pages' db' false := by
  rcases takeFirst_spec h with ⟨hnone, -⟩ | ⟨pages', r, htake, hok, -, hperm, -⟩
  · rcases newPage with _ | buf
    · refine ⟨pages, db, by simp [defaultAlloc, hnone], h, Or.inl ⟨rfl, fun r hr => ?_⟩⟩
      rw [hdb r hr]
      rfl
    · obtain ⟨-, haligned, htop, hnew⟩ := hfresh buf rfl
      obtain ⟨hwf, hslots⟩ := addPage_wf haligned htop
      have hroom : (addPage dev buf).useCnt < (addPage dev buf).numDb :=
        Nat.div_pos dev.line_le dev.line_pos
      obtain ⟨page', k, htake, htook⟩ := takeDb_spec hwf hroom
      have hempty : (addPage dev buf).records dev = [] := by
        rw [Mlx5DbPage.records, hslots, List.map_nil]
      have hrecords := htook.records
      rw [hempty] at hrecords
      have hok : PagesOK dev (page' :: pages) := by
        refine ⟨fun p hp => ?_, ?_⟩
        · rcases List.mem_cons.mp hp with rfl | hp
          · exact ⟨htook.wf, htook.useCnt_pos⟩
          · exact h.wf p hp
        · rw [List.map_cons, List.nodup_cons, htook.buf]
          exact ⟨hnew, h.bufs⟩
      have hperm : (recordsOf dev (page' :: pages)).Perm (_ :: recordsOf dev pages) :=
        hrecords.append_right _
      exact ⟨page' :: pages, some _, by simp [defaultAlloc, hnone, htake], hok, Or.inr
        ⟨_, rfl, hok.isPageRecord (hperm.mem_iff.mpr List.mem_cons_self), hperm⟩⟩
  · exact ⟨pages', some r, by simp [defaultAlloc, htake], hok, Or.inr
      ⟨r, rfl, hok.isPageRecord (hperm.mem_iff.mpr List.mem_cons_self), hperm⟩⟩

theorem mlx5AllocDbrec_spec (h : PagesOK dev pages) (pd : DbrAllocator) {newPage : Option Nat}
    (hfresh : FreshPage dev pages newPage) :
    ∃ pages' db custom, mlx5AllocDbrec dev pages pd newPage = some (pages', db, custom) ∧
      PagesOK dev pages' ∧ AllocatedDb dev pages pages' db custom := by
  rcases pd with _ | _ | db
  · obtain ⟨pages', db', heq, hspec⟩ := defaultAlloc_spec h none (by simp) hfresh
    exact ⟨pages', db', false, heq, hspec⟩
  · exact ⟨pages, none, false, rfl, h, Or.inl ⟨rfl, by simp⟩⟩
  · by_cases hdb : db = allocatorUseDefault
    · obtain ⟨pages', db', heq, hspec⟩ :=
        defaultAlloc_spec h (some db) (by simpa using hdb) hfresh
      exact ⟨pages', db', false, (if_pos hdb).trans heq, hspec⟩
    · exact ⟨pages, some db, true, if_neg hdb, h, Or.inl ⟨rfl, fun r _ => rfl⟩⟩

/-- What is no record of a page is given back without effect. -/
theorem putDb_useDefault :
    ∀ {pages : List Mlx5DbPage}, PagesOK dev pages →
      putDb dev allocatorUseDefault pages = some pages := by
  intro pages
  induction pages with
  | nil => exact fun _ => rfl
  | cons page pages ih =>
      intro h
      rw [putDb, if_neg ((h.wf page List.mem_cons_self).1.useDefault_ne), ih h.tail,
        Option.map_some]

theorem mlx5FreeDb_other {db : Nat} {custom : Bool} (h : PagesOK dev pages)
    (hother : isPageRecord (db, custom) = false) : mlx5FreeDb dev pages db custom = some pages := by
  cases custom with
  | true => rfl
  | false =>
      have hdb : db = allocatorUseDefault := by simpa [isPageRecord] using hother
      rw [mlx5FreeDb, if_neg Bool.false_ne_true, hdb]
      exact putDb_useDefault h

theorem DbUse.step_inv (h : u.Inv dev) (op : DbOp) (hlegal : op.Legal dev u) :
    ∃ u' out, u.step dev op = some (u', out) ∧ u'.Inv dev := by
  cases op with
  | alloc pd newPage =>
      obtain ⟨pages', db, custom, heq, hok, hspec⟩ := mlx5AllocDbrec_spec h.pages pd hlegal
      simp only [DbUse.step, heq, Option.map_some]
      rcases hspec with ⟨rfl, hother⟩ | ⟨r, rfl, hpage, hperm⟩
      · rcases db with _ | r
        · exact ⟨_, _, rfl, hok, h.records⟩
        · refine ⟨_, _, rfl, hok, ?_⟩
          rw [DbUse.records, List.filter_cons_of_neg (by simp [hother r rfl])]
          exact h.records
      · refine ⟨_, _, rfl, hok, ?_⟩
        rw [DbUse.records, List.filter_cons_of_pos hpage, List.map_cons]
        exact (h.records.cons r).trans hperm.symm
  | free db custom =>
      have hsplit := ((List.perm_cons_erase (show (db, custom) ∈ u.live from hlegal)).filter
        isPageRecord).map (·.1)
      simp only [DbUse.step]
      by_cases hpage : isPageRecord (db, custom) = true
      · rw [List.filter_cons_of_pos hpage, List.map_cons] at hsplit
        have hcustom : custom = false := by
          rw [isPageRecord, Bool.and_eq_true, Bool.not_eq_true'] at hpage
          exact hpage.1
        subst hcustom
        have hmem : db ∈ recordsOf dev u.dbList :=
          h.records.mem_iff.mp (hsplit.mem_iff.mpr List.mem_cons_self)
        obtain ⟨pages', hput, hok, -, hperm⟩ := putDb_spec h.pages hmem
        refine ⟨⟨pages', u.live.erase (db, false)⟩, none, ?_, hok, ?_⟩
        · rw [mlx5FreeDb, if_neg Bool.false_ne_true, hput, Option.map_some]
        · exact (hsplit.symm.trans (h.records.trans hperm)).cons_inv
      · rw [List.filter_cons_of_neg hpage] at hsplit
        rw [mlx5FreeDb_other h.pages (Bool.not_eq_true _ ▸ hpage), Option.map_some]
        exact ⟨_, _, rfl, h.pages, hsplit.symm.trans h.records⟩

theorem dbRun_inv {ops : List DbOp} (hlegal : DbLegal dev ops) :
    ∃ u outs, dbRun dev ops = some (u, outs) ∧ u.Inv dev :=
  Machine.run_invariant (fun _ op h hop => DbUse.step_inv h op hop)
    ⟨⟨by simp, List.nodup_nil⟩, List.Perm.refl _⟩ hlegal

/-! ### The guarantees -/

/-- Whatever the queues allocate and free, no call goes wrong, and the records they hold
from pages are in different cache lines, each inside a page and at a multiple of the line
size. -/
theorem dbRun_records_apart {dev : DbDevice} {ops : List DbOp} (hlegal : DbLegal dev ops) :
    ∃ u outs, dbRun dev ops = some (u, outs) ∧ u.records.Pairwise (LinesApart dev) ∧
      ∀ db ∈ u.records, ∃ page ∈ u.dbList, page.buf ≤ db ∧
        db + dev.cacheLineSize ≤ page.buf + dev.pageSize ∧ dev.cacheLineSize ∣ db - page.buf := by
  obtain ⟨u, outs, hrun, hinv⟩ := dbRun_inv hlegal
  refine ⟨u, outs, hrun, ?_, fun db hdb => ?_⟩
  · rw [hinv.records.pairwise_iff LinesApart.symm]
    exact hinv.pages.pairwise_records
  · obtain ⟨p, hp, hdbp⟩ := List.mem_flatMap.mp (hinv.records.mem_iff.mp hdb)
    exact ⟨p, hp, ((hinv.pages.wf p hp).1).mem_records hdbp⟩

/-- A page of two lines. -/
def twoLines : DbDevice := ⟨7, 64, by decide, by decide, by decide⟩

/-- Two records of one page and one that the default path could not give. -/
theorem dbRun_records_apart_threeQueues : ∃ u outs,
    dbRun twoLines [.alloc .default (some 128), .alloc .default none,
        .alloc (.custom (some allocatorUseDefault)) none] = some (u, outs) ∧
      u.records.Pairwise (LinesApart twoLines) := by
  have hlegal : DbLegal twoLines [.alloc .default (some 128), .alloc .default none,
      .alloc (.custom (some allocatorUseDefault)) none] := by decide
  obtain ⟨u, outs, hrun, hapart, -⟩ := dbRun_records_apart hlegal
  exact ⟨u, outs, hrun, hapart⟩

/-- A page is kept exactly as long as it has records: each has one that a queue holds, so
that no page is left once all records of pages are given back. -/
theorem dbRun_pages_in_use {dev : DbDevice} {ops : List DbOp} (hlegal : DbLegal dev ops) :
    ∃ u outs, dbRun dev ops = some (u, outs) ∧
      (∀ page ∈ u.dbList, ∃ db ∈ u.records, dbPageOf dev db = page.buf) ∧
      u.records.length = (u.dbList.map (·.useCnt)).sum := by
  obtain ⟨u, outs, hrun, hinv⟩ := dbRun_inv hlegal
  refine ⟨u, outs, hrun, fun p hp => ?_, ?_⟩
  · obtain ⟨hwf, hpos⟩ := hinv.pages.wf p hp
    rw [hwf.useCnt] at hpos
    obtain ⟨k, hk⟩ := List.exists_mem_of_length_pos hpos
    refine ⟨p.buf + k * dev.cacheLineSize, ?_, (dbPageOf_record hwf (mem_slots.mp hk).1).1⟩
    exact hinv.records.mem_iff.mpr (List.mem_flatMap.mpr ⟨p, hp, List.mem_map_of_mem hk⟩)
  · rw [hinv.records.length_eq]
    exact hinv.pages.length_records

/-- One of two records is given back. -/
theorem dbRun_pages_in_use_oneFreed : ∃ u outs,
    dbRun twoLines [.alloc .default (some 128), .alloc .default none, .free 128 false] =
        some (u, outs) ∧
      u.records.length = (u.dbList.map (·.useCnt)).sum := by
  have hlegal : DbLegal twoLines
      [.alloc .default (some 128), .alloc .default none, .free 128 false] := by decide
  obtain ⟨u, outs, hrun, -, hcount⟩ := dbRun_pages_in_use hlegal
  exact ⟨u, outs, hrun, hcount⟩

/-- Every line of every page is taken. -/
def DbUse.Full (dev : DbDevice) (u : DbUse) : Prop :=
  u.records.length = u.dbList.length * (dev.pageSize / dev.cacheLineSize)

/-- If every line is taken the default path gives back what it was reached with, and a
record of a page otherwise. -/
theorem DbUse.Inv.defaultAlloc_none (h : u.Inv dev) (db : Option Nat) :
    (u.Full dev ∧ defaultAlloc dev u.dbList db none = some (u.dbList, db, false)) ∨
    (¬ u.Full dev ∧ ∃ pages' r, defaultAlloc dev u.dbList db none = some (pages', some r, false) ∧
      isPageRecord (r, false) = true) := by
  have hnum : u.dbList.length * (dev.pageSize / dev.cacheLineSize) =
      (u.dbList.map (·.numDb)).sum := by
    rw [List.map_congr_left (g := fun _ => dev.pageSize / dev.cacheLineSize)
      fun p hp => (h.pages.wf p hp).1.numDb]
    simp
  unfold DbUse.Full
  rw [h.records.length_eq, h.pages.length_records, hnum]
  rcases takeFirst_spec h.pages with ⟨hnone, hfull⟩ | ⟨pages', r, htake, hok, -, hperm, p, hp, hlt⟩
  · exact Or.inl ⟨by rw [List.map_congr_left hfull], by simp [defaultAlloc, hnone]⟩
  · have hle : ∀ q ∈ u.dbList, q.useCnt ≤ q.numDb := fun q hq => by
      rw [(h.pages.wf q hq).1.useCnt]
      exact (List.length_filter_le _ _).trans (Nat.le_of_eq List.length_range)
    exact Or.inr ⟨Nat.ne_of_lt (List.sum_lt_sum _ _ hle ⟨p, hp, hlt⟩), pages', r,
      by simp [defaultAlloc, htake], hok.isPageRecord (hperm.mem_iff.mpr List.mem_cons_self)⟩

end Nicmem
