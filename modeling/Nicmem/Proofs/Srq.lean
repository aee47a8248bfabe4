/-
The shared receive queue is a bounded first-in first-out queue.

The links of the buffer make one list from the element the device takes next to `tail`:
first the elements with posted requests, then the free ones (`Segment.Queue`).  Together
with `tail`, the wait queue and the elements the device works on these are all elements of
the buffer, each once.

The specification `SrqSpec` knows no links: a list of the posted requests and the requests
the device works on, under the handles they were taken with.  Every run of the driver and
the device gives outputs the specification allows.
-/
import Nicmem.Mlx5.Srq
import Nicmem.Segment
import Mathlib.Algebra.Order.Ring.Nat
import Mathlib.Data.List.Perm.Basic
import Mathlib.Data.List.Nodup
import Mathlib.Data.List.Forall2

namespace Nicmem

open C Segment

/-! ### The specification -/

/-- The requests that wait for the device, and those it works on with their handles. -/
structure SrqSpec where
  queue : List RecvWr
  inflight : List (Nat × RecvWr)

/-- Requests are added until one has too many segments or there are `cap` in the queue. -/
def SrqSpec.post (cap maxGs : Nat) : SrqSpec → List RecvWr → SrqSpec × Nat × Option Errno
  | a, [] => (a, 0, none)
  | a, wr :: wrs =>
      if wr.sgList.length > maxGs then (a, 0, some .EINVAL)
      else if a.queue.length + a.inflight.length = cap then (a, 0, some .ENOMEM)
      else
        let r := SrqSpec.post cap maxGs { a with queue := a.queue ++ [wr] } wrs
        (r.1, r.2.1 + 1, r.2.2)

/-- The device takes the oldest request under a new handle; a completion gives the number
and the segments of the request taken with the handle; a fault puts it at the end. -/
inductive SrqSpec.Step (cap maxGs : Nat) : SrqSpec → SrqOp → SrqOut → SrqSpec → Prop
  | post {a a' : SrqSpec} {wrs : List RecvWr} {nreq : Nat} {err : Option Errno}
      (h : a.post cap maxGs wrs = (a', nreq, err)) :
      Step cap maxGs a (.post wrs) (.posted nreq err) a'
  | fetch {a : SrqSpec} {ind : Nat} {wr : RecvWr} {queue : List RecvWr} (h : a.queue = wr :: queue)
      (hnew : ind ∉ a.inflight.map (·.1)) :
      Step cap maxGs a .fetch (.fetched ind (scatterOf wr.sgList))
        ⟨queue, (ind, wr) :: a.inflight⟩
  | complete {a : SrqSpec} {ind : Nat} {wr : RecvWr} (h : (ind, wr) ∈ a.inflight) :
      Step cap maxGs a (.complete ind) (.completed wr.wrId (scatterOf wr.sgList))
        { a with inflight := a.inflight.filter (·.1 ≠ ind) }
  | fault {a : SrqSpec} {ind : Nat} {wr : RecvWr} (h : (ind, wr) ∈ a.inflight) :
      Step cap maxGs a (.fault ind) .faulted ⟨a.queue ++ [wr], a.inflight.filter (·.1 ≠ ind)⟩

/-! ### Sizes -/

theorem roundupPowOfTwo_succ {n : Nat} (hn : 0 < n) :
    roundupPowOfTwo (n + 1) = 2 ^ Nat.size n := by
  unfold roundupPowOfTwo
  rw [if_neg (by omega), Nat.shiftLeft_eq, Nat.one_mul, Nat.add_sub_cancel]

theorem lt_roundupPowOfTwo_succ {n : Nat} (hn : 0 < n) : n < roundupPowOfTwo (n + 1) := by
  rw [roundupPowOfTwo_succ hn]
  exact Nat.lt_size_self n

theorem roundupPowOfTwo_le {n k : Nat} (hn : 0 < n) (hk : n < 2 ^ k) :
    roundupPowOfTwo (n + 1) ≤ 2 ^ k := by
  rw [roundupPowOfTwo_succ hn]
  exact Nat.pow_le_pow_right (by omega) (Nat.size_le.mpr hk)

theorem roundupPowOfTwo_double {n : Nat} (hn : 0 < n) :
    roundupPowOfTwo (n * 2 + 1) = 2 * roundupPowOfTwo (n + 1) := by
  have hsize : Nat.size (n * 2) = Nat.size n + 1 := by
    have hshift := Nat.size_shiftLeft (Nat.ne_of_gt hn) 1
    rwa [Nat.shiftLeft_eq, Nat.pow_one] at hshift
  rw [roundupPowOfTwo_succ hn, roundupPowOfTwo_succ (by omega), hsize, Nat.pow_succ, Nat.mul_comm]

/-! ### The elements -/

def emptyWqe : SrqWqe := ⟨0, []⟩

def nextOf (wqes : List SrqWqe) (i : Nat) : Nat := (wqes.getD i emptyWqe).nextWqeIndex

def scatOf (wqes : List SrqWqe) (i : Nat) : List WqeDataSeg := (wqes.getD i emptyWqe).scat

/-- The sizes of a queue. -/
structure Mlx5Srq.Shape (srq : Mlx5Srq) : Prop where
  wqes : srq.wqes.length = srq.max
  wrid : srq.wrid.length = srq.max
  scat : ∀ i < srq.max, (scatOf srq.wqes i).length = srq.maxGs
  max : srq.max ≤ 2 ^ 16

variable {srq : Mlx5Srq}

theorem Mlx5Srq.Shape.getElem? (h : srq.Shape) {i : Nat} (hi : i < srq.max) :
    srq.wqes[i]? = some ⟨nextOf srq.wqes i, scatOf srq.wqes i⟩ :=
  getElem?_eq_getD emptyWqe (h.wqes ▸ hi)

/-- A link is written, and nothing else changes. -/
theorem setNext_spec (h : srq.Shape) {i ind : Nat} (hi : i < srq.max) (hind : ind < srq.max) :
    ∃ wqes, srq.setNext i ind = some { srq with wqes } ∧ Mlx5Srq.Shape { srq with wqes } ∧
      (∀ j, nextOf wqes j = if j = i then ind else nextOf srq.wqes j) ∧
      ∀ j, scatOf wqes j = scatOf srq.wqes j := by
  have hmod : ind % 2 ^ 16 = ind := Nat.mod_eq_of_lt (Nat.lt_of_lt_of_le hind h.max)
  obtain ⟨wqes, heq, hlen, hget⟩ := updateAt_spec
    (fun wqe : SrqWqe => some { wqe with nextWqeIndex := ind % 2 ^ 16 }) emptyWqe (h.wqes ▸ hi) rfl
  have hscat : ∀ j, scatOf wqes j = scatOf srq.wqes j := by
    intro j
    unfold scatOf
    rw [hget]
    split_ifs with hj
    · rw [hj]
    · rfl
  refine ⟨wqes, by rw [Mlx5Srq.setNext, heq, Option.map_some],
    ⟨hlen.trans h.wqes, h.wrid, ?_, h.max⟩, fun j => ?_, hscat⟩
  · intro j hj
    rw [hscat]
    exact h.scat j hj
  · unfold nextOf
    rw [hget]
    split_ifs with hj
    · exact hmod
    · rfl

/-- A request is written to an element: its number and its segments. -/
theorem store_scat (h : srq.Shape) {i : Nat} (hi : i < srq.max) (id : Nat) {scat : List WqeDataSeg}
    (hscat : scat.length = srq.maxGs) :
    ∃ wrid wqes, store srq.wrid i id = some wrid ∧
      store srq.wqes i ⟨nextOf srq.wqes i, scat⟩ = some wqes ∧
      Mlx5Srq.Shape { srq with wrid, wqes } ∧ (∀ j, nextOf wqes j = nextOf srq.wqes j) ∧
      (∀ j, scatOf wqes j = if j = i then scat else scatOf srq.wqes j) ∧
      ∀ j, wrid.getD j 0 = if j = i then id else srq.wrid.getD j 0 := by
  obtain ⟨wrid, hwrid, hlen, hget⟩ := updateAt_spec (fun _ => some id) 0 (h.wrid ▸ hi) rfl
  obtain ⟨wqes, hwqes, hlen', hget'⟩ := updateAt_spec
    (fun _ => some (⟨nextOf srq.wqes i, scat⟩ : SrqWqe)) emptyWqe (h.wqes ▸ hi) rfl
  have hscats : ∀ j, scatOf wqes j = if j = i then scat else scatOf srq.wqes j := by
    intro j
    unfold scatOf
    rw [hget']
    split_ifs <;> rfl
  refine ⟨wrid, wqes, hwrid, hwqes, ⟨hlen'.trans h.wqes, hlen.trans h.wrid, ?_, h.max⟩, fun j => ?_,
    hscats, hget⟩
  · intro j hj
    rw [hscats]
    split_ifs
    · exact hscat
    · exact h.scat j hj
  · unfold nextOf
    rw [hget']
    split_ifs with hj
    · rw [hj]
      rfl
    · rfl

/-! ### Segments -/

theorem writeScat_spec :
    ∀ {maxGs : Nat} {sgList scat : List WqeDataSeg}, sgList.length ≤ maxGs → scat.length = maxGs →
      ∃ scat', writeScat maxGs sgList scat = some scat' ∧ scat'.length = maxGs ∧
        scatterOf scat' = scatterOf sgList := by
  intro maxGs
  induction maxGs with
  | zero =>
      intro sgList scat hle hlen
      rw [Nat.le_zero, List.length_eq_zero_iff] at hle
      rw [List.length_eq_zero_iff] at hlen
      subst hle hlen
      exact ⟨[], rfl, rfl, rfl⟩
  | succ maxGs ih =>
      intro sgList scat hle hlen
      obtain ⟨t, scat, rfl⟩ := List.exists_cons_of_length_eq_add_one hlen
      rcases sgList with _ | ⟨s, sgList⟩
      · exact ⟨lastSeg :: scat, rfl, hlen, rfl⟩
      · obtain ⟨scat', heq, hlen', hscatter⟩ :=
          ih (Nat.le_of_succ_le_succ hle) (Nat.succ.inj hlen)
        refine ⟨s :: scat', by rw [writeScat, heq, Option.map_some], congrArg _ hlen', ?_⟩
        unfold scatterOf at hscatter ⊢
        rw [List.takeWhile_cons, List.takeWhile_cons, hscatter]

theorem copyScat_spec :
    ∀ {n : Nat} {src dst : List WqeDataSeg}, src.length = n → dst.length = n →
      ∃ scat, copyScat n src dst = some scat ∧ scat.length = n ∧
        scatterOf scat = scatterOf src := by
  intro n
  induction n with
  | zero =>
      intro src dst hsrc hdst
      rw [List.length_eq_zero_iff] at hsrc hdst
      subst hsrc hdst
      exact ⟨[], rfl, rfl, rfl⟩
  | succ n ih =>
      intro src dst hsrc hdst
      obtain ⟨s, src, rfl⟩ := List.exists_cons_of_length_eq_add_one hsrc
      obtain ⟨t, dst, rfl⟩ := List.exists_cons_of_length_eq_add_one hdst
      unfold copyScat
      by_cases hkey : s.lkey = invalidLkey
      · refine ⟨s :: dst, if_pos hkey, hdst, ?_⟩
        unfold scatterOf
        simp [hkey]
      · obtain ⟨scat, heq, hlen, hscatter⟩ := ih (Nat.succ.inj hsrc) (Nat.succ.inj hdst)
        refine ⟨s :: scat, by rw [if_neg hkey, heq, Option.map_some], congrArg _ hlen, ?_⟩
        unfold scatterOf at hscatter ⊢
        rw [List.takeWhile_cons, List.takeWhile_cons, hscatter]

/-! ### Where the elements are -/

theorem forall₂_imp_of_mem {α β : Type} {R S : α → β → Prop} {l : List α} {l' : List β}
    (h : List.Forall₂ R l l') (himp : ∀ x ∈ l, ∀ y, R x y → S x y) : List.Forall₂ S l l' := by
  induction h with
  | nil => exact List.Forall₂.nil
  | cons hxy _ ih =>
      refine List.Forall₂.cons (himp _ List.mem_cons_self _ hxy) (ih fun x hx => ?_)
      exact himp x (List.mem_cons_of_mem _ hx)

/-- The element `i` holds the request. -/
def Holds (wrid : List Nat) (wqes : List SrqWqe) (i : Nat) (wr : RecvWr) : Prop :=
  wrid.getD i 0 = wr.wrId ∧ scatterOf (scatOf wqes i) = scatterOf wr.sgList

theorem Holds.congr {wrid : List Nat} {wqes wqes' : List SrqWqe} {i : Nat} {wr : RecvWr}
    (h : Holds wrid wqes i wr) (hscat : ∀ j, scatOf wqes' j = scatOf wqes j) :
    Holds wrid wqes' i wr :=
  ⟨h.1, by rw [hscat]; exact h.2⟩

/-- These elements are not written to, apart from their links. -/
def Kept (srq srq' : Mlx5Srq) (l : List Nat) : Prop :=
  ∀ j ∈ l, srq'.wrid.getD j 0 = srq.wrid.getD j 0 ∧ scatOf srq'.wqes j = scatOf srq.wqes j

/-- The elements of the wait queue, if there is one; its last is where the links end. -/
def WaitQueue (srq : Mlx5Srq) (wait : List Nat) : Prop :=
  (srq.waitqHead = -1 ∧ wait = []) ∨
  ∃ (h t : Nat) (w : List Nat), srq.waitqHead = h ∧ srq.waitqTail = t ∧
    Seg (nextOf srq.wqes) h w t ∧ wait = w ++ [t]

/-- The elements with posted requests, the free ones and those of the wait queue, in a
system whose requests are those of `a`. -/
structure Layout (cap : Nat) (s : SrqSystem) (posted free wait : List Nat) (a : SrqSpec) :
    Prop where
  shape : s.srq.Shape
  links : Queue (nextOf s.srq.wqes) s.hwHead s.srq.head s.srq.tail posted free
  waitq : WaitQueue s.srq wait
  perm : (posted ++ (free ++ s.srq.tail :: (wait ++ s.inflight))).Perm (List.range s.srq.max)
  cap : wait.length + cap + 1 = s.srq.max
  requests : List.Forall₂ (Holds s.srq.wrid s.srq.wqes) posted a.queue
  handles : s.inflight = a.inflight.map (·.1)
  taken : ∀ x ∈ a.inflight, Holds s.srq.wrid s.srq.wqes x.1 x.2

variable {cap : Nat} {s : SrqSystem} {posted free wait : List Nat} {a : SrqSpec}

theorem Layout.nodup (h : Layout cap s posted free wait a) :
    (posted ++ (free ++ s.srq.tail :: (wait ++ s.inflight))).Nodup :=
  h.perm.nodup_iff.mpr List.nodup_range

theorem Layout.lt_max (h : Layout cap s posted free wait a) {i : Nat}
    (hi : i ∈ posted ++ (free ++ s.srq.tail :: (wait ++ s.inflight))) : i < s.srq.max :=
  List.mem_range.mp (h.perm.mem_iff.mp hi)

theorem Layout.tail_lt (h : Layout cap s posted free wait a) : s.srq.tail < s.srq.max :=
  h.lt_max (by simp)

/-- Every element not free and not in the wait queue has a request. -/
theorem Layout.length (h : Layout cap s posted free wait a) :
    free.length + (a.queue.length + a.inflight.length) = cap := by
  have hlen := h.perm.length_eq
  have hcap := h.cap
  have hposted := h.requests.length_eq
  simp only [List.length_append, List.length_cons, List.length_range, h.handles,
    List.length_map] at hlen
  omega

theorem Layout.head_eq_tail (h : Layout cap s posted free wait a) :
    s.srq.head = s.srq.tail ↔ free = [] := by
  rcases free with _ | ⟨x, free⟩
  · exact iff_of_true (seg_nil.mp h.links.empty) rfl
  · refine iff_of_false (fun heq => ?_) (List.cons_ne_nil x free)
    have hx := h.links.produce.1
    have hnodup := (List.nodup_append.mp h.nodup).2.1
    rw [List.cons_append, List.nodup_cons, ← hx, heq] at hnodup
    exact hnodup.1 (by simp)

/-- The request goes to the element at the head. -/
theorem Layout.fill {x : Nat} (h : Layout cap s posted (x :: free) wait a) (wr : RecvWr)
    {scat : List WqeDataSeg} (hscat : scat.length = s.srq.maxGs)
    (hscatter : scatterOf scat = scatterOf wr.sgList) :
    s.srq.head < s.srq.max ∧ ∃ wrid wqes, store s.srq.wrid s.srq.head wr.wrId = some wrid ∧
      store s.srq.wqes s.srq.head ⟨nextOf s.srq.wqes s.srq.head, scat⟩ = some wqes ∧
      ∀ counter db,
        Kept s.srq { s.srq with wrid, wqes, head := nextOf s.srq.wqes s.srq.head, counter, db }
          (s.srq.tail :: wait) ∧
        Layout cap { s with srq := { s.srq with
          wrid, wqes, head := nextOf s.srq.wqes s.srq.head, counter, db } }
        (posted ++ [x]) free wait { a with queue := a.queue ++ [wr] } := by
  obtain ⟨hx, hlinks⟩ := h.links.produce
  have hlt : s.srq.head < s.srq.max := h.lt_max (by simp [hx])
  obtain ⟨wrid, wqes, hwrid, hwqes, hshape, hnext, hscats, hids⟩ :=
    store_scat h.shape hlt wr.wrId hscat
  have hnodup := h.nodup
  have hposted : x ∉ posted := fun hmem =>
    (List.nodup_append.mp hnodup).2.2 x hmem x (by simp) rfl
  have hrest := (List.nodup_append.mp hnodup).2.1
  rw [List.cons_append, List.nodup_cons] at hrest
  have hinflight : x ∉ s.inflight := fun hmem => hrest.1 (by simp [hmem])
  have hother : ∀ i wr, i ≠ x → Holds s.srq.wrid s.srq.wqes i wr → Holds wrid wqes i wr := by
    intro i wr hne hold
    unfold Holds
    rw [hids, hscats, hx, if_neg hne, if_neg hne]
    exact hold
  refine ⟨hlt, wrid, wqes, hwrid, hwqes,
    fun counter db => ⟨fun j hj => ?_,
      ⟨hshape.wqes, hshape.wrid, hshape.scat, hshape.max⟩, ?_, ?_, ?_, h.cap, ?_, h.handles, ?_⟩⟩
  · have hne : j ≠ s.srq.head := fun heq => by
      rw [heq, hx] at hj
      refine hrest.1 (List.mem_append_right _ ?_)
      rcases List.mem_cons.mp hj with hj | hj <;> simp [hj]
    exact ⟨by rw [hids, if_neg hne], by rw [hscats, if_neg hne]⟩
  · rw [hx] at hlinks ⊢
    exact hlinks.congr hnext
  · rcases h.waitq with hnone | ⟨hd, tl, w, hhd, htl, hseg, hwait⟩
    · exact Or.inl hnone
    · exact Or.inr ⟨hd, tl, w, hhd, htl, hseg.congr fun q _ => hnext q, hwait⟩
  · rw [List.append_assoc]
    exact h.perm
  · refine List.rel_append (forall₂_imp_of_mem h.requests ?_)
      (List.Forall₂.cons ?_ List.Forall₂.nil)
    · intro i hi wr' hold
      exact hother i wr' (fun heq => hposted (heq ▸ hi)) hold
    · unfold Holds
      rw [hids, hscats, hx, if_pos rfl, if_pos rfl]
      exact ⟨rfl, hscatter⟩
  · intro y hy
    refine hother y.1 y.2 (fun heq => hinflight ?_) (h.taken y hy)
    rw [h.handles, ← heq]
    exact List.mem_map_of_mem hy

/-- The same elements are somewhere else. -/
theorem nodup_of_layout_tail (h : Layout cap s posted free wait a) :
    (s.srq.tail ∉ posted ∧ s.srq.tail ∉ free) ∧ s.srq.tail ∉ wait := by
  have hnodup := h.nodup
  rw [List.nodup_append] at hnodup
  obtain ⟨-, hrest, hposted⟩ := hnodup
  rw [List.nodup_append] at hrest
  obtain ⟨-, htail, hfree⟩ := hrest
  refine ⟨⟨fun hmem => ?_, fun hmem => ?_⟩, fun hmem => ?_⟩
  · exact hposted _ hmem s.srq.tail (by simp) rfl
  · exact hfree _ hmem s.srq.tail (by simp) rfl
  · exact (List.nodup_cons.mp htail).1 (List.mem_append_left _ hmem)

theorem WaitQueue.congr {wqes : List SrqWqe} {tail : Nat} (h : WaitQueue srq wait)
    (hnext : ∀ j ∈ wait, nextOf wqes j = nextOf srq.wqes j) :
    WaitQueue { srq with wqes, tail } wait := by
  rcases h with hnone | ⟨hd, tl, w, hhd, htl, hseg, rfl⟩
  · exact Or.inl hnone
  · exact Or.inr
      ⟨hd, tl, w, hhd, htl, hseg.congr fun q hq => hnext q (List.mem_append_left _ hq), rfl⟩

/-- A handle goes out of the requests the device works on. -/
theorem Layout.handles_erase (h : Layout cap s posted free wait a) (ind : Nat) :
    s.inflight.erase ind = (a.inflight.filter (·.1 ≠ ind)).map (·.1) := by
  have hnodup : s.inflight.Nodup := h.nodup.of_append_right.of_append_right.of_cons.of_append_right
  rw [hnodup.erase_eq_filter, h.handles, List.filter_map]
  congr 1
  refine List.filter_congr fun x _ => ?_
  by_cases hx : x.1 = ind <;> simp [hx]

/-- An element the device worked on is put behind the tail. -/
theorem Layout.release (h : Layout cap s posted free wait a) {ind : Nat} (hind : ind ∈ s.inflight) :
    ∃ wqes, s.srq.setNext s.srq.tail ind = some { s.srq with wqes } ∧
      (∀ j, scatOf wqes j = scatOf s.srq.wqes j) ∧
      Layout cap { s with
          srq := { s.srq with wqes, tail := ind }, inflight := s.inflight.erase ind }
        posted (free ++ [s.srq.tail]) wait
          { a with inflight := a.inflight.filter (·.1 ≠ ind) } := by
  have hlt : ind < s.srq.max := h.lt_max (by simp [hind])
  obtain ⟨htail, htailw⟩ := nodup_of_layout_tail h
  obtain ⟨wqes, hset, hshape, hnext, hscat⟩ := setNext_spec h.shape h.tail_lt hlt
  have hne : ∀ j, j ≠ s.srq.tail → nextOf wqes j = nextOf s.srq.wqes j := fun j hj => by
    rw [hnext, if_neg hj]
  refine ⟨wqes, hset, hscat, ⟨hshape.wqes, hshape.wrid, hshape.scat, hshape.max⟩, ?_, ?_, ?_, h.cap,
    ?_, h.handles_erase ind, ?_⟩
  · refine h.links.put (fun q hq => hne q ?_) (fun q hq => hne q ?_) (by rw [hnext, if_pos rfl])
    · exact fun heq => htail.1 (heq ▸ hq)
    · exact fun heq => htail.2 (heq ▸ hq)
  · exact h.waitq.congr fun j hj => hne j fun heq => htailw (heq ▸ hj)
  · refine List.Perm.trans ?_ h.perm
    rw [List.perm_iff_count]
    intro x
    have herase := (List.perm_cons_erase hind).count_eq x
    simp only [List.count_append, List.count_cons, List.count_nil] at herase ⊢
    omega
  · exact forall₂_imp_of_mem h.requests fun i _ wr hold => hold.congr hscat
  · exact fun x hx => (h.taken x (List.mem_of_mem_filter hx)).congr hscat

/-- Only links and the ends of chains differ. -/
structure Relinked (srq srq' : Mlx5Srq) : Prop where
  wrid : srq'.wrid = srq.wrid
  scat : ∀ j, scatOf srq'.wqes j = scatOf srq.wqes j
  max : srq'.max = srq.max
  maxGs : srq'.maxGs = srq.maxGs
  counter : srq'.counter = srq.counter

/-- The two writes of a cooldown: the element behind the end `tl` of the wait queue, and the
first one `hd` behind the tail. -/
theorem srqCooldownWqe_eq {srq : Mlx5Srq} {ind hd tl : Nat} {wqes₁ wqes₂ : List SrqWqe}
    (hhd : srq.waitqHead = hd) (htl : srq.waitqTail = tl)
    (hset₁ : srq.setNext tl ind = some { srq with wqes := wqes₁ })
    (hset₂ : Mlx5Srq.setNext { srq with wqes := wqes₁, waitqTail := ind } srq.tail hd =
      some { srq with wqes := wqes₂, waitqTail := ind })
    (hlt : hd < wqes₂.length) :
    srqCooldownWqe srq ind = some ({ srq with
      wqes := wqes₂, tail := hd, waitqHead := nextOf wqes₂ hd, waitqTail := ind }, true) := by
  have hhas : srqHasWaitq srq = true := by simp [srqHasWaitq, hhd]
  have hput : srqPutInWaitq srq ind = some { srq with wqes := wqes₁, waitqTail := ind } := by
    rw [srqPutInWaitq, htl, Int.toNat_natCast, hset₁, Option.map_some]
  have hget : srqGetFromWaitq { srq with wqes := wqes₁, waitqTail := ind } = some { srq with
      wqes := wqes₂, tail := hd, waitqHead := nextOf wqes₂ hd, waitqTail := ind } := by
    have htoNat : srq.waitqHead.toNat = hd := by rw [hhd, Int.toNat_natCast]
    unfold srqGetFromWaitq
    simp only [htoNat]
    rw [hset₂]
    simp only [bind, Option.bind_some, List.getElem?_eq_getElem hlt, nextOf,
      List.getD_eq_getElem _ _ hlt]
  rw [srqCooldownWqe, if_pos hhas, hput]
  simp only [bind, Option.bind_some, hget]

/-- The first element of the wait queue is put behind the tail, and the element the device
worked on goes to the end of the wait queue. -/
theorem Layout.cooldown (h : Layout cap s posted free wait a) {ind : Nat} (hind : ind ∈ s.inflight)
    (hwait : wait ≠ []) :
    ∃ srq', srqCooldownWqe s.srq ind = some (srq', true) ∧ Relinked s.srq srq' ∧
      Layout cap { s with srq := srq', inflight := s.inflight.erase ind }
        posted (free ++ [s.srq.tail]) (wait.tail ++ [ind])
          { a with inflight := a.inflight.filter (·.1 ≠ ind) } := by
  have hlt : ind < s.srq.max := h.lt_max (by simp [hind])
  obtain ⟨htail, htailw⟩ := nodup_of_layout_tail h
  obtain ⟨hd, tl, w, hhd, htl, hseg, rfl⟩ : ∃ (h t : Nat) (w : List Nat), s.srq.waitqHead = h ∧
      s.srq.waitqTail = t ∧ Seg (nextOf s.srq.wqes) h w t ∧ wait = w ++ [t] := by
    rcases h.waitq with ⟨-, hnil⟩ | hsome
    · exact absurd hnil hwait
    · exact hsome
  -- the element is linked behind the wait queue
  have htl_lt : tl < s.srq.max := h.lt_max (by simp)
  obtain ⟨wqes₁, hset₁, hshape₁, hnext₁, hscat₁⟩ := setNext_spec h.shape htl_lt hlt
  have hnodup := h.nodup
  have htl_w : tl ∉ w := by
    have hw := hnodup.of_append_right.of_append_right.of_cons.of_append_left
    exact fun hmem => (List.nodup_append.mp hw).2.2 tl hmem tl (by simp) rfl
  have htl_posted : tl ∉ posted := fun hmem =>
    (List.nodup_append.mp hnodup).2.2 tl hmem tl (by simp) rfl
  have htl_free : tl ∉ free := fun hmem =>
    (List.nodup_append.mp hnodup.of_append_right).2.2 tl hmem tl (by simp) rfl
  have hseg₁ : Seg (nextOf wqes₁) hd (w ++ [tl]) ind := by
    have hsnoc :=
      hseg.snoc fun q hq => (hnext₁ q).trans (if_neg fun heq : q = tl => htl_w (heq ▸ hq))
    rwa [hnext₁ tl, if_pos rfl] at hsnoc
  -- and its first element behind the tail
  obtain ⟨x, w', hsplit⟩ := List.exists_cons_of_ne_nil hwait
  rw [hsplit] at hseg₁ htailw
  obtain ⟨rfl, hseg₁⟩ := seg_cons.mp hseg₁
  have hhd_lt : hd < s.srq.max := h.lt_max (by simp [hsplit])
  have hshape₁' : Mlx5Srq.Shape { s.srq with wqes := wqes₁, waitqTail := ind } :=
    ⟨hshape₁.wqes, hshape₁.wrid, hshape₁.scat, hshape₁.max⟩
  obtain ⟨wqes₂, hset₂, hshape₂, hnext₂, hscat₂⟩ := setNext_spec hshape₁' h.tail_lt hhd_lt
  have hne₂ : ∀ q, q ≠ s.srq.tail → q ≠ tl → nextOf wqes₂ q = nextOf s.srq.wqes q := by
    intro q hq hq'
    rw [hnext₂, if_neg hq, hnext₁, if_neg hq']
  have hhd₂ : nextOf wqes₂ hd = nextOf wqes₁ hd := by
    rw [hnext₂, if_neg fun heq : hd = s.srq.tail => htailw (heq ▸ List.mem_cons_self)]
  have hscat : ∀ j, scatOf wqes₂ j = scatOf s.srq.wqes j := fun j => (hscat₂ j).trans (hscat₁ j)
  rw [hsplit, List.tail_cons]
  refine ⟨_, srqCooldownWqe_eq hhd htl hset₁ hset₂ (hshape₂.wqes ▸ hhd_lt),
    ⟨rfl, hscat, rfl, rfl, rfl⟩, ⟨hshape₂.wqes, hshape₂.wrid, hshape₂.scat, hshape₂.max⟩,
    ?_, ?_, ?_, ?_, ?_, h.handles_erase ind, ?_⟩
  · refine h.links.put (fun q hq => hne₂ q ?_ ?_) (fun q hq => hne₂ q ?_ ?_)
      (by rw [hnext₂, if_pos rfl])
    · exact fun heq => htail.1 (heq ▸ hq)
    · exact fun heq => htl_posted (heq ▸ hq)
    · exact fun heq => htail.2 (heq ▸ hq)
    · exact fun heq => htl_free (heq ▸ hq)
  · rw [← hhd₂] at hseg₁
    refine Or.inr ⟨nextOf wqes₂ hd, ind, w', rfl, rfl, hseg₁.congr fun q hq => ?_, rfl⟩
    rw [hnext₂, if_neg fun heq : q = s.srq.tail => htailw (heq ▸ List.mem_cons_of_mem hd hq)]
  · refine List.Perm.trans ?_ h.perm
    rw [List.perm_iff_count]
    intro x
    have herase := (List.perm_cons_erase hind).count_eq x
    have hw := congrArg (List.count x) hsplit
    simp only [List.count_append, List.count_cons, List.count_nil] at herase hw ⊢
    omega
  · have hcap := h.cap
    have hw := congrArg List.length hsplit
    simp only [List.length_append, List.length_cons, List.length_nil] at hcap hw ⊢
    omega
  · exact forall₂_imp_of_mem h.requests fun i _ wr hold => hold.congr hscat
  · exact fun x hx => (h.taken x (List.mem_of_mem_filter hx)).congr hscat

/-! ### The operations -/

/-- The doorbell record shows the device all posted requests. -/
structure Counted (s : SrqSystem) (posted : Nat) : Prop where
  db : s.srq.db = s.srq.counter
  counter : s.srq.counter = (s.hwCounter + posted) % 2 ^ 16
  hw : s.hwCounter < 2 ^ 16

/-- A system whose requests are those of `a`, with these elements in the wait queue. -/
def SrqSystem.Refines (cap maxGs : Nat) (wait : List Nat) (s : SrqSystem) (a : SrqSpec) : Prop :=
  ∃ posted free, Layout cap s posted free wait a ∧ Counted s posted.length ∧ s.srq.maxGs = maxGs

/-- A request of an element is posted again. -/
theorem srqRepost_spec {x ind : Nat} {wr : RecvWr} (h : Layout cap s posted (x :: free) wait a)
    (hind : ind < s.srq.max) (hholds : Holds s.srq.wrid s.srq.wqes ind wr) :
    ∃ srq', srqRepost s.srq ind = some srq' ∧ srq'.maxGs = s.srq.maxGs ∧
      srq'.counter = (s.srq.counter + 1) % 2 ^ 16 ∧ srq'.db = srq'.counter ∧
      Kept s.srq srq' (s.srq.tail :: wait) ∧
      Layout cap { s with srq := srq' } (posted ++ [x]) free wait
        { a with queue := a.queue ++ [wr] } := by
  have hlt : s.srq.head < s.srq.max := h.lt_max (by simp [h.links.produce.1])
  obtain ⟨scat, hcopy, hlen, hscatter⟩ := copyScat_spec (h.shape.scat ind hind) (h.shape.scat _ hlt)
  obtain ⟨-, wrid, wqes, hwrid, hwqes, hfill⟩ := h.fill wr hlen (hscatter.trans hholds.2)
  obtain ⟨hkept, hlayout⟩ := hfill ((s.srq.counter + 1) % 2 ^ 16) ((s.srq.counter + 1) % 2 ^ 16)
  have hid : s.srq.wrid[ind]? = some wr.wrId := by
    rw [getElem?_eq_getD 0 (h.shape.wrid ▸ hind), hholds.1]
  refine ⟨{ s.srq with
      wrid, wqes, head := nextOf s.srq.wqes s.srq.head
      counter := (s.srq.counter + 1) % 2 ^ 16, db := (s.srq.counter + 1) % 2 ^ 16 },
    ?_, rfl, rfl, rfl,
    hkept, hlayout⟩
  simp only [srqRepost, hid, hwrid, h.shape.getElem? hind, h.shape.getElem? hlt, hcopy, hwqes, bind,
    Option.bind_some]

/-- The element with the fault is put away, and there is a free one for its request. -/
theorem putAway_spec (h : Layout cap s posted free wait a) {ind : Nat} (hind : ind ∈ s.inflight) :
    ∃ srq' wait', (∀ f : Mlx5Srq → Option Mlx5Srq, (do
        let (srq, cooled) ← srqCooldownWqe s.srq ind
        let srq ← if cooled then some srq else mlx5FreeSrqWqe srq ind
        f srq) = f srq') ∧ Relinked s.srq srq' ∧
      (wait = [] ∧ wait' = [] ∨ wait ≠ [] ∧ wait' = wait.tail ++ [ind]) ∧
      ind ∈ srq'.tail :: wait' ∧
      Layout cap { s with srq := srq', inflight := s.inflight.erase ind }
        posted (free ++ [s.srq.tail]) wait'
          { a with inflight := a.inflight.filter (·.1 ≠ ind) } := by
  by_cases hwait : wait = []
  · obtain ⟨wqes, hset, hscat, hlayout⟩ := h.release hind
    refine ⟨{ s.srq with wqes, tail := ind }, wait, fun f => ?_, ⟨rfl, hscat, rfl, rfl, rfl⟩,
      Or.inl ⟨hwait, hwait⟩, List.mem_cons_self, hlayout⟩
    have hhas : srqHasWaitq s.srq = false := by
      rcases h.waitq with ⟨hhead, -⟩ | ⟨hd, tl, w, -, -, -, hsome⟩
      · simp [srqHasWaitq, hhead]
      · rw [hwait] at hsome
        simp at hsome
    simp [srqCooldownWqe, hhas, mlx5FreeSrqWqe, hset]
  · obtain ⟨srq', hcool, hrel, hlayout⟩ := h.cooldown hind hwait
    exact ⟨srq', _, fun f => by simp [hcool], hrel, Or.inr ⟨hwait, rfl⟩, by simp, hlayout⟩

theorem mlx5CompleteOdpFault_spec {maxGs ind : Nat} {wr : RecvWr} (h : s.Refines cap maxGs wait a)
    (hind : ind ∈ s.inflight) (hwr : (ind, wr) ∈ a.inflight) :
    ∃ srq' wait', mlx5CompleteOdpFault s.srq ind = some srq' ∧
      (wait = [] ∧ wait' = [] ∨ wait ≠ [] ∧ wait' = wait.tail ++ [ind]) ∧
      Kept s.srq srq' (ind :: wait') ∧
      SrqSystem.Refines cap maxGs wait' { s with srq := srq', inflight := s.inflight.erase ind }
        ⟨a.queue ++ [wr], a.inflight.filter (·.1 ≠ ind)⟩ := by
  obtain ⟨posted, free, hlayout, hcounted, hgs⟩ := h
  have hholds := hlayout.taken _ hwr
  have hlt : ind < s.srq.max := hlayout.lt_max (by simp [hind])
  obtain ⟨srq₁, wait', hput, hrel, hwait, hmem, hlayout'⟩ := putAway_spec hlayout hind
  rcases hsplit : free ++ [s.srq.tail] with _ | ⟨x, free'⟩
  · simp at hsplit
  rw [hsplit] at hlayout'
  have hholds' : Holds srq₁.wrid srq₁.wqes ind wr := by
    unfold Holds
    rw [hrel.wrid, hrel.scat]
    exact hholds
  obtain ⟨srq', hrepost, hgs', hcounter, hdb, hkept, hfinal⟩ :=
    srqRepost_spec hlayout' (show ind < srq₁.max by rw [hrel.max]; exact hlt) hholds'
  refine ⟨srq', wait', (hput _).trans hrepost, hwait, fun j hj => ?_, posted ++ [x], free', hfinal,
    ⟨hdb, ?_, hcounted.hw⟩, hgs'.trans (hrel.maxGs.trans hgs)⟩
  · have hj' : j ∈ srq₁.tail :: wait' := by
      rcases List.mem_cons.mp hj with rfl | hj
      · exact hmem
      · exact List.mem_cons_of_mem _ hj
    obtain ⟨hid, hscat⟩ := hkept j hj'
    exact ⟨hid.trans (by rw [hrel.wrid]), hscat.trans (hrel.scat j)⟩
  · show srq'.counter = (s.hwCounter + (posted ++ [x]).length) % 2 ^ 16
    simp only [hcounter, hrel.counter, hcounted.counter, List.length_append, List.length_singleton]
    omega

theorem postWqe_spec {x : Nat} {wr : RecvWr} (h : Layout cap s posted (x :: free) wait a)
    (hlen : wr.sgList.length ≤ s.srq.maxGs) :
    ∃ srq', postWqe s.srq wr = some srq' ∧ srq'.maxGs = s.srq.maxGs ∧ srq'.counter = s.srq.counter ∧
      srq'.db = s.srq.db ∧ Kept s.srq srq' wait ∧
      Layout cap { s with srq := srq' } (posted ++ [x]) free wait
        { a with queue := a.queue ++ [wr] } := by
  have hlt : s.srq.head < s.srq.max := h.lt_max (by simp [h.links.produce.1])
  obtain ⟨scat, hwrite, hscat, hscatter⟩ := writeScat_spec hlen (h.shape.scat _ hlt)
  obtain ⟨-, wrid, wqes, hwrid, hwqes, hfill⟩ := h.fill wr hscat hscatter
  obtain ⟨hkept, hlayout⟩ := hfill s.srq.counter s.srq.db
  refine ⟨{ s.srq with wrid, wqes, head := nextOf s.srq.wqes s.srq.head }, ?_, rfl, rfl, rfl,
    fun j hj => hkept j (List.mem_cons_of_mem _ hj), hlayout⟩
  simp only [postWqe, hwrid, h.shape.getElem? hlt, hwrite, hwqes, bind, Option.bind_some]

theorem Kept.refl (srq : Mlx5Srq) (l : List Nat) : Kept srq srq l := fun _ _ => ⟨rfl, rfl⟩

theorem Kept.trans {srq srq₁ srq₂ : Mlx5Srq} {l : List Nat} (h : Kept srq srq₁ l)
    (h' : Kept srq₁ srq₂ l) : Kept srq srq₂ l :=
  fun j hj => ⟨(h' j hj).1.trans (h j hj).1, (h' j hj).2.trans (h j hj).2⟩

/-- The loop over the requests adds them one by one, as the specification does. -/
theorem postLoop_spec :
    ∀ (wrs : List RecvWr) {s : SrqSystem} {posted free : List Nat} {a : SrqSpec},
      Layout cap s posted free wait a →
      ∃ srq' nreq err posted' free' a', postLoop s.srq wrs = some (srq', nreq, err) ∧
        a.post cap s.srq.maxGs wrs = (a', nreq, err) ∧ Kept s.srq srq' wait ∧
        Layout cap { s with srq := srq' } posted' free' wait a' ∧
        posted'.length = posted.length + nreq ∧ srq'.maxGs = s.srq.maxGs ∧
        srq'.counter = s.srq.counter ∧ srq'.db = s.srq.db := by
  intro wrs
  induction wrs with
  | nil =>
      intro s posted free a h
      exact ⟨s.srq, 0, none, posted, free, a, rfl, rfl, Kept.refl _ _, h, rfl, rfl, rfl, rfl⟩
  | cons wr wrs ih =>
      intro s posted free a h
      unfold postLoop SrqSpec.post
      by_cases hgs : wr.sgList.length > s.srq.maxGs
      · rw [if_pos hgs, if_pos hgs]
        exact ⟨s.srq, 0, some .EINVAL, posted, free, a, rfl, rfl, Kept.refl _ _, h, rfl, rfl, rfl,
          rfl⟩
      rw [if_neg hgs, if_neg hgs]
      have hlength := h.length
      rcases free with _ | ⟨x, free⟩
      · have hfull : a.queue.length + a.inflight.length = cap := by simpa using hlength
        rw [if_pos (h.head_eq_tail.mpr rfl), if_pos hfull]
        exact ⟨s.srq, 0, some .ENOMEM, posted, [], a, rfl, rfl, Kept.refl _ _, h, rfl, rfl, rfl,
          rfl⟩
      · have hroom : a.queue.length + a.inflight.length ≠ cap := by
          rw [List.length_cons] at hlength
          omega
        have hne : s.srq.head ≠ s.srq.tail :=
          fun heq => List.cons_ne_nil _ _ (h.head_eq_tail.mp heq)
        obtain ⟨srq₁, hpost, hgs₁, hcounter₁, hdb₁, hkept₁, hlayout₁⟩ :=
          postWqe_spec h (Nat.not_lt.mp hgs)
        obtain ⟨srq', nreq, err, posted', free', a', hloop, hspec, hkept', hlayout', hlen, hgs',
          hcounter', hdb'⟩ := ih hlayout₁
        simp only at hloop hgs' hcounter' hdb'
        rw [hgs₁] at hspec
        refine ⟨srq', nreq + 1, err, posted', free', a', ?_, ?_, hkept₁.trans hkept', hlayout', ?_,
          hgs'.trans hgs₁, hcounter'.trans hcounter₁, hdb'.trans hdb₁⟩
        · simp only [if_neg hne, hpost, hloop, bind, Option.bind_some]
        · simp only [if_neg hroom, hspec]
        · rw [hlen, List.length_append, List.length_singleton]
          omega

variable {maxGs : Nat}

theorem mlx5PostSrqRecv_spec (h : s.Refines cap maxGs wait a) (wrs : List RecvWr) :
    ∃ srq' nreq err a', mlx5PostSrqRecv s.srq wrs = some (srq', nreq, err) ∧
      a.post cap maxGs wrs = (a', nreq, err) ∧ Kept s.srq srq' wait ∧
      SrqSystem.Refines cap maxGs wait { s with srq := srq' } a' := by
  obtain ⟨posted, free, hlayout, hcounted, hgs⟩ := h
  obtain ⟨srq', nreq, err, posted', free', a', hloop, hspec, hkept, hlayout', hlen, hgs', hcounter,
    hdb⟩ :=
    postLoop_spec wrs hlayout
  rw [hgs] at hspec hgs'
  simp only [mlx5PostSrqRecv, hloop, bind, Option.bind_some]
  by_cases hnone : nreq = 0
  · rw [if_pos hnone]
    subst hnone
    refine ⟨srq', 0, err, a', rfl, hspec, hkept, posted', free', hlayout',
      ⟨?_, ?_, hcounted.hw⟩, hgs'⟩
    · exact hdb.trans (hcounted.db.trans hcounter.symm)
    · rw [hlen]
      exact hcounter.trans hcounted.counter
  · rw [if_neg hnone]
    refine ⟨_, nreq, err, a', rfl, hspec, hkept, posted', free', ?_, ⟨rfl, ?_, hcounted.hw⟩, hgs'⟩
    · exact ⟨⟨hlayout'.shape.wqes, hlayout'.shape.wrid, hlayout'.shape.scat, hlayout'.shape.max⟩,
        hlayout'.links, hlayout'.waitq, hlayout'.perm, hlayout'.cap, hlayout'.requests,
        hlayout'.handles,
        hlayout'.taken⟩
    · have hold := hcounted.counter
      simp only [hcounter, hlen, hold]
      omega

/-- The counter tells the device that there are requests, and the handles are those of the
elements it works on. -/
theorem SrqSystem.Refines.seen (h : s.Refines cap maxGs wait a) :
    (s.hwCounter = s.srq.db ↔ a.queue = []) ∧ s.inflight = a.inflight.map (·.1) := by
  obtain ⟨posted, free, hlayout, hcounted, -⟩ := h
  have hlen := hlayout.perm.length_eq
  have hmax := hlayout.shape.max
  have hcounter := hcounted.counter
  have hhw := hcounted.hw
  have hqueue := hlayout.requests.length_eq
  simp only [List.length_append, List.length_cons, List.length_range] at hlen
  refine ⟨?_, hlayout.handles⟩
  rw [hcounted.db, hcounter, ← List.length_eq_zero_iff, ← hqueue]
  omega

/-- The device takes the oldest request. -/
theorem fetch_spec (h : s.Refines cap maxGs wait a) (hlegal : s.hwCounter ≠ s.srq.db) :
    ∃ s' out a', s.step .fetch = some (s', out) ∧ SrqSpec.Step cap maxGs a .fetch out a' ∧
      s'.srq = s.srq ∧ s'.Refines cap maxGs wait a' := by
  have hsome : a.queue ≠ [] := fun hnil => hlegal (h.seen.1.mpr hnil)
  obtain ⟨posted, free, hlayout, hcounted, hgs⟩ := h
  have hcounter := hcounted.counter
  rcases posted with _ | ⟨x, posted⟩
  · exact absurd (by simpa using hlayout.requests) hsome
  · obtain ⟨rfl, hlinks⟩ := hlayout.links.consume
    obtain ⟨wr, queue, hholds, hrequests, hqueue⟩ :=
      List.forall₂_cons_left_iff.mp hlayout.requests
    have hlt : s.hwHead < s.srq.max := hlayout.lt_max (by simp)
    have hnew : s.hwHead ∉ a.inflight.map (·.1) := by
      rw [← hlayout.handles]
      have hnodup := hlayout.nodup
      rw [List.cons_append, List.nodup_cons] at hnodup
      exact fun hmem => hnodup.1 (by simp [hmem])
    refine ⟨{ s with
        hwHead := nextOf s.srq.wqes s.hwHead
        hwCounter := (s.hwCounter + 1) % 2 ^ 16
        inflight := s.hwHead :: s.inflight }, .fetched s.hwHead (scatterOf wr.sgList),
      ⟨queue, (s.hwHead, wr) :: a.inflight⟩, ?_, .fetch hqueue hnew, rfl, posted, free, ?_, ?_, hgs⟩
    · simp only [SrqSystem.step, hlayout.shape.getElem? hlt, hholds.2, bind, Option.bind_some]
    · refine ⟨hlayout.shape, hlinks, hlayout.waitq, ?_, hlayout.cap, hrequests, ?_, ?_⟩
      · refine List.Perm.trans ?_ hlayout.perm
        rw [List.perm_iff_count]
        intro y
        simp only [List.count_append, List.count_cons]
        omega
      · rw [List.map_cons, hlayout.handles]
      · intro y hy
        rcases List.mem_cons.mp hy with rfl | hy
        · exact hholds
        · exact hlayout.taken y hy
    · refine ⟨hcounted.db, ?_, Nat.mod_lt _ (by omega)⟩
      simp only [hcounter, List.length_cons]
      omega

/-- The driver reads the request's number and segments, and frees the element. -/
theorem complete_spec (h : s.Refines cap maxGs wait a) {ind : Nat} {wr : RecvWr}
    (hwr : (ind, wr) ∈ a.inflight) :
    ∃ s', s.step (.complete ind) = some (s', .completed wr.wrId (scatterOf wr.sgList)) ∧
      Kept s.srq s'.srq wait ∧
      s'.Refines cap maxGs wait { a with inflight := a.inflight.filter (·.1 ≠ ind) } := by
  obtain ⟨posted, free, hlayout, hcounted, hgs⟩ := h
  have hind : ind ∈ s.inflight := by
    rw [hlayout.handles]
    exact List.mem_map_of_mem hwr
  have hlt : ind < s.srq.max := hlayout.lt_max (by simp [hind])
  have hholds := hlayout.taken _ hwr
  obtain ⟨wqes, hset, hscat, hlayout'⟩ := hlayout.release hind
  have hid : s.srq.wrid[ind]? = some wr.wrId := by
    rw [getElem?_eq_getD 0 (hlayout.shape.wrid ▸ hlt), hholds.1]
  have hwqe : wqes[ind]? = some ⟨nextOf wqes ind, scatOf s.srq.wqes ind⟩ := by
    rw [← hscat]
    exact hlayout'.shape.getElem? hlt
  refine ⟨{ s with srq := { s.srq with wqes, tail := ind }, inflight := s.inflight.erase ind }, ?_,
    fun j _ => ⟨rfl, hscat j⟩, posted, free ++ [s.srq.tail], hlayout',
    ⟨hcounted.db, hcounted.counter, hcounted.hw⟩, hgs⟩
  simp only [SrqSystem.step, hid, mlx5FreeSrqWqe, hset, hwqe, hholds.2, bind, Option.bind_some,
    Option.map_some]

/-- A fault moves the wait queue on by one element; nothing else does. -/
def WaitStep (op : SrqOp) (wait wait' : List Nat) : Prop :=
  wait' = wait ∨ ∃ ind, op = .fault ind ∧ wait ≠ [] ∧ wait' = wait.tail ++ [ind]

/-- Every legal step of the driver and the device is one of the specification, and leaves
the elements that stay in the wait queue alone. -/
theorem SrqSystem.step_refines (h : s.Refines cap maxGs wait a) (op : SrqOp)
    (hlegal : op.Legal s) :
    ∃ s' out a' wait', s.step op = some (s', out) ∧ SrqSpec.Step cap maxGs a op out a' ∧
      s'.Refines cap maxGs wait' a' ∧ WaitStep op wait wait' ∧ Kept s.srq s'.srq wait' := by
  have hhandles := h.seen.2
  cases op with
  | post wrs =>
      obtain ⟨srq', nreq, err, a', hpost, hspec, hkept, href⟩ := mlx5PostSrqRecv_spec h wrs
      refine ⟨{ s with srq := srq' }, .posted nreq err, a', wait, ?_, .post hspec, href,
        Or.inl rfl, hkept⟩
      simp only [SrqSystem.step, hpost, bind, Option.bind_some]
  | fetch =>
      obtain ⟨s', out, a', hstep, hspec, hsrq, href⟩ := fetch_spec h hlegal
      exact ⟨s', out, a', wait, hstep, hspec, href, Or.inl rfl, hsrq ▸ Kept.refl _ _⟩
  | complete ind =>
      have hind : ind ∈ a.inflight.map (·.1) := hhandles ▸ hlegal
      obtain ⟨⟨i, wr⟩, hwr, rfl⟩ := List.mem_map.mp hind
      obtain ⟨s', hstep, hkept, href⟩ := complete_spec h hwr
      exact ⟨s', _, _, wait, hstep, .complete hwr, href, Or.inl rfl, hkept⟩
  | fault ind =>
      have hind : ind ∈ a.inflight.map (·.1) := hhandles ▸ hlegal
      obtain ⟨⟨i, wr⟩, hwr, rfl⟩ := List.mem_map.mp hind
      obtain ⟨srq', wait', hfault, hwait, hkept, href⟩ := mlx5CompleteOdpFault_spec h hlegal hwr
      refine ⟨{ s with srq := srq', inflight := s.inflight.erase i }, .faulted, _, wait', ?_,
        .fault hwr, href, ?_, fun j hj => hkept j (List.mem_cons_of_mem i hj)⟩
      · simp only [SrqSystem.step, hfault, bind, Option.bind_some]
      · rcases hwait with ⟨hnil, hnil'⟩ | hcons
        · exact Or.inl (hnil'.trans hnil.symm)
        · exact Or.inr ⟨i, rfl, hcons⟩

end Nicmem
