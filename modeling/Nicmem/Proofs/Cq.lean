/-
What is in a completion queue.

The specification `CqSpec` of the queue is a list of the completions that wait, in the
order the device wrote them, and the number of entries the device still counts because the
record was not updated.  The ring shows this list: the entries from the consumer index on
are its members, with the owner bits of their indices, and every slot the device has still
to write in this round looks as if it belonged to the device.

The running indices of this file do not wrap; those of the driver are their remainders.
-/
import Nicmem.Mlx5.Cq
import Nicmem.RingBuffer
import Nicmem.Proofs.Srq
import Mathlib.Data.Nat.Bitwise

namespace Nicmem

open C RingBuffer

/-! ### The specification -/

/-- The size of the ring, the entries taken of which the device does not know, and the
completions that wait, with the owner bit cleared. -/
structure CqSpec where
  size : Nat
  unacked : Nat
  pending : List Cqe

def Cqe.body (cqe : Cqe) : Cqe := cqe.withOwner 0

namespace CqSpec

def inUse (a : CqSpec) : Nat := a.unacked + a.pending.length

def produce (a : CqSpec) (cqes : List Cqe) : CqSpec :=
  { a with pending := a.pending ++ cqes.map Cqe.body }

end CqSpec

/-- The completion is one of the resource. -/
def Cqe.isOf (rsn : Nat) (cqeVersion : Bool) (cqe : Cqe) : Bool :=
  rsn = (if cqeVersion then cqe.srqnUidx else cqe.sopDropQpn) &&& 0xffffff

namespace CqSpec

/-- The completions of a resource go, as far as the search for the producer index gets:
that is all of them, except the last one of a full ring.  The others keep their order. -/
def clean (a : CqSpec) (rsn : Nat) (cqeVersion : Bool) : CqSpec :=
  let seen := a.pending.take (a.size - 1)
  { a with
    unacked := if seen.any (Cqe.isOf rsn cqeVersion) then 0 else a.unacked
    pending := seen.filter (fun cqe => !cqe.isOf rsn cqeVersion) ++ a.pending.drop (a.size - 1) }

/-- The elements of the shared receive queue that are freed, the latest first. -/
def cleanFrees (a : CqSpec) (rsn : Nat) (srq cqeVersion : Bool) : List Nat :=
  (a.pending.take (a.size - 1)).reverse.filterMap fun cqe => (freeResCqe cqe rsn srq cqeVersion).2

/-- A resize that the kernel accepts takes one more entry. -/
def resize (a : CqSpec) (cqe : Nat) (memory : Option (Nat → Cqe)) (answer : Option CqMove) :
    CqSpec × Bool × List Cqe :=
  if cqe * 64 > 2 ^ 31 - 1 then (a, false, [])
  else if alignQueueSize (cqe + 1) = a.size then (a, true, [])
  else
    match memory, answer with
    | some _, some move =>
        (produce { a with size := alignQueueSize (cqe + 1), unacked := a.unacked + 1 }
          move.meanwhile, true, move.meanwhile)
    | _, _ => (a, false, [])

def step (a : CqSpec) : CqOp → CqSpec × CqOut
  | .produce cqe => (a.produce [cqe], .produced)
  | .next =>
      match a.pending with
      | [] => (a, .next none)
      | cqe :: pending => ({ a with unacked := a.unacked + 1, pending }, .next (some cqe))
  | .update => ({ a with unacked := 0 }, .updated)
  | .clean rsn srq cqeVersion meanwhile =>
      ((a.clean rsn cqeVersion).produce meanwhile, .cleaned (a.cleanFrees rsn srq cqeVersion))
  | .resize cqe memory answer =>
      let r := a.resize cqe memory answer
      (r.1, .resized r.2.1 r.2.2)

end CqSpec

/-- What the driver gives out, but for the owner bit. -/
def CqOut.body : CqOut → CqOut
  | .next cqe => .next (cqe.map Cqe.body)
  | out => out

/-! ### Owner bits -/

namespace Cqe

def owner (cqe : Cqe) : BitVec 8 := cqe.opOwn &&& 1#8

variable {o : BitVec 8}

theorem owner_withOwner (cqe : Cqe) (ho : o = 0 ∨ o = 1) : (cqe.withOwner o).owner = o := by
  have h : ∀ x : BitVec 8,
      (0 ||| (x &&& ~~~1#8)) &&& 1#8 = 0 ∧ (1 ||| (x &&& ~~~1#8)) &&& 1#8 = 1 := by decide
  rcases ho with rfl | rfl
  · exact (h cqe.opOwn).1
  · exact (h cqe.opOwn).2

theorem opcode_withOwner (cqe : Cqe) (ho : o = 0 ∨ o = 1) :
    mlx5dvGetCqeOpcode (cqe.withOwner o) = mlx5dvGetCqeOpcode cqe := by
  have h : ∀ x : BitVec 8, (0 ||| (x &&& ~~~1#8)) >>> 4 = x >>> 4 ∧
      (1 ||| (x &&& ~~~1#8)) >>> 4 = x >>> 4 := by decide
  rcases ho with rfl | rfl
  · exact (h cqe.opOwn).1
  · exact (h cqe.opOwn).2

theorem body_withOwner (cqe : Cqe) (ho : o = 0 ∨ o = 1) : (cqe.withOwner o).body = cqe.body := by
  have h : ∀ x : BitVec 8, 0 ||| ((0 ||| (x &&& ~~~1#8)) &&& ~~~1#8) = 0 ||| (x &&& ~~~1#8) ∧
      0 ||| ((1 ||| (x &&& ~~~1#8)) &&& ~~~1#8) = 0 ||| (x &&& ~~~1#8) := by decide
  unfold body withOwner
  rcases ho with rfl | rfl
  · rw [(h cqe.opOwn).1]
  · rw [(h cqe.opOwn).2]

theorem opcode_body (cqe : Cqe) : mlx5dvGetCqeOpcode cqe.body = mlx5dvGetCqeOpcode cqe :=
  opcode_withOwner cqe (Or.inl rfl)

theorem completion_body {cqe : Cqe} : cqe.body.Completion ↔ cqe.Completion := by
  unfold Completion
  rw [opcode_body]

end Cqe

/-! ### The owner bits of a round -/

theorem hwOwner_isOwner (n i : Nat) : hwOwner n i = 0 ∨ hwOwner n i = 1 := by
  unfold hwOwner
  split
  · exact Or.inr rfl
  · exact Or.inl rfl

theorem hwOwner_eq_phase (n i : Nat) : hwOwner n i = if phase n i then 1 else 0 := by
  simp [hwOwner, phase]

/-- The owner bit changes from round to round. -/
theorem hwOwner_add_ne {n : Nat} (hn : 0 < n) (i : Nat) : hwOwner n i ≠ hwOwner n (i + n) := by
  rw [hwOwner_eq_phase, hwOwner_eq_phase, phase_add hn]
  cases phase n i with
  | false => decide
  | true => decide

/-- The bit the driver compares with, from an index of 32 bits. -/
theorem swOwnershipBit_eq {k : Nat} (hk : k < 32) (i : Nat) :
    swOwnershipBit (i % 2 ^ 32) (2 ^ k) = hwOwner (2 ^ k) i := by
  have hbit : (i % 2 ^ 32).testBit k = i.testBit k := by
    rw [Nat.testBit_mod_two_pow, decide_eq_true hk, Bool.true_and]
  have hdiv : i.testBit k = decide (i / 2 ^ k % 2 = 1) := Nat.testBit_eq_decide_div_mod_eq
  unfold swOwnershipBit hwOwner
  rw [Nat.and_two_pow, hbit, hdiv]
  by_cases h : i / 2 ^ k % 2 = 1
  · rw [if_pos h, if_neg (by simp [h])]
  · rw [if_neg h, if_pos (by simp [h])]

/-- The slot the driver looks at, from an index of 32 bits. -/
theorem and_mask_eq {k : Nat} (hk : k < 32) (i : Nat) :
    i % 2 ^ 32 &&& (2 ^ k - 1) = i % 2 ^ k := by
  rw [Nat.and_two_pow_sub_one_eq_mod]
  exact Nat.mod_mod_of_dvd i (Nat.pow_dvd_pow 2 (Nat.le_of_lt hk))

/-! ### The ring -/

/-- The entry of the index belongs to the software. -/
def SwOwned (n i : Nat) (cqe : Cqe) : Prop :=
  mlx5dvGetCqeOpcode cqe ≠ cqeInvalid ∧ cqe.owner = hwOwner n i

instance (n i : Nat) (cqe : Cqe) : Decidable (SwOwned n i cqe) :=
  inferInstanceAs (Decidable (_ ∧ _))

/-- The entry of the index is the completion `body`. -/
def HoldsCqe (n i : Nat) (cqe body : Cqe) : Prop :=
  cqe.body = body ∧ cqe.Completion ∧ cqe.owner = hwOwner n i

/-- The slots of the next round belong to the hardware, `p` being its index. -/
def Stale (n p : Nat) (buf : List Cqe) : Prop :=
  ∀ i, p ≤ i → i < p + n → ¬SwOwned n i (slot buf default i)

theorem HoldsCqe.swOwned {n i : Nat} {cqe body : Cqe} (h : HoldsCqe n i cqe body) :
    SwOwned n i cqe := ⟨h.2.1.1, h.2.2⟩

theorem holdsCqe_withOwner {n i : Nat} {cqe : Cqe} (h : cqe.Completion) :
    HoldsCqe n i (cqe.withOwner (hwOwner n i)) cqe.body := by
  have ho := hwOwner_isOwner n i
  refine ⟨cqe.body_withOwner ho, ?_, cqe.owner_withOwner ho⟩
  rwa [← Cqe.completion_body, cqe.body_withOwner ho, Cqe.completion_body]

section Ring

variable {buf : List Cqe} {n p : Nat} {cqe : Cqe}

/-- An entry written in the current round is not one of the next. -/
theorem Stale.set (h : Stale n p buf) (hlen : buf.length = n) (hn : 0 < n) {q : Nat} (hq : q < p)
    (hpq : p ≤ q + n) (howner : cqe.owner = hwOwner n q) : Stale n p (buf.set (q % n) cqe) := by
  subst hlen
  intro i hpi hi
  by_cases heq : i = q + buf.length
  · subst heq
    rw [slot_set hn, if_pos (Nat.add_mod_right q buf.length)]
    intro howned
    exact hwOwner_add_ne hn q (howner.symm.trans howned.2)
  · rw [slot_set hn]
    split
    · rename_i hmod
      -- the index is less than two rounds further
      rcases Nat.lt_or_ge i (q + buf.length) with hlt | hge
      · exact absurd hmod.symm (mod_ne_mod (by omega) hlt)
      · have hmod' : (q + buf.length) % buf.length = i % buf.length := by
          rw [Nat.add_mod_right, hmod]
        exact absurd hmod' (mod_ne_mod (by omega) (by omega))
    · exact h i hpi hi

/-- The device writes its entry and goes on. -/
theorem Stale.succ (h : Stale n p buf) (hlen : buf.length = n) (hn : 0 < n)
    (howner : cqe.owner = hwOwner n p) : Stale n (p + 1) (buf.set (p % n) cqe) := by
  subst hlen
  intro i hpi hi
  by_cases heq : i = p + buf.length
  · subst heq
    rw [slot_set hn, if_pos (Nat.add_mod_right p buf.length)]
    intro howned
    exact hwOwner_add_ne hn p (howner.symm.trans howned.2)
  · rw [slot_set_of_lt hn (by omega) (by omega) (by omega)]
    exact h i (by omega) (by omega)

end Ring

/-- What the driver finds at an index. -/
theorem getSwCqe_eq {cq : Mlx5Cq} {k : Nat} (hcqe : cq.cqe + 1 = 2 ^ k) (hk : k < 32)
    (hlen : cq.buf.length = 2 ^ k) (i : Nat) :
    getSwCqe cq (i % 2 ^ 32) =
      some (if SwOwned (2 ^ k) i (slot cq.buf default i)
        then some (slot cq.buf default i) else none) := by
  have hmask : cq.cqe = 2 ^ k - 1 := by omega
  have hpos : 0 < cq.buf.length := by
    rw [hlen]
    exact Nat.two_pow_pos k
  have hslot : cq.buf[i % 2 ^ k]? = some (slot cq.buf default i) := by
    rw [← hlen]
    exact getElem?_slot default hpos i
  unfold getSwCqe
  rw [hcqe, hmask, and_mask_eq hk, swOwnershipBit_eq hk, hslot, Option.map_some]
  refine congrArg some (if_congr ?_ rfl rfl)
  exact and_congr_right fun _ => BitVec.xor_eq_zero_iff

/-! ### The device -/

/-- The entries `l` were written from index `p` on. -/
structure Wrote (n p : Nat) (buf buf' l : List Cqe) : Prop where
  len : buf'.length = n
  kept : ∀ i, i < p → p + l.length ≤ i + n → slot buf' default i = slot buf default i
  shows : Shows (HoldsCqe n) buf' default p (l.map Cqe.body)
  stale : Stale n (p + l.length) buf'

section Device

variable {buf : List Cqe} {n p : Nat}

theorem hwWrite_cons (hlen : buf.length = n) (hn : 0 < n) (cqe : Cqe) (cqes : List Cqe) :
    hwWrite buf p (cqe :: cqes) =
      hwWrite (buf.set (p % n) (cqe.withOwner (hwOwner n p))) (p + 1) cqes := by
  have hlt : p % n < buf.length := by
    rw [hlen]
    exact Nat.mod_lt p hn
  rw [hwWrite, hlen, store, updateAt, List.getElem?_eq_getElem hlt, Option.bind_some,
    Option.map_some, Option.bind_some]

/-- The device writes completions, at most as many as the ring has entries. -/
theorem hwWrite_spec (hn : 0 < n) : ∀ (l : List Cqe) {p : Nat} (buf : List Cqe),
    buf.length = n → Stale n p buf → (∀ cqe ∈ l, cqe.Completion) → l.length ≤ n →
      ∃ buf', hwWrite buf p l = some buf' ∧ Wrote n p buf buf' l := by
  intro l
  induction l with
  | nil =>
      intro p buf hlen hstale _ _
      exact ⟨buf, rfl, hlen, fun _ _ _ => rfl, trivial, hstale⟩
  | cons cqe l ih =>
      intro p buf hlen hstale hl hle
      rw [List.length_cons] at hle
      have hc := hl cqe List.mem_cons_self
      have howner := cqe.owner_withOwner (hwOwner_isOwner n p)
      obtain ⟨buf', hwrite, h⟩ := ih (buf.set (p % n) (cqe.withOwner (hwOwner n p)))
        (by rw [List.length_set, hlen]) (hstale.succ hlen hn howner)
        (fun x hx => hl x (List.mem_cons_of_mem cqe hx)) (by omega)
      have hpos : 0 < buf.length := hlen ▸ hn
      refine ⟨buf', by rw [hwWrite_cons hlen hn, hwrite], h.len, ?_, ⟨?_, h.shows⟩, ?_⟩
      · intro i hi hin
        rw [List.length_cons] at hin
        rw [h.kept i (by omega) (by omega)]
        rw [← hlen] at hin ⊢
        exact slot_set_of_lt hpos (by omega) (by omega) (by omega)
      · rw [h.kept p (by omega) (by omega)]
        rw [← hlen, slot_set_self hpos]
        exact holdsCqe_withOwner hc
      · rw [List.length_cons, Nat.add_comm l.length, ← Nat.add_assoc]
        exact h.stale

end Device

/-! ### The invariant -/

/-- The queue is what the specification says; `d` is the index of the record. -/
structure CqInv (s : CqSystem) (a : CqSpec) (d : Nat) : Prop where
  pow : ∃ k, k < 24 ∧ a.size = 2 ^ k
  cqe : s.cq.cqe + 1 = a.size
  len : s.cq.buf.length = a.size
  dbrec : s.cq.dbrec = d % 2 ^ 24
  cons : s.cq.consIndex = (d + a.unacked) % 2 ^ 32
  prod : d + a.inUse = s.hwProd
  high : s.hwProd ≤ d + a.size
  stale : Stale a.size s.hwProd s.cq.buf
  shows : Shows (HoldsCqe a.size) s.cq.buf default (d + a.unacked) a.pending

section CqInv

variable {s : CqSystem} {a : CqSpec} {d : Nat}

theorem CqInv.pos (h : CqInv s a d) : 0 < a.size := by
  obtain ⟨k, -, hsize⟩ := h.pow
  rw [hsize]
  exact Nat.two_pow_pos k

theorem CqInv.small (h : CqInv s a d) : a.size < 2 ^ 24 := by
  obtain ⟨k, hk, hsize⟩ := h.pow
  rw [hsize]
  exact Nat.pow_lt_pow_right (by omega) hk

/-- The 24 bits of the record are enough to count the entries in use. -/
theorem CqInv.inUse_eq (h : CqInv s a d) : s.inUse = a.inUse := by
  have hsmall := h.small
  have hprod := h.prod
  have hhigh := h.high
  unfold CqSystem.inUse
  rw [h.dbrec]
  omega

/-- What the device writes is appended. -/
theorem CqInv.produce (h : CqInv s a d) {cqes : List Cqe} (hroom : s.Room cqes) :
    ∃ s', s.produce cqes = some s' ∧ CqInv s' (a.produce cqes) d := by
  obtain ⟨hcqes, hle⟩ := hroom
  have hprod := h.prod
  rw [h.inUse_eq, h.cqe] at hle
  unfold CqSpec.inUse at hprod hle
  obtain ⟨buf, hwrite, hwrote⟩ := hwWrite_spec h.pos cqes s.cq.buf h.len h.stale hcqes (by omega)
  refine ⟨{ s with cq := { s.cq with buf }, hwProd := s.hwProd + cqes.length },
    by rw [CqSystem.produce, hwrite, Option.map_some],
    { h with len := hwrote.len, stale := hwrote.stale, cons := h.cons
             prod := ?_, high := ?_, shows := ?_ }⟩
  · simp only [CqSpec.inUse, CqSpec.produce, List.length_append, List.length_map]
    omega
  · show s.hwProd + cqes.length ≤ d + a.size
    omega
  · refine shows_append.mpr
      ⟨h.shows.congr fun i hi hi' => hwrote.kept i (by omega) (by omega), ?_⟩
    show Shows _ buf default (d + a.unacked + a.pending.length) _
    rw [Nat.add_assoc, hprod]
    exact hwrote.shows

/-- The entry of an index, as the driver finds it. -/
theorem CqInv.getSwCqe_eq (h : CqInv s a d) (i : Nat) :
    getSwCqe s.cq (i % 2 ^ 32) = some (if SwOwned a.size i (slot s.cq.buf default i)
      then some (slot s.cq.buf default i) else none) := by
  obtain ⟨k, hk, hsize⟩ := h.pow
  rw [hsize]
  exact Nicmem.getSwCqe_eq (hsize ▸ h.cqe) (by omega) (hsize ▸ h.len) i

/-- The entries up to the index of the device belong to the software, and no others. -/
theorem CqInv.swOwned_iff (h : CqInv s a d) {i : Nat} (hi : d + a.unacked ≤ i)
    (hi' : i < d + a.unacked + a.size) :
    SwOwned a.size i (slot s.cq.buf default i) ↔ i < s.hwProd := by
  have hprod := h.prod
  unfold CqSpec.inUse at hprod
  constructor
  · intro howned
    by_contra hlt
    exact h.stale i (by omega) (by omega) howned
  · intro hlt
    have hshown := h.shows.getElem (k := i - (d + a.unacked)) (by omega)
    rw [Nat.add_sub_cancel' hi] at hshown
    exact hshown.swOwned

theorem CqInv.next_step (h : CqInv s a d) :
    ∃ s' out, s.step .next = some (s', out) ∧ (a.step .next).2 = out.body ∧
      CqInv s' (a.step .next).1 d := by
  have hprod := h.prod
  have hpos := h.pos
  have hsw := h.swOwned_iff (Nat.le_refl _) (by omega)
  have hget := h.getSwCqe_eq (d + a.unacked)
  rw [← h.cons] at hget
  unfold CqSpec.inUse at hprod
  simp only [CqSystem.step, mlx5GetNextCqe, CqSpec.step, hget, Option.map_some]
  cases hpending : a.pending with
  | nil =>
      rw [hpending, List.length_nil] at hprod
      rw [if_neg (by rw [hsw]; omega)]
      exact ⟨_, _, rfl, rfl, h⟩
  | cons body pending =>
      rw [hpending, List.length_cons] at hprod
      have hshown := h.shows
      rw [hpending, shows_cons] at hshown
      rw [if_pos hshown.1.swOwned]
      refine ⟨_, _, rfl, ?_, { h with cons := ?_, prod := ?_, shows := hshown.2 }⟩
      · simp [CqOut.body, hshown.1.1]
      · simp only [h.cons]
        omega
      · simp only [CqSpec.inUse]
        omega

/-- The record tells the device the consumer index. -/
theorem CqInv.update (h : CqInv s a d) :
    CqInv { s with cq := updateConsIndex s.cq } { a with unacked := 0 } (d + a.unacked) := by
  have hprod := h.prod
  have hhigh := h.high
  unfold CqSpec.inUse at hprod
  refine { h with dbrec := ?_, cons := h.cons, prod := ?_, high := ?_, shows := h.shows }
  · have hmask : s.cq.consIndex &&& (2 ^ 24 - 1) = s.cq.consIndex % 2 ^ 24 :=
      Nat.and_two_pow_sub_one_eq_mod _ 24
    show s.cq.consIndex &&& 0xffffff = _
    rw [show 0xffffff = 2 ^ 24 - 1 from rfl, hmask, h.cons]
    omega
  · simp only [CqSpec.inUse]
    omega
  · show s.hwProd ≤ d + a.unacked + a.size
    omega

end CqInv

/-- The index `c` and the `t` after it have one sign as an `int`. -/
def OneSign (c t : Nat) : Prop := c % 2 ^ 32 + t < 2 ^ 31 ∨ 2 ^ 31 < c % 2 ^ 32

theorem OneSign.mono {c t t' : Nat} (h : OneSign c t) (hle : t' ≤ t) : OneSign c t' :=
  h.imp_left fun hlt => by omega

/-- The entries that wait have indices of one sign. -/
theorem CqInv.oneSign {s : CqSystem} {a : CqSpec} {d : Nat} (h : CqInv s a d)
    (hsign : s.SignKept) : OneSign (d + a.unacked) a.pending.length := by
  have hprod := h.prod
  have hhigh := h.high
  have hsmall := h.small
  unfold CqSpec.inUse at hprod
  unfold CqSystem.SignKept at hsign
  rw [h.cons] at hsign
  have hwait : (s.hwProd + 2 ^ 32 - (d + a.unacked) % 2 ^ 32) % 2 ^ 32 = a.pending.length := by
    omega
  rw [hwait] at hsign
  exact hsign

/-! ### A new queue -/

theorem slot_invalidCqes (memory : Nat → Cqe) {n : Nat} (hn : 0 < n) (i : Nat) :
    mlx5dvGetCqeOpcode (slot (invalidCqes memory n) default i) = cqeInvalid := by
  have hlt : i % n < n := Nat.mod_lt i hn
  unfold slot invalidCqes
  rw [List.length_map, List.length_range, List.getD_eq_getElem _ _ (by simpa using hlt),
    List.getElem_map]
  show (cqeInvalid <<< 4) >>> 4 = cqeInvalid
  decide

/-- Nothing in a new buffer belongs to the software. -/
theorem stale_invalidCqes (memory : Nat → Cqe) {n : Nat} (hn : 0 < n) (p : Nat) :
    Stale n p (invalidCqes memory n) :=
  fun i _ _ howned => howned.1 (slot_invalidCqes memory hn i)

theorem length_invalidCqes (memory : Nat → Cqe) (n : Nat) : (invalidCqes memory n).length = n := by
  simp [invalidCqes]

/-- Every ring has a power of two of entries. -/
theorem alignQueueSize_eq_two_pow (n : Nat) : ∃ k, alignQueueSize (n + 1) = 2 ^ k := by
  unfold alignQueueSize
  rcases Nat.eq_zero_or_pos n with rfl | hn
  · exact ⟨0, rfl⟩
  · exact ⟨Nat.size n, roundupPowOfTwo_succ hn⟩

/-- A ring whose entries the record can count. -/
theorem alignQueueSize_pow {n : Nat} (hlt : alignQueueSize (n + 1) < 2 ^ 24) :
    ∃ k, k < 24 ∧ alignQueueSize (n + 1) = 2 ^ k := by
  obtain ⟨k, hk⟩ := alignQueueSize_eq_two_pow n
  rw [hk] at hlt
  exact ⟨k, (Nat.pow_lt_pow_iff_right (by omega)).mp hlt, hk⟩

/-- The queue of a new ring. -/
def CqSpec.new (cqe : Nat) : CqSpec := ⟨alignQueueSize (cqe + 1), 0, []⟩

theorem createCq_inv {cqe cqeSz : Nat} {memory : Option (Nat → Cqe)} {accepted : Bool}
    {s : CqSystem} (hcreate : createCq cqe cqeSz memory accepted = some (some s))
    (hcount : s.cq.cqe + 1 < 2 ^ 24) : CqInv s (CqSpec.new cqe) 0 := by
  have hpos : 0 < alignQueueSize (cqe + 1) := by
    obtain ⟨k, hk⟩ := alignQueueSize_eq_two_pow cqe
    rw [hk]
    exact Nat.two_pow_pos k
  unfold createCq at hcreate
  simp only at hcreate
  split at hcreate
  · cases hcreate
  split at hcreate
  · cases hcreate
  obtain ⟨ring, hring, hs⟩ := Option.map_eq_some_iff.mp hcreate
  split at hs
  · obtain ⟨buf, rfl, rfl⟩ := Option.map_eq_some_iff.mp hs
    unfold mlx5AllocCqBuf at hring
    split at hring
    · obtain ⟨memory, -, rfl⟩ := Option.map_eq_some_iff.mp (Option.some.inj hring)
      rw [Nat.sub_add_cancel hpos] at hcount
      exact
        { pow := alignQueueSize_pow hcount
          cqe := Nat.sub_add_cancel hpos
          len := length_invalidCqes memory _
          dbrec := rfl
          cons := rfl
          prod := rfl
          high := Nat.zero_le _
          stale := stale_invalidCqes memory hpos 0
          shows := trivial }
    · cases hring
  · cases hs

end Nicmem
