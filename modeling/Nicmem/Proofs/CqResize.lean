/-
Resizing a completion queue.

The device ends the old ring with a mark and goes on in the new one, where the mark takes an
index.  The driver copies the entries that wait to the new ring, each to the index after its
own, with the owner bit it has there; then the consumer index is moved by one.  The device
may write to the new ring before or while the entries are copied: its indices are beyond
theirs.
-/
import Nicmem.Proofs.Cq
import Mathlib.Algebra.Order.Ring.Nat

namespace Nicmem

open C RingBuffer

/-! ### The copy -/

theorem isHw_eq_false {cqe : Cqe} {k i : Nat} (hk : k < 32) (h : cqe.owner = hwOwner (2 ^ k) i) :
    isHw cqe.opOwn (i % 2 ^ 32) (2 ^ k - 1) = false := by
  unfold isHw
  rw [Nat.sub_add_cancel (Nat.two_pow_pos k), swOwnershipBit_eq hk, ← h]
  simp [Cqe.owner]

theorem intSucc_eq {c i p : Nat} (h : OneSign c (p - c)) (hc : c ≤ i) (hi : i < p)
    (hp : p < c + 2 ^ 24) : intSucc (i % 2 ^ 32) = some ((i + 1) % 2 ^ 32) := by
  unfold intSucc
  unfold OneSign at h
  rw [if_neg (by omega)]
  exact congrArg some (by omega)

/-- The entries up to `p` are copied from the ring `new` to the ring `new'`, from index `i`
of the old ring on. -/
structure Copied (n p i : Nat) (l new new' : List Cqe) : Prop where
  len : new'.length = n
  shows : Shows (HoldsCqe n) new' default (i + 1) l
  kept : ∀ j, j ≤ i ∧ p < j + n ∨ p < j ∧ j < i + 1 + n → slot new' default j = slot new default j
  stale : ∀ p', p < p' → p' ≤ i + 1 + n → Stale n p' new → Stale n p' new'

section Copy

variable {old : List Cqe} {k k' c p : Nat}

/-- The loop runs up to the mark. -/
theorem resizeCopyLoop_eq (hold : old.length = 2 ^ k) (hk : k < 24) (hk' : k' < 24)
    (howner : ∀ j, c ≤ j → j ≤ p → (slot old default j).owner = hwOwner (2 ^ k) j)
    (hmark : mlx5dvGetCqeOpcode (slot old default p) = cqeResizeCq)
    (hround : p < c + 2 ^ k) (hfit : p < c + 2 ^ k') (hint : OneSign c (p - c)) :
    ∀ (l : List Cqe) (fuel i : Nat) (new : List Cqe), l.length < fuel → c ≤ i → i + l.length = p →
      Shows (HoldsCqe (2 ^ k)) old default i l → new.length = 2 ^ k' →
        ∃ new', resizeCopyLoop old (2 ^ k - 1) (c % 2 ^ k) fuel (i % 2 ^ 32) (slot old default i)
            new = some (new', true) ∧ Copied (2 ^ k') p i l new new' := by
  have hpos : 0 < 2 ^ k' := Nat.two_pow_pos k'
  have hsmall : 2 ^ k < 2 ^ 24 := Nat.pow_lt_pow_right (by omega) hk
  have hread : ∀ j, old[j % 2 ^ k]? = some (slot old default j) := by
    intro j
    rw [← hold]
    exact getElem?_slot default (hold ▸ Nat.two_pow_pos k) j
  intro l
  induction l with
  | nil =>
      intro fuel i new hfuel hci hip _ hnew
      obtain ⟨fuel, rfl⟩ : ∃ f, fuel = f + 1 :=
        ⟨fuel - 1, by rw [List.length_nil] at hfuel; omega⟩
      obtain rfl : i = p := hip
      refine ⟨new, ?_, ⟨hnew, trivial, fun _ _ => rfl, fun _ _ _ h => h⟩⟩
      rw [resizeCopyLoop, if_pos hmark]
  | cons cqe l ih =>
      intro fuel i new hfuel hci hip hshows hnew
      rw [List.length_cons] at hfuel hip
      obtain ⟨fuel, rfl⟩ : ∃ f, fuel = f + 1 := ⟨fuel - 1, by omega⟩
      obtain ⟨hhere, hrest⟩ := shows_cons.mp hshows
      have hslot : (i + 1) % 2 ^ k' < new.length := by
        rw [hnew]
        exact Nat.mod_lt _ hpos
      have hstart : (i + 1) % 2 ^ k ≠ c % 2 ^ k := (mod_ne_mod (by omega) (by omega)).symm
      -- the ring with the entry
      obtain ⟨ring, hring⟩ : ∃ ring, ring = new.set ((i + 1) % 2 ^ k')
          ((slot old default i).withOwner (hwOwner (2 ^ k') (i + 1))) := ⟨_, rfl⟩
      have hlen : ring.length = 2 ^ k' := by rw [hring, List.length_set, hnew]
      have hstore : store new ((i + 1) % 2 ^ 32 &&& (new.length - 1))
          ((slot old default i).withOwner (swOwnershipBit ((i + 1) % 2 ^ 32) new.length)) =
            some ring := by
        rw [hnew, and_mask_eq (by omega), swOwnershipBit_eq (by omega), hring, store, updateAt,
          List.getElem?_eq_getElem hslot, Option.bind_some, Option.map_some]
      have hother : ∀ j, j ≠ i + 1 → i + 1 < j + 2 ^ k' → j < i + 1 + 2 ^ k' →
          slot ring default j = slot new default j := by
        intro j hne hlow hhigh
        rw [← hnew] at hlow hhigh hpos
        rw [hring, ← hnew]
        exact slot_set_of_lt hpos (Ne.symm hne) hlow hhigh
      obtain ⟨new', hloop, h⟩ := ih fuel (i + 1) ring (by omega) (by omega) (by omega) hrest hlen
      refine ⟨new', ?_, h.len, ⟨?_, h.shows⟩, ?_, ?_⟩
      · rw [resizeCopyLoop, if_neg hhere.2.1.2, intSucc_eq hint hci (by omega) (by omega)]
        simp only [Option.bind_eq_bind, Option.bind_some]
        rw [hstore, Option.bind_some, and_mask_eq (by omega), hread, Option.bind_some,
          isHw_eq_false (by omega) (howner (i + 1) (by omega) (by omega)),
          if_neg Bool.false_ne_true, if_neg hstart]
        exact hloop
      · rw [h.kept (i + 1) (Or.inl ⟨by omega, by omega⟩), hring, ← hnew,
          slot_set_self (hnew ▸ hpos), ← hhere.1]
        exact holdsCqe_withOwner hhere.2.1
      · intro j hj
        rw [h.kept j (by omega)]
        exact hother j (by omega) (by omega) (by omega)
      · intro p' hp hp' hstale
        refine h.stale p' hp (by omega) ?_
        rw [hring]
        exact hstale.set hnew hpos (by omega) hp' (Cqe.owner_withOwner _ (hwOwner_isOwner _ _))

/-- All entries that wait are copied. -/
theorem mlx5CqResizeCopyCqes_eq (cq : Mlx5Cq) (new : List Cqe) (hold : cq.buf.length = 2 ^ k)
    (hcqe : cq.cqe + 1 = 2 ^ k) (hk : k < 24) (hk' : k' < 24) (hcons : cq.consIndex = c % 2 ^ 32)
    (howner : ∀ j, c ≤ j → j ≤ p → (slot cq.buf default j).owner = hwOwner (2 ^ k) j)
    (hmark : mlx5dvGetCqeOpcode (slot cq.buf default p) = cqeResizeCq)
    (hround : p < c + 2 ^ k) (hfit : p < c + 2 ^ k') (hint : OneSign c (p - c)) {l : List Cqe}
    (hl : c + l.length = p) (hshows : Shows (HoldsCqe (2 ^ k)) cq.buf default c l)
    (hnew : new.length = 2 ^ k') :
    ∃ new', mlx5CqResizeCopyCqes cq new = some (new', (c + 1) % 2 ^ 32) ∧
      Copied (2 ^ k') p c l new new' := by
  have hmask : cq.cqe = 2 ^ k - 1 := by omega
  have hread : cq.buf[c % 2 ^ k]? = some (slot cq.buf default c) := by
    rw [← hold]
    exact getElem?_slot default (hold ▸ Nat.two_pow_pos k) c
  obtain ⟨new', hloop, h⟩ := resizeCopyLoop_eq hold hk hk' howner hmark hround hfit hint l
    (cq.cqe + 1) c new (by omega) (Nat.le_refl c) hl hshows hnew
  refine ⟨new', ?_, h⟩
  unfold mlx5CqResizeCopyCqes
  simp only [hcons]
  rw [hmask] at hloop ⊢
  rw [and_mask_eq (by omega), hread]
  simp only [Option.bind_eq_bind, Option.bind_some]
  rw [isHw_eq_false (by omega) (howner c (Nat.le_refl c) (by omega)), if_neg Bool.false_ne_true,
    hloop, Option.bind_some, if_pos rfl, Nat.mod_add_mod]

end Copy

/-! ### The operation -/

section Resize

variable {s : CqSystem} {a : CqSpec} {d : Nat}

/-- The mark is written after the entries that wait. -/
theorem CqInv.old_ring (h : CqInv s a d) (hroom : a.inUse < a.size) {mark : Cqe}
    (hmark : mlx5dvGetCqeOpcode mark = cqeResizeCq) {old : List Cqe}
    (hold : old = s.cq.buf.set (s.hwProd % a.size) (mark.withOwner (hwOwner a.size s.hwProd))) :
    old.length = a.size ∧ Shows (HoldsCqe a.size) old default (d + a.unacked) a.pending ∧
      mlx5dvGetCqeOpcode (slot old default s.hwProd) = cqeResizeCq ∧
      ∀ j, d + a.unacked ≤ j → j ≤ s.hwProd → (slot old default j).owner = hwOwner a.size j := by
  have hprod := h.prod
  have hpos : 0 < s.cq.buf.length := by
    rw [h.len]
    exact h.pos
  have hbit := hwOwner_isOwner a.size s.hwProd
  unfold CqSpec.inUse at hprod hroom
  have hself : slot old default s.hwProd = mark.withOwner (hwOwner a.size s.hwProd) := by
    rw [hold]
    conv_lhs => rw [← h.len]
    rw [slot_set_self hpos, h.len]
  have hshows : Shows (HoldsCqe a.size) old default (d + a.unacked) a.pending := by
    refine h.shows.congr fun i hi hi' => ?_
    rw [hold]
    conv_lhs => rw [← h.len]
    rw [slot_set_of_lt hpos (by omega) (by rw [h.len]; omega) (by rw [h.len]; omega)]
  refine ⟨by rw [hold, List.length_set, h.len], hshows, ?_, ?_⟩
  · rw [hself, Cqe.opcode_withOwner _ hbit, hmark]
  · intro j hj hj'
    rcases Nat.lt_or_ge j s.hwProd with hlt | hge
    · have hhere := hshows.getElem (k := j - (d + a.unacked)) (by omega)
      rw [Nat.add_sub_cancel' hj] at hhere
      exact hhere.2.2
    · obtain rfl : j = s.hwProd := by omega
      rw [hself]
      exact Cqe.owner_withOwner _ hbit

/-- The queue in its new ring. -/
theorem CqInv.resized (h : CqInv s a d) {nent : Nat} {ring buf new meanwhile : List Cqe}
    (hpow : ∃ k, k < 24 ∧ nent = 2 ^ k) (hroom : a.inUse + 1 + meanwhile.length ≤ nent)
    (hwrote : Wrote nent (s.hwProd + 1) ring buf meanwhile)
    (hcopied : Copied nent s.hwProd (d + a.unacked) a.pending buf new) :
    CqInv
      { cq := { s.cq with buf := new, cqe := nent - 1, consIndex := (d + a.unacked + 1) % 2 ^ 32 }
        hwProd := s.hwProd + 1 + meanwhile.length }
      (CqSpec.produce { a with size := nent, unacked := a.unacked + 1 } meanwhile) d := by
  have hprod := h.prod
  unfold CqSpec.inUse at hprod hroom
  refine
    { pow := hpow, cqe := Nat.sub_add_cancel (by omega), len := hcopied.len, dbrec := h.dbrec
      cons := rfl, prod := ?_, high := ?_, stale := ?_, shows := ?_ }
  · simp only [CqSpec.inUse, CqSpec.produce, List.length_append, List.length_map]
    omega
  · show s.hwProd + 1 + meanwhile.length ≤ d + nent
    omega
  · show Stale nent (s.hwProd + 1 + meanwhile.length) new
    exact hcopied.stale _ (by omega) (by omega) hwrote.stale
  · refine shows_append.mpr ⟨hcopied.shows, ?_⟩
    show Shows (HoldsCqe nent) new default (d + (a.unacked + 1) + a.pending.length) _
    rw [show d + (a.unacked + 1) + a.pending.length = s.hwProd + 1 by omega]
    refine hwrote.shows.congr fun j hj hj' => hcopied.kept j (Or.inr ?_)
    rw [List.length_map] at hj'
    omega

/-- The device takes the new ring. -/
theorem CqInv.resize_taken (h : CqInv s a d) {cqe : Nat} (memory : Nat → Cqe) {move : CqMove}
    (hbytes : ¬cqe * 64 > 2 ^ 31 - 1) (hnew : alignQueueSize (cqe + 1) ≠ a.size)
    (hint : alignQueueSize (cqe + 1) * s.cq.cqeSz < 2 ^ 31) (hsign : s.SignKept)
    (hmove : move.Proper s (alignQueueSize (cqe + 1))) :
    ∃ s', s.resize cqe (some memory) (some move) = some (s', true, move.meanwhile) ∧
      CqInv s' (CqSpec.produce
        { a with size := alignQueueSize (cqe + 1), unacked := a.unacked + 1 }
        move.meanwhile) d := by
  have hprod := h.prod
  obtain ⟨hending, hroom, hcompletions, hfit, hcount⟩ := hmove
  obtain ⟨mark, hends, hmark⟩ := List.map_eq_singleton_iff.mp hending
  rw [h.inUse_eq, h.cqe] at hroom
  rw [h.inUse_eq] at hfit
  obtain ⟨k, hk, hsize⟩ := h.pow
  obtain ⟨k', hk', hnent⟩ := alignQueueSize_pow hcount
  have hsigns := h.oneSign hsign
  generalize hn : alignQueueSize (cqe + 1) = nent at *
  have hpos : 0 < nent := by omega
  -- the device writes the mark and then to the new ring
  obtain ⟨buf, hwrite, hwrote⟩ := hwWrite_spec hpos move.meanwhile (p := s.hwProd + 1) _
    (length_invalidCqes memory nent) (stale_invalidCqes memory hpos _) hcompletions (by omega)
  obtain ⟨old, hold⟩ : ∃ old, old = s.cq.buf.set (s.hwProd % a.size)
      (mark.withOwner (hwOwner a.size s.hwProd)) := ⟨_, rfl⟩
  have hwriteOld : hwWrite s.cq.buf s.hwProd [mark] = some old := by
    rw [hwWrite_cons h.len h.pos, ← hold]
    rfl
  -- the driver copies the old entries
  obtain ⟨hlen, hshows, hopcode, howner⟩ := h.old_ring hroom hmark hold
  unfold CqSpec.inUse at hprod hfit hroom
  rw [hsize] at hlen hshows howner
  obtain ⟨new, hcopy, hcopied⟩ := mlx5CqResizeCopyCqes_eq { s.cq with buf := old } buf
    hlen (hsize ▸ h.cqe) hk hk' h.cons howner hopcode (by omega) (by omega)
    (hsigns.mono (by omega)) (by omega) hshows (hnent ▸ hwrote.len)
  rw [← hnent] at hcopied
  refine ⟨_, ?_, h.resized ⟨k', hk', hnent⟩ hfit hwrote hcopied⟩
  unfold CqSystem.resize mlx5AllocCqBuf
  rw [if_neg hbytes]
  simp only [hn]
  rw [if_neg (by rw [h.cqe]; exact hnew), if_pos hint, Option.map_some, Option.bind_some]
  simp only [hends, hwriteOld, Option.bind_eq_bind, Option.bind_some, List.length_singleton, hwrite,
    hcopy]

theorem CqInv.resize_step (h : CqInv s a d) {cqe : Nat} (memory : Option (Nat → Cqe))
    {answer : Option CqMove} (hmay : s.MayResize cqe answer) :
    ∃ s' out, s.step (.resize cqe memory answer) = some (s', out) ∧
      (a.step (.resize cqe memory answer)).2 = out.body ∧
      CqInv s' (a.step (.resize cqe memory answer)).1 d := by
  simp only [CqSystem.step, CqSpec.step, CqSpec.resize]
  by_cases hbytes : cqe * 64 > 2 ^ 31 - 1
  · rw [CqSystem.resize, if_pos hbytes, if_pos hbytes]
    exact ⟨s, _, rfl, rfl, h⟩
  rw [if_neg hbytes]
  by_cases hsame : alignQueueSize (cqe + 1) = a.size
  · rw [CqSystem.resize, if_neg hbytes, if_pos hsame]
    simp only [h.cqe, if_pos hsame]
    exact ⟨s, _, rfl, rfl, h⟩
  rw [if_neg hsame]
  obtain ⟨hint, hanswer⟩ := hmay (Nat.not_lt.mp hbytes) (by rw [h.cqe]; exact hsame)
  -- without memory or with an error of the kernel nothing changes
  have hrefused : memory = none ∨ answer = none →
      s.resize cqe memory answer = some (s, false, []) := by
    intro hnone
    unfold CqSystem.resize mlx5AllocCqBuf
    rw [if_neg hbytes]
    simp only [h.cqe, if_neg hsame, if_pos hint, Option.bind_some]
    rcases hnone with rfl | rfl
    · rfl
    · cases memory <;> rfl
  cases memory with
  | none =>
      rw [hrefused (Or.inl rfl)]
      exact ⟨s, _, rfl, rfl, h⟩
  | some memory =>
      cases answer with
      | none =>
          rw [hrefused (Or.inr rfl)]
          exact ⟨s, _, rfl, rfl, h⟩
      | some move =>
          obtain ⟨hsign, hmove⟩ := hanswer move rfl
          obtain ⟨s', hresize, h'⟩ := h.resize_taken memory hbytes hsame hint hsign hmove
          rw [hresize]
          exact ⟨s', _, rfl, rfl, h'⟩

end Resize

end Nicmem
