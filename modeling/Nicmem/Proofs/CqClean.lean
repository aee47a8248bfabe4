/-
Cleaning a completion queue.

`__mlx5_cq_clean` looks for the producer index, and then goes backwards through the entries
that wait and copies those it keeps over those it removes.  An entry takes over the owner
bit of the slot it is copied to, so the owner bits of the ring do not change.  What is left
is the list of the entries that are not of the resource, in their order, at the end of the
indices that were swept.
-/
import Nicmem.Proofs.Cq
import Mathlib.Algebra.Order.Ring.Nat

namespace Nicmem

open C RingBuffer

/-! ### The producer index -/

/-- The search stops at the first entry of the hardware, or one entry short of a round. -/
theorem CqInv.cqProdIndex_from {s : CqSystem} {a : CqSpec} {d : Nat} (h : CqInv s a d) :
    ∀ (fuel j : Nat), d + a.unacked ≤ j →
      j ≤ d + a.unacked + min a.pending.length (a.size - 1) →
      d + a.unacked + min a.pending.length (a.size - 1) - j < fuel →
        cqProdIndex s.cq fuel (j % 2 ^ 32) =
          some ((d + a.unacked + min a.pending.length (a.size - 1)) % 2 ^ 32) := by
  have hprod := h.prod
  have hcqe := h.cqe
  have hsmall := h.small
  unfold CqSpec.inUse at hprod
  intro fuel
  induction fuel with
  | zero =>
      intro j _ _ hfuel
      omega
  | succ fuel ih =>
      intro j hj hj' hfuel
      have howned := h.swOwned_iff hj (by omega)
      rw [cqProdIndex, h.getSwCqe_eq j]
      simp only [Option.bind_eq_bind, Option.bind_some]
      rcases Nat.lt_or_ge j (d + a.unacked + min a.pending.length (a.size - 1)) with hlt | hge
      · rw [if_pos (by rw [howned]; omega)]
        simp only [h.cons]
        rw [if_neg (by omega), show (j % 2 ^ 32 + 1) % 2 ^ 32 = (j + 1) % 2 ^ 32 by omega]
        exact ih (j + 1) (by omega) (by omega) (by omega)
      · have heq : j = d + a.unacked + min a.pending.length (a.size - 1) := by omega
        split
        · rw [heq]
        · rename_i hfound
          have hlt : j < s.hwProd := by
            rw [← howned]
            by_contra hno
            rw [if_neg hno] at hfound
            cases hfound
          -- a full ring
          simp only [h.cons]
          rw [if_pos (by omega), heq]

theorem CqInv.cqProdIndex_eq {s : CqSystem} {a : CqSpec} {d : Nat} (h : CqInv s a d) :
    cqProdIndex s.cq (s.cq.cqe + 1) s.cq.consIndex =
      some ((d + a.unacked + min a.pending.length (a.size - 1)) % 2 ^ 32) := by
  have hcqe := h.cqe
  rw [h.cons]
  exact h.cqProdIndex_from _ _ (Nat.le_refl _) (Nat.le_add_right _ _) (by omega)

/-! ### Entries of a resource -/

theorem freeResCqe_fst (cqe : Cqe) (rsn : Nat) (srq cqeVersion : Bool) :
    (freeResCqe cqe rsn srq cqeVersion).1 = cqe.isOf rsn cqeVersion := by
  unfold freeResCqe Cqe.isOf
  cases cqeVersion with
  | false =>
      simp only [Bool.false_eq_true, if_false]
      split <;> simp_all
  | true =>
      simp only [if_true]
      split <;> simp_all

theorem freeResCqe_snd {cqe : Cqe} {rsn : Nat} {srq cqeVersion : Bool}
    (h : cqe.isOf rsn cqeVersion = false) : (freeResCqe cqe rsn srq cqeVersion).2 = none := by
  rw [← freeResCqe_fst cqe rsn srq] at h
  unfold freeResCqe at h ⊢
  cases cqeVersion with
  | false =>
      simp only [Bool.false_eq_true, if_false] at h ⊢
      split <;> simp_all
  | true =>
      simp only [if_true] at h ⊢
      split <;> simp_all

/-- The owner bit plays no part. -/
theorem freeResCqe_body (cqe : Cqe) (rsn : Nat) (srq cqeVersion : Bool) :
    freeResCqe cqe.body rsn srq cqeVersion = freeResCqe cqe rsn srq cqeVersion := by
  unfold freeResCqe
  rw [Cqe.opcode_body]
  rfl

/-! ### The sweep -/

/-- Of the `m` entries from index `c` on, in the ring `buf` whose device is at index `p`,
the entries `hi` have been swept and the entries `lo` before them have not. -/
structure Swept (n c p m : Nat) (buf : List Cqe) (rsn : Nat) (srq cqeVersion : Bool)
    (lo hi : List Cqe) (w : CqSweep) : Prop where
  total : lo.length + hi.length = m
  len : w.buf.length = n
  nfreed : w.nfreed = hi.countP (Cqe.isOf rsn cqeVersion)
  freed : w.freed = hi.reverse.filterMap fun cqe => (freeResCqe cqe rsn srq cqeVersion).2
  low : Shows (HoldsCqe n) w.buf default c lo
  high : Shows (HoldsCqe n) w.buf default (c + lo.length + w.nfreed)
    (hi.filter fun cqe => !cqe.isOf rsn cqeVersion)
  owner : ∀ i, c ≤ i → i < c + m → (slot w.buf default i).owner = hwOwner n i
  kept : ∀ i, c + m ≤ i → i < c + n → slot w.buf default i = slot buf default i
  stale : Stale n p w.buf

theorem countP_add_length_filter (q : Cqe → Bool) (l : List Cqe) :
    l.countP q + (l.filter fun cqe => !q cqe).length = l.length := by
  rw [List.countP_eq_length_filter]
  exact (List.length_eq_length_filter_add q).symm

section Sweep

variable {cq : Mlx5Cq} {k c p m rsn : Nat} {srq cqeVersion : Bool} {buf lo hi : List Cqe}
  {cqe : Cqe}
  {w : CqSweep}

/-- An entry of the resource is counted and left where it is. -/
theorem Swept.remove (h : Swept (2 ^ k) c p m buf rsn srq cqeVersion (lo ++ [cqe]) hi w)
    (hmine : cqe.isOf rsn cqeVersion = true) :
    Swept (2 ^ k) c p m buf rsn srq cqeVersion lo (cqe :: hi)
      { w with
        nfreed := w.nfreed + 1
        freed := w.freed ++ (freeResCqe cqe rsn srq cqeVersion).2.toList } := by
  refine
    { h with total := ?_, nfreed := ?_, freed := ?_, low := (shows_append.mp h.low).1, high := ?_ }
  · have htotal := h.total
    simp only [List.length_append, List.length_cons, List.length_nil] at htotal ⊢
    omega
  · simp [hmine, h.nfreed]
  · rw [List.reverse_cons, List.filterMap_append, ← h.freed]
    cases hfree : (freeResCqe cqe rsn srq cqeVersion).2 <;> simp [hfree]
  · have hhigh := h.high
    rw [List.length_append, List.length_singleton] at hhigh
    simp only [List.filter_cons, hmine, Bool.not_true, Bool.false_eq_true, if_false]
    rwa [show c + lo.length + (w.nfreed + 1) = c + (lo.length + 1) + w.nfreed by omega]

/-- The bookkeeping for an entry that stays, in a ring that has it in its new place. -/
theorem Swept.keep (h : Swept (2 ^ k) c p m buf rsn srq cqeVersion (lo ++ [cqe]) hi w)
    (hmine : cqe.isOf rsn cqeVersion = false) {ring : List Cqe} (hlen : ring.length = 2 ^ k)
    (hholds : HoldsCqe (2 ^ k) (c + lo.length + w.nfreed)
      (slot ring default (c + lo.length + w.nfreed)) cqe)
    (hother : ∀ i, c ≤ i → i < c + 2 ^ k → i ≠ c + lo.length + w.nfreed →
      slot ring default i = slot w.buf default i)
    (hfit : m ≤ 2 ^ k) (hstale : Stale (2 ^ k) p ring) :
    Swept (2 ^ k) c p m buf rsn srq cqeVersion lo (cqe :: hi) { w with buf := ring } := by
  have htotal := h.total
  have hhigh := h.high
  have hcount := countP_add_length_filter (Cqe.isOf rsn cqeVersion) hi
  rw [← h.nfreed] at hcount
  simp only [List.length_append, List.length_cons, List.length_nil] at htotal hhigh
  refine
    { len := hlen, stale := hstale, total := ?_, nfreed := ?_, freed := ?_, low := ?_, high := ?_
      owner := ?_, kept := ?_ }
  · rw [List.length_cons]
    omega
  · simp [hmine, h.nfreed]
  · rw [List.reverse_cons, List.filterMap_append, ← h.freed]
    simp [freeResCqe_snd hmine]
  · exact (shows_append.mp h.low).1.congr fun i hi hi' => hother i hi (by omega) (by omega)
  · simp only [List.filter_cons, hmine, Bool.not_false, if_true]
    refine ⟨hholds, ?_⟩
    rw [show c + lo.length + w.nfreed + 1 = c + (lo.length + (0 + 1)) + w.nfreed by omega]
    exact hhigh.congr fun i hi hi' => hother i (by omega) (by omega) (by omega)
  · intro i hi hi'
    by_cases heq : i = c + lo.length + w.nfreed
    · rw [heq]
      exact hholds.2.2
    · rw [hother i hi (by omega) heq]
      exact h.owner i hi hi'
  · intro i hi hi'
    rw [hother i (by omega) hi' (by omega)]
    exact h.kept i hi hi'

/-- One round of the sweep. -/
theorem Swept.step (hcqe : cq.cqe + 1 = 2 ^ k) (hk : k < 32) (hlow : c + m ≤ p)
    (hhigh : p ≤ c + 2 ^ k)
    (h : Swept (2 ^ k) c p m buf rsn srq cqeVersion (lo ++ [cqe]) hi w) :
    ∃ w', cqSweepStep cq rsn srq cqeVersion ((c + lo.length) % 2 ^ 32) w = some w' ∧
      Swept (2 ^ k) c p m buf rsn srq cqeVersion lo (cqe :: hi) w' := by
  have hpos : 0 < w.buf.length := by
    rw [h.len]
    exact Nat.two_pow_pos k
  have hmask : cq.cqe = 2 ^ k - 1 := by omega
  obtain ⟨-, hhere, -⟩ := shows_append.mp h.low
  have hread : ∀ i, w.buf[i % 2 ^ 32 &&& cq.cqe]? = some (slot w.buf default i) := by
    intro i
    rw [hmask, and_mask_eq hk, ← h.len]
    exact getElem?_slot default hpos i
  have hfree := freeResCqe_body (slot w.buf default (c + lo.length)) rsn srq cqeVersion
  rw [hhere.1] at hfree
  have hmine := freeResCqe_fst cqe rsn srq cqeVersion
  unfold cqSweepStep
  rw [hread]
  simp only [Option.bind_eq_bind, Option.bind_some]
  rw [← hfree]
  cases hof : cqe.isOf rsn cqeVersion with
  | true =>
      rw [hof] at hmine
      exact ⟨_, if_pos hmine, h.remove hof⟩
  | false =>
      rw [hof] at hmine
      rw [if_neg (by simp [hmine])]
      by_cases hzero : w.nfreed = 0
      · rw [if_neg (by simpa using hzero)]
        refine ⟨w, rfl, h.keep hof h.len ?_ (fun _ _ _ _ => rfl) (by omega) h.stale⟩
        rw [hzero]
        exact hhere
      · rw [if_pos hzero]
        have htotal := h.total
        have hcount := countP_add_length_filter (Cqe.isOf rsn cqeVersion) hi
        rw [← h.nfreed] at hcount
        simp only [List.length_append, List.length_cons, List.length_nil] at htotal
        -- the slot the entry is copied to, and its owner bit
        have hdest : ((c + lo.length) % 2 ^ 32 + w.nfreed) % 2 ^ 32 =
            (c + lo.length + w.nfreed) % 2 ^ 32 := Nat.mod_add_mod _ _ _
        have howner := h.owner (c + lo.length + w.nfreed) (by omega) (by omega)
        have hbit := hwOwner_isOwner (2 ^ k) (c + lo.length + w.nfreed)
        have hindex : (c + lo.length + w.nfreed) % 2 ^ 32 &&& cq.cqe =
            (c + lo.length + w.nfreed) % w.buf.length := by
          rw [hmask, and_mask_eq hk, h.len]
        rw [updateAt, hdest, hread, Option.bind_some, Option.map_some, Option.bind_some, hindex]
        refine ⟨_, rfl, h.keep hof (by rw [List.length_set]; exact h.len) ?_ ?_ (by omega) ?_⟩
        · rw [slot_set_self hpos]
          show HoldsCqe _ _ ((slot w.buf default (c + lo.length)).withOwner
            (slot w.buf default (c + lo.length + w.nfreed)).owner) cqe
          rw [howner, ← hhere.1]
          exact holdsCqe_withOwner hhere.2.1
        · intro i hi hi' hne
          rw [h.len] at hpos
          exact slot_set_of_lt (h.len ▸ hpos) (Ne.symm hne) (by rw [h.len]; omega)
            (by rw [h.len]; omega)
        · rw [h.len]
          refine h.stale.set h.len (h.len ▸ hpos) (by omega) (by omega) ?_
          show ((slot w.buf default (c + lo.length)).withOwner
            (slot w.buf default (c + lo.length + w.nfreed)).owner).owner = _
          rw [howner]
          exact Cqe.owner_withOwner _ hbit

/-- The loop counts down to the consumer index, as long as the difference is an `int`. -/
theorem intSub_pred {c t : Nat} (h : OneSign c t) (ht : t < 2 ^ 24) :
    intSub (((c + t) % 2 ^ 32 + 2 ^ 32 - 1) % 2 ^ 32) (c % 2 ^ 32) = some ((t : Int) - 1) := by
  have hdiff : toInt32 (((c + t) % 2 ^ 32 + 2 ^ 32 - 1) % 2 ^ 32) - toInt32 (c % 2 ^ 32) =
      (t : Int) - 1 := by
    unfold toInt32
    rcases h with h | h
    · split <;> split <;> omega
    · split <;> split <;> omega
  unfold intSub
  simp only [hdiff]
  rw [if_pos (by omega)]

/-- The whole sweep. -/
theorem Swept.sweep (hcqe : cq.cqe + 1 = 2 ^ k) (hk : k < 24) (hcons : cq.consIndex = c % 2 ^ 32)
    (hlow : c + m ≤ p) (hhigh : p ≤ c + 2 ^ k) (hint : OneSign c m) :
    ∀ (lo : List Cqe) (fuel : Nat) {hi : List Cqe} {w : CqSweep}, lo.length < fuel →
      Swept (2 ^ k) c p m buf rsn srq cqeVersion lo hi w →
        ∃ w', cqSweep cq rsn srq cqeVersion fuel ((c + lo.length) % 2 ^ 32) w = some w' ∧
          Swept (2 ^ k) c p m buf rsn srq cqeVersion [] (lo ++ hi) w' := by
  have hsmall : 2 ^ k < 2 ^ 24 := Nat.pow_lt_pow_right (by omega) hk
  intro lo
  induction lo using List.reverseRecOn with
  | nil =>
      intro fuel hi w hfuel h
      obtain ⟨fuel, rfl⟩ : ∃ f, fuel = f + 1 := ⟨fuel - 1, by omega⟩
      have hd : intSub (((c + 0) % 2 ^ 32 + 2 ^ 32 - 1) % 2 ^ 32) cq.consIndex = some (-1) := by
        rw [hcons, intSub_pred (hint.mono (Nat.zero_le m)) (by omega)]
        rfl
      refine ⟨w, ?_, h⟩
      rw [List.length_nil, cqSweep]
      simp only [hd, Option.bind_eq_bind, Option.bind_some]
      rfl
  | append_singleton lo cqe ih =>
      intro fuel hi w hfuel h
      obtain ⟨fuel, rfl⟩ : ∃ f, fuel = f + 1 := ⟨fuel - 1, by omega⟩
      have htotal := h.total
      rw [List.length_append, List.length_singleton] at hfuel htotal ⊢
      have hd : intSub (((c + (lo.length + 1)) % 2 ^ 32 + 2 ^ 32 - 1) % 2 ^ 32) cq.consIndex =
          some (lo.length : Int) := by
        rw [hcons, intSub_pred (hint.mono (by omega)) (by omega)]
        exact congrArg some (by omega)
      have hpred : ((c + (lo.length + 1)) % 2 ^ 32 + 2 ^ 32 - 1) % 2 ^ 32 =
          (c + lo.length) % 2 ^ 32 := by omega
      obtain ⟨w₁, hstep, h₁⟩ := h.step hcqe (by omega) hlow hhigh
      obtain ⟨w', hsweep, h'⟩ := ih fuel (by omega) h₁
      refine ⟨w', ?_, by simpa using h'⟩
      rw [cqSweep]
      simp only [hd, Option.bind_eq_bind, Option.bind_some]
      rw [if_pos (Int.natCast_nonneg _), hpred, hstep, Option.bind_some]
      exact hsweep

end Sweep

/-! ### The operation -/

section Clean

variable {s : CqSystem} {a : CqSpec} {d m rsn : Nat} {srq cqeVersion : Bool}

/-- Before the sweep. -/
theorem CqInv.swept_start (h : CqInv s a d) (hm : m ≤ a.pending.length) (rsn : Nat)
    (srq cqeVersion : Bool) :
    Swept a.size (d + a.unacked) s.hwProd m s.cq.buf rsn srq cqeVersion (a.pending.take m) []
      ⟨s.cq.buf, 0, []⟩ := by
  have hlen : (a.pending.take m).length = m := List.length_take_of_le hm
  have hshows := h.shows
  rw [← List.take_append_drop m a.pending, shows_append] at hshows
  refine
    { total := hlen, len := h.len, nfreed := rfl, freed := rfl, low := hshows.1, high := trivial
      owner := ?_, kept := fun _ _ _ => rfl, stale := h.stale }
  intro i hi hi'
  have hhere := h.shows.getElem (k := i - (d + a.unacked)) (by omega)
  rw [Nat.add_sub_cancel' hi] at hhere
  exact hhere.2.2

/-- The entries that were swept, then those that were not. -/
theorem CqInv.swept_shows (h : CqInv s a d) (hm : m ≤ a.pending.length) {w : CqSweep}
    (hw : Swept a.size (d + a.unacked) s.hwProd m s.cq.buf rsn srq cqeVersion []
      (a.pending.take m) w) :
    Shows (HoldsCqe a.size) w.buf default (d + a.unacked + w.nfreed)
      ((a.pending.take m).filter (fun cqe => !cqe.isOf rsn cqeVersion) ++ a.pending.drop m) := by
  have hprod := h.prod
  have hhigh := h.high
  have hlen : (a.pending.take m).length = m := List.length_take_of_le hm
  have hcount := countP_add_length_filter (Cqe.isOf rsn cqeVersion) (a.pending.take m)
  rw [← hw.nfreed, hlen] at hcount
  have hshows := h.shows
  rw [← List.take_append_drop m a.pending, shows_append, hlen] at hshows
  unfold CqSpec.inUse at hprod
  refine shows_append.mpr ⟨hw.high, ?_⟩
  rw [Nat.add_assoc, hcount]
  refine hshows.2.congr fun i hi hi' => hw.kept i hi ?_
  rw [List.length_drop] at hi'
  omega

/-- The queue after the sweep, with the consumer index behind the entries removed. -/
theorem CqInv.swept (h : CqInv s a d) (hm : m ≤ a.pending.length) {w : CqSweep}
    (hw : Swept a.size (d + a.unacked) s.hwProd m s.cq.buf rsn srq cqeVersion []
      (a.pending.take m) w) :
    CqInv
      { s with cq := { s.cq with buf := w.buf, consIndex := (s.cq.consIndex + w.nfreed) % 2 ^ 32 } }
      { a with
        unacked := a.unacked + w.nfreed
        pending :=
          (a.pending.take m).filter (fun cqe => !cqe.isOf rsn cqeVersion) ++ a.pending.drop m }
      d := by
  have hprod := h.prod
  have hlen : (a.pending.take m).length = m := List.length_take_of_le hm
  have hcount := countP_add_length_filter (Cqe.isOf rsn cqeVersion) (a.pending.take m)
  rw [← hw.nfreed, hlen] at hcount
  refine { h with len := hw.len, stale := hw.stale, cons := ?_, prod := ?_, shows := ?_ }
  · simp only [h.cons]
    rw [Nat.mod_add_mod, Nat.add_assoc]
  · simp only [CqSpec.inUse, List.length_append, List.length_drop] at hprod ⊢
    omega
  · rw [← Nat.add_assoc]
    exact h.swept_shows hm hw

/-- The queue after cleaning up to an index of the producer. -/
theorem CqInv.clean (h : CqInv s a d) (hm : m ≤ a.pending.length)
    (hint : OneSign (d + a.unacked) m) (rsn : Nat) (srq cqeVersion : Bool) :
    ∃ cq d', mlx5CqClean s.cq rsn srq cqeVersion ((d + a.unacked + m) % 2 ^ 32) =
        some (cq, (a.pending.take m).reverse.filterMap fun cqe =>
          (freeResCqe cqe rsn srq cqeVersion).2) ∧
      CqInv { s with cq }
        { a with
          unacked := if (a.pending.take m).any (Cqe.isOf rsn cqeVersion) then 0 else a.unacked
          pending := (a.pending.take m).filter (fun cqe => !cqe.isOf rsn cqeVersion) ++
            a.pending.drop m } d' := by
  have hprod := h.prod
  have hhigh := h.high
  have hcqe := h.cqe
  obtain ⟨k, hk, hsize⟩ := h.pow
  have hlen : (a.pending.take m).length = m := List.length_take_of_le hm
  unfold CqSpec.inUse at hprod
  have hstart := h.swept_start hm rsn srq cqeVersion
  rw [hsize] at hstart
  obtain ⟨w, hsweep, hw⟩ := Swept.sweep (hsize ▸ hcqe) hk h.cons (by omega) (by omega) hint
    (a.pending.take m) (s.cq.cqe + 2) (by omega) hstart
  rw [← hsize, List.append_nil] at hw
  rw [hlen] at hsweep
  have hafter := h.swept hm hw
  have hany : (a.pending.take m).any (Cqe.isOf rsn cqeVersion) = true ↔ w.nfreed ≠ 0 := by
    rw [hw.nfreed, List.any_eq_true, ← Nat.pos_iff_ne_zero, List.countP_pos_iff]
  unfold mlx5CqClean
  rw [hsweep]
  simp only [Option.bind_eq_bind, Option.bind_some, hw.freed]
  by_cases hzero : w.nfreed = 0
  · rw [if_neg (by simpa using hzero), if_neg (by simpa [hany] using hzero)]
    refine ⟨_, d, rfl, ?_⟩
    have hsame : (s.cq.consIndex + 0) % 2 ^ 32 = s.cq.consIndex := by
      rw [h.cons]
      omega
    rw [hzero, hsame] at hafter
    exact hafter
  · rw [if_pos hzero, if_pos (hany.mpr hzero)]
    exact ⟨_, _, rfl, hafter.update⟩

/-- A producer index is found, the device goes on, and the entries up to the index are
cleaned. -/
theorem CqInv.clean_step (h : CqInv s a d) (rsn : Nat) (srq cqeVersion : Bool)
    {meanwhile : List Cqe} (hsign : s.SignKept) (hroom : s.Room meanwhile) :
    ∃ s' out d', s.step (.clean rsn srq cqeVersion meanwhile) = some (s', out) ∧
      (a.step (.clean rsn srq cqeVersion meanwhile)).2 = out.body ∧
      CqInv s' (a.step (.clean rsn srq cqeVersion meanwhile)).1 d' := by
  obtain ⟨s₁, hproduce, h₁⟩ := h.produce hroom
  have hint := (h.oneSign hsign).mono (Nat.min_le_left a.pending.length (a.size - 1))
  -- the entries that wait when the index is found
  have htake : (a.produce meanwhile).pending.take (min a.pending.length (a.size - 1)) =
      a.pending.take (a.size - 1) := by
    rw [CqSpec.produce, List.take_append_of_le_length (Nat.min_le_left _ _), ← List.take_take]
    simp
  have hdrop : (a.produce meanwhile).pending.drop (min a.pending.length (a.size - 1)) =
      a.pending.drop (a.size - 1) ++ meanwhile.map Cqe.body := by
    rw [CqSpec.produce, List.drop_append_of_le_length (Nat.min_le_left _ _)]
    congr 1
    rcases Nat.le_total a.pending.length (a.size - 1) with hle | hle
    · rw [Nat.min_eq_left hle, List.drop_length, List.drop_eq_nil_of_le hle]
    · rw [Nat.min_eq_right hle]
  have hle : min a.pending.length (a.size - 1) ≤ (a.produce meanwhile).pending.length := by
    rw [CqSpec.produce, List.length_append]
    omega
  obtain ⟨cq, d', hclean, h₂⟩ := h₁.clean hle hint rsn srq cqeVersion
  rw [htake, hdrop] at h₂
  rw [htake] at hclean
  have hstep : s.step (.clean rsn srq cqeVersion meanwhile) =
      some ({ s₁ with cq }, .cleaned (a.cleanFrees rsn srq cqeVersion)) := by
    unfold CqSystem.step
    rw [h.cqProdIndex_eq]
    simp only [Option.bind_eq_bind, Option.bind_some]
    rw [hproduce, Option.bind_some]
    exact congrArg (fun r => r.bind fun q => some ({ s₁ with cq := q.1 }, CqOut.cleaned q.2)) hclean
  refine ⟨_, _, d', hstep, rfl, ?_⟩
  simp only [CqSpec.step, CqSpec.clean, CqSpec.produce, List.append_assoc]
  exact h₂

end Clean

end Nicmem
