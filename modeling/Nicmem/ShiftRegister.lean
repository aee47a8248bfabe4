/-
Linear feedback shift registers.

A register of `w` bits moves down by one bit in a step; if the bit that falls out is set,
the taps `p` are added without carry.  A step is linear, and a register whose low bits are
clear only moves.  So a register can be taken apart: the low bits by themselves, and the
rest, which is moved.  A message is absorbed a few bits at a time by adding them to the low
end and stepping over them; absorbing two pieces is absorbing both at once.
-/
import Mathlib.Data.BitVec
import Mathlib.Logic.Function.Iterate

namespace ShiftRegister

variable {w : Nat} (p : BitVec w)

/-! ### Steps -/

/-- One step. -/
def feed (c : BitVec w) : BitVec w := if c.getLsbD 0 then (c >>> 1) ^^^ p else c >>> 1

/-- `n` steps. -/
def feeds (n : Nat) (c : BitVec w) : BitVec w := (feed p)^[n] c

@[simp]
theorem getLsbD_feed (c : BitVec w) (i : Nat) :
    (feed p c).getLsbD i = (c.getLsbD (1 + i) ^^ (c.getLsbD 0 && p.getLsbD i)) := by
  unfold feed
  cases c.getLsbD 0 with
  | false => simp
  | true => simp

theorem feed_xor (a b : BitVec w) : feed p (a ^^^ b) = feed p a ^^^ feed p b := by
  apply BitVec.eq_of_getLsbD_eq
  intro i _
  simp only [getLsbD_feed, BitVec.getLsbD_xor, Bool.and_xor_distrib_right, Bool.xor_assoc,
    Bool.xor_left_comm]

theorem feeds_succ (n : Nat) (c : BitVec w) : feeds p (n + 1) c = feeds p n (feed p c) :=
  Function.iterate_succ_apply (feed p) n c

theorem feeds_add (m n : Nat) (c : BitVec w) : feeds p (m + n) c = feeds p m (feeds p n c) :=
  Function.iterate_add_apply (feed p) m n c

theorem feeds_xor (n : Nat) :
    ∀ a b : BitVec w, feeds p n (a ^^^ b) = feeds p n a ^^^ feeds p n b := by
  induction n with
  | zero =>
      intro a b
      rfl
  | succ n ih =>
      intro a b
      simp only [feeds_succ, feed_xor, ih]

/-! ### Taking a register apart -/

/-- The low `n` bits. -/
def low (n : Nat) (c : BitVec w) : BitVec w := c &&& (BitVec.allOnes n).setWidth w

theorem getLsbD_low (n : Nat) (c : BitVec w) (i : Nat) :
    (low n c).getLsbD i = (c.getLsbD i && decide (i < n)) := by
  unfold low
  by_cases hi : i < w
  · simp [hi]
  · simp [BitVec.getLsbD_of_ge c i (by omega)]

theorem low_xor (n : Nat) (a b : BitVec w) : low n (a ^^^ b) = low n a ^^^ low n b := by
  apply BitVec.eq_of_getLsbD_eq
  intro i _
  simp only [getLsbD_low, BitVec.getLsbD_xor, Bool.and_xor_distrib_right]

/-- Nothing is lost of a few bits. -/
theorem low_setWidth {k : Nat} (b : BitVec k) : low k (b.setWidth w) = b.setWidth w := by
  apply BitVec.eq_of_getLsbD_eq
  intro i _
  rw [getLsbD_low]
  by_cases hi : i < k
  · simp [hi]
  · simp [BitVec.getLsbD_of_ge b i (by omega)]

theorem eq_low_xor (n : Nat) (c : BitVec w) : c = low n c ^^^ (c >>> n) <<< n := by
  apply BitVec.eq_of_getLsbD_eq
  intro i hi
  rw [BitVec.getLsbD_xor, getLsbD_low, BitVec.getLsbD_shiftLeft, BitVec.getLsbD_ushiftRight]
  by_cases hin : i < n
  · simp [hi, hin]
  · rw [Nat.add_sub_cancel' (by omega : n ≤ i)]
    simp [hi, hin]

/-- With its low bits clear, a register only moves. -/
theorem feeds_eq_ushiftRight (n : Nat) : ∀ c : BitVec w, (∀ i, i < n → c.getLsbD i = false) →
    feeds p n c = c >>> n := by
  induction n with
  | zero =>
      intro c _
      simp [feeds]
  | succ n ih =>
      intro c hclear
      have hfeed : feed p c = c >>> 1 := by
        unfold feed
        simp [hclear 0 (by omega)]
      rw [feeds_succ, hfeed, ih (c >>> 1), ← BitVec.shiftRight_add, Nat.add_comm 1 n]
      intro i hi
      rw [BitVec.getLsbD_ushiftRight]
      exact hclear (1 + i) (by omega)

/-- Bits that fit above the low ones only move. -/
theorem feeds_shiftLeft (n : Nat) {c : BitVec w} (hfit : ∀ i, w ≤ n + i → c.getLsbD i = false) :
    feeds p n (c <<< n) = c := by
  rw [feeds_eq_ushiftRight p n]
  · apply BitVec.eq_of_getLsbD_eq
    intro i _
    simp only [BitVec.getLsbD_ushiftRight, BitVec.getLsbD_shiftLeft]
    by_cases hi : n + i < w
    · simp [hi]
    · simp [hi, hfit i (by omega)]
  · intro i hi
    simp [hi]

/-- The low bits by themselves, and the rest moved. -/
theorem feeds_split (n m : Nat) (c : BitVec w) :
    feeds p (m + n) c = feeds p (m + n) (low n c) ^^^ feeds p m (c >>> n) := by
  have hmove : feeds p n ((c >>> n) <<< n) = c >>> n := by
    apply feeds_shiftLeft
    intro i hi
    rw [BitVec.getLsbD_ushiftRight]
    exact BitVec.getLsbD_of_ge c (n + i) hi
  conv_lhs => rw [eq_low_xor n c]
  rw [feeds_xor, feeds_add p m n ((c >>> n) <<< n), hmove]

/-! ### Messages -/

/-- A piece of a message of `k` bits is added at the low end and stepped over. -/
def absorb {k : Nat} (c : BitVec w) (b : BitVec k) : BitVec w := feeds p k (c ^^^ b.setWidth w)

/-- A message in pieces of `k` bits. -/
def digest {k : Nat} (c : BitVec w) (message : List (BitVec k)) : BitVec w :=
  message.foldl (absorb p) c

theorem digest_append {k : Nat} (c : BitVec w) (message message' : List (BitVec k)) :
    digest p c (message ++ message') = digest p (digest p c message) message' := List.foldl_append

theorem setWidth_append {k l : Nat} (b : BitVec k) (b' : BitVec l) :
    (b' ++ b).setWidth w = b.setWidth w ^^^ b'.setWidth w <<< k := by
  apply BitVec.eq_of_getLsbD_eq
  intro i hi
  simp only [BitVec.getLsbD_setWidth, BitVec.getLsbD_append, BitVec.getLsbD_xor,
    BitVec.getLsbD_shiftLeft]
  by_cases hik : i < k
  · simp [hi, hik]
  · simp [hi, hik, BitVec.getLsbD_of_ge b i (by omega), show i - k < w by omega]

/-- Two pieces that fit into the register can be absorbed at once. -/
theorem absorb_append {k l : Nat} (hkl : l + k ≤ w) (c : BitVec w) (b : BitVec k) (b' : BitVec l) :
    absorb p c (b' ++ b) = absorb p (absorb p c b) b' := by
  have hmove : feeds p k (b'.setWidth w <<< k) = b'.setWidth w := by
    apply feeds_shiftLeft
    intro i hi
    simp [BitVec.getLsbD_of_ge b' i (by omega)]
  unfold absorb
  rw [feeds_add, setWidth_append, ← BitVec.xor_assoc, feeds_xor p k (c ^^^ _), hmove]

/-! ### Injectivity -/

/-- With the highest tap set, a step loses nothing. -/
theorem feed_eq_zero {c : BitVec w} (hp : p.msb = true) (h : feed p c = 0) : c = 0 := by
  have hbit : ∀ i, (c.getLsbD (1 + i) ^^ (c.getLsbD 0 && p.getLsbD i)) = false := by
    intro i
    rw [← getLsbD_feed, h]
    exact BitVec.getLsbD_zero
  rw [BitVec.msb_eq_getLsbD_last] at hp
  have hw : w - 1 < w := by
    by_contra hw
    rw [BitVec.getLsbD_of_ge p (w - 1) (by omega)] at hp
    cases hp
  -- the bit that fell out is the highest one of the result
  have hzero : c.getLsbD 0 = false := by
    have htop := hbit (w - 1)
    rwa [hp, BitVec.getLsbD_of_ge c (1 + (w - 1)) (by omega), Bool.false_xor, Bool.and_true] at htop
  apply BitVec.eq_of_getLsbD_eq
  intro i _
  cases i with
  | zero => simpa using hzero
  | succ i =>
      have hi := hbit i
      rw [hzero, Bool.false_and, Bool.xor_false, Nat.add_comm] at hi
      simpa using hi

theorem feeds_eq_zero (hp : p.msb = true) (n : Nat) :
    ∀ {c : BitVec w}, feeds p n c = 0 → c = 0 := by
  induction n with
  | zero =>
      intro c h
      exact h
  | succ n ih =>
      intro c h
      rw [feeds_succ] at h
      exact feed_eq_zero p hp (ih h)

theorem feeds_injective (hp : p.msb = true) (n : Nat) : Function.Injective (feeds p n) := by
  intro a b h
  have hzero : feeds p n (a ^^^ b) = 0 := by
    rw [feeds_xor, h, BitVec.xor_self]
    rfl
  exact BitVec.xor_eq_zero_iff.mp (feeds_eq_zero p hp n hzero)

theorem digest_injective {k : Nat} (hp : p.msb = true) (message : List (BitVec k)) :
    Function.Injective fun c : BitVec w => digest p c message := by
  induction message with
  | nil => exact fun _ _ h => h
  | cons b message ih =>
      intro c c' h
      exact (BitVec.xor_left_inj _).mp (feeds_injective p hp k (ih h))

/-- The bits of a message that fits into a register. -/
def word {k : Nat} : List (BitVec k) → BitVec w
  | [] => 0
  | b :: message => b.setWidth w ^^^ word message <<< k

theorem getLsbD_word_of_ge {k : Nat} :
    ∀ (message : List (BitVec k)) {i : Nat}, k * message.length ≤ i →
    (word message : BitVec w).getLsbD i = false := by
  intro message
  induction message with
  | nil =>
      intro i _
      exact BitVec.getLsbD_zero
  | cons b message ih =>
      intro i hi
      rw [List.length_cons, Nat.mul_succ] at hi
      rw [word, BitVec.getLsbD_xor, BitVec.getLsbD_shiftLeft, ih (by omega : _ ≤ i - k)]
      simp [BitVec.getLsbD_of_ge b i (by omega)]

theorem digest_eq_feeds {k : Nat} : ∀ (message : List (BitVec k)) (c : BitVec w),
    k * message.length ≤ w →
      digest p c message = feeds p (k * message.length) (c ^^^ word message) := by
  intro message
  induction message with
  | nil =>
      intro c _
      simp [digest, word, feeds]
  | cons b message ih =>
      intro c hfit
      rw [List.length_cons, Nat.mul_succ] at hfit ⊢
      have hmove : feeds p k (word message <<< k) = word message := by
        apply feeds_shiftLeft
        intro i hi
        exact getLsbD_word_of_ge message (by omega)
      have hdigest : digest p c (b :: message) = digest p (absorb p c b) message := rfl
      rw [hdigest, ih (absorb p c b) (by omega), feeds_add, word, ← BitVec.xor_assoc,
        feeds_xor p k (c ^^^ _), hmove]
      rfl

theorem getLsbD_word_cons {k : Nat} (b : BitVec k) (message : List (BitVec k)) {i : Nat}
    (hi : i < w) :
    (word (b :: message) : BitVec w).getLsbD i =
      if i < k then b.getLsbD i else (word message : BitVec w).getLsbD (i - k) := by
  rw [word, BitVec.getLsbD_xor, BitVec.getLsbD_shiftLeft, BitVec.getLsbD_setWidth]
  by_cases hik : i < k
  · simp [hi, hik]
  · simp [hi, hik, BitVec.getLsbD_of_ge b i (by omega)]

theorem word_injective {k : Nat} : ∀ (message message' : List (BitVec k)),
    message.length = message'.length → k * message.length ≤ w →
      (word message : BitVec w) = word message' → message = message' := by
  intro message
  induction message with
  | nil =>
      intro message' hlen _ _
      exact (List.length_eq_zero_iff.mp hlen.symm).symm
  | cons b message ih =>
      intro message' hlen hfit h
      cases message' with
      | nil => cases hlen
      | cons b' message' =>
          rw [List.length_cons, Nat.mul_succ] at hfit
          rw [List.length_cons, List.length_cons, Nat.succ_inj] at hlen
          have hbit : ∀ i, i < w →
            (if i < k then b.getLsbD i else (word message : BitVec w).getLsbD (i - k)) =
              if i < k then b'.getLsbD i else (word message' : BitVec w).getLsbD (i - k) := by
            intro i hi
            rw [← getLsbD_word_cons b message hi, ← getLsbD_word_cons b' message' hi, h]
          have hhead : b = b' := by
            apply BitVec.eq_of_getLsbD_eq
            intro i hi
            have hi' := hbit i (by omega)
            rwa [if_pos hi, if_pos hi] at hi'
          have htail : (word message : BitVec w) = word message' := by
            apply BitVec.eq_of_getLsbD_eq
            intro i _
            by_cases hik : i + k < w
            · have hi' := hbit (i + k) hik
              rwa [if_neg (by omega), if_neg (by omega), Nat.add_sub_cancel] at hi'
            · rw [getLsbD_word_of_ge message (by omega),
                getLsbD_word_of_ge message' (by rw [← hlen]; omega)]
          rw [hhead, ih message' hlen (by omega) htail]

/-- Messages that differ in as many bits as the register has, one after the other, have
different digests. -/
theorem digest_ne {k : Nat} (hp : p.msb = true) (c : BitVec w) (before after : List (BitVec k))
    {u v : List (BitVec k)} (hlen : u.length = v.length) (hfit : k * u.length ≤ w) (hne : u ≠ v) :
    digest p c (before ++ u ++ after) ≠ digest p c (before ++ v ++ after) := by
  intro h
  rw [digest_append, digest_append, digest_append, digest_append] at h
  have hmid : digest p (digest p c before) u = digest p (digest p c before) v :=
    digest_injective p hp after h
  rw [digest_eq_feeds p u _ hfit, digest_eq_feeds p v _ (hlen ▸ hfit), ← hlen] at hmid
  have hword := (BitVec.xor_right_inj _).mp (feeds_injective p hp _ hmid)
  exact hne (word_injective u v hlen hfit hword)

end ShiftRegister
