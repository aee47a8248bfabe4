/-
Ring buffers with a running index.

An entry is known by its running index `i`; it is in the slot `i % n` of a ring of `n`
slots.  Entries whose indices lie less than `n` apart have different slots.  The phase of
an index tells in which of two alternating rounds through the ring it is, so that one bit
in a slot says whether the slot was already written in this round.
-/
import Nicmem.C.Array
import Mathlib.Algebra.Order.Ring.Nat

namespace RingBuffer

variable {α β : Type*}

/-! ### Slots -/

theorem mod_ne_mod {i j n : Nat} (hij : i < j) (hjn : j < i + n) : i % n ≠ j % n := by
  intro heq
  have hdvd : n ∣ j - i := Nat.dvd_of_mod_eq_zero (Nat.sub_mod_eq_zero_of_mod_eq heq.symm)
  have hle := Nat.le_of_dvd (by omega) hdvd
  omega

/-- The entry of an index. -/
def slot (ring : List α) (d : α) (i : Nat) : α := ring.getD (i % ring.length) d

theorem getElem?_slot {ring : List α} (d : α) (h : 0 < ring.length) (i : Nat) :
    ring[i % ring.length]? = some (slot ring d i) :=
  C.getElem?_eq_getD d (Nat.mod_lt i h)

/-- Writing the entry of an index leaves the entries in reach of it alone. -/
theorem slot_set {ring : List α} {d x : α} (h : 0 < ring.length) (i j : Nat) :
    slot (ring.set (i % ring.length) x) d j =
      if j % ring.length = i % ring.length then x else slot ring d j := by
  unfold slot
  rw [List.length_set, C.getD_set x d (Nat.mod_lt i h)]

theorem slot_set_self {ring : List α} {d x : α} (h : 0 < ring.length) (i : Nat) :
    slot (ring.set (i % ring.length) x) d i = x := by
  rw [slot_set h, if_pos rfl]

theorem slot_set_of_lt {ring : List α} {d x : α} (h : 0 < ring.length) {i j : Nat}
    (hne : i ≠ j) (hij : i < j + ring.length) (hji : j < i + ring.length) :
    slot (ring.set (i % ring.length) x) d j = slot ring d j := by
  rw [slot_set h, if_neg]
  rcases Nat.lt_or_gt_of_ne hne with hlt | hgt
  · exact (mod_ne_mod hlt hji).symm
  · exact mod_ne_mod hgt hij

/-! ### Sequences of entries -/

/-- The entries from index `i` on are those of `l`, each in the relation `R` with its
index. -/
def Shows (R : Nat → α → β → Prop) (ring : List α) (d : α) : Nat → List β → Prop
  | _, [] => True
  | i, b :: l => R i (slot ring d i) b ∧ Shows R ring d (i + 1) l

variable {R : Nat → α → β → Prop} {ring ring' : List α} {d : α}

theorem shows_cons {i : Nat} {b : β} {l : List β} :
    Shows R ring d i (b :: l) ↔ R i (slot ring d i) b ∧ Shows R ring d (i + 1) l := Iff.rfl

theorem shows_append : ∀ {l l' : List β} {i : Nat},
    Shows R ring d i (l ++ l') ↔ Shows R ring d i l ∧ Shows R ring d (i + l.length) l' := by
  intro l
  induction l with
  | nil =>
      intro l' i
      simp [Shows]
  | cons b l ih =>
      intro l' i
      rw [List.cons_append, shows_cons, shows_cons, ih, and_assoc, List.length_cons,
        Nat.add_assoc, Nat.add_comm 1]

/-- Only the entries in the sequence count. -/
theorem Shows.congr : ∀ {l : List β} {i : Nat}, Shows R ring d i l →
    (∀ j, i ≤ j → j < i + l.length → slot ring' d j = slot ring d j) → Shows R ring' d i l := by
  intro l
  induction l with
  | nil =>
      intro i _ _
      trivial
  | cons b l ih =>
      intro i h hslot
      rw [List.length_cons] at hslot
      refine ⟨?_, ih h.2 fun j hij hj => hslot j (by omega) (by omega)⟩
      rw [hslot i (Nat.le_refl i) (by omega)]
      exact h.1

theorem Shows.getElem {l : List β} {i k : Nat} (h : Shows R ring d i l) (hk : k < l.length) :
    R (i + k) (slot ring d (i + k)) l[k] := by
  have hsplit : l = l.take k ++ l[k] :: l.drop (k + 1) := by
    rw [← List.drop_eq_getElem_cons hk, List.take_append_drop]
  rw [hsplit, shows_append] at h
  have hlen : (l.take k).length = k := List.length_take_of_le (Nat.le_of_lt hk)
  rw [hlen] at h
  exact h.2.1

/-! ### Phases -/

/-- Whether an index is in an odd round through a ring of `n` slots. -/
def phase (n i : Nat) : Bool := i / n % 2 = 1

theorem phase_add {n : Nat} (hn : 0 < n) (i : Nat) : phase n (i + n) = !phase n i := by
  unfold phase
  rw [Nat.add_div_right i hn]
  rcases Nat.mod_two_eq_zero_or_one (i / n) with h | h
  · have h' : (i / n).succ % 2 = 1 := by omega
    simp [h, h']
  · have h' : (i / n).succ % 2 = 0 := by omega
    simp [h, h']

end RingBuffer
