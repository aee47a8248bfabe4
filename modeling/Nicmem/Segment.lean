/-
Linked lists in an array.

`Seg next a l b` says that following `next` from `a` one visits the nodes `l` and arrives
at `b`.  A queue that is taken from the front and extended at the end is one segment: its
front is `a`, and `b` is the last node, which is not yet part of it.  Extending such a
queue writes the link of `b`, of which no other node knows.
-/
import Mathlib.Logic.Basic

namespace Segment

variable {α : Type*}

/-- From `a` along `next` over the nodes `l` to `b`. -/
def Seg (next : α → α) : α → List α → α → Prop
  | a, [], b => a = b
  | a, q :: l, b => a = q ∧ Seg next (next q) l b

variable {next next' : α → α} {a b c : α} {l l' : List α}

theorem seg_nil : Seg next a [] b ↔ a = b := Iff.rfl

theorem seg_cons {q : α} : Seg next a (q :: l) b ↔ a = q ∧ Seg next (next q) l b := Iff.rfl

theorem Seg.append : ∀ {l : List α} {a : α}, Seg next a l b → Seg next b l' c →
    Seg next a (l ++ l') c := by
  intro l
  induction l with
  | nil =>
      intro a h h'
      rw [seg_nil] at h
      rw [h, List.nil_append]
      exact h'
  | cons q l ih =>
      intro a h h'
      exact ⟨h.1, ih h.2 h'⟩

/-- The links of the visited nodes are all that counts. -/
theorem Seg.congr : ∀ {l : List α} {a : α}, Seg next a l b → (∀ q ∈ l, next' q = next q) →
    Seg next' a l b := by
  intro l
  induction l with
  | nil =>
      intro a h _
      exact h
  | cons q l ih =>
      intro a h hnext
      refine ⟨h.1, ?_⟩
      rw [hnext q List.mem_cons_self]
      exact ih h.2 fun p hp => hnext p (List.mem_cons_of_mem q hp)

/-- The last node gets a link: it is visited now, and the end is where it leads. -/
theorem Seg.snoc (h : Seg next a l b) (hnext : ∀ q ∈ l, next' q = next q) :
    Seg next' a (l ++ [b]) (next' b) :=
  (h.congr hnext).append ⟨rfl, rfl⟩

/-- Nodes in a row, each linked to the one after it. -/
theorem seg_range' {next : Nat → Nat} :
    ∀ (n a : Nat),
      (∀ j, a ≤ j → j < a + n → next j = j + 1) → Seg next a (List.range' a n) (a + n) := by
  intro n
  induction n with
  | zero =>
      intro a _
      exact rfl
  | succ n ih =>
      intro a hnext
      rw [List.range'_succ]
      refine ⟨rfl, ?_⟩
      rw [hnext a (Nat.le_refl a) (by omega), show a + (n + 1) = a + 1 + n by omega]
      exact ih (a + 1) fun j hj hlt => hnext j (by omega) (by omega)

/-! ### A queue with a producer and a consumer

One linked list, read from `front`.  The nodes up to `head` are full, those from `head` to
`tail` are empty.  The producer fills the node at `head`, the consumer takes the one at
`front`, and empty nodes are added behind `tail`. -/

/-- The full and the empty nodes of a queue. -/
structure Queue (next : α → α) (front head tail : α) (full empty : List α) : Prop where
  full : Seg next front full head
  empty : Seg next head empty tail

variable {front head tail x : α} {full empty : List α}

/-- The node at the head is filled. -/
theorem Queue.produce (h : Queue next front head tail full (x :: empty)) :
    head = x ∧ Queue next front (next head) tail (full ++ [head]) empty := by
  obtain ⟨rfl, hempty⟩ := h.empty
  exact ⟨rfl, h.full.snoc fun _ _ => rfl, hempty⟩

/-- The node at the front is taken. -/
theorem Queue.consume (h : Queue next front head tail (x :: full) empty) :
    front = x ∧ Queue next (next front) head tail full empty := by
  obtain ⟨rfl, hfull⟩ := h.full
  exact ⟨rfl, hfull, h.empty⟩

/-- A node is added behind the tail, which becomes an empty node. -/
theorem Queue.put (h : Queue next front head tail full empty) (hfull : ∀ q ∈ full, next' q = next q)
    (hempty : ∀ q ∈ empty, next' q = next q) (hx : next' tail = x) :
    Queue next' front head x full (empty ++ [tail]) := by
  refine ⟨h.full.congr hfull, ?_⟩
  rw [← hx]
  exact h.empty.snoc hempty

theorem Queue.congr (h : Queue next front head tail full empty) (hnext : ∀ q, next' q = next q) :
    Queue next' front head tail full empty :=
  ⟨h.full.congr fun q _ => hnext q, h.empty.congr fun q _ => hnext q⟩

end Segment
