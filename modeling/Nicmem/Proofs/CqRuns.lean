/-
Runs of a completion queue.

In every order of completions, polls, updates of the record, cleanings and resizings the
ring behaves as the list of `CqSpec`, as long as the device keeps to the room it knows of.
The indices of the driver wrap around freely; only cleaning and resizing compute with them
as `int`, and are defined unless the indices of the entries that wait change their sign.
-/
import Nicmem.Proofs.CqClean
import Nicmem.Proofs.CqResize

namespace Nicmem

open C RingBuffer Machine

/-! ### Runs -/

theorem CqInv.step {s : CqSystem} {a : CqSpec} {d : Nat} (h : CqInv s a d) (op : CqOp)
    (hlegal : op.Legal s) :
    ∃ s' out d', s.step op = some (s', out) ∧ (a.step op).2 = out.body ∧
      CqInv s' (a.step op).1 d' := by
  cases op with
  | produce cqe =>
      obtain ⟨s', hproduce, h'⟩ := h.produce hlegal
      exact ⟨s', .produced, d, by rw [CqSystem.step, hproduce, Option.map_some], rfl, h'⟩
  | next =>
      obtain ⟨s', out, hstep, hout, h'⟩ := h.next_step
      exact ⟨s', out, d, hstep, hout, h'⟩
  | update => exact ⟨_, _, _, rfl, rfl, h.update⟩
  | clean rsn srq cqeVersion meanwhile =>
      exact h.clean_step rsn srq cqeVersion hlegal.1 hlegal.2
  | resize cqe memory answer =>
      obtain ⟨s', out, hstep, hout, h'⟩ := h.resize_step memory hlegal
      exact ⟨s', out, d, hstep, hout, h'⟩

/-- What the specification allows: its own output, but for the owner bits. -/
abbrev CqSpec.Allows (a : CqSpec) (op : CqOp) (out : CqOut) (a' : CqSpec) : Prop :=
  a.step op = (a', out.body)

theorem CqInv.run {s : CqSystem} {a : CqSpec} {d : Nat} (h : CqInv s a d) {ops : List CqOp}
    (hlegal : CqLegal s ops) :
    ∃ s' outs a', Machine.run CqSystem.step s ops = some (s', outs) ∧
      Machine.Allows CqSpec.Allows a ops outs a' ∧ ∃ d', CqInv s' a' d' := by
  refine run_allows (R := fun s' a' => ∃ d', CqInv s' a' d') ?_ ops s a ⟨d, h⟩ hlegal
  rintro s₁ a₁ op ⟨d₁, h₁⟩ hop
  obtain ⟨s₂, out, d₂, hstep, hout, h₂⟩ := h₁.step op hop
  exact ⟨s₂, out, (a₁.step op).1, hstep, Prod.ext rfl hout, d₂, h₂⟩

/-- A completion of the queue pair `qpn`, with the opcode 0 of a send. -/
def sendCqe (qpn payload : Nat) : Cqe := ⟨0, qpn, 0, 0, payload⟩

/-- The mark that ends a ring. -/
def resizeMark : Cqe := ⟨cqeResizeCq <<< 4, 0, 0, 0, 0⟩

/-- The completions the driver took. -/
def cqDelivered (outs : List CqOut) : List Cqe :=
  outs.filterMap fun out =>
    match out with
    | .next cqe => cqe
    | _ => none

/-- The completions that come with an operation. -/
def CqOp.cqes : CqOp → List Cqe
  | .produce cqe => [cqe]
  | .next => []
  | .update => []
  | .clean _ _ _ meanwhile => meanwhile
  | .resize _ _ answer => answer.elim [] CqMove.meanwhile

/-- The completions the device wrote in an operation. -/
def CqOp.writes : CqOp → CqOut → List Cqe
  | .resize .., .resized _ written => written.map Cqe.body
  | .resize .., _ => []
  | op, _ => op.cqes.map Cqe.body

/-- The completions the device wrote. -/
def cqWritten (ops : List CqOp) (outs : List CqOut) : List Cqe :=
  (ops.zipWith CqOp.writes outs).flatten

def CqOp.isClean : CqOp → Bool
  | .clean .. => true
  | _ => false

namespace CqSpec

/-- A resize appends what was written meanwhile. -/
theorem resize_pending (a : CqSpec) (cqe : Nat) (memory : Option (Nat → Cqe))
    (answer : Option CqMove) :
    (a.resize cqe memory answer).1.pending =
      a.pending ++ (a.resize cqe memory answer).2.2.map Cqe.body := by
  unfold resize
  split
  · simp
  split
  · simp
  split
  · rfl
  · simp

/-- An operation that does not clean moves completions from those written to those
delivered. -/
theorem step_moves (a : CqSpec) {op : CqOp} (hclean : op.isClean = false) :
    cqDelivered [(a.step op).2] ++ (a.step op).1.pending =
      a.pending ++ op.writes (a.step op).2 := by
  cases op with
  | produce cqe => simp [step, produce, cqDelivered, CqOp.writes, CqOp.cqes]
  | next =>
      simp only [step]
      cases hpending : a.pending with
      | nil => simp [cqDelivered, CqOp.writes, CqOp.cqes, hpending]
      | cons cqe pending => simp [cqDelivered, CqOp.writes, CqOp.cqes]
  | update => simp [step, cqDelivered, CqOp.writes, CqOp.cqes]
  | clean rsn srq cqeVersion meanwhile => cases hclean
  | resize cqe memory answer =>
      simp only [step, CqOp.writes]
      exact resize_pending a cqe memory answer

/-- A cleaning loses completions, but does not change the order of the others. -/
theorem step_sublist (a : CqSpec) (op : CqOp) :
    List.Sublist (cqDelivered [(a.step op).2] ++ (a.step op).1.pending)
      (a.pending ++ op.writes (a.step op).2) := by
  cases hclean : op.isClean with
  | false => exact step_moves a hclean ▸ List.Sublist.refl _
  | true =>
      cases op with
      | clean rsn srq cqeVersion meanwhile =>
          have hkept : List.Sublist (a.clean rsn cqeVersion).pending a.pending := by
            have hfilter := List.Sublist.append_right
              (List.filter_sublist (p := fun cqe => !cqe.isOf rsn cqeVersion)
                (l := a.pending.take (a.size - 1))) (a.pending.drop (a.size - 1))
            rwa [List.take_append_drop] at hfilter
          exact hkept.append_right _
      | produce | next | update | resize => cases hclean

/-- Over a run the completions are delivered in the order in which they were written, none
twice, and none is lost unless a cleaning removes it. -/
theorem run_sublist (ops : List CqOp) : ∀ {a a' : CqSpec} {outs : List CqOut},
    Machine.run (fun a op => some (a.step op)) a ops = some (a', outs) →
      List.Sublist (cqDelivered outs ++ a'.pending) (a.pending ++ cqWritten ops outs) ∧
      ((∀ op ∈ ops, op.isClean = false) →
        cqDelivered outs ++ a'.pending = a.pending ++ cqWritten ops outs) := by
  induction ops with
  | nil =>
      intro a a' outs h
      cases h
      simp [cqDelivered, cqWritten]
  | cons op ops ih =>
      intro a a' outs h
      obtain ⟨a₁, out, outs, hstep, hrun, rfl⟩ := run_cons h
      obtain ⟨rfl, rfl⟩ : (a.step op).1 = a₁ ∧ (a.step op).2 = out := by
        rw [Option.some.inj hstep]
        exact ⟨rfl, rfl⟩
      have hdelivered : cqDelivered ([(a.step op).2] ++ outs) =
          cqDelivered [(a.step op).2] ++ cqDelivered outs := List.filterMap_append
      rw [List.singleton_append] at hdelivered
      have hwritten : cqWritten (op :: ops) ((a.step op).2 :: outs) =
          op.writes (a.step op).2 ++ cqWritten ops outs := rfl
      obtain ⟨hsub, heq⟩ := ih hrun
      rw [hdelivered, hwritten, List.append_assoc]
      constructor
      · calc List.Sublist (cqDelivered [(a.step op).2] ++ (cqDelivered outs ++ a'.pending))
              (cqDelivered [(a.step op).2] ++ ((a.step op).1.pending ++ cqWritten ops outs)) :=
              hsub.append_left _
          _ = (cqDelivered [(a.step op).2] ++ (a.step op).1.pending) ++ cqWritten ops outs :=
              (List.append_assoc _ _ _).symm
          List.Sublist _ ((a.pending ++ op.writes (a.step op).2) ++ cqWritten ops outs) :=
              (a.step_sublist op).append_right _
          _ = a.pending ++ (op.writes (a.step op).2 ++ cqWritten ops outs) :=
              List.append_assoc _ _ _
      · intro hclean
        rw [heq fun op' hop' => hclean op' (List.mem_cons_of_mem op hop'), ← List.append_assoc,
          a.step_moves (hclean op List.mem_cons_self), List.append_assoc]

/-- All that is written came with the operation. -/
theorem mem_writes {a : CqSpec} {op : CqOp} {cqe : Cqe} (h : cqe ∈ op.writes (a.step op).2) :
    ∃ x ∈ op.cqes, x.body = cqe := by
  cases op with
  | resize nent memory answer =>
      simp only [step, CqOp.writes, resize] at h
      split at h
      · simp at h
      split at h
      · simp at h
      split at h
      · exact List.mem_map.mp h
      · simp at h
  | produce | next | update | clean => exact List.mem_map.mp h

theorem mem_cqWritten (ops : List CqOp) : ∀ {a a' : CqSpec} {outs : List CqOut} {cqe : Cqe},
    Machine.run (fun a op => some (a.step op)) a ops = some (a', outs) → cqe ∈ cqWritten ops outs →
      ∃ op ∈ ops, ∃ x ∈ op.cqes, x.body = cqe := by
  induction ops with
  | nil =>
      intro a a' outs cqe _ h
      simp [cqWritten] at h
  | cons op ops ih =>
      intro a a' outs cqe hops h
      obtain ⟨a₁, out, outs, hstep, hrun, rfl⟩ := run_cons hops
      obtain rfl : (a.step op).2 = out := congrArg Prod.snd (Option.some.inj hstep)
      rcases List.mem_append.mp h with h | h
      · exact ⟨op, List.mem_cons_self, mem_writes h⟩
      · obtain ⟨op', hop', hx⟩ := ih hrun h
        exact ⟨op', List.mem_cons_of_mem op hop', hx⟩

/-- Without completions of a resource in the queue and in the operations none is delivered. -/
theorem run_isOf {rsn : Nat} {cqeVersion : Bool} {ops : List CqOp} {a a' : CqSpec}
    {outs : List CqOut} (hrun : Machine.run (fun a op => some (a.step op)) a ops = some (a', outs))
    (ha : ∀ cqe ∈ a.pending, cqe.isOf rsn cqeVersion = false)
    (hops : ∀ op ∈ ops, ∀ cqe ∈ op.cqes, cqe.isOf rsn cqeVersion = false) :
    ∀ cqe ∈ cqDelivered outs, cqe.isOf rsn cqeVersion = false := by
  intro cqe hcqe
  have hmem := (run_sublist ops hrun).1.subset (List.mem_append_left _ hcqe)
  rcases List.mem_append.mp hmem with h | h
  · exact ha cqe h
  · obtain ⟨op, hop, x, hx, rfl⟩ := mem_cqWritten ops hrun h
    exact hops op hop x hx

/-- A cleaning removes all completions of the resource from a queue that is not full. -/
theorem clean_isOf {rsn : Nat} (srq : Bool) {cqeVersion : Bool} {meanwhile : List Cqe}
    {a : CqSpec} (hroom : a.inUse < a.size)
    (hmeanwhile : ∀ cqe ∈ meanwhile, cqe.isOf rsn cqeVersion = false) :
    ∀ cqe ∈ (a.step (.clean rsn srq cqeVersion meanwhile)).1.pending,
      cqe.isOf rsn cqeVersion = false := by
  intro cqe hcqe
  unfold inUse at hroom
  simp only [step, clean, produce] at hcqe
  rw [List.drop_eq_nil_of_le (by omega), List.append_nil] at hcqe
  rcases List.mem_append.mp hcqe with h | h
  · simpa using (List.mem_filter.mp h).2
  · obtain ⟨x, hx, rfl⟩ := List.mem_map.mp h
    exact hmeanwhile x hx

/-- A poll that finds nothing finds the queue empty. -/
theorem run_drained (ops : List CqOp) : ∀ {a a' : CqSpec} {outs : List CqOut},
    Machine.run (fun a op => some (a.step op)) a ops = some (a', outs) →
      outs.getLast? = some (.next none) → a'.pending = [] := by
  induction ops with
  | nil =>
      intro a a' outs h hlast
      cases h
      cases hlast
  | cons op ops ih =>
      intro a a' outs h hlast
      obtain ⟨a₁, out, outs, hstep, hrun, rfl⟩ := run_cons h
      cases ops with
      | nil =>
          cases hrun
          obtain rfl := Option.some.inj hlast
          have hpair := Option.some.inj hstep
          cases op with
          | next =>
              simp only [step] at hpair
              split at hpair
              · rename_i hnil
                obtain ⟨rfl, -⟩ := Prod.mk.inj hpair
                exact hnil
              · cases (Prod.mk.inj hpair).2
          | produce | update | clean | resize => cases (Prod.mk.inj hpair).2
      | cons op' ops =>
          obtain ⟨a₂, out', outs', hstep', hrun', rfl⟩ := run_cons hrun
          exact ih hrun (by rwa [List.getLast?_cons_cons] at hlast)

end CqSpec

theorem CqOp.writes_body (op : CqOp) (out : CqOut) : op.writes out.body = op.writes out := by
  cases out with
  | next => cases op <;> rfl
  | produced | updated | cleaned | resized => rfl

theorem cqWritten_map_body (ops : List CqOp) (outs : List CqOut) :
    cqWritten ops (outs.map CqOut.body) = cqWritten ops outs := by
  unfold cqWritten
  rw [List.zipWith_map_right]
  simp only [CqOp.writes_body]

end Nicmem
