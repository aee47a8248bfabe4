/-
Runs of a machine whose steps may be undefined.

A step takes a state and an input and gives the next state and an output, or nothing.
What the surroundings of the machine keep to is said by a predicate on states and inputs;
a run respects it if every input is legal in the state it meets.  If every legal step from
a state with an invariant is defined and keeps it, so is every such run.  If besides every
step does what a specification allows, a whole run does: the specification is a relation
on abstract states, an input and an output.
-/
import Mathlib.Algebra.Order.Ring.Nat

namespace Machine

universe u v w x

variable {σ : Type u} {ι : Type v} {ω : Type w} {α : Type x}

/-- The state after the inputs, and the outputs. -/
def run (step : σ → ι → Option (σ × ω)) : σ → List ι → Option (σ × List ω)
  | s, [] => some (s, [])
  | s, i :: is =>
      (step s i).bind fun r => (run step r.1 is).map fun q => (q.1, r.2 :: q.2)

/-- Every input is legal in the state it meets. -/
def Respects (legal : σ → ι → Prop) (step : σ → ι → Option (σ × ω)) : σ → List ι → Prop
  | _, [] => True
  | s, i :: is => legal s i ∧ ∀ r ∈ step s i, Respects legal step r.1 is

instance decidableRespects (legal : σ → ι → Prop) [∀ s i, Decidable (legal s i)]
    (step : σ → ι → Option (σ × ω)) :
    ∀ (s : σ) (is : List ι), Decidable (Respects legal step s is)
  | _, [] => inferInstanceAs (Decidable True)
  | s, i :: is =>
      have : ∀ r : σ × ω, Decidable (Respects legal step r.1 is) := fun r =>
        decidableRespects legal step r.1 is
      inferInstanceAs (Decidable (legal s i ∧ ∀ r ∈ step s i, Respects legal step r.1 is))

/-- The outputs `os` to the inputs `is` are allowed, from the abstract state `a` to `a'`. -/
inductive Allows (spec : α → ι → ω → α → Prop) : α → List ι → List ω → α → Prop
  | nil (a : α) : Allows spec a [] [] a
  | cons {a a' a'' : α} {i : ι} {o : ω} {is : List ι} {os : List ω} (h : spec a i o a')
      (t : Allows spec a' is os a'') : Allows spec a (i :: is) (o :: os) a''

variable {step : σ → ι → Option (σ × ω)} {legal : σ → ι → Prop}

/-- The first step of a run and the rest of it. -/
theorem run_cons {s s' : σ} {i : ι} {is : List ι} {os : List ω}
    (h : run step s (i :: is) = some (s', os)) :
    ∃ s₁ o os', step s i = some (s₁, o) ∧ run step s₁ is = some (s', os') ∧ os = o :: os' := by
  rw [run, Option.bind_eq_some_iff] at h
  obtain ⟨⟨s₁, o⟩, hstep, h⟩ := h
  obtain ⟨⟨s₂, os'⟩, hrun, h⟩ := Option.map_eq_some_iff.mp h
  obtain ⟨rfl, rfl⟩ := Prod.mk.inj h
  exact ⟨s₁, o, os', hstep, hrun, rfl⟩

theorem run_of_step {s s₁ s' : σ} {i : ι} {o : ω} {is : List ι} {os : List ω}
    (hstep : step s i = some (s₁, o)) (hrun : run step s₁ is = some (s', os)) :
    run step s (i :: is) = some (s', o :: os) := by
  rw [run, hstep, Option.bind_some, hrun, Option.map_some]

theorem Respects.tail {s s₁ : σ} {i : ι} {o : ω} {is : List ι}
    (h : Respects legal step s (i :: is)) (hstep : step s i = some (s₁, o)) :
    Respects legal step s₁ is := h.2 (s₁, o) hstep

/-- Where nothing is asked of the inputs, every run respects it. -/
theorem respects_true : ∀ (s : σ) (is : List ι), Respects (fun _ _ => True) step s is
  | _, [] => trivial
  | _, _ :: is => ⟨trivial, fun r _ => respects_true r.1 is⟩

/-- A further property of all inputs. -/
theorem Respects.and {P : ι → Prop} {is : List ι} :
    ∀ {s : σ}, Respects legal step s is → (∀ i ∈ is, P i) →
      Respects (fun s i => legal s i ∧ P i) step s is := by
  induction is with
  | nil =>
      intro s _ _
      trivial
  | cons i is ih =>
      intro s h hP
      exact ⟨⟨h.1, hP i List.mem_cons_self⟩,
        fun r hr => ih (h.2 r hr) fun j hj => hP j (List.mem_cons_of_mem i hj)⟩

/-- Legal steps that match a specification make runs that match it. -/
theorem run_allows {spec : α → ι → ω → α → Prop} {R : σ → α → Prop}
    (h : ∀ s a i, R s a → legal s i →
      ∃ s' o a', step s i = some (s', o) ∧ spec a i o a' ∧ R s' a') :
    ∀ (is : List ι) (s : σ) (a : α), R s a → Respects legal step s is →
      ∃ s' os a', run step s is = some (s', os) ∧ Allows spec a is os a' ∧ R s' a' := by
  intro is
  induction is with
  | nil =>
      intro s a hR _
      exact ⟨s, [], a, rfl, Allows.nil a, hR⟩
  | cons i is ih =>
      intro s a hR hlegal
      obtain ⟨s₁, o, a₁, hstep, hspec, hR₁⟩ := h s a i hR hlegal.1
      obtain ⟨s₂, os, a₂, hrun, hallows, hR₂⟩ := ih s₁ a₁ hR₁ (hlegal.tail hstep)
      exact ⟨s₂, o :: os, a₂, run_of_step hstep hrun, Allows.cons hspec hallows, hR₂⟩

/-- A specification that is a function makes a run of its own. -/
theorem Allows.run_eq {f : α → ι → α × ω} {g : ω → ω} {a a' : α} {is : List ι} {os : List ω}
    (h : Allows (fun a i o a' => f a i = (a', g o)) a is os a') :
    run (fun a i => some (f a i)) a is = some (a', os.map g) := by
  induction h with
  | nil a => rfl
  | cons hstep _ ih => rw [run, hstep, Option.bind_some, ih, Option.map_some, List.map_cons]

/-- Legal steps that are defined and keep an invariant make runs that do. -/
theorem run_invariant {I : σ → Prop}
    (h : ∀ s i, I s → legal s i → ∃ s' o, step s i = some (s', o) ∧ I s') {is : List ι} {s : σ}
    (hs : I s) (hlegal : Respects legal step s is) :
    ∃ s' os, run step s is = some (s', os) ∧ I s' := by
  have hallows : ∀ s (_ : Unit) i, I s → legal s i →
      ∃ s' o, ∃ _ : Unit, step s i = some (s', o) ∧ True ∧ I s' := by
    intro s a i hI hl
    obtain ⟨s', o, hstep, hI'⟩ := h s i hI hl
    exact ⟨s', o, a, hstep, trivial, hI'⟩
  obtain ⟨s', os, -, hrun, -, hI⟩ := run_allows hallows is s () hs hlegal
  exact ⟨s', os, hrun, hI⟩

end Machine
