/-
Machines whose steps follow each other.

A machine is a relation between its states.  A second machine simulates it if it can follow
each of its steps and the states stay related; then it can follow every run, and what holds
of all runs of the second machine is known of the first one too.
-/
import Mathlib.Logic.Relation

namespace KvStore

section Machines

variable {σ τ : Type} {step : σ → σ → Prop} {step' : τ → τ → Prop} {R : σ → τ → Prop}

/-- The second machine follows every step of the first one. -/
def Simulates (step : σ → σ → Prop) (step' : τ → τ → Prop) (R : σ → τ → Prop) : Prop :=
  ∀ s s' t, R s t → step s s' → ∃ t', step' t t' ∧ R s' t'

/-- **What can follow every step can follow every run.** -/
theorem Simulates.run (h : Simulates step step' R) {s s' : σ} {t : τ} (hR : R s t)
    (hrun : Relation.ReflTransGen step s s') :
    ∃ t', Relation.ReflTransGen step' t t' ∧ R s' t' := by
  induction hrun with
  | refl => exact ⟨t, .refl, hR⟩
  | tail _ hstep ih =>
      obtain ⟨t₁, hrun₁, hR₁⟩ := ih
      obtain ⟨t', hstep', hR'⟩ := h _ _ _ hR₁ hstep
      exact ⟨t', hrun₁.tail hstep', hR'⟩

/-- A run that is held to some states is a run. -/
theorem run_of_restricted {P : σ → Prop} {s s' : σ}
    (hrun : Relation.ReflTransGen (fun s s' => P s ∧ step s s') s s') :
    Relation.ReflTransGen step s s' :=
  Relation.ReflTransGen.mono (fun _ _ h => h.2) _ _ hrun

/-- What every step keeps holds in all states of a run. -/
theorem run_keeps {P : σ → Prop} (hstep : ∀ s s', P s → step s s' → P s') {s s' : σ} (h : P s)
    (hrun : Relation.ReflTransGen step s s') : P s' := by
  induction hrun with
  | refl => exact h
  | tail _ hlast ih => exact hstep _ _ ih hlast

end Machines

end KvStore
