/-
Programs with additional checks.

A property of what happens in the middle of a run is put into the program: the checked
version tests it at the place in question and faults where it fails.  `Below x y` says that
`x` returns nothing but what `y` returns, so that a checked run that returns is a run of the
original, and one in which every test was passed.
-/
import KvStore.Base.Prog

namespace KvStore

/-- Whenever `x` returns, `y` returns the same. -/
def Below {σ α : Type} (x y : Prog σ α) : Prop := ∀ s r, x.run s = .ok r → y.run s = .ok r

/-- `assert(c)` in front of a program. -/
def guarded {σ α : Type} (c : Prop) [Decidable c] (x : Prog σ α) : Prog σ α :=
  if c then x else fault .assertFailed

namespace Below

variable {σ α β : Type} {x y : Prog σ α} {f g : α → Prog σ β}

theorem refl (x : Prog σ α) : Below x x := fun _ _ h => h

theorem seq (hx : Below x y) (hf : ∀ a, Below (f a) (g a)) : Below (x >>= f) (y >>= g) := by
  rintro s ⟨b, s'⟩ h
  obtain ⟨a, s₁, hrun, hrest⟩ := run_bind_inv h
  rw [run_bind_ok (hx s _ hrun)]
  exact hf a s₁ _ hrest

/-- A first part the two share. -/
theorem then_ (hf : ∀ a, Below (f a) (g a)) : Below (x >>= f) (x >>= g) := (refl x).seq hf

theorem ite {c : Prop} [Decidable c] {x' y' : Prog σ α} (hx : Below x y) (hx' : Below x' y') :
    Below (if c then x else x') (if c then y else y') := by
  by_cases hc : c
  · rw [if_pos hc, if_pos hc]
    exact hx
  · rw [if_neg hc, if_neg hc]
    exact hx'

theorem guarded {c : Prop} [Decidable c] (hx : Below x y) : Below (KvStore.guarded c x) y := by
  intro s r h
  unfold KvStore.guarded at h
  by_cases hc : c
  · rw [if_pos hc] at h
    exact hx s r h
  · rw [if_neg hc] at h
    cases h

theorem loop {step step' : α → Prog σ (α ⊕ β)} (hstep : ∀ a, Below (step a) (step' a))
    (fuel : Nat) (a : α) : Below (KvStore.loop step fuel a) (KvStore.loop step' fuel a) :=
  fun s r h => loop_mono hstep fuel a s r h

end Below

end KvStore
