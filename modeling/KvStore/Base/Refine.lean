/-
Two programs on two levels.

`Refines R x s y t` says that `x` from `s` does what `y` does from `t`: both return and the values
and states are related by `R`, or both end in the same fault.  The states may be of different
types, as those of a program on pointers and one on lists are.  The rules put two programs side by
side statement by statement, and let either go on alone.
-/
import KvStore.Base.Prog

namespace KvStore

/-- Outcomes that are related, or the same fault. -/
def Related {σ τ α β : Type} (R : α → σ → β → τ → Prop) :
    Except Fault (α × σ) → Except Fault (β × τ) → Prop
  | .ok (a, s), .ok (b, t) => R a s b t
  | .error e, .error e' => e = e'
  | _, _ => False

def Refines {σ τ α β : Type} (R : α → σ → β → τ → Prop) (x : Prog σ α) (s : σ) (y : Prog τ β)
    (t : τ) : Prop := Related R (x.run s) (y.run t)

namespace Refines

section Rules

variable {σ τ α β γ δ : Type} {R : α → σ → β → τ → Prop} {R' : γ → σ → δ → τ → Prop}
  {x : Prog σ α} {y : Prog τ β} {f : α → Prog σ γ} {g : β → Prog τ δ} {s s' : σ} {t t' : τ}
  {a : α} {b : β}

theorem of_ok (hx : x.run s = .ok (a, s')) (hy : y.run t = .ok (b, t')) (hR : R a s' b t') :
    Refines R x s y t := by
  unfold Refines
  rw [hx, hy]
  exact hR

theorem of_error {e : Fault} (hx : x.run s = .error e) (hy : y.run t = .error e) :
    Refines R x s y t := by
  unfold Refines
  rw [hx, hy]
  rfl

/-- The two ways that both can end. -/
theorem cases (h : Refines R x s y t) :
    (∃ e, x.run s = .error e ∧ y.run t = .error e) ∨
      ∃ a s' b t', x.run s = .ok (a, s') ∧ y.run t = .ok (b, t') ∧ R a s' b t' := by
  unfold Refines at h
  cases hx : x.run s with
  | error e =>
      cases hy : y.run t with
      | error e' =>
          rw [hx, hy] at h
          obtain rfl : e = e' := h
          exact Or.inl ⟨e, rfl, rfl⟩
      | ok q =>
          rw [hx, hy] at h
          exact h.elim
  | ok p =>
      cases hy : y.run t with
      | error e' =>
          rw [hx, hy] at h
          exact h.elim
      | ok q =>
          rw [hx, hy] at h
          exact Or.inr ⟨p.1, p.2, q.1, q.2, rfl, rfl, h⟩

/-- Both go on from where they are. -/
theorem seq (h : Refines R x s y t)
    (hf : ∀ a s' b t', R a s' b t' → Refines R' (f a) s' (g b) t') :
    Refines R' (x >>= f) s (y >>= g) t := by
  rcases h.cases with ⟨e, hx, hy⟩ | ⟨a, s', b, t', hx, hy, hR⟩
  · exact of_error (run_bind_error hx) (run_bind_error hy)
  · unfold Refines
    rw [run_bind_ok hx, run_bind_ok hy]
    exact hf a s' b t' hR

/-- The first goes on alone. -/
theorem left {y : Prog τ δ} (hx : x.run s = .ok (a, s')) (hf : Refines R' (f a) s' y t) :
    Refines R' (x >>= f) s y t := by
  unfold Refines
  rw [run_bind_ok hx]
  exact hf

/-- The second goes on alone. -/
theorem right {x : Prog σ γ} (hy : y.run t = .ok (b, t')) (hg : Refines R' x s (g b) t') :
    Refines R' x s (y >>= g) t := by
  unfold Refines
  rw [run_bind_ok hy]
  exact hg

/-- The same computation, which touches no state. -/
theorem liftE (r : Except Fault δ) {f : δ → Prog σ α} {g : δ → Prog τ β}
    (hf : ∀ d, r = .ok d → Refines R (f d) s (g d) t) :
    Refines R (KvStore.liftE r >>= f) s (KvStore.liftE r >>= g) t := by
  cases r with
  | error e => exact of_error rfl rfl
  | ok d => exact .left rfl (.right rfl (hf d rfl))

theorem map {R' : γ → σ → δ → τ → Prop} {p : α → γ} {q : β → δ} (h : Refines R x s y t)
    (hR : ∀ a s' b t', R a s' b t' → R' (p a) s' (q b) t') :
    Refines R' (p <$> x) s (q <$> y) t := by
  rcases h.cases with ⟨e, hx, hy⟩ | ⟨a, s', b, t', hx, hy, hab⟩
  · exact of_error (run_map_error p hx) (run_map_error q hy)
  · exact of_ok (run_map_of p hx) (run_map_of q hy) (hR a s' b t' hab)

/-- Programs are compared by their runs. -/
theorem congr {x' : Prog σ α} {y' : Prog τ β} (hx : x.run s = x'.run s') (hy : y.run t = y'.run t')
    (h : Refines R x' s' y' t') : Refines R x s y t := by
  unfold Refines
  rw [hx, hy]
  exact h

end Rules

/--
**Runs of calls**: when each call does the same on both levels and keeps the relation of the
states, so does every run of calls.
-/
theorem runCalls {σ τ κ ρ : Type} {call : κ → Prog σ ρ} {call' : κ → Prog τ ρ} {S : σ → τ → Prop}
    (hcall : ∀ s t c, S s t → Refines (fun a s' b t' => a = b ∧ S s' t') (call c) s (call' c) t) :
    ∀ (cs : List κ) (s : σ) (t : τ), S s t →
      Refines (fun as s' bs t' => as = bs ∧ S s' t') (KvStore.runCalls call cs) s
        (KvStore.runCalls call' cs) t := by
  intro cs
  induction cs with
  | nil => exact fun s t h => of_ok rfl rfl ⟨rfl, h⟩
  | cons c cs ih =>
      intro s t h
      refine (hcall s t c h).seq fun a s₁ b t₁ h₁ => ?_
      obtain ⟨rfl, h₁⟩ := h₁
      refine (ih s₁ t₁ h₁).seq fun as s₂ bs t₂ h₂ => ?_
      obtain ⟨rfl, h₂⟩ := h₂
      exact of_ok rfl rfl ⟨rfl, h₂⟩

end Refines

end KvStore
