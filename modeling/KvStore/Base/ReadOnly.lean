/-
Programs that leave the state alone.

`ReadOnly x` says that a run of `x` that returns ends in the state it started in; nothing is
said about a run that faults.  `Atomic x` is for functions that report failure by a result
other than 0: a run that fails changes nothing.  As for the mutexes, the rules follow the
shape of a program, and each function needs one step for each of its statements.
-/
import KvStore.Base.Memory

namespace KvStore

def ReadOnly {σ α : Type} (x : Prog σ α) : Prop := ∀ s a s', x.run s = .ok (a, s') → s' = s

/-- What a run of `x` returns has `P`. -/
def Returns {σ α : Type} (P : α → Prop) (x : Prog σ α) : Prop :=
  ∀ s a s', x.run s = .ok (a, s') → P a

def Atomic {σ : Type} (x : Prog σ Int) : Prop := ∀ s r s', x.run s = .ok (r, s') → r ≠ 0 → s' = s

section Rules

variable {σ τ α β : Type} {x y : Prog σ α} {f : α → Prog σ β}

namespace ReadOnly

theorem seq (hx : ReadOnly x) (hf : ∀ a, ReadOnly (f a)) : ReadOnly (x >>= f) := by
  intro s b s' h
  obtain ⟨a, s₁, hrun, hrest⟩ := run_bind_inv h
  rw [hx s a s₁ hrun] at hrest
  exact hf a s b s' hrest

theorem pure (a : α) : ReadOnly (Pure.pure a : Prog σ α) := by
  intro s b s' h
  cases h
  rfl

theorem get : ReadOnly (MonadState.get : Prog σ σ) := by
  intro s b s' h
  cases h
  rfl

theorem fault (e : Fault) : ReadOnly (KvStore.fault e : Prog σ α) := by
  intro s b s' h
  cases h

theorem liftE (r : Except Fault α) : ReadOnly (KvStore.liftE r : Prog σ α) := by
  intro s b s' h
  cases r with
  | error e => cases h
  | ok a =>
      cases h
      rfl

theorem map (g : α → β) (hx : ReadOnly x) : ReadOnly (g <$> x) := by
  intro s b s' h
  obtain ⟨a, hrun, -⟩ := run_map_inv h
  exact hx s a s' hrun

theorem ite {c : Prop} [Decidable c] (hx : ReadOnly x) (hy : ReadOnly y) :
    ReadOnly (if c then x else y) := by
  by_cases hc : c
  · rw [if_pos hc]
    exact hx
  · rw [if_neg hc]
    exact hy

theorem dite {c : Prop} [Decidable c] {x : c → Prog σ α} {y : ¬ c → Prog σ α}
    (hx : ∀ h, ReadOnly (x h)) (hy : ∀ h, ReadOnly (y h)) :
    ReadOnly (if h : c then x h else y h) := by
  by_cases hc : c
  · rw [dif_pos hc]
    exact hx hc
  · rw [dif_neg hc]
    exact hy hc

/-- A loop whose body only reads. -/
theorem loop {step : α → Prog σ (α ⊕ β)} (hstep : ∀ a, ReadOnly (step a)) :
    ∀ (fuel : Nat) (a : α), ReadOnly (KvStore.loop step fuel a) := by
  intro fuel
  induction fuel with
  | zero => exact fun _ => .fault _
  | succ fuel ih =>
      intro a
      unfold KvStore.loop
      refine .seq (hstep a) fun r => ?_
      cases r with
      | inl a' => exact ih a'
      | inr b => exact .pure b

theorem forFirst {n : Nat} {test : Nat → Prog σ Bool} (htest : ∀ i, ReadOnly (test i)) :
    ReadOnly (KvStore.forFirst n test) := by
  refine .loop (fun i => .ite ?_ (.pure _)) _ _
  exact .seq (htest i) fun _ => .ite (.pure _) (.pure _)

theorem deref [HasMem σ α] (p : Ptr) : ReadOnly (KvStore.deref p : Prog σ α) :=
  .seq .get fun _ => .liftE _

/-- On a part of the state. -/
theorem zoom {view : σ → τ} {update : σ → τ → σ} (hupdate : ∀ s, update s (view s) = s)
    {x : Prog τ α} (hx : ReadOnly x) : ReadOnly (KvStore.zoom view update x) := by
  intro s a s' h
  obtain ⟨t, hrun, rfl⟩ := zoom_inv h
  rw [hx _ a t hrun]
  exact hupdate s

theorem atomic {x : Prog σ Int} (hx : ReadOnly x) : Atomic x := fun s r s' h _ => hx s r s' h

end ReadOnly

namespace Atomic

/-- A first part that only reads. -/
theorem seq {f : α → Prog σ Int} (hx : ReadOnly x) (hf : ∀ a, Atomic (f a)) :
    Atomic (x >>= f) := by
  intro s r s' h hr
  obtain ⟨a, s₁, hrun, hrest⟩ := run_bind_inv h
  rw [hx s a s₁ hrun] at hrest
  exact hf a s r s' hrest hr

theorem ite {c : Prop} [Decidable c] {x y : Prog σ Int} (hx : Atomic x) (hy : Atomic y) :
    Atomic (if c then x else y) := by
  by_cases hc : c
  · rw [if_pos hc]
    exact hx
  · rw [if_neg hc]
    exact hy

/-- A program that returns nothing but 0. -/
theorem of_zero {x : Prog σ Int} (h : Returns (· = 0) x) : Atomic x :=
  fun s r s' hrun hr => absurd (h s r s' hrun) hr

end Atomic

namespace Returns

variable {P : β → Prop}

theorem seq (hf : ∀ a, Returns P (f a)) : Returns P (x >>= f) := by
  intro s b s' h
  obtain ⟨a, s₁, -, h⟩ := run_bind_inv h
  exact hf a s₁ b s' h

theorem pure {b : β} (hb : P b) : Returns P (Pure.pure b : Prog σ β) := by
  intro s b' s' h
  cases h
  exact hb

theorem ite {c : Prop} [Decidable c] {x y : Prog σ β} (hx : Returns P x) (hy : Returns P y) :
    Returns P (if c then x else y) := by
  by_cases hc : c
  · rw [if_pos hc]
    exact hx
  · rw [if_neg hc]
    exact hy

end Returns

end Rules

end KvStore
