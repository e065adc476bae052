/-
Faults that a program cannot end in.

`Avoids e x` says that no run of `x`, from whatever state, ends in the fault `e`; it may
return or end in another one.  The rules follow the shape of a program.
-/
import KvStore.Base.Mutex

namespace KvStore

def Avoids {σ α : Type} (e : Fault) (x : Prog σ α) : Prop := ∀ s, x.run s ≠ .error e

namespace Avoids

variable {σ α β : Type} {e : Fault} {x y : Prog σ α} {f : α → Prog σ β}

theorem seq (hx : Avoids e x) (hf : ∀ a, Avoids e (f a)) : Avoids e (x >>= f) := by
  intro s
  cases hrun : x.run s with
  | error e' =>
      rw [run_bind_error hrun]
      intro hc
      exact hx s (hrun.trans (by rw [Except.error.inj hc]))
  | ok r =>
      rw [run_bind_ok hrun]
      exact hf r.1 r.2

theorem pure (a : α) : Avoids e (Pure.pure a : Prog σ α) := by
  intro s hc
  cases hc

theorem get : Avoids e (MonadState.get : Prog σ σ) := by
  intro s hc
  cases hc

theorem set (s : σ) : Avoids e (MonadStateOf.set s : Prog σ PUnit) := by
  intro s hc
  cases hc

theorem modify (g : σ → σ) : Avoids e (modify g : Prog σ PUnit) := by
  intro s hc
  cases hc

theorem fault {e' : Fault} (h : e' ≠ e) : Avoids e (KvStore.fault e' : Prog σ α) := by
  intro s hc
  exact h (Except.error.inj hc)

theorem liftE {r : Except Fault α} (h : r ≠ .error e) : Avoids e (KvStore.liftE r : Prog σ α) := by
  intro s hc
  cases r with
  | error e' => exact h (congrArg Except.error (Except.error.inj hc))
  | ok a => cases hc

/-- Go on with a value that was computed. -/
theorem ok_seq {a : α} (h : Avoids e (f a)) : Avoids e (KvStore.liftE (.ok a) >>= f) := by
  intro s
  rw [run_bind_of rfl rfl]
  exact h s

theorem ite {c : Prop} [Decidable c] (hx : Avoids e x) (hy : Avoids e y) :
    Avoids e (if c then x else y) := by
  by_cases hc : c
  · rw [if_pos hc]
    exact hx
  · rw [if_neg hc]
    exact hy

/-- Locking can only block. -/
theorem mutexLock [HasMutex σ] (h : e ≠ .deadlock) : Avoids e (KvStore.mutexLock : Prog σ Unit) := by
  refine seq get fun s => seq (liftE ?_) fun m => set _
  cases HasMutex.mutex s with
  | held => exact fun hc => h (Except.error.inj hc).symm
  | ignored | free => exact fun hc => by cases hc

theorem mutexUnlock [HasMutex σ] : Avoids e (KvStore.mutexUnlock : Prog σ Unit) := modify _

end Avoids

end KvStore
