/-
What a program does to its mutex.

`Moves f x` says that `x` never blocks and that, if it returns, it has changed the mutex
by `f`: most code leaves it alone (`f = id`), the rest of a critical section unlocks it.
Nothing is said about a run that ends in any other fault.  `Releases x` is what a whole
operation should do: started with a mutex nobody holds, it does not block, and if it
returns, the mutex is as before.  The rules follow the shape of a program, so that each
function needs one step for each of its statements.
-/
import KvStore.Base.Memory
import KvStore.Base.Mutex

namespace KvStore

open HasMutex

/-- The run did not block, and if it returned, then in a state with `Q`. -/
def Ends {σ α : Type} (Q : σ → Prop) : Except Fault (α × σ) → Prop
  | .ok p => Q p.2
  | .error e => e ≠ .deadlock

theorem Ends.bind {σ α β : Type} {x : Prog σ α} {k : α → Prog σ β} {s : σ} {Q R : σ → Prop}
    (hx : Ends Q (x.run s)) (hk : ∀ a s', x.run s = .ok (a, s') → Q s' → Ends R ((k a).run s')) :
    Ends R ((x >>= k).run s) := by
  cases hrun : x.run s with
  | error e =>
      rw [hrun] at hx
      rw [run_bind_error hrun]
      exact hx
  | ok p =>
      obtain ⟨a, s'⟩ := p
      rw [hrun] at hx
      rw [run_bind_ok hrun]
      exact hk a s' hrun hx

theorem Ends.zoom {σ τ α : Type} {view : σ → τ} {update : σ → τ → σ} {x : Prog τ α} {s : σ}
    {Q : τ → Prop} {R : σ → Prop} (hx : Ends Q (x.run (view s))) (h : ∀ t, Q t → R (update s t)) :
    Ends R ((KvStore.zoom view update x).run s) := by
  cases hr : x.run (view s) with
  | error e =>
      rw [hr] at hx
      rw [zoom_error hr]
      exact hx
  | ok p =>
      rw [hr] at hx
      rw [zoom_run hr]
      exact h p.2 hx

section Moves

variable {σ α β : Type} [HasMutex σ]

def Moves (f : Mutex → Mutex) (x : Prog σ α) : Prop :=
  ∀ s, Ends (fun s' => mutex s' = f (mutex s)) (x.run s)

def Releases (x : Prog σ α) : Prop :=
  ∀ s, mutex s ≠ .held → Ends (fun s' => mutex s' = mutex s) (x.run s)

namespace Moves

variable {f : Mutex → Mutex} {x y : Prog σ α} {k : α → Prog σ β}

/-- A first part that leaves the mutex alone. -/
theorem seq (hx : Moves id x) (hk : ∀ a, Moves f (k a)) : Moves f (x >>= k) := by
  intro s
  refine (hx s).bind ?_
  intro a s' _ hs'
  have hrest := hk a s'
  rwa [show mutex s' = mutex s from hs'] at hrest

theorem pure (a : α) : Moves id (Pure.pure a : Prog σ α) := fun _ => rfl

theorem get : Moves id (MonadState.get : Prog σ σ) := fun _ => rfl

theorem modify {g : σ → σ} (h : ∀ s, mutex (g s) = f (mutex s)) :
    Moves f (modify g : Prog σ PUnit) := h

theorem fault {e : Fault} (h : e ≠ .deadlock) : Moves f (KvStore.fault e : Prog σ α) := fun _ => h

theorem liftE {r : Except Fault α} (h : r ≠ .error .deadlock) :
    Moves id (KvStore.liftE r : Prog σ α) := by
  intro s
  cases r with
  | error e => exact fun hc => h (congrArg Except.error hc)
  | ok a => rfl

theorem map (g : α → β) (hx : Moves f x) : Moves f (g <$> x) := by
  intro s
  have hrun := hx s
  rw [StateT.run_map]
  cases hr : x.run s with
  | error e => rw [hr] at hrun; exact hrun
  | ok p => rw [hr] at hrun; exact hrun

theorem ite {c : Prop} [Decidable c] (hx : Moves f x) (hy : Moves f y) :
    Moves f (if c then x else y) := by
  by_cases hc : c
  · rw [if_pos hc]
    exact hx
  · rw [if_neg hc]
    exact hy

theorem dite {c : Prop} [Decidable c] {x : c → Prog σ α} {y : ¬ c → Prog σ α}
    (hx : ∀ h, Moves f (x h)) (hy : ∀ h, Moves f (y h)) :
    Moves f (if h : c then x h else y h) := by
  by_cases hc : c
  · rw [dif_pos hc]
    exact hx hc
  · rw [dif_neg hc]
    exact hy hc

theorem whenever {c : Prop} [Decidable c] {x : Prog σ Unit} (hx : Moves id x) :
    Moves id (KvStore.whenever c x) := ite hx (pure ())

/-- A loop leaves the mutex alone if its step does. -/
theorem loop {step : α → Prog σ (α ⊕ β)} (h : ∀ a, Moves id (step a)) (fuel : Nat) (a : α) :
    Moves id (KvStore.loop step fuel a) := by
  induction fuel generalizing a with
  | zero => exact fault (by decide)
  | succ fuel ih =>
      refine seq (h a) ?_
      intro r
      cases r with
      | inl a' => exact ih a'
      | inr b => exact pure b

/-- The end of a critical section. -/
theorem unlock (hk : ∀ a, Moves id (k a)) {x : Prog σ α} (hx : Moves Mutex.unlock x) :
    Moves Mutex.unlock (x >>= k) := by
  intro s
  refine (hx s).bind ?_
  intro a s' _ hs'
  have hrest := hk a s'
  rwa [show mutex s' = (mutex s).unlock from hs'] at hrest

theorem mutexUnlock : Moves Mutex.unlock (KvStore.mutexUnlock : Prog σ Unit) := by
  refine modify ?_
  intro s
  exact mutex_withMutex s _

end Moves

namespace Releases

variable {x y : Prog σ α} {k : α → Prog σ β}

theorem of_moves (h : Moves id x) : Releases x := fun s _ => h s

theorem seq (hx : Releases x) (hk : ∀ a, Releases (k a)) : Releases (x >>= k) := by
  intro s hs
  refine (hx s hs).bind ?_
  intro a s' _ hs'
  have hrest := hk a s' (by rw [hs']; exact hs)
  rwa [show mutex s' = mutex s from hs'] at hrest

/-- A first part outside the critical section. -/
theorem after (hx : Moves id x) (hk : ∀ a, Releases (k a)) : Releases (x >>= k) :=
  seq (of_moves hx) hk

theorem map (g : α → β) (hx : Releases x) : Releases (g <$> x) := by
  intro s hs
  have hrun := hx s hs
  rw [StateT.run_map]
  cases hr : x.run s with
  | error e => rw [hr] at hrun; exact hrun
  | ok p => rw [hr] at hrun; exact hrun

theorem ite {c : Prop} [Decidable c] (hx : Releases x) (hy : Releases y) :
    Releases (if c then x else y) := by
  by_cases hc : c
  · rw [if_pos hc]
    exact hx
  · rw [if_neg hc]
    exact hy

/-- **A critical section** whose rest unlocks on every way out gives the mutex back. -/
theorem critical {k : Unit → Prog σ β} (hk : Moves Mutex.unlock (k ())) :
    Releases (mutexLock >>= k) := by
  intro s hs
  obtain ⟨m, hlock, hunlock⟩ := Mutex.lock_unlock hs
  rw [run_bind_ok (mutexLock_run hlock)]
  have hrest := hk (withMutex s m)
  rwa [mutex_withMutex, hunlock] at hrest

end Releases

end Moves

/-! ### Programs with a heap -/

/-- Heap operations do not touch the mutex. -/
class HeapKeepsMutex (σ : Type) (α : outParam Type) [HasMem σ α] [HasMutex σ] : Prop where
  mutex_withMem : ∀ (s : σ) (m : Mem α), mutex (HasMem.withMem s m) = mutex s

namespace Moves

variable {σ α : Type} [HasMem σ α] [HasMutex σ]

theorem deref (p : Ptr) : Moves id (KvStore.deref p : Prog σ α) := by
  refine seq get ?_
  intro s
  refine liftE ?_
  unfold Mem.read
  by_cases hp : p = 0
  · rw [if_pos hp]
    exact fun hc => by cases hc
  · rw [if_neg hp]
    cases (HasMem.mem s).cells p with
    | none => exact fun hc => by cases hc
    | some v => exact fun hc => by cases hc

variable [HeapKeepsMutex σ α]

theorem assign (p : Ptr) (g : α → α) : Moves id (KvStore.assign p g : Prog σ Unit) :=
  seq (deref p) fun _ => modify fun s => HeapKeepsMutex.mutex_withMem s _

theorem free (p : Ptr) : Moves id (KvStore.free p : Prog σ Unit) :=
  seq (deref p) fun _ => modify fun s => HeapKeepsMutex.mutex_withMem s _

theorem malloc (ok : Bool) (v : α) : Moves id (KvStore.malloc ok v : Prog σ Ptr) := by
  intro s
  cases ok with
  | true => exact HeapKeepsMutex.mutex_withMem s _
  | false => rfl

end Moves

end KvStore
