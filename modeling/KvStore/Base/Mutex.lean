/-
Mutexes.

A default pthread mutex is not recursive: the thread that holds it blocks for ever
when it locks it again, which is the fault `deadlock`.  `ignored` is a mutex whose
operations do nothing.  A program's state says with `HasMutex` which mutex is its own,
and the two operations are defined and specified once over that.
-/
import KvStore.Base.Prog

namespace KvStore

inductive Mutex
  | ignored
  | free
  | held
  deriving DecidableEq, Repr

namespace Mutex

def lock : Mutex → Except Fault Mutex
  | ignored => .ok ignored
  | free => .ok held
  | held => .error .deadlock

def unlock : Mutex → Mutex
  | ignored => ignored
  | free => free
  | held => free

/-- Locking succeeds, and unlocking afterwards restores the mutex. -/
theorem lock_unlock {m : Mutex} (h : m ≠ held) : ∃ m', m.lock = .ok m' ∧ m'.unlock = m := by
  cases m with
  | ignored => exact ⟨ignored, rfl, rfl⟩
  | free => exact ⟨held, rfl, rfl⟩
  | held => exact absurd rfl h

end Mutex

/-- A state with a mutex of its own. -/
class HasMutex (σ : Type) where
  mutex : σ → Mutex
  withMutex : σ → Mutex → σ
  mutex_withMutex : ∀ s m, mutex (withMutex s m) = m

section Programs

variable {σ : Type} [HasMutex σ]

open HasMutex

/-- `pthread_mutex_lock` -/
def mutexLock : Prog σ Unit := do
  let s ← get
  let m ← liftE (mutex s).lock
  set (withMutex s m)

/-- `pthread_mutex_unlock` -/
def mutexUnlock : Prog σ Unit := modify fun s => withMutex s (mutex s).unlock

theorem mutexLock_run {s : σ} {m : Mutex} (h : (mutex s).lock = .ok m) :
    (mutexLock : Prog σ Unit).run s = .ok ((), withMutex s m) := by
  refine run_bind_of (run_get s) ?_
  rw [h]
  rfl

theorem mutexUnlock_run (s : σ) :
    (mutexUnlock : Prog σ Unit).run s = .ok ((), withMutex s (mutex s).unlock) := rfl

end Programs

end KvStore
