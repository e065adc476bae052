/-
What the second hash engine is for: a map to stacks.

dhash.c pushes every pair it is given in front of older ones and takes the newest one
away first, so a key stands for a stack of values.  This is the abstract machine with
that meaning.
-/
import KvStore.Base.Dict
import KvStore.Engine.Call
import Mathlib.Algebra.BigOperators.Group.Finset.Basic

namespace KvStore

abbrev Stacks := Dict CString (List CString)

namespace Stacks

variable (m : Stacks) (k : CString)

/-- The values of a key, the newest first. -/
def stack : List CString := (m.lookup k).getD []

def push (v : CString) : Stacks := m.insert k (v :: m.stack k)

def pop : Stacks := m.insert k (m.stack k).tail

/-- The sum of all stack heights. -/
def total : Nat := ∑ k ∈ m.keys, (m.stack k).length

/-- The abstract machine: what a call answers, and the stacks afterwards. -/
def step : Call → Answer × Stacks
  | .put k v => (.int 0, m.push k v)
  | .get k => (.str (m.stack k).head?, m)
  | .count => (.int m.total, m)
  | .exist k => (.int (if m.stack k = [] then 0 else 1), m)
  | .delete k => if m.stack k = [] then (.int (-1), m) else (.int 0, m.pop k)

@[simp] theorem stack_empty : (∅ : Stacks).stack k = [] := by
  simp [stack]

theorem stack_insert (k' : CString) (l : List CString) :
    Stacks.stack (m.insert k l) k' = if k' = k then l else m.stack k' := by
  by_cases h : k' = k
  · subst h
    simp [stack]
  · simp [stack, h, Finmap.lookup_insert_of_ne]

theorem mem_of_stack {m : Stacks} {k : CString} (h : m.stack k ≠ []) : k ∈ m := by
  by_contra hk
  exact h (by rw [stack, Finmap.lookup_eq_none.mpr hk]; rfl)

/-- A value on a stack was there before, or was put by the call. -/
theorem step_stack {m : Stacks} {k v : CString} {c : Call} (h : v ∈ (m.step c).2.stack k) :
    v ∈ m.stack k ∨ c = .put k v := by
  cases c with
  | get | count | exist => exact Or.inl h
  | put k' v' =>
      rw [step, push, stack_insert] at h
      by_cases hk : k = k'
      · subst hk
        rw [if_pos rfl] at h
        rcases List.mem_cons.mp h with rfl | h
        · exact Or.inr rfl
        · exact Or.inl h
      · rw [if_neg hk] at h
        exact Or.inl h
  | delete k' =>
      rw [step] at h
      by_cases hnil : m.stack k' = []
      · rw [if_pos hnil] at h
        exact Or.inl h
      · rw [if_neg hnil, pop, stack_insert] at h
        by_cases hk : k = k'
        · subst hk
          rw [if_pos rfl] at h
          exact Or.inl (List.mem_of_mem_tail h)
        · rw [if_neg hk] at h
          exact Or.inl h

end Stacks

end KvStore
