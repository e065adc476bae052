/-
What an engine is for: a finite map.

Each engine answers its five calls like a map from strings to strings.  They differ
in the cases in which a map leaves a choice: what a `put` of a stored key does, how
many keys there is room for, and what the calls answer for a key that is not there.
`MapRules` collects these choices, and `MapRules.step` is the abstract machine that an
engine with them has to refine.
-/
import KvStore.Base.Dict
import KvStore.Engine.Call

namespace KvStore

structure MapRules where
  /-- what a `put` answers that changes nothing -/
  putRefused : Int
  /-- whether `put` replaces the value of a stored key or refuses -/
  overwrites : Bool
  /-- how many keys there is room for, if that is bounded -/
  capacity : Option Nat
  /-- what `get` answers for a key that is not stored -/
  getAbsent : Option CString
  /-- what `delete` answers for a key that is not stored -/
  deleteAbsent : Int

namespace MapRules

/-- There is room for one more key. -/
def HasRoom (R : MapRules) (m : Dict CString CString) : Prop :=
  ∀ n ∈ R.capacity, m.keys.card < n

instance (R : MapRules) (m : Dict CString CString) : Decidable (R.HasRoom m) :=
  match h : R.capacity with
  | none => .isTrue (by intro n hn; rw [h] at hn; cases hn)
  | some n => decidable_of_iff (m.keys.card < n) (by simp [HasRoom, h])

/-- `put` as an operation on a map. -/
def put (R : MapRules) (m : Dict CString CString) (k v : CString) : Int × Dict CString CString :=
  if k ∈ m then
    if R.overwrites then (0, m.insert k v) else (R.putRefused, m)
  else if R.HasRoom m then (0, m.insert k v) else (R.putRefused, m)

/-- `get` as an operation on a map. -/
def get (R : MapRules) (m : Dict CString CString) (k : CString) : Option CString :=
  match m.lookup k with
  | some v => some v
  | none => R.getAbsent

/-- `delete` as an operation on a map. -/
def delete (R : MapRules) (m : Dict CString CString) (k : CString) : Int × Dict CString CString :=
  if k ∈ m then (0, m.erase k) else (R.deleteAbsent, m)

/-- The abstract machine: what a call answers, and the map afterwards. -/
def step (R : MapRules) (m : Dict CString CString) : Call → Answer × Dict CString CString
  | .put k v => (.int (R.put m k v).1, (R.put m k v).2)
  | .get k => (.str (R.get m k), m)
  | .count => (.int m.keys.card, m)
  | .exist k => (.int (if k ∈ m then 1 else 0), m)
  | .delete k => (.int (R.delete m k).1, (R.delete m k).2)

section Put

variable {R : MapRules} {m : Dict CString CString} {k : CString}

theorem put_stored (h : R.overwrites = false) (hk : k ∈ m) (v : CString) :
    R.put m k v = (R.putRefused, m) := by
  simp [put, hk, h]

theorem put_full (h : R.overwrites = false) (hroom : ¬ R.HasRoom m) (k v : CString) :
    R.put m k v = (R.putRefused, m) := by
  simp [put, hroom, h]

theorem put_new (hk : k ∉ m) (hroom : R.HasRoom m) (v : CString) :
    R.put m k v = (0, m.insert k v) := by
  simp [put, hk, hroom]

theorem put_replaces (h : R.overwrites = true) (hk : k ∈ m) (v : CString) :
    R.put m k v = (0, m.insert k v) := by
  simp [put, hk, h]

/-- A put that answers 0 where this is not the answer of a refusal has inserted its pair. -/
theorem put_accepted (hr : R.putRefused ≠ 0) {v : CString} (h : (R.put m k v).1 = 0) :
    (R.put m k v).2 = m.insert k v := by
  unfold put at h ⊢
  by_cases hk : k ∈ m
  · rw [if_pos hk] at h ⊢
    by_cases ho : R.overwrites = true
    · rw [if_pos ho]
    · rw [if_neg ho] at h
      exact absurd h hr
  · rw [if_neg hk] at h ⊢
    by_cases hroom : R.HasRoom m
    · rw [if_pos hroom]
    · rw [if_neg hroom] at h
      exact absurd h hr

theorem hasRoom_of_unbounded (h : R.capacity = none) : R.HasRoom m := by
  simp [HasRoom, h]

end Put

section Delete

variable {R : MapRules} {m : Dict CString CString} {k : CString}

theorem delete_stored (hk : k ∈ m) : R.delete m k = (0, m.erase k) := if_pos hk

theorem delete_absent (hk : k ∉ m) : R.delete m k = (R.deleteAbsent, m) := if_neg hk

theorem get_stored {v : CString} (hk : m.lookup k = some v) : R.get m k = some v := by
  unfold get
  rw [hk]

theorem get_absent (hk : k ∉ m) : R.get m k = R.getAbsent := by
  unfold get
  rw [Finmap.lookup_eq_none.mpr hk]

/-- A stored pair was there before, or was put by the call. -/
theorem step_lookup {c : Call} {v : CString} (h : (R.step m c).2.lookup k = some v) :
    m.lookup k = some v ∨ c = .put k v := by
  cases c with
  | get | count | exist => exact Or.inl h
  | put k' v' =>
      have hput : (R.put m k' v').2 = m.insert k' v' ∨ (R.put m k' v').2 = m := by
        unfold put
        split_ifs <;> simp
      rw [step] at h
      rcases hput with hput | hput
      · rw [hput] at h
        by_cases hk : k = k'
        · subst hk
          rw [Finmap.lookup_insert] at h
          cases h
          exact Or.inr rfl
        · rw [Finmap.lookup_insert_of_ne _ hk] at h
          exact Or.inl h
      · rw [hput] at h
        exact Or.inl h
  | delete k' =>
      have hdel : (R.delete m k').2 = m.erase k' ∨ (R.delete m k').2 = m := by
        unfold delete
        split_ifs <;> simp
      rw [step] at h
      rcases hdel with hdel | hdel
      · rw [hdel] at h
        by_cases hk : k = k'
        · subst hk
          rw [Finmap.lookup_erase] at h
          cases h
        · rw [Finmap.lookup_erase_ne hk] at h
          exact Or.inl h
      · rw [hdel] at h
        exact Or.inl h

end Delete

end MapRules

/-- The red-black tree refuses a stored key, and reads the sentinel for one that is not. -/
def rbtreeRules : MapRules where
  putRefused := 1
  overwrites := false
  capacity := none
  getAbsent := some CString.empty
  deleteAbsent := 1

/-- The array refuses a stored key, and any key once one slot is left. -/
def arrayRules : MapRules where
  putRefused := -1
  overwrites := false
  capacity := some 1023
  getAbsent := none
  deleteAbsent := -1

/-- The chained hash refuses a stored key. -/
def hashRules : MapRules where
  putRefused := 1
  overwrites := false
  capacity := none
  getAbsent := none
  deleteAbsent := -1

/-- The skip list replaces the value of a stored key. -/
def skiptableRules : MapRules where
  putRefused := 0
  overwrites := true
  capacity := none
  getAbsent := none
  deleteAbsent := -1

/-- By how much a call changes the counter of the skip list. -/
def countChange (m : Dict CString CString) : Call → Int
  | .put _ _ => 1
  | .delete k => if k ∈ m then -1 else 0
  | _ => 0

end KvStore
