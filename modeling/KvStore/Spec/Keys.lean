/-
The keys a run of calls leaves.

In an engine without a bound a `put` leaves its key stored and a `delete` leaves it not
stored, whatever the values are and whatever the calls answer.  So the calls alone say
which keys are stored after a run of them, and which of the puts in it were for a key that
was already there.
-/
import KvStore.Spec.MapRules

namespace KvStore

/-- The stored keys after a call, from those before it. -/
def Call.keysAfter (K : Finset CString) : Call → Finset CString
  | .put k _ => insert k K
  | .delete k => K.erase k
  | .get _ | .count | .exist _ => K

/-- The stored keys after a run of calls. -/
def keysAfter (K : Finset CString) (calls : List Call) : Finset CString :=
  calls.foldl Call.keysAfter K

/-- A call that changes what is stored. -/
def Call.Updates : Call → Prop
  | .put _ _ | .delete _ => True
  | .get _ | .count | .exist _ => False

/-- The key of a put leaves room for its terminator; its value may be of any length. -/
def Call.KeyFitting : Call → Prop
  | .put k _ => KeyFits k
  | .get _ | .count | .exist _ | .delete _ => True

instance : DecidablePred Call.Updates
  | .put _ _ | .delete _ => inferInstanceAs (Decidable True)
  | .get _ | .count | .exist _ => inferInstanceAs (Decidable False)

instance : DecidablePred Call.KeyFitting
  | .put k _ => inferInstanceAs (Decidable (KeyFits k))
  | .get _ | .count | .exist _ | .delete _ => inferInstanceAs (Decidable True)

section Keys

variable {m : Dict CString CString} {K : Finset CString} {k : CString}

theorem keys_delete (R : MapRules) : (R.delete m k).2.keys = m.keys.erase k := by
  by_cases hk : k ∈ m
  · rw [MapRules.delete_stored hk]
    exact Finmap.keys_erase k m
  · rw [MapRules.delete_absent hk, Finset.erase_eq_of_notMem]
    rwa [Finmap.mem_keys]

/-! ### Counting the puts that add nothing -/

/-- Whether the call is a put of a key among `K`, as a number. -/
def Call.repeats (K : Finset CString) : Call → Nat
  | .put k _ => if k ∈ K then 1 else 0
  | .get _ | .count | .exist _ | .delete _ => 0

/-- How many puts of a run are for a key that is stored at that point. -/
def repeats : Finset CString → List Call → Nat
  | _, [] => 0
  | K, c :: rest => c.repeats K + repeats (c.keysAfter K) rest

end Keys

end KvStore
