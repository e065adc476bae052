/-
What the server stores.

Five engines, each with contents of its own: a map for four of them, stacks for the second
hash, and next to the map of the skip list the counter that it keeps.  A message that makes a
call changes the contents of one engine; `contentsAfter` is what a run of messages has
stored.  The counts grow by one with each message at most.
-/
import KvStore.Spec.Keys
import KvStore.Spec.MapRules
import KvStore.Spec.Message
import KvStore.Spec.Stacks
import Mathlib.Algebra.BigOperators.Group.Finset.Piecewise
import Mathlib.Algebra.Order.BigOperators.Group.Finset

namespace KvStore

structure Contents where
  array : Dict CString CString
  tree : Dict CString CString
  hash : Dict CString CString
  dhash : Stacks
  table : Dict CString CString
  /-- what the skip list has counted -/
  counter : Int

namespace Contents

def empty : Contents := ⟨∅, ∅, ∅, ∅, ∅, 0⟩

/-- The abstract server: what an engine answers to a call, and the contents afterwards. -/
def step (C : Contents) : Engine → Call → Answer × Contents
  | .array, c => ((arrayRules.step C.array c).1, { C with array := (arrayRules.step C.array c).2 })
  | .rbtree, c => ((rbtreeRules.step C.tree c).1, { C with tree := (rbtreeRules.step C.tree c).2 })
  | .hash, c => ((hashRules.step C.hash c).1, { C with hash := (hashRules.step C.hash c).2 })
  | .dhash, c => ((C.dhash.step c).1, { C with dhash := (C.dhash.step c).2 })
  | .skiptable, c =>
      (if c = .count then .int C.counter else (skiptableRules.step C.table c).1,
        { C with
          table := (skiptableRules.step C.table c).2, counter := C.counter + countChange C.table c })

/-- The value an engine stores for the key. -/
def lookup (C : Contents) : Engine → CString → Option CString
  | .array, k => C.array.lookup k
  | .rbtree, k => C.tree.lookup k
  | .hash, k => C.hash.lookup k
  | .dhash, k => (C.dhash.stack k).head?
  | .skiptable, k => C.table.lookup k

/-- The contents after a message. -/
def message (C : Contents) (request : List Byte) : Contents :=
  match requestIn request with
  | none => C
  | some (e, v) =>
      match v.call (tokensOf request)[1]? (tokensOf request)[2]? with
      | none => C
      | some c => (C.step e c).2

/-- A stored value is what `get` answers. -/
theorem step_get {C : Contents} {e : Engine} {k w : CString} (h : C.lookup e k = some w) :
    (C.step e (.get k)).1 = .str (some w) := by
  cases e with
  | array | rbtree | hash | skiptable => exact congrArg Answer.str (MapRules.get_stored h)
  | dhash => exact congrArg Answer.str h

/-! ### The counts -/

/-- What an engine answers to `count`. -/
def count (C : Contents) : Engine → Int
  | .array => C.array.keys.card
  | .rbtree => C.tree.keys.card
  | .hash => C.hash.keys.card
  | .dhash => C.dhash.total
  | .skiptable => C.counter

theorem step_count (C : Contents) (e : Engine) : (C.step e .count).1 = .int (C.count e) := by
  cases e <;> rfl

end Contents

theorem MapRules.step_card (R : MapRules) (m : Dict CString CString) (c : Call) :
    (R.step m c).2.keys.card ≤ m.keys.card + 1 := by
  cases c with
  | get | count | exist => exact Nat.le_succ _
  | put k v =>
      have hput : (R.put m k v).2 = m.insert k v ∨ (R.put m k v).2 = m := by
        unfold MapRules.put
        split_ifs <;> simp
      rw [MapRules.step]
      rcases hput with hput | hput
      · rw [hput, keys_insert]
        exact Finset.card_insert_le k m.keys
      · rw [hput]
        exact Nat.le_succ _
  | delete k =>
      have hle : (R.delete m k).2.keys.card ≤ m.keys.card := by
        rw [keys_delete]
        exact Finset.card_erase_le
      exact Nat.le_succ_of_le hle

theorem countChange_natAbs (m : Dict CString CString) (c : Call) :
    (countChange m c).natAbs ≤ 1 := by
  cases c with
  | get | count | exist => exact Nat.zero_le 1
  | put k v => exact Nat.le_refl 1
  | delete k =>
      rw [countChange]
      split_ifs <;> decide

/-- A stack that is at most one higher makes the sum at most one greater. -/
theorem Stacks.total_insert_le (m : Stacks) (k : CString) {l : List CString}
    (hl : l.length ≤ (m.stack k).length + 1) : Stacks.total (m.insert k l) ≤ m.total + 1 := by
  have hle : ∀ x, (Stacks.stack (m.insert k l) x).length ≤
      (m.stack x).length + if x = k then 1 else 0 := by
    intro x
    rw [stack_insert]
    by_cases hx : x = k
    · subst hx
      rw [if_pos rfl, if_pos rfl]
      exact hl
    · rw [if_neg hx, if_neg hx]
      exact Nat.le_refl _
  have hold : k ∉ m.keys → (m.stack k).length = 0 := by
    intro hk
    by_contra hc
    exact hk (Finmap.mem_keys.mpr (mem_of_stack fun hnil => hc (by rw [hnil]; rfl)))
  calc Stacks.total (m.insert k l)
      = ∑ x ∈ insert k m.keys, (Stacks.stack (m.insert k l) x).length := by
        rw [Stacks.total, keys_insert]
    _ ≤ ∑ x ∈ insert k m.keys, ((m.stack x).length + if x = k then 1 else 0) :=
        Finset.sum_le_sum fun x _ => hle x
    _ = m.total + 1 := by
        rw [Finset.sum_add_distrib, Finset.sum_ite_eq', if_pos (Finset.mem_insert_self k m.keys),
          Finset.sum_insert_of_eq_zero_if_notMem hold, Stacks.total]

theorem Stacks.step_total (m : Stacks) (c : Call) : (m.step c).2.total ≤ m.total + 1 := by
  cases c with
  | get | count | exist => exact Nat.le_succ _
  | put k v => exact m.total_insert_le k (by simp)
  | delete k =>
      rw [Stacks.step]
      by_cases hnil : m.stack k = []
      · rw [if_pos hnil]
        exact Nat.le_succ _
      · rw [if_neg hnil]
        exact m.total_insert_le k (by rw [List.length_tail]; omega)

namespace Contents

/-- A call changes the count of one engine, by one at most. -/
theorem count_step (C : Contents) (e e' : Engine) (c : Call) :
    ((C.step e c).2.count e').natAbs ≤ (C.count e').natAbs + 1 := by
  have hsame : (C.count e').natAbs ≤ (C.count e').natAbs + 1 := Nat.le_succ _
  cases e with
  | array =>
      cases e' with
      | array => exact arrayRules.step_card C.array c
      | rbtree | hash | dhash | skiptable => exact hsame
  | rbtree =>
      cases e' with
      | rbtree => exact rbtreeRules.step_card C.tree c
      | array | hash | dhash | skiptable => exact hsame
  | hash =>
      cases e' with
      | hash => exact hashRules.step_card C.hash c
      | array | rbtree | dhash | skiptable => exact hsame
  | dhash =>
      cases e' with
      | dhash => exact C.dhash.step_total c
      | array | rbtree | hash | skiptable => exact hsame
  | skiptable =>
      cases e' with
      | skiptable =>
          have hchange := countChange_natAbs C.table c
          show (C.counter + countChange C.table c).natAbs ≤ C.counter.natAbs + 1
          omega
      | array | rbtree | hash | dhash => exact hsame

theorem count_message (C : Contents) (request : List Byte) (e : Engine) :
    ((C.message request).count e).natAbs ≤ (C.count e).natAbs + 1 := by
  unfold message
  split
  · exact Nat.le_succ _
  · split
    · exact Nat.le_succ _
    · exact C.count_step _ e _

end Contents

/-- What a run of messages has stored. -/
def contentsAfter (requests : List (List Byte)) : Contents :=
  requests.foldl Contents.message Contents.empty

/-- **The counts are bounded by the number of messages.** -/
theorem contentsAfter_count (requests : List (List Byte)) (e : Engine) :
    ((contentsAfter requests).count e).natAbs ≤ requests.length := by
  have hfold : ∀ (rest : List (List Byte)) (C : Contents),
      ((rest.foldl Contents.message C).count e).natAbs ≤ (C.count e).natAbs + rest.length := by
    intro rest
    induction rest with
    | nil => exact fun C => Nat.le_refl _
    | cons request rest ih =>
        intro C
        have hmessage := C.count_message request e
        have hrest := ih (C.message request)
        rw [List.foldl_cons, List.length_cons]
        omega
  have h := hfold requests Contents.empty
  have hempty : Contents.empty.count e = 0 := by cases e <;> rfl
  rw [hempty, Int.natAbs_zero, Nat.zero_add] at h
  exact h

end KvStore
