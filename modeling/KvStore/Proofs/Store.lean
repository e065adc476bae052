/-
The store after `init_kvengine`.

Every engine stores the empty map then; the array engine needs no initialisation.  The tree is
initialised once more by `main`, and its first sentinel is forgotten.
-/
import KvStore.Engine.Store
import KvStore.Proofs.Array
import KvStore.Proofs.Dhash
import KvStore.Proofs.Hash
import KvStore.Proofs.Rbtree.Engine
import KvStore.Proofs.Skiptable.Engine

namespace KvStore

/-- The engines are empty, and their mutexes are `mu`. -/
structure FreshStore (s : Store) (mu : Mutex) : Prop where
  array : ArraySim s.array ∅
  tree : RbtreeSim s.tree ∅
  treeLock : s.tree.lock = mu
  hash : s.hash = Hashtable.fresh mu
  dhash : s.dhash = DhashTable.fresh
  table : SkiptableSim s.table ∅
  tableLock : s.table.lock = mu
  count : s.table.nbElements = 0

/-- `init_kvengine`, with whatever the slots of the chained hash contain. -/
theorem initKvengine_run (rand : Nat → Nat) (slots : Vector (List HashNode) maxTableSize)
    {mu : Mutex} (hmu : mu ≠ .held) :
    ∃ s, (initKvengine slots mu).run (Store.static rand) = .ok ((), s) ∧
      s.hash = ⟨some slots, maxTableSize, 0, mu⟩ ∧
      FreshStore { s with hash := Hashtable.fresh mu } mu := by
  obtain ⟨T, hT, htree, hTlock⟩ := initRbtree_spec Rbtree.static hmu
  obtain ⟨S, hS, htable, hSlock, hcount⟩ := initSkiptable_spec (SkipList.static rand) hmu
  have hT' : (onTree (initRbtree true mu)).run (Store.static rand) =
      .ok (0, { Store.static rand with tree := T }) := zoom_run hT
  let s₃ : Store := ⟨ArrayTable.static, T, ⟨some slots, maxTableSize, 0, mu⟩, DhashTable.fresh,
    SkipList.static rand⟩
  have hS' : (onTable (initSkiptable true true mu)).run s₃ = .ok (0, { s₃ with table := S }) :=
    zoom_run hS
  refine ⟨{ s₃ with table := S }, ?_, rfl,
    ⟨ArraySim.static, htree, hTlock, rfl, rfl, htable, hSlock, hcount⟩⟩
  exact run_bind_of hT' (run_bind_of rfl (run_bind_of rfl (run_bind_of hS' rfl)))

/-- **`init_kvengine` leaves empty engines**, if the slots of the chained hash read as null. -/
theorem initKvengine_spec (rand : Nat → Nat) (mu : Mutex) (hmu : mu ≠ .held) :
    ∃ s, (initKvengine (Vector.replicate maxTableSize []) mu).run (Store.static rand) =
      .ok ((), s) ∧ FreshStore s mu := by
  obtain ⟨s, hrun, hhash, hfresh⟩ :=
    initKvengine_run rand (Vector.replicate maxTableSize []) hmu
  refine ⟨s, hrun, hfresh.array, hfresh.tree, hfresh.treeLock, hhash, hfresh.dhash, hfresh.table,
    hfresh.tableLock, hfresh.count⟩

/-- **`main` starts with empty engines**, on the same condition. -/
theorem startEngines_spec (rand : Nat → Nat) (mu : Mutex) (hmu : mu ≠ .held) :
    ∃ s, (startEngines (Vector.replicate maxTableSize []) mu).run (Store.static rand) =
      .ok ((), s) ∧ FreshStore s mu := by
  obtain ⟨s, hrun, hfresh⟩ := initKvengine_spec rand mu hmu
  obtain ⟨T, hT, htree, hTlock⟩ := initRbtree_spec s.tree hmu
  have hagain : (initKvsEngine mu).run s = .ok ((), { s with tree := T }) :=
    run_bind_of (zoom_run hT) rfl
  exact ⟨_, run_bind_of hrun hagain, hfresh.array, htree, hTlock, hfresh.hash, hfresh.dhash,
    hfresh.table, hfresh.tableLock, hfresh.count⟩

end KvStore
