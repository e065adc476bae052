/-
The store: the five engines side by side (kvstore.c).

Every engine is a global variable of the process.  An operation works on one of them,
through a wrapper that names the variable, and leaves the others alone.
-/
import KvStore.Engine.Array
import KvStore.Engine.Dhash
import KvStore.Engine.Hash
import KvStore.Engine.Rbtree
import KvStore.Engine.Skiptable

namespace KvStore

/-- The global variables of the engines. -/
structure Store where
  array : ArrayTable
  tree : Rbtree
  hash : Hashtable
  dhash : DhashTable
  table : SkipList

/-- The global variables before `init_kvengine`, with the results `rand` will give. -/
def Store.static (rand : Nat → Nat) : Store where
  array := ArrayTable.static
  tree := Rbtree.static
  hash := ⟨none, 0, 0, .free⟩
  dhash := ⟨none⟩
  table := SkipList.static rand

section Wrappers

variable {α : Type}

def onArray (x : Prog ArrayTable α) : Prog Store α :=
  zoom Store.array (fun s A => { s with array := A }) x

def onTree (x : Prog Rbtree α) : Prog Store α :=
  zoom Store.tree (fun s T => { s with tree := T }) x

def onHash (x : Prog Hashtable α) : Prog Store α :=
  zoom Store.hash (fun s H => { s with hash := H }) x

def onDhash (x : Prog DhashTable α) : Prog Store α :=
  zoom Store.dhash (fun s D => { s with dhash := D }) x

def onTable (x : Prog SkipList α) : Prog Store α :=
  zoom Store.table (fun s S => { s with table := S }) x

end Wrappers

/-- `init_kvengine`, with every allocation succeeding; see `initHashtable` for `slots`. -/
def initKvengine (slots : Vector (List HashNode) maxTableSize) (m : Mutex) : Prog Store Unit := do
  let _ ← onTree (initRbtree true m)
  let _ ← onHash (initHashtable true slots m)
  let _ ← onDhash (initDhashtable true)
  let _ ← onTable (initSkiptable true true m)
  return ()

/-- `init_kvs_engine`, which initialises the tree once more -/
def initKvsEngine (m : Mutex) : Prog Store Unit := do
  let _ ← onTree (initRbtree true m)
  return ()

/-- What `main` does with the engines before it runs the scheduler. -/
def startEngines (slots : Vector (List HashNode) maxTableSize) (m : Mutex) : Prog Store Unit := do
  initKvengine slots m
  initKvsEngine m

/-- The engines that a command can select. -/
inductive Engine
  | array
  | rbtree
  | hash
  | dhash
  | skiptable
  deriving DecidableEq, Repr

/-- One call of one of the engines. -/
def Store.call : Engine → Call → Prog Store Answer
  | .array, c => onArray (arrayCall c)
  | .rbtree, c => onTree (rbtreeCall c)
  | .hash, c => onHash (hashCall c)
  | .dhash, c => onDhash (dhashCall c)
  | .skiptable, c => onTable (skiptableCall c)

end KvStore
