/-
The array engine (kvstore.c, built with `ENABLE_MEM_POOL` 0).

A static table of 1024 slots, each with two `char *` that are null or own a copy of a
string, and a counter of the slots in use.  The table is searched from the front on
every call.
-/
import KvStore.Engine.Call

namespace KvStore

/-- `KVS_ARRAY_ITEM_SIZE` -/
def kvsArrayItemSize : Nat := 1024

structure ArrayItem where
  key : Option CString
  value : Option CString
  deriving DecidableEq

/-- The static variables `array_table` and `array_count`. -/
structure ArrayTable where
  items : Vector ArrayItem kvsArrayItemSize
  count : Int

def ArrayTable.static : ArrayTable := ⟨Vector.replicate kvsArrayItemSize ⟨none, none⟩, 0⟩

/-- `array_table[i]` -/
def arrayItem (i : Nat) : Prog ArrayTable ArrayItem := do
  let A ← get
  if h : i < kvsArrayItemSize then return A.items[i] else fault .outOfBounds

/-- An assignment to fields of `array_table[i]`. -/
def assignItem (i : Nat) (f : ArrayItem → ArrayItem) : Prog ArrayTable Unit := do
  let A ← get
  if h : i < kvsArrayItemSize then set { A with items := A.items.set i (f A.items[i]) }
  else fault .outOfBounds

/-- `array_table[i].key != NULL && 0 == strcmp(array_table[i].key, key)` -/
def arrayKeyIs (key : CString) (i : Nat) : Prog ArrayTable Bool := do
  let item ← arrayItem i
  match item.key with
  | none => return false
  | some k => return (← liftE (strcmp k.mem key.mem)) = 0

/-- `kvs_array_search_item`: the index of the item found, or `none` for `NULL`. -/
def kvsArraySearchItem (key : Option CString) : Prog ArrayTable (Option Nat) := do
  match key with
  | none => return none
  | some key =>
      let i ← forFirst kvsArrayItemSize (arrayKeyIs key)
      if i < kvsArrayItemSize then return some i else return none

def kvsArrayExist (key : Option CString) : Prog ArrayTable Int := do
  return if (← kvsArraySearchItem key).isSome then 1 else 0

/-- `array_table[i].key == NULL && array_table[i].value == NULL` -/
def arrayIsFree (i : Nat) : Prog ArrayTable Bool := do
  let item ← arrayItem i
  return item.key = none && item.value = none

/-- The scan of `kvs_array_set` for a free slot. -/
def kvsArrayFreeSlot : Prog ArrayTable Nat := forFirst kvsArrayItemSize arrayIsFree

/-- `kvs_array_set`, given whether its two allocations succeed. -/
def kvsArraySet (allocKey allocValue : Bool) (key value : Option CString) :
    Prog ArrayTable Int := do
  match key, value with
  | some key, some value =>
      if (← get).count = kvsArrayItemSize - 1 then return -1
      else if (← kvsArrayExist (some key)) ≠ 0 then return -1
      else if allocKey = false then return -1
      else if allocValue = false then return -1
      else
        let i ← kvsArrayFreeSlot
        assignItem i fun item => { item with key := some key }
        assignItem i fun item => { item with value := some value }
        modify fun A => { A with count := A.count + 1 }
        return 0
  | _, _ => return -1

def kvsArrayGet (key : Option CString) : Prog ArrayTable (Option CString) := do
  match ← kvsArraySearchItem key with
  | some i => return (← arrayItem i).value
  | none => return none

def kvsArrayCount : Prog ArrayTable Int := do return (← get).count

def kvsArrayDelete (key : Option CString) : Prog ArrayTable Int := do
  match key with
  | none => return -1
  | some key =>
      match ← kvsArraySearchItem (some key) with
      | none => return -1
      | some i =>
          let item ← arrayItem i
          whenever (item.key ≠ none) (assignItem i fun item => { item with key := none })
          whenever (item.value ≠ none) (assignItem i fun item => { item with value := none })
          modify fun A => { A with count := A.count - 1 }
          return 0

/-- One call of the engine, with every allocation succeeding. -/
def arrayCall : Call → Prog ArrayTable Answer
  | .put k v => Answer.int <$> kvsArraySet true true (some k) (some v)
  | .get k => Answer.str <$> kvsArrayGet (some k)
  | .count => Answer.int <$> kvsArrayCount
  | .exist k => Answer.int <$> kvsArrayExist (some k)
  | .delete k => Answer.int <$> kvsArrayDelete (some k)

end KvStore
