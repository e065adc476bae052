/-
The array engine with its pointers (kvstore.c, built with `ENABLE_MEM_POOL` 0).

In `Engine/Array.lean` a slot has strings.  Here it has pointers to the copies that
`kvs_array_set` made, so it can be said which copies are allocated, and how long the pointer that
`kvs_array_get` returned can be used.
-/
import KvStore.Base.Memory
import KvStore.Engine.Array

namespace KvStore

/-- `kvs_array_item_t`, as it lies in memory -/
structure ArrayCell where
  key : Ptr
  value : Ptr
  deriving DecidableEq

/-- `array_table` and `array_count`, and the strings that the engine has allocated. -/
structure ArrayHeap where
  items : Vector ArrayCell kvsArrayItemSize
  count : Int
  strings : Mem CString

instance : HasMem ArrayHeap CString where
  mem := ArrayHeap.strings
  withMem H m := { H with strings := m }
  mem_withMem _ _ := rfl

namespace ArrayHeap

def static : ArrayHeap := ⟨Vector.replicate kvsArrayItemSize ⟨0, 0⟩, 0, Mem.empty⟩

/-- `array_table[i]` -/
def item (i : Nat) : Prog ArrayHeap ArrayCell := do
  let H ← get
  if h : i < kvsArrayItemSize then return H.items[i] else fault .outOfBounds

/-- An assignment to a field of `array_table[i]`. -/
def assignItem (i : Nat) (f : ArrayCell → ArrayCell) : Prog ArrayHeap Unit := do
  let H ← get
  if h : i < kvsArrayItemSize then set { H with items := H.items.set i (f H.items[i]) }
  else fault .outOfBounds

/-- `array_table[i].key != NULL && 0 == strcmp(array_table[i].key, key)` -/
def keyIs (key : CString) (i : Nat) : Prog ArrayHeap Bool := do
  let c ← item i
  if c.key = 0 then return false
  else return (← liftE (strcmp (← deref c.key).mem key.mem)) = 0

/-- `kvs_array_search_item`: the index of the item found, or `none` for `NULL`. -/
def kvsArraySearchItem (key : Option CString) : Prog ArrayHeap (Option Nat) := do
  match key with
  | none => return none
  | some key =>
      let i ← forFirst kvsArrayItemSize (keyIs key)
      if i < kvsArrayItemSize then return some i else return none

def kvsArrayExist (key : Option CString) : Prog ArrayHeap Int := do
  return if (← kvsArraySearchItem key).isSome then 1 else 0

/-- `array_table[i].key == NULL && array_table[i].value == NULL` -/
def isFree (i : Nat) : Prog ArrayHeap Bool := do
  let c ← item i
  return c.key = 0 && c.value = 0

/-- `kvs_array_set`, given whether its two allocations succeed. -/
def kvsArraySet (allocKey allocValue : Bool) (key value : Option CString) :
    Prog ArrayHeap Int := do
  match key, value with
  | some key, some value =>
      if (← get).count = kvsArrayItemSize - 1 then return -1
      else if (← kvsArrayExist (some key)) ≠ 0 then return -1
      else
        let kcopy ← malloc allocKey key
        if kcopy = 0 then return -1
        else
          let vcopy ← malloc allocValue value
          if vcopy = 0 then
            free kcopy
            return -1
          else
            let i ← forFirst kvsArrayItemSize isFree
            assignItem i fun c => { c with key := kcopy }
            assignItem i fun c => { c with value := vcopy }
            modify fun H => { H with count := H.count + 1 }
            return 0
  | _, _ => return -1

/-- `kvs_array_get`: the pointer to the value. -/
def kvsArrayGet (key : Option CString) : Prog ArrayHeap Ptr := do
  match ← kvsArraySearchItem key with
  | some i => return (← item i).value
  | none => return 0

def kvsArrayCount : Prog ArrayHeap Int := do return (← get).count

def kvsArrayDelete (key : Option CString) : Prog ArrayHeap Int := do
  match key with
  | none => return -1
  | some key =>
      match ← kvsArraySearchItem (some key) with
      | none => return -1
      | some i =>
          whenever ((← item i).key ≠ 0) do
            free (← item i).key
            assignItem i fun c => { c with key := 0 }
          whenever ((← item i).value ≠ 0) do
            free (← item i).value
            assignItem i fun c => { c with value := 0 }
          modify fun H => { H with count := H.count - 1 }
          return 0

end ArrayHeap

/-- A call of the engine, with the allocations that succeed. -/
inductive ArrayOp
  | put (allocKey allocValue : Bool) (key value : CString)
  | get (key : CString)
  | count
  | exist (key : CString)
  | delete (key : CString)
  deriving DecidableEq

/-- The call on the pointers; a value is read where the pointer points. -/
def ArrayHeap.op : ArrayOp → Prog ArrayHeap Answer
  | .put a b k v => Answer.int <$> ArrayHeap.kvsArraySet a b (some k) (some v)
  | .get k => do
      let p ← ArrayHeap.kvsArrayGet (some k)
      if p = 0 then return .str none else return .str (some (← deref p))
  | .count => Answer.int <$> ArrayHeap.kvsArrayCount
  | .exist k => Answer.int <$> ArrayHeap.kvsArrayExist (some k)
  | .delete k => Answer.int <$> ArrayHeap.kvsArrayDelete (some k)

/-- The call on the strings. -/
def ArrayTable.op : ArrayOp → Prog ArrayTable Answer
  | .put a b k v => Answer.int <$> KvStore.kvsArraySet a b (some k) (some v)
  | .get k => Answer.str <$> KvStore.kvsArrayGet (some k)
  | .count => Answer.int <$> KvStore.kvsArrayCount
  | .exist k => Answer.int <$> KvStore.kvsArrayExist (some k)
  | .delete k => Answer.int <$> KvStore.kvsArrayDelete (some k)

end KvStore
