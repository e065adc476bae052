/-
The chained hash engine with its pointers (hash.c).

In `Engine/Hash.lean` a chain is a list.  Here a node is an object with its two arrays and the
pointer to the next node behind them, so `nextMem`, which there depends on whether the list ends,
is what the pointer is: eight bytes that can be read if it is null.
-/
import KvStore.Base.Slots
import KvStore.Engine.Hash

namespace KvStore

/-- `hashnode_t`, as it lies in memory -/
structure HashCell where
  key : CharBuf maxKeyLen
  value : CharBuf maxValueLen
  next : Ptr

namespace HashCell

/-- The memory a pointer to the `value` field points to. -/
def valueMem (c : HashCell) : List Byte :=
  c.value.val ++ if c.next = 0 then List.replicate 8 0 else []

/-- The memory a pointer to the `key` field points to. -/
def keyMem (c : HashCell) : List Byte := c.key.val ++ c.valueMem

end HashCell

/-- `hashtable_t`, with its `hashnode_t **nodes`, and what the engine has allocated. -/
structure HashHeap where
  nodes : SlotArray maxTableSize
  maxSlots : Int
  count : Int
  lock : Mutex
  mem : Mem HashCell

instance : HasMem HashHeap HashCell where
  mem := HashHeap.mem
  withMem H m := { H with mem := m }
  mem_withMem _ _ := rfl

instance : HasSlots HashHeap maxTableSize where
  slots := HashHeap.nodes
  withSlots H a := { H with nodes := a }
  slots_withSlots _ _ := rfl

instance : HasMutex HashHeap where
  mutex := HashHeap.lock
  withMutex H m := { H with lock := m }
  mutex_withMutex _ _ := rfl

namespace HashHeap

/-- Before `init_hashtable`. -/
def static : HashHeap := ⟨.null, 0, 0, .free, Mem.empty⟩

/-- No loop of the engine visits more nodes than were ever allocated. -/
def fuel (H : HashHeap) : Nat := H.mem.next + 1

/-- `_create_node`, given whether its `malloc` succeeds. -/
def createNode (alloc : Bool) (key value : CString) : Prog HashHeap Ptr :=
  malloc alloc ⟨strncpy maxKeyLen key.bytes, strncpy maxValueLen value.bytes, 0⟩

/--
`init_hashtable`, given whether its `malloc` succeeds, what the new slots contain and
the mutex that `pthread_mutex_init` leaves.
-/
def initHashtable (alloc : Bool) (slots : Vector Ptr maxTableSize) (m : Mutex) :
    Prog HashHeap Int := do
  if alloc then
    modify fun H =>
      { H with nodes := .allocated slots, maxSlots := maxTableSize, count := 0, lock := m }
    return 0
  else
    modify fun H => { H with nodes := .null }
    return -1

/-- The body of the loop of `dest_hashtable` along the chain of slot `i`. -/
def destHashtableStep (i : Nat) (node : Ptr) : Prog HashHeap (Ptr ⊕ Unit) := do
  if node ≠ 0 then
    let next := (← deref node).next
    setSlot i next
    free node
    return .inl next
  else return .inr ()

/-- `for (i = i; i < i + n; i++)` with that loop as its body. -/
def destHashtableSlots : Nat → Nat → Prog HashHeap Unit
  | 0, _ => return ()
  | n + 1, i => do
      let node ← getSlot i
      loop (destHashtableStep i) (← get).fuel node
      destHashtableSlots n (i + 1)

def destHashtable : Prog HashHeap Unit := do
  destHashtableSlots (← get).maxSlots.toNat 0
  freeSlots

/-- The body of the walk along a chain for the first node with the key. -/
def findStep (key : CString) (node : Ptr) : Prog HashHeap (Ptr ⊕ Ptr) := do
  if node ≠ 0 then
    let c ← deref node
    if (← liftE (strcmp c.keyMem key.mem)) = 0 then return .inr node else return .inl c.next
  else return .inr 0

/-- `put_kv_hashtable`, given whether its `malloc` succeeds. -/
def putKvHashtable (alloc : Bool) (key value : Option CString) : Prog HashHeap Int := do
  match key, value with
  | some key, some value =>
      let idx ← liftE (hash (some key) maxTableSize)
      mutexLock
      let node ← getSlot idx
      let found ← loop (findStep key) (← get).fuel node
      if found ≠ 0 then
        mutexUnlock
        return 1
      else
        let newNode ← createNode alloc key value
        let head ← getSlot idx
        assign newNode fun c => { c with next := head }
        setSlot idx newNode
        modify fun H => { H with count := H.count + 1 }
        mutexUnlock
        return 0
  | _, _ => return -1

/-- `get_kv_hashtable`: the node whose value is pointed to, or null. -/
def getKvHashtable (key : Option CString) : Prog HashHeap Ptr := do
  match key with
  | none => return 0
  | some key =>
      let idx ← liftE (hash (some key) maxTableSize)
      mutexLock
      let node ← getSlot idx
      let found ← loop (findStep key) (← get).fuel node
      mutexUnlock
      return found

def countKvHashtable : Prog HashHeap Int := do return (← get).count

/-- `while (cur->next != NULL) { if (strcmp(cur->next->key, key) == 0) break; cur = cur->next; }` -/
def deleteStep (key : CString) (cur : Ptr) : Prog HashHeap (Ptr ⊕ Ptr) := do
  let c ← deref cur
  if c.next ≠ 0 then
    if (← liftE (strcmp (← deref c.next).keyMem key.mem)) = 0 then return .inr cur
    else return .inl c.next
  else return .inr cur

/-- `delete_kv_hashtable`; the return for an empty chain leaves the mutex locked. -/
def deleteKvHashtable (key : Option CString) : Prog HashHeap Int := do
  match key with
  | none => return -2
  | some key =>
      let idx ← liftE (hash (some key) maxTableSize)
      mutexLock
      let head ← getSlot idx
      if head = 0 then return -1
      else
        let c ← deref head
        if (← liftE (strcmp c.keyMem key.mem)) = 0 then
          setSlot idx c.next
          free head
          modify fun H => { H with count := H.count - 1 }
          mutexUnlock
          return 0
        else
          let cur ← loop (deleteStep key) (← get).fuel head
          let tmp := (← deref cur).next
          if tmp = 0 then
            mutexUnlock
            return -1
          else
            let next := (← deref tmp).next
            assign cur fun c => { c with next := next }
            free tmp
            modify fun H => { H with count := H.count - 1 }
            mutexUnlock
            return 0

def existKvHashtable (key : Option CString) : Prog HashHeap Int := do
  return if (← getKvHashtable key) = 0 then 0 else 1

end HashHeap

/-- A call of the engine, with whether the `malloc` of a put succeeds. -/
inductive HashOp
  | put (alloc : Bool) (key value : CString)
  | get (key : CString)
  | count
  | exist (key : CString)
  | delete (key : CString)
  deriving DecidableEq

/-- The call on the pointers; a value is read where the pointer points. -/
def HashHeap.op : HashOp → Prog HashHeap Answer
  | .put alloc k v => Answer.int <$> HashHeap.putKvHashtable alloc (some k) (some v)
  | .get k => do
      let p ← HashHeap.getKvHashtable (some k)
      if p = 0 then readAnswer none else readAnswer (some (← deref p).valueMem)
  | .count => Answer.int <$> HashHeap.countKvHashtable
  | .exist k => Answer.int <$> HashHeap.existKvHashtable (some k)
  | .delete k => Answer.int <$> HashHeap.deleteKvHashtable (some k)

/-- The call on the lists. -/
def Hashtable.op : HashOp → Prog Hashtable Answer
  | .put alloc k v => Answer.int <$> KvStore.putKvHashtable alloc (some k) (some v)
  | .get k => do readAnswer (← KvStore.getKvHashtable (some k))
  | .count => Answer.int <$> KvStore.countKvHashtable
  | .exist k => Answer.int <$> KvStore.existKvHashtable (some k)
  | .delete k => Answer.int <$> KvStore.deleteKvHashtable (some k)

end KvStore
