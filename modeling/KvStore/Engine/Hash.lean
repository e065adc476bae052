/-
The chained hash engine (hash.c).

A table of 1024 chains and a counter, behind one mutex.  A chain is the list of its
nodes; a walk along it is a recursion over the list.  In a node the key array is
followed by the value array and that by the `next` pointer, so a string that is not
terminated in its array is read on into what follows: a null `next` ends it, and
reading the bytes of any other pointer is the fault `overrun`.
-/
import KvStore.Base.Mutex
import KvStore.Engine.Call

namespace KvStore

/-- `MAX_TABLE_SIZE` -/
def maxTableSize : Nat := 1024

structure HashNode where
  key : CharBuf maxKeyLen
  value : CharBuf maxValueLen
  deriving DecidableEq

/-- `hashtable_t`; `none` is a null `nodes`, as before `init_hashtable`. -/
structure Hashtable where
  nodes : Option (Vector (List HashNode) maxTableSize)
  maxSlots : Int
  count : Int
  lock : Mutex

instance : HasMutex Hashtable where
  mutex := Hashtable.lock
  withMutex H m := { H with lock := m }
  mutex_withMutex _ _ := rfl

/-- A `char`, which is signed, as an `int`. -/
def intOfChar (c : Byte) : Int := c.toInt8.toInt

/-- Addition of `int`s, which must not overflow. -/
def addInt (a b : Int) : Except Fault Int :=
  if -2147483648 ≤ a + b ∧ a + b ≤ 2147483647 then .ok (a + b) else .error .overflow

/-- The loop of `_hash` over the bytes of the key. -/
def hashSum : List Byte → Int → Except Fault Int
  | [], sum => return sum
  | c :: rest, sum => do hashSum rest (← addInt sum (intOfChar c))

/-- `_hash`; C's `%` rounds towards zero. -/
def hash (key : Option CString) (size : Int) : Except Fault Int :=
  match key with
  | none => return -1
  | some key => do return (← hashSum key.bytes 0).tmod size

/-- The bytes of a `next` pointer that can be read: those of a null pointer. -/
def nextMem (next : List HashNode) : List Byte := if next = [] then List.replicate 8 0 else []

/-- The memory a pointer to the `value` field points to. -/
def HashNode.valueMem (node : HashNode) (next : List HashNode) : List Byte :=
  node.value.val ++ nextMem next

/-- The memory a pointer to the `key` field points to. -/
def HashNode.keyMem (node : HashNode) (next : List HashNode) : List Byte :=
  node.key.val ++ node.valueMem next

/-- `hash->nodes[idx]` -/
def hashChain (idx : Int) : Prog Hashtable (List HashNode) := do
  match (← get).nodes with
  | none => fault .nullDeref
  | some t =>
      if h : 0 ≤ idx ∧ idx.toNat < maxTableSize then return t.get ⟨idx.toNat, h.2⟩
      else fault .outOfBounds

/-- `hash->nodes[idx] = chain` -/
def setHashChain (idx : Int) (chain : List HashNode) : Prog Hashtable Unit := do
  let H ← get
  match H.nodes with
  | none => fault .nullDeref
  | some t =>
      if h : 0 ≤ idx ∧ idx.toNat < maxTableSize then
        set { H with nodes := some (t.set idx.toNat chain h.2) }
      else fault .outOfBounds

/-- `_create_node`, given whether its `malloc` succeeds; `none` is `NULL`. -/
def createHashNode (alloc : Bool) (key value : CString) : Option HashNode :=
  if alloc then some ⟨strncpy maxKeyLen key.bytes, strncpy maxValueLen value.bytes⟩ else none

/--
`init_hashtable`, given whether its `malloc` succeeds, what the new slots contain and
the mutex that `pthread_mutex_init` leaves.
-/
def initHashtable (alloc : Bool) (slots : Vector (List HashNode) maxTableSize) (m : Mutex) :
    Prog Hashtable Int := do
  if alloc then
    set (⟨some slots, maxTableSize, 0, m⟩ : Hashtable)
    return 0
  else
    modify fun H => { H with nodes := none }
    return -1

/-- The walk along a chain for a node with the key: the node and the chain behind it. -/
def findNode (key : CString) : List HashNode → Except Fault (Option (HashNode × List HashNode))
  | [] => return none
  | node :: next => do
      if (← strcmp (node.keyMem next) key.mem) = 0 then return some (node, next)
      else findNode key next

/-- `put_kv_hashtable` once it has the chain of its slot. -/
def putIntoChain (alloc : Bool) (idx : Int) (key value : CString) (chain : List HashNode) :
    Prog Hashtable Int := do
  match ← liftE (findNode key chain) with
  | some _ =>
      mutexUnlock
      return 1
  | none =>
      match createHashNode alloc key value with
      | none => fault .nullDeref
      | some newNode =>
          setHashChain idx (newNode :: chain)
          modify fun H => { H with count := H.count + 1 }
          mutexUnlock
          return 0

/-- `put_kv_hashtable`, given whether its `malloc` succeeds. -/
def putKvHashtable (alloc : Bool) (key value : Option CString) : Prog Hashtable Int := do
  match key, value with
  | some key, some value =>
      let idx ← liftE (hash (some key) maxTableSize)
      mutexLock
      let chain ← hashChain idx
      putIntoChain alloc idx key value chain
  | _, _ => return -1

/-- `get_kv_hashtable`: the memory at the value of the node with the key. -/
def getKvHashtable (key : Option CString) : Prog Hashtable (Option (List Byte)) := do
  match key with
  | none => return none
  | some key =>
      let idx ← liftE (hash (some key) maxTableSize)
      mutexLock
      let chain ← hashChain idx
      let found ← liftE (findNode key chain)
      mutexUnlock
      return found.map fun (node, next) => node.valueMem next

def countKvHashtable : Prog Hashtable Int := do return (← get).count

/-- The chain behind a node after unlinking the first node with the key in it. -/
def unlinkNode (key : CString) : List HashNode → Except Fault (Option (List HashNode))
  | [] => return none
  | node :: next => do
      if (← strcmp (node.keyMem next) key.mem) = 0 then return some next
      else return (← unlinkNode key next).map (node :: ·)

/-- The statements that end both branches of `delete_kv_hashtable` that unlink a node. -/
def deleteEnd (idx : Int) (chain : List HashNode) : Prog Hashtable Int := do
  setHashChain idx chain
  modify fun H => { H with count := H.count - 1 }
  mutexUnlock
  return 0

/--
`delete_kv_hashtable` once it has the chain of its slot; the return for an empty chain
leaves the mutex locked.
-/
def deleteFromChain (idx : Int) (key : CString) : List HashNode → Prog Hashtable Int
  | [] => return -1
  | head :: next => do
      if (← liftE (strcmp (head.keyMem next) key.mem)) = 0 then deleteEnd idx next
      else
        match ← liftE (unlinkNode key next) with
        | none =>
            mutexUnlock
            return -1
        | some next => deleteEnd idx (head :: next)

def deleteKvHashtable (key : Option CString) : Prog Hashtable Int := do
  match key with
  | none => return -2
  | some key =>
      let idx ← liftE (hash (some key) maxTableSize)
      mutexLock
      let chain ← hashChain idx
      deleteFromChain idx key chain

def existKvHashtable (key : Option CString) : Prog Hashtable Int := do
  return if (← getKvHashtable key).isSome then 1 else 0

/-- One call of the engine, with every `malloc` succeeding. -/
def hashCall : Call → Prog Hashtable Answer
  | .put k v => Answer.int <$> putKvHashtable true (some k) (some v)
  | .get k => do readAnswer (← getKvHashtable (some k))
  | .count => Answer.int <$> countKvHashtable
  | .exist k => Answer.int <$> existKvHashtable (some k)
  | .delete k => Answer.int <$> deleteKvHashtable (some k)

/-- A table whose slots are all null, with the mutex `m`. -/
def Hashtable.fresh (m : Mutex) : Hashtable :=
  ⟨some (Vector.replicate maxTableSize []), maxTableSize, 0, m⟩

end KvStore
