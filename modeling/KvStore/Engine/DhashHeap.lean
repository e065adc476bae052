/-
The second chained hash engine with its pointers (dhash.c).

In `Engine/Dhash.lean` a chain is a list.  Here the nodes are objects of their own that point to
each other and to the copies of their strings, the table has pointers to the first ones, and
`delete_kv_dhashtable` goes along with a pointer to the pointer that it will have to change.  So
it can be said what is allocated, and what is given back.
-/
import KvStore.Base.Slots
import KvStore.Engine.Dhash

namespace KvStore

/-- `kv_node`, as it lies in memory -/
structure KvCell where
  key : Ptr
  value : Ptr
  next : Ptr
  deriving DecidableEq

/-- `dhash_table`, with its `kv_node **table`, and what the engine has allocated. -/
structure DhashHeap where
  table : SlotArray dhashTableSize
  nodes : Mem KvCell
  strings : Mem CString

instance : HasMem DhashHeap KvCell where
  mem := DhashHeap.nodes
  withMem H m := { H with nodes := m }
  mem_withMem _ _ := rfl

instance : HasSlots DhashHeap dhashTableSize where
  slots := DhashHeap.table
  withSlots H a := { H with table := a }
  slots_withSlots _ _ := rfl

namespace DhashHeap

/-- Before `init_dhashtable`. -/
def static : DhashHeap := ⟨.null, Mem.empty, Mem.empty⟩

/-- No loop of the engine visits more nodes than were ever allocated. -/
def fuel (H : DhashHeap) : Nat := H.nodes.next + 1

/-! ### Access -/

/-- The string that a pointer points to. -/
def readString (p : Ptr) : Prog DhashHeap CString := do
  liftE ((← get).strings.read p)

/-- `strdup`, given whether it succeeds. -/
def strdup (ok : Bool) (s : CString) : Prog DhashHeap Ptr := do
  if ok then
    let H ← get
    set { H with strings := H.strings.alloc s }
    return H.strings.next
  else return 0

/-- `free` of a string; of a null pointer it does nothing. -/
def freeString (p : Ptr) : Prog DhashHeap Unit := do
  if p = 0 then return ()
  else
    let _ ← readString p
    modify fun H => { H with strings := H.strings.release p }

/-! ### The table -/

/-- `init_dhashtable`, given whether its `malloc` succeeds. -/
def initDhashtable (alloc : Bool) : Prog DhashHeap Int := do
  if alloc then
    modify fun H => { H with table := .allocated (Vector.replicate dhashTableSize 0) }
    return 0
  else
    modify fun H => { H with table := .null }
    return -1

/-- The body of the loop of `dest_dhashtable` along a chain. -/
def destDhashtableStep (node : Ptr) : Prog DhashHeap (Ptr ⊕ Unit) := do
  if node ≠ 0 then
    let temp ← deref node
    freeString temp.key
    freeString temp.value
    free node
    return .inl temp.next
  else return .inr ()

/-- The outer loop of `dest_dhashtable`, for `n` slots from `i`. -/
def destDhashtableSlots : Nat → Nat → Prog DhashHeap Unit
  | 0, _ => return ()
  | n + 1, i => do
      let node ← getSlot i
      loop destDhashtableStep (← get).fuel node
      destDhashtableSlots n (i + 1)

def destDhashtable : Prog DhashHeap Unit := do
  destDhashtableSlots dhashTableSize 0
  freeSlots

/-! ### Calls -/

/--
`put_kv_dhashtable`, given which of its three allocations succeed.  The other string is kept
when the copy of one fails, and nobody knows it any more.
-/
def putKvDhashtable (allocNode allocKey allocValue : Bool) (key value : Option CString) :
    Prog DhashHeap Int := do
  let key ← derefString key
  let index := hashFunction key
  let newNode ← malloc allocNode (⟨0, 0, 0⟩ : KvCell)
  if newNode = 0 then return -1
  else
    let copy ← strdup allocKey key
    assign newNode fun c => { c with key := copy }
    let value ← derefString value
    let copy' ← strdup allocValue value
    assign newNode fun c => { c with value := copy' }
    if copy = 0 ∨ copy' = 0 then
      free newNode
      return -1
    else
      let head ← getSlot index.toNat
      assign newNode fun c => { c with next := head }
      setSlot index.toNat newNode
      return 0

/-- The body of the loop along a chain for the first node with the key. -/
def findStep (key : CString) (node : Ptr) : Prog DhashHeap (Ptr ⊕ Ptr) := do
  if node ≠ 0 then
    let c ← deref node
    let s ← readString c.key
    if (← liftE (strcmp s.mem key.mem)) = 0 then return .inr node else return .inl c.next
  else return .inr 0

/-- The loops of `get_kv_dhashtable` and `exist_kv_dhashtable`: the node with the key, or null. -/
def find (key : CString) : Prog DhashHeap Ptr := do
  let node ← getSlot (hashFunction key).toNat
  loop (findStep key) (← get).fuel node

/-- `get_kv_dhashtable`: the pointer to the value. -/
def getKvDhashtable (key : Option CString) : Prog DhashHeap Ptr := do
  let key ← derefString key
  let node ← find key
  if node = 0 then return 0 else return (← deref node).value

def existKvDhashtable (key : Option CString) : Prog DhashHeap Int := do
  let key ← derefString key
  return if (← find key) = 0 then 0 else 1

def countStep : Ptr × Int → Prog DhashHeap ((Ptr × Int) ⊕ Int)
  | (node, count) => do
      if node ≠ 0 then return .inl ((← deref node).next, count + 1) else return .inr count

/-- The outer loop of `count_kv_dhashtable`, for `n` slots from `i`. -/
def countSlots : Nat → Nat → Int → Prog DhashHeap Int
  | 0, _, count => return count
  | n + 1, i, count => do
      let node ← getSlot i
      let count ← loop countStep (← get).fuel (node, count)
      countSlots n (i + 1) count

def countKvDhashtable : Prog DhashHeap Int := countSlots dhashTableSize 0 0

/-- What `indirect` points to: a slot of the table, or the `next` of a node. -/
inductive Indirect
  | slot (i : Nat)
  | next (node : Ptr)

/-- `*indirect = p` -/
def Indirect.store (p : Ptr) : Indirect → Prog DhashHeap Unit
  | .slot i => setSlot i p
  | .next node => assign node fun c => { c with next := p }

/-- The body of the loop of `delete_kv_dhashtable`, with `indirect` and `current`. -/
def deleteStep (key : CString) :
    Indirect × Ptr → Prog DhashHeap ((Indirect × Ptr) ⊕ (Indirect × Ptr))
  | (indirect, current) => do
      if current ≠ 0 then
        let c ← deref current
        let s ← readString c.key
        if (← liftE (strcmp s.mem key.mem)) ≠ 0 then return .inl (.next current, c.next)
        else return .inr (indirect, current)
      else return .inr (indirect, current)

def deleteKvDhashtable (key : Option CString) : Prog DhashHeap Int := do
  let key ← derefString key
  let index := (hashFunction key).toNat
  let current ← getSlot index
  let (indirect, current) ← loop (deleteStep key) (← get).fuel (.slot index, current)
  if current = 0 then return -1
  else
    indirect.store (← deref current).next
    freeString (← deref current).key
    freeString (← deref current).value
    free current
    return 0

end DhashHeap

/-- A call of the engine, with the allocations that succeed. -/
inductive DhashOp
  | put (allocNode allocKey allocValue : Bool) (key value : CString)
  | get (key : CString)
  | count
  | exist (key : CString)
  | delete (key : CString)
  deriving DecidableEq

/-- The call on the pointers; a value is read where the pointer points. -/
def DhashHeap.op : DhashOp → Prog DhashHeap Answer
  | .put a b c k v => Answer.int <$> DhashHeap.putKvDhashtable a b c (some k) (some v)
  | .get k => do
      let p ← DhashHeap.getKvDhashtable (some k)
      if p = 0 then return .str none else return .str (some (← DhashHeap.readString p))
  | .count => Answer.int <$> DhashHeap.countKvDhashtable
  | .exist k => Answer.int <$> DhashHeap.existKvDhashtable (some k)
  | .delete k => Answer.int <$> DhashHeap.deleteKvDhashtable (some k)

/-- The call on the lists. -/
def DhashTable.op : DhashOp → Prog DhashTable Answer
  | .put a b c k v => Answer.int <$> KvStore.putKvDhashtable a b c (some k) (some v)
  | .get k => Answer.str <$> KvStore.getKvDhashtable (some k)
  | .count => Answer.int <$> KvStore.countKvDhashtable
  | .exist k => Answer.int <$> KvStore.existKvDhashtable (some k)
  | .delete k => Answer.int <$> KvStore.deleteKvDhashtable (some k)

end KvStore
