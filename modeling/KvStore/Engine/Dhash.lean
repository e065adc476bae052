/-
The second chained hash engine (dhash.c).

A table of 100 chains of nodes that own copies of their key and value.  A `put` always
pushes a node at the head of its chain.  A chain is the list of its nodes: the walks
of the source are recursions over it, and the pointer to pointer of the deletion is
the place in the recursion.
-/
import KvStore.Engine.Call

namespace KvStore

/-- `TABLE_SIZE` -/
def dhashTableSize : Nat := 100

structure KvNode where
  key : CString
  value : CString
  deriving DecidableEq

/-- `dhash_table`; `none` is a null `table`, as before `init_dhashtable`. -/
structure DhashTable where
  table : Option (Vector (List KvNode) dhashTableSize)

/-- A `char`, which is signed, converted to `unsigned int`. -/
def unsignedOfChar (c : Byte) : UInt32 := c.toInt8.toInt32.toUInt32

/-- `hash_function` -/
def hashFunction (key : CString) : UInt32 :=
  key.bytes.foldl (fun (dhash : UInt32) c => ((dhash <<< 5) + dhash) + unsignedOfChar c) 5381 % 100

/-- `dhash->table[i]` -/
def dhashChain (i : Nat) : Prog DhashTable (List KvNode) := do
  match (← get).table with
  | none => fault .nullDeref
  | some t => if h : i < dhashTableSize then return t[i] else fault .outOfBounds

/-- `dhash->table[i] = chain` -/
def setDhashChain (i : Nat) (chain : List KvNode) : Prog DhashTable Unit := do
  match (← get).table with
  | none => fault .nullDeref
  | some t =>
      if h : i < dhashTableSize then set (⟨some (t.set i chain)⟩ : DhashTable)
      else fault .outOfBounds

/-- The table `init_dhashtable` leaves. -/
def DhashTable.fresh : DhashTable := ⟨some (Vector.replicate dhashTableSize [])⟩

/-- `init_dhashtable`, given whether its `malloc` succeeds. -/
def initDhashtable (alloc : Bool) : Prog DhashTable Int := do
  if alloc then
    set DhashTable.fresh
    return 0
  else
    set (⟨none⟩ : DhashTable)
    return -1

/-- A `char *` argument that is dereferenced. -/
def derefString {σ : Type} (s : Option CString) : Prog σ CString :=
  match s with
  | none => fault .nullDeref
  | some s => pure s

/-- `put_kv_dhashtable`, given which of its three allocations succeed. -/
def putKvDhashtable (allocNode allocKey allocValue : Bool) (key value : Option CString) :
    Prog DhashTable Int := do
  let key ← derefString key
  let index := hashFunction key
  if allocNode = false then return -1
  else
    let value ← derefString value
    if allocKey = false ∨ allocValue = false then return -1
    else
      let chain ← dhashChain index.toNat
      setDhashChain index.toNat (⟨key, value⟩ :: chain)
      return 0

/-- The walk along a chain for the first node with the key. -/
def findKv (key : CString) : List KvNode → Except Fault (Option KvNode)
  | [] => return none
  | node :: next => do
      if (← strcmp node.key.mem key.mem) = 0 then return some node else findKv key next

def getKvDhashtable (key : Option CString) : Prog DhashTable (Option CString) := do
  let key ← derefString key
  let chain ← dhashChain (hashFunction key).toNat
  return (← liftE (findKv key chain)).map KvNode.value

/-- `count_kv_dhashtable`: two nested loops over the table. -/
def countKvDhashtable : Prog DhashTable Int := do
  match (← get).table with
  | none => fault .nullDeref
  | some t => return t.toList.foldl (fun count chain => chain.foldl (fun c _ => c + 1) count) 0

/-- The chain after unlinking the first node with the key, if there is one. -/
def unlinkKv (key : CString) : List KvNode → Except Fault (Option (List KvNode))
  | [] => return none
  | current :: next => do
      if (← strcmp current.key.mem key.mem) ≠ 0 then
        return (← unlinkKv key next).map (current :: ·)
      else return some next

def deleteKvDhashtable (key : Option CString) : Prog DhashTable Int := do
  let key ← derefString key
  let chain ← dhashChain (hashFunction key).toNat
  match ← liftE (unlinkKv key chain) with
  | none => return -1
  | some chain =>
      setDhashChain (hashFunction key).toNat chain
      return 0

def existKvDhashtable (key : Option CString) : Prog DhashTable Int := do
  let key ← derefString key
  let chain ← dhashChain (hashFunction key).toNat
  return if (← liftE (findKv key chain)).isSome then 1 else 0

/-- One call of the engine, with every allocation succeeding. -/
def dhashCall : Call → Prog DhashTable Answer
  | .put k v => Answer.int <$> putKvDhashtable true true true (some k) (some v)
  | .get k => Answer.str <$> getKvDhashtable (some k)
  | .count => Answer.int <$> countKvDhashtable
  | .exist k => Answer.int <$> existKvDhashtable (some k)
  | .delete k => Answer.int <$> deleteKvDhashtable (some k)

end KvStore
