/-
The skip list engine (skiptable.c, built with `KEYTYPE_ENABLE` 1).

Every node has a tower of forward pointers, one for each of the levels it is linked
on; the header has all six.  A tower is a list, and an index outside it faults.  The
`update` array is uninitialised until the descent has assigned it, and reading an
entry that was not assigned faults as well.

What `rand` returns is not the program's choice: the state carries the infinite
sequence of the results still to come.
-/
import KvStore.Base.Memory
import KvStore.Base.Mutex
import KvStore.Engine.Call

namespace KvStore

/-- `MAX_LEVEL` -/
def maxLevel : Nat := 6

structure SkNode where
  key : CharBuf maxKeyLen
  value : CharBuf maxValueLen
  forward : List Ptr

/-- The memory a pointer to the `value` field points to; a tower's address follows. -/
def SkNode.valueMem (nd : SkNode) : List Byte := nd.value.val

/-- The memory a pointer to the `key` field points to. -/
def SkNode.keyMem (nd : SkNode) : List Byte := nd.key.val ++ nd.value.val

structure SkipList where
  level : Nat
  header : Ptr
  nbElements : Int
  lock : Mutex
  mem : Mem SkNode
  /-- the results of `rand` still to come -/
  rand : Nat → Nat

instance : HasMem SkipList SkNode where
  mem := SkipList.mem
  withMem S m := { S with mem := m }
  mem_withMem _ _ := rfl

instance : HasMutex SkipList where
  mutex := SkipList.lock
  withMutex S m := { S with lock := m }
  mutex_withMutex _ _ := rfl

/-- A static variable before `init_skiptable`, with the results `rand` will give. -/
def SkipList.static (rand : Nat → Nat) : SkipList where
  level := 0
  header := 0
  nbElements := 0
  lock := .free
  mem := .empty
  rand := rand

/-- No walk visits more nodes than were ever allocated. -/
def SkipList.fuel (S : SkipList) : Nat := S.mem.next + 1

/-- `rand()` -/
def nextRand : Prog SkipList Nat := do
  let S ← get
  set { S with rand := fun n => S.rand (n + 1) }
  return S.rand 0

/-- `p->forward[i]` -/
def getForward (p : Ptr) (i : Nat) : Prog SkipList Ptr := do
  match (← deref p).forward[i]? with
  | some q => return q
  | none => fault .outOfBounds

/-- `p->forward[i] = q` -/
def setForward (p : Ptr) (i : Nat) (q : Ptr) : Prog SkipList Unit := do
  let nd ← deref p
  if i < nd.forward.length then assign p fun nd => { nd with forward := nd.forward.set i q }
  else fault .outOfBounds

/-- `strcmp(p->key, key)`; the key is dereferenced only here. -/
def compareNode (p : Ptr) (key : Option CString) : Prog SkipList Int := do
  let nd ← deref p
  match key with
  | none => fault .nullDeref
  | some key => liftE (strcmp nd.keyMem key.mem)

/-- `createNode`, given whether its two allocations succeed; 0 is `NULL`. -/
def createNode (allocNode allocForward : Bool) (key value : CString) (level : Nat) :
    Prog SkipList Ptr := do
  let node ← malloc allocNode
    (⟨strncpy maxKeyLen key.bytes, strncpy maxValueLen value.bytes, []⟩ : SkNode)
  if node = 0 then return 0
  else if allocForward then
    assign node fun nd => { nd with forward := List.replicate level 0 }
    return node
  else
    free node
    return 0

/-- `while (p->forward[i] != NULL && strcmp(p->forward[i]->key, key) < 0) p = p->forward[i];` -/
def walkStep (key : Option CString) (i : Nat) (p : Ptr) : Prog SkipList (Ptr ⊕ Ptr) := do
  let q ← getForward p i
  if q ≠ 0 then
    if (← compareNode q key) < 0 then return .inl q else return .inr p
  else return .inr p

def walk (key : Option CString) (i : Nat) (p : Ptr) : Prog SkipList Ptr := do
  loop (walkStep key i) (← get).fuel p

/--
`for (i = n - 1; i >= 0; --i)` with the walk above as its body, then `visit`: the
descent that `insert`, `find` and `delete` contain.
-/
def descend {α : Type} (visit : Nat → Ptr → α → Prog SkipList α) (key : Option CString) :
    Nat → Ptr → α → Prog SkipList (Ptr × α)
  | 0, p, a => return (p, a)
  | i + 1, p, a => do
      let p ← walk key i p
      let a ← visit i p a
      descend visit key i p a

/-- The array `Node *update[MAX_LEVEL]`, whose entries start out unassigned. -/
abbrev Update := Vector (Option Ptr) maxLevel

def Update.blank : Update := Vector.replicate maxLevel none

/-- `update[i] = p` -/
def setUpdate (i : Nat) (p : Ptr) (update : Update) : Prog SkipList Update :=
  if h : i < maxLevel then pure (update.set i (some p)) else fault .outOfBounds

/-- `update[i]` -/
def getUpdate (update : Update) (i : Nat) : Prog SkipList Ptr :=
  if h : i < maxLevel then
    match update[i] with
    | some p => pure p
    | none => fault .uninitialised
  else fault .outOfBounds

/-- `p->forward[0] != NULL && strcmp(p->forward[0]->key, key) == 0` -/
def nextIs (p : Ptr) (key : Option CString) : Prog SkipList Bool := do
  let q ← getForward p 0
  if q ≠ 0 then return (← compareNode q key) = 0 else return false

/-- The body of `while (rand() % 2 && level < MAX_LEVEL) ++level;` -/
def randomLevelStep (level : Nat) : Prog SkipList (Nat ⊕ Nat) := do
  let r ← nextRand
  if r % 2 ≠ 0 ∧ level < maxLevel then return .inl (level + 1) else return .inr level

/-- The random height of a new tower. -/
def randomLevel : Prog SkipList Nat := loop randomLevelStep (maxLevel + 1) 1

/-- `for (i = list->level; i < level; ++i) update[i] = list->header;`, for `n` levels from `i`. -/
def raiseUpdate : Nat → Nat → Update → Prog SkipList Update
  | 0, _, update => return update
  | n + 1, i, update => do
      let update ← setUpdate i (← get).header update
      raiseUpdate n (i + 1) update

/-- `if (level > list->level) { ... list->level = level; }` -/
def raiseLevel (level : Nat) (update : Update) : Prog SkipList Update := do
  let S ← get
  if level > S.level then
    let update ← raiseUpdate (level - S.level) S.level update
    modify fun S => { S with level := level }
    return update
  else return update

/-- The loop that links the new node, for `n` levels from `i`. -/
def linkNode (node : Ptr) (update : Update) : Nat → Nat → Prog SkipList Unit
  | 0, _ => return ()
  | n + 1, i => do
      let u ← getUpdate update i
      setForward node i (← getForward u i)
      setForward u i node
      linkNode node update n (i + 1)

/-- The `else` branch of `insert`: a new node behind the nodes of `update`. -/
def insertNew (allocNode allocForward : Bool) (key value : CString) (update : Update) :
    Prog SkipList Unit := do
  let level ← randomLevel
  let node ← createNode allocNode allocForward key value level
  let update ← raiseLevel level update
  linkNode node update level 0

/-- `insert`, given whether the allocations of `createNode` succeed. -/
def SkipList.insert (allocNode allocForward : Bool) (key value : CString) : Prog SkipList Unit := do
  let S ← get
  let (p, update) ← descend setUpdate (some key) S.level S.header Update.blank
  if ← nextIs p (some key) then
    let q ← getForward p 0
    assign q fun nd => { nd with value := strncpy maxValueLen value.bytes }
  else insertNew allocNode allocForward key value update

/-- `find`: the memory at the value of the node found. -/
def SkipList.find (key : Option CString) : Prog SkipList (Option (List Byte)) := do
  let S ← get
  let (p, _) ← descend (fun _ _ _ => pure ()) key S.level S.header ()
  if ← nextIs p key then return some (← deref (← getForward p 0)).valueMem
  else return none

/-- The body of the loop that unlinks a node from level `i`. -/
def unlinkLevel (node : Ptr) (update : Update) (i : Nat) : Prog SkipList Unit := do
  let u ← getUpdate update i
  let q ← getForward u i
  whenever (q = node) (do setForward u i (← getForward node i))

/-- The loop that unlinks a node, for `n` levels from `i`. -/
def unlinkLevels (node : Ptr) (update : Update) : Nat → Nat → Prog SkipList Unit
  | 0, _ => return ()
  | n + 1, i => do
      unlinkLevel node update i
      unlinkLevels node update n (i + 1)

/-- `delete` -/
def SkipList.delete (key : Option CString) : Prog SkipList Unit := do
  let S ← get
  let (p, update) ← descend setUpdate key S.level S.header Update.blank
  if ← nextIs p key then
    let node ← getForward p 0
    unlinkLevels node update S.level 0
    free node
  else return ()

/-! ### Deleting by a key in memory

`dest_skiptable` calls `delete` with a pointer to the key of a node of the list, the one that
the call is going to free.  Every comparison then reads the key from that node.  `delete`
looks at the key in comparisons only, so the functions are written here over these; with a
key of the caller's own they are the ones above (`delete_eq`).
-/

section Compare

variable (compare : Ptr → Prog SkipList Int)

def walkStepBy (i : Nat) (p : Ptr) : Prog SkipList (Ptr ⊕ Ptr) := do
  let q ← getForward p i
  if q ≠ 0 then
    if (← compare q) < 0 then return .inl q else return .inr p
  else return .inr p

def walkBy (i : Nat) (p : Ptr) : Prog SkipList Ptr := do
  loop (walkStepBy compare i) (← get).fuel p

def descendBy {α : Type} (visit : Nat → Ptr → α → Prog SkipList α) :
    Nat → Ptr → α → Prog SkipList (Ptr × α)
  | 0, p, a => return (p, a)
  | i + 1, p, a => do
      let p ← walkBy compare i p
      let a ← visit i p a
      descendBy visit i p a

def nextIsBy (p : Ptr) : Prog SkipList Bool := do
  let q ← getForward p 0
  if q ≠ 0 then return (← compare q) = 0 else return false

def SkipList.deleteBy : Prog SkipList Unit := do
  let S ← get
  let (p, update) ← descendBy compare setUpdate S.level S.header Update.blank
  if ← nextIsBy compare p then
    let node ← getForward p 0
    unlinkLevels node update S.level 0
    free node
  else return ()

end Compare

theorem descend_eq {α : Type} (visit : Nat → Ptr → α → Prog SkipList α) (key : Option CString)
    (n : Nat) (p : Ptr) (a : α) :
    descend visit key n p a = descendBy (fun q => compareNode q key) visit n p a := by
  induction n generalizing p a with
  | zero => rfl
  | succ i ih =>
      unfold descend descendBy
      simp only [ih]
      rfl

theorem delete_eq (key : Option CString) :
    SkipList.delete key = SkipList.deleteBy (fun q => compareNode q key) := by
  unfold SkipList.delete SkipList.deleteBy
  simp only [descend_eq]
  rfl

/-- `strcmp(p->key, current->key)` -/
def compareNodes (current p : Ptr) : Prog SkipList Int := do
  let nd ← deref p
  let cur ← deref current
  liftE (strcmp nd.keyMem cur.keyMem)

/-- `delete(table, current->key)` -/
def SkipList.deleteNode (current : Ptr) : Prog SkipList Unit :=
  SkipList.deleteBy (compareNodes current)

/-! ### Calls -/

/--
`init_skiptable`, given whether the allocations of `createNode` succeed and the mutex
that `pthread_mutex_init` leaves; the counter is not touched.
-/
def initSkiptable (allocNode allocForward : Bool) (m : Mutex) : Prog SkipList Int := do
  modify fun S => { S with level := 1 }
  let header ← createNode allocNode allocForward CString.empty CString.empty maxLevel
  modify fun S => { S with header := header, lock := m }
  return 0

/-- `put_kv_skiptable`, given whether the allocations of `createNode` succeed. -/
def putKvSkiptable (allocNode allocForward : Bool) (key value : Option CString) :
    Prog SkipList Int := do
  match key, value with
  | some key, some value =>
      mutexLock
      SkipList.insert allocNode allocForward key value
      modify fun S => { S with nbElements := S.nbElements + 1 }
      mutexUnlock
      return 0
  | _, _ => return -1

def getKvSkiptable (key : Option CString) : Prog SkipList (Option (List Byte)) := do
  match key with
  | none => return none
  | some key => SkipList.find (some key)

def countKvSkiptable : Prog SkipList Int := do return (← get).nbElements

/-- `delete_kv_skiptable`, which does not use the mutex. -/
def deleteKvSkiptable (key : Option CString) : Prog SkipList Int := do
  match ← SkipList.find key with
  | none => return -1
  | some _ =>
      SkipList.delete key
      modify fun S => { S with nbElements := S.nbElements - 1 }
      return 0

def existKvSkiptable (key : Option CString) : Prog SkipList Int := do
  match ← SkipList.find key with
  | none => return 0
  | some _ => return 1

/--
The body of the inner loop of `dest_skiptable` on level `i`.  The list, which the source does
not have, records for which nodes `delete` was called.
-/
def destSkiptableStep (i : Nat) : Ptr × List Ptr → Prog SkipList ((Ptr × List Ptr) ⊕ List Ptr)
  | (current, deleted) => do
      if current ≠ 0 then
        let next ← getForward current i
        mutexLock
        SkipList.deleteNode current
        mutexUnlock
        return .inl (next, deleted ++ [current])
      else return .inr deleted

/-- `for (int i = n - 1; i >= 0; --i)` with that loop as its body. -/
def destSkiptableLevels : Nat → List Ptr → Prog SkipList (List Ptr)
  | 0, deleted => return deleted
  | i + 1, deleted => do
      let S ← get
      let current ← getForward S.header i
      let deleted ← loop (destSkiptableStep i) S.fuel (current, deleted)
      destSkiptableLevels i deleted

/-- The loops of `dest_skiptable`, up to the final calls of `free`. -/
def destSkiptableLoops : Prog SkipList (List Ptr) := do
  destSkiptableLevels (← get).level []

/-- A call of put, with the allocations that succeed, or of delete. -/
inductive TableOp
  | put (allocNode allocForward : Bool) (key value : CString)
  | delete (key : CString)
  deriving DecidableEq

/-- Run one such call. -/
def tableOp : TableOp → Prog SkipList Int
  | .put allocNode allocForward k v => putKvSkiptable allocNode allocForward (some k) (some v)
  | .delete k => deleteKvSkiptable (some k)

/-- The key fits a key field with its terminator. -/
def TableOp.KeyFitting : TableOp → Prop
  | .put _ _ k _ | .delete k => KeyFits k

instance : DecidablePred TableOp.KeyFitting
  | .put _ _ k _ | .delete k => inferInstanceAs (Decidable (KvStore.KeyFits k))

/-- One call of the engine, with every allocation succeeding. -/
def skiptableCall : Call → Prog SkipList Answer
  | .put k v => Answer.int <$> putKvSkiptable true true (some k) (some v)
  | .get k => do readAnswer (← getKvSkiptable (some k))
  | .count => Answer.int <$> countKvSkiptable
  | .exist k => Answer.int <$> existKvSkiptable (some k)
  | .delete k => Answer.int <$> deleteKvSkiptable (some k)

end KvStore
