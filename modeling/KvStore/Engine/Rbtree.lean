/-
The red-black tree engine (rbtree.c).

The tree is a graph of nodes in memory, linked by left, right and parent pointers
and closed by one shared sentinel `nil`.  The functions below follow the C code
statement by statement; every `->` is a `deref` or an `assign`, so an access
through a null or a freed pointer faults.

`rbtree_left_rotate` and `rbtree_right_rotate`, and the two halves of each fix-up
loop, are mirror images in the source.  Each pair is one definition with the side
as a parameter.
-/
import KvStore.Base.CString
import KvStore.Base.Memory
import KvStore.Base.Mutex
import KvStore.Base.RedBlack
import KvStore.Engine.Call

namespace KvStore

def RED : UInt8 := 1

def BLACK : UInt8 := 2

structure RbNode where
  color : UInt8
  right : Ptr
  left : Ptr
  parent : Ptr
  key : CharBuf maxKeyLen
  value : CharBuf maxValueLen

namespace RbNode

/-- A node after `memset(node, 0, sizeof(rbtree_node))`. -/
def zero : RbNode where
  color := 0
  right := 0
  left := 0
  parent := 0
  key := zeroBuf maxKeyLen
  value := zeroBuf maxValueLen

/-- The memory a pointer to the `key` field points to: `value` follows in the struct. -/
def keyMem (nd : RbNode) : List Byte := nd.key.val ++ nd.value.val

/-- The memory a pointer to the `value` field points to: it is the last field. -/
def valueMem (nd : RbNode) : List Byte := nd.value.val

def child (d : Dir) (nd : RbNode) : Ptr :=
  match d with
  | .left => nd.left
  | .right => nd.right

def setChild (d : Dir) (p : Ptr) (nd : RbNode) : RbNode :=
  match d with
  | .left => { nd with left := p }
  | .right => { nd with right := p }

def setParent (p : Ptr) (nd : RbNode) : RbNode := { nd with parent := p }

def setColor (c : UInt8) (nd : RbNode) : RbNode := { nd with color := c }

end RbNode

structure Rbtree where
  root : Ptr
  nil : Ptr
  lock : Mutex
  nbElements : Int
  mem : Mem RbNode

instance : HasMem Rbtree RbNode where
  mem := Rbtree.mem
  withMem T m := { T with mem := m }
  mem_withMem _ _ := rfl

instance : HasMutex Rbtree where
  mutex := Rbtree.lock
  withMutex T m := { T with lock := m }
  mutex_withMutex _ _ := rfl

/-- A static variable before `init_rbtree`: all zero, and nothing allocated. -/
def Rbtree.static : Rbtree where
  root := 0
  nil := 0
  lock := .free
  nbElements := 0
  mem := .empty

/-- No loop of the engine visits more nodes than were ever allocated. -/
def Rbtree.fuel (T : Rbtree) : Nat := T.mem.next + 1

/-- `p->left` or `p->right` -/
def getChild (d : Dir) (p : Ptr) : Prog Rbtree Ptr := do return (← deref p).child d

/-- `p->parent` -/
def getParent (p : Ptr) : Prog Rbtree Ptr := do return (← deref p).parent

/-- `p->color` -/
def getColor (p : Ptr) : Prog Rbtree UInt8 := do return (← deref p).color

/-- `strcmp` of a string with `p->key` -/
def compareKey (s : List Byte) (p : Ptr) : Prog Rbtree Int := do
  liftE (strcmp s (← deref p).keyMem)

/-- `while (x->left != T->nil) x = x->left;` -/
def rbtreeMiniStep (x : Ptr) : Prog Rbtree (Ptr ⊕ Ptr) := do
  let T ← get
  let l ← getChild .left x
  if l ≠ T.nil then pure (.inl l) else pure (.inr x)

def rbtreeMini (x : Ptr) : Prog Rbtree Ptr := do
  loop rbtreeMiniStep (← get).fuel x

/-- `while ((y != T->nil) && (x == y->right)) { x = y; y = y->parent; }` -/
def rbtreeSuccessorStep : Ptr × Ptr → Prog Rbtree ((Ptr × Ptr) ⊕ Ptr)
  | (x, y) => do
      let T ← get
      if y ≠ T.nil then
        let yr ← getChild .right y
        if x = yr then return .inl (y, ← getParent y) else return .inr y
      else return .inr y

def rbtreeSuccessor (x : Ptr) : Prog Rbtree Ptr := do
  let T ← get
  let y ← getParent x
  let xr ← getChild .right x
  if xr ≠ T.nil then rbtreeMini xr
  else loop rbtreeSuccessorStep T.fuel (x, y)

/--
Make `y` the child of `xp` in the place of `x`, or the root: the if-chain both
rotations and `rbtree_delete` contain, which looks at the `d` child first.
-/
def rbtreeRelink (d : Dir) (xp x y : Ptr) : Prog Rbtree Unit := do
  let T ← get
  if xp = T.nil then modify fun T => { T with root := y }
  else
    let xpc ← getChild d xp
    if x = xpc then assign xp (RbNode.setChild d y) else assign xp (RbNode.setChild d.flip y)

/-- The rotation that moves `x` to its `d` side; `d = left` is the left rotation. -/
def rbtreeRotate (d : Dir) (x : Ptr) : Prog Rbtree Unit := do
  let T ← get
  let y ← getChild d.flip x
  let b ← getChild d y
  assign x (RbNode.setChild d.flip b)
  whenever (b ≠ T.nil) (assign b (RbNode.setParent x))
  let xp ← getParent x
  assign y (RbNode.setParent xp)
  rbtreeRelink d xp x y
  assign y (RbNode.setChild d x)
  assign x (RbNode.setParent y)

def rbtreeLeftRotate (x : Ptr) : Prog Rbtree Unit := rbtreeRotate .left x

def rbtreeRightRotate (y : Ptr) : Prog Rbtree Unit := rbtreeRotate .right y

/-- The inner `if` of an iteration: `z` is turned into an outer grandchild. -/
def rbtreeInsertFixupOuter (d : Dir) (z p : Ptr) : Prog Rbtree Ptr := do
  let pc ← getChild d.flip p
  if z = pc then do
    rbtreeRotate d p
    return p
  else return z

/-- One iteration of `rbtree_insert_fixup` whose parent `p` is the `d` child of `g`. -/
def rbtreeInsertFixupHalf (d : Dir) (z p g : Ptr) : Prog Rbtree Ptr := do
  let y ← getChild d.flip g
  let yc ← getColor y
  if yc = RED then
    assign p (RbNode.setColor BLACK)
    assign y (RbNode.setColor BLACK)
    assign g (RbNode.setColor RED)
    return g
  else
    let z ← rbtreeInsertFixupOuter d z p
    let p ← getParent z
    assign p (RbNode.setColor BLACK)
    let g ← getParent p
    assign g (RbNode.setColor RED)
    rbtreeRotate d.flip g
    return z

/-- The body of `while (z->parent->color == RED)`. -/
def rbtreeInsertFixupStep (z : Ptr) : Prog Rbtree (Ptr ⊕ Unit) := do
  let p ← getParent z
  let pc ← getColor p
  if pc = RED then
    let g ← getParent p
    let gl ← getChild .left g
    if p = gl then return .inl (← rbtreeInsertFixupHalf .left z p g)
    else return .inl (← rbtreeInsertFixupHalf .right z p g)
  else return .inr ()

def rbtreeInsertFixup (z : Ptr) : Prog Rbtree Unit := do
  loop rbtreeInsertFixupStep (← get).fuel z
  assign (← get).root (RbNode.setColor BLACK)

/-- The descent of `rbtree_insert`; `none` is the `return` for a key that exists. -/
def rbtreeInsertStep (z : Ptr) : Ptr × Ptr → Prog Rbtree ((Ptr × Ptr) ⊕ Option Ptr)
  | (y, x) => do
      let T ← get
      if x ≠ T.nil then
        let ret ← compareKey (← deref z).keyMem x
        if ret < 0 then return .inl (x, ← getChild .left x)
        else if ret > 0 then return .inl (x, ← getChild .right x)
        else return .inr none
      else return .inr (some y)

/-- Link the new node `z` below `y`, on the side its key belongs to. -/
def rbtreeInsertLink (z y : Ptr) : Prog Rbtree Unit := do
  let T ← get
  if y = T.nil then modify fun T => { T with root := z }
  else
    let ret ← compareKey (← deref z).keyMem y
    if ret < 0 then assign y (RbNode.setChild .left z) else assign y (RbNode.setChild .right z)

def rbtreeInsert (z : Ptr) : Prog Rbtree Unit := do
  let T ← get
  match ← loop (rbtreeInsertStep z) T.fuel (T.nil, T.root) with
  | none => pure ()
  | some y => do
      assign z (RbNode.setParent y)
      rbtreeInsertLink z y
      assign z (RbNode.setChild .left T.nil)
      assign z (RbNode.setChild .right T.nil)
      assign z (RbNode.setColor RED)
      rbtreeInsertFixup z

/-- The first `if` of an iteration: a red sibling `w` of `x` is rotated away. -/
def rbtreeDeleteFixupRed (d : Dir) (x p w : Ptr) : Prog Rbtree Ptr := do
  let wc ← getColor w
  if wc = RED then
    assign w (RbNode.setColor BLACK)
    assign p (RbNode.setColor RED)
    rbtreeRotate d p
    getChild d.flip (← getParent x)
  else return w

/-- The test `(w->left->color == BLACK) && (w->right->color == BLACK)`. -/
def rbtreeBothBlack (w : Ptr) : Prog Rbtree Bool := do
  let lc ← getColor (← getChild .left w)
  if lc = BLACK then
    let rc ← getColor (← getChild .right w)
    return rc = BLACK
  else return false

/-- The inner `if` of an iteration: the sibling's far child is made red. -/
def rbtreeDeleteFixupFar (d : Dir) (x w : Ptr) : Prog Rbtree Ptr := do
  let fc ← getColor (← getChild d.flip w)
  if fc = BLACK then
    assign (← getChild d w) (RbNode.setColor BLACK)
    assign w (RbNode.setColor RED)
    rbtreeRotate d.flip w
    getChild d.flip (← getParent x)
  else return w

/-- One iteration of `rbtree_delete_fixup` whose `x` is the `d` child of its parent. -/
def rbtreeDeleteFixupHalf (d : Dir) (x : Ptr) : Prog Rbtree Ptr := do
  let p ← getParent x
  let w ← getChild d.flip p
  let w ← rbtreeDeleteFixupRed d x p w
  let bothBlack ← rbtreeBothBlack w
  if bothBlack then
    assign w (RbNode.setColor RED)
    getParent x
  else
    let w ← rbtreeDeleteFixupFar d x w
    let p ← getParent x
    let pc ← getColor p
    assign w (RbNode.setColor pc)
    assign p (RbNode.setColor BLACK)
    assign (← getChild d.flip w) (RbNode.setColor BLACK)
    rbtreeRotate d p
    return (← get).root

/-- The body of `while ((x != T->root) && (x->color == BLACK))`. -/
def rbtreeDeleteFixupStep (x : Ptr) : Prog Rbtree (Ptr ⊕ Ptr) := do
  let T ← get
  if x ≠ T.root then
    let xc ← getColor x
    if xc = BLACK then
      let pl ← getChild .left (← getParent x)
      if x = pl then return .inl (← rbtreeDeleteFixupHalf .left x)
      else return .inl (← rbtreeDeleteFixupHalf .right x)
    else return .inr x
  else return .inr x

def rbtreeDeleteFixup (x : Ptr) : Prog Rbtree Unit := do
  let x ← loop rbtreeDeleteFixupStep (← get).fuel x
  assign x (RbNode.setColor BLACK)

/-- The node `rbtree_delete` unlinks: `z` itself, or its successor if it has two children. -/
def rbtreeDeleteVictim (z : Ptr) : Prog Rbtree Ptr := do
  let T ← get
  let zl ← getChild .left z
  if zl = T.nil then return z
  else
    let zr ← getChild .right z
    if zr = T.nil then return z else rbtreeSuccessor z

/-- The only child of the node to unlink, or the sentinel. -/
def rbtreeDeleteChild (y : Ptr) : Prog Rbtree Ptr := do
  let T ← get
  let yl ← getChild .left y
  if yl ≠ T.nil then return yl
  else
    let yr ← getChild .right y
    if yr ≠ T.nil then return yr else return T.nil

/-- Move the key and the value of `y` into `z`. -/
def rbtreeDeleteMove (z y : Ptr) : Prog Rbtree Unit := do
  let ny ← deref y
  assign z fun nd => { nd with key := strncpy maxKeyLen ny.key.val }
  assign z fun nd => { nd with value := strncpy maxValueLen ny.value.val }

/-- `rbtree_delete`: the returned node is detached, and the caller's to free. -/
def rbtreeDelete (z : Ptr) : Prog Rbtree Ptr := do
  let y ← rbtreeDeleteVictim z
  let x ← rbtreeDeleteChild y
  let yp ← getParent y
  assign x (RbNode.setParent yp)
  rbtreeRelink .left yp y x
  whenever (y ≠ z) (rbtreeDeleteMove z y)
  let yc ← getColor y
  whenever (yc = BLACK) (rbtreeDeleteFixup x)
  return y

/-- The body of the descent of `rbtree_search`; it leaves with the node or `T->nil`. -/
def rbtreeSearchStep (key : CString) (node : Ptr) : Prog Rbtree (Ptr ⊕ Ptr) := do
  let T ← get
  if node ≠ T.nil then
    let ret ← compareKey key.mem node
    if ret < 0 then return .inl (← getChild .left node)
    else if ret > 0 then return .inl (← getChild .right node)
    else return .inr node
  else return .inr T.nil

def rbtreeSearch (key : CString) : Prog Rbtree Ptr := do
  let T ← get
  loop (rbtreeSearchStep key) T.fuel T.root

/--
`init_rbtree`, given whether its `malloc` succeeds and the mutex that
`pthread_mutex_init` leaves: a free one, or one whose operations do nothing.
-/
def initRbtree (alloc : Bool) (m : Mutex) : Prog Rbtree Int := do
  let nil ← malloc alloc RbNode.zero
  modify fun T => { T with nil := nil }
  assign nil (RbNode.setColor BLACK)
  assign nil (RbNode.setChild .left nil)
  assign nil (RbNode.setChild .right nil)
  modify fun T => { T with root := nil, nbElements := 0, lock := m }
  pure 0

/-- `put_kv_rbtree`, given whether its `malloc` succeeds. -/
def putKvRbtree (alloc : Bool) (key value : Option CString) : Prog Rbtree Int := do
  match key, value with
  | some key, some value =>
      let T ← get
      let node ← rbtreeSearch key
      if node ≠ T.nil then pure 1
      else
        let node ← malloc alloc RbNode.zero
        if node = 0 then pure (-2)
        else
          assign node (RbNode.setParent T.nil)
          assign node fun nd => { nd with key := strncpy maxKeyLen key.bytes }
          assign node fun nd => { nd with value := strncpy maxValueLen value.bytes }
          mutexLock
          rbtreeInsert node
          modify fun T => { T with nbElements := T.nbElements + 1 }
          mutexUnlock
          pure 0
  | _, _ => pure (-1)

/--
`get_kv_rbtree`: the memory at the value of whatever node the search returns, the
sentinel included.
-/
def getKvRbtree (key : Option CString) : Prog Rbtree (Option (List Byte)) := do
  match key with
  | none => pure none
  | some key =>
      let node ← rbtreeSearch key
      return some (← deref node).valueMem

def countKvRbtree : Prog Rbtree Int := do return (← get).nbElements

def existKvRbtree (key : Option CString) : Prog Rbtree Int := do
  match key with
  | none => pure (-1)
  | some key =>
      let T ← get
      let node ← rbtreeSearch key
      if node ≠ T.nil then pure 1 else pure 0

def deleteKvRbtree (key : Option CString) : Prog Rbtree Int := do
  match key with
  | none => pure (-1)
  | some key =>
      let T ← get
      let node ← rbtreeSearch key
      if node = T.nil then pure 1
      else
        mutexLock
        let tmp ← rbtreeDelete node
        modify fun T => { T with nbElements := T.nbElements - 1 }
        mutexUnlock
        free tmp
        pure 0

/--
One iteration of `dest_rbtree`.  It is entered with the node that the last one has freed,
which is only compared; the loop is left in the middle, when there is no smallest node.
-/
def destRbtreeStep (node : Ptr) : Prog Rbtree (Ptr ⊕ Unit) := do
  let T ← get
  if node ≠ T.nil then
    let node ← rbtreeMini T.root
    if node = T.nil then return .inr ()
    else
      mutexLock
      let node ← rbtreeDelete node
      mutexUnlock
      free node
      return .inl node
  else return .inr ()

def destRbtree : Prog Rbtree Unit := do
  let T ← get
  loop destRbtreeStep T.fuel T.root
  free (← get).nil

/-- One call of the engine, with every `malloc` succeeding. -/
def rbtreeCall : Call → Prog Rbtree Answer
  | .put k v => Answer.int <$> putKvRbtree true (some k) (some v)
  | .get k => do readAnswer (← getKvRbtree (some k))
  | .count => Answer.int <$> countKvRbtree
  | .exist k => Answer.int <$> existKvRbtree (some k)
  | .delete k => Answer.int <$> deleteKvRbtree (some k)

/-- A call of `put_kv_rbtree`, with whether its `malloc` succeeds, or of `delete_kv_rbtree`. -/
inductive TreeOp
  | put (alloc : Bool) (key value : CString)
  | delete (key : CString)
  deriving DecidableEq

/-- Run one such call. -/
def treeOp : TreeOp → Prog Rbtree Int
  | .put alloc k v => putKvRbtree alloc (some k) (some v)
  | .delete k => deleteKvRbtree (some k)

/-- The key fits a key field with its terminator. -/
def TreeOp.KeyFitting : TreeOp → Prop
  | .put _ k _ | .delete k => KeyFits k

instance : DecidablePred TreeOp.KeyFitting
  | .put _ k _ | .delete k => inferInstanceAs (Decidable (KvStore.KeyFits k))

end KvStore
