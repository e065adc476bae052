/-
The tree's calls with a check in front of every rotation.

A rotation moves a child of its node up, and nothing in `rbtree_left_rotate` and
`rbtree_right_rotate` tests that this child is not the sentinel.  To say that it never is,
the functions that rotate are written here over the rotation they call.  With the engine's
own they are the functions of the engine (`treeOpBy_rotate`); with `rbtreeRotateGuarded` a
rotation at a node whose child is the sentinel faults.
-/
import KvStore.Base.Guard
import KvStore.Engine.Rbtree

namespace KvStore

/-- The rotation, after `assert(child != T->nil)` for the child it moves up. -/
def rbtreeRotateGuarded (d : Dir) (x : Ptr) : Prog Rbtree Unit := do
  let T ← get
  let y ← getChild d.flip x
  guarded (y ≠ T.nil) (rbtreeRotate d x)

section Functions

variable (rotate : Dir → Ptr → Prog Rbtree Unit)

/-! ### Inserting -/

def rbtreeInsertFixupOuterBy (d : Dir) (z p : Ptr) : Prog Rbtree Ptr := do
  let pc ← getChild d.flip p
  if z = pc then do
    rotate d p
    return p
  else return z

def rbtreeInsertFixupHalfBy (d : Dir) (z p g : Ptr) : Prog Rbtree Ptr := do
  let y ← getChild d.flip g
  let yc ← getColor y
  if yc = RED then
    assign p (RbNode.setColor BLACK)
    assign y (RbNode.setColor BLACK)
    assign g (RbNode.setColor RED)
    return g
  else
    let z ← rbtreeInsertFixupOuterBy rotate d z p
    let p ← getParent z
    assign p (RbNode.setColor BLACK)
    let g ← getParent p
    assign g (RbNode.setColor RED)
    rotate d.flip g
    return z

def rbtreeInsertFixupStepBy (z : Ptr) : Prog Rbtree (Ptr ⊕ Unit) := do
  let p ← getParent z
  let pc ← getColor p
  if pc = RED then
    let g ← getParent p
    let gl ← getChild .left g
    if p = gl then return .inl (← rbtreeInsertFixupHalfBy rotate .left z p g)
    else return .inl (← rbtreeInsertFixupHalfBy rotate .right z p g)
  else return .inr ()

def rbtreeInsertFixupBy (z : Ptr) : Prog Rbtree Unit := do
  loop (rbtreeInsertFixupStepBy rotate) (← get).fuel z
  assign (← get).root (RbNode.setColor BLACK)

def rbtreeInsertBy (z : Ptr) : Prog Rbtree Unit := do
  let T ← get
  match ← loop (rbtreeInsertStep z) T.fuel (T.nil, T.root) with
  | none => pure ()
  | some y => do
      assign z (RbNode.setParent y)
      rbtreeInsertLink z y
      assign z (RbNode.setChild .left T.nil)
      assign z (RbNode.setChild .right T.nil)
      assign z (RbNode.setColor RED)
      rbtreeInsertFixupBy rotate z

/-! ### Deleting -/

def rbtreeDeleteFixupRedBy (d : Dir) (x p w : Ptr) : Prog Rbtree Ptr := do
  let wc ← getColor w
  if wc = RED then
    assign w (RbNode.setColor BLACK)
    assign p (RbNode.setColor RED)
    rotate d p
    getChild d.flip (← getParent x)
  else return w

def rbtreeDeleteFixupFarBy (d : Dir) (x w : Ptr) : Prog Rbtree Ptr := do
  let fc ← getColor (← getChild d.flip w)
  if fc = BLACK then
    assign (← getChild d w) (RbNode.setColor BLACK)
    assign w (RbNode.setColor RED)
    rotate d.flip w
    getChild d.flip (← getParent x)
  else return w

def rbtreeDeleteFixupHalfBy (d : Dir) (x : Ptr) : Prog Rbtree Ptr := do
  let p ← getParent x
  let w ← getChild d.flip p
  let w ← rbtreeDeleteFixupRedBy rotate d x p w
  let bothBlack ← rbtreeBothBlack w
  if bothBlack then
    assign w (RbNode.setColor RED)
    getParent x
  else
    let w ← rbtreeDeleteFixupFarBy rotate d x w
    let p ← getParent x
    let pc ← getColor p
    assign w (RbNode.setColor pc)
    assign p (RbNode.setColor BLACK)
    assign (← getChild d.flip w) (RbNode.setColor BLACK)
    rotate d p
    return (← get).root

def rbtreeDeleteFixupStepBy (x : Ptr) : Prog Rbtree (Ptr ⊕ Ptr) := do
  let T ← get
  if x ≠ T.root then
    let xc ← getColor x
    if xc = BLACK then
      let pl ← getChild .left (← getParent x)
      if x = pl then return .inl (← rbtreeDeleteFixupHalfBy rotate .left x)
      else return .inl (← rbtreeDeleteFixupHalfBy rotate .right x)
    else return .inr x
  else return .inr x

def rbtreeDeleteFixupBy (x : Ptr) : Prog Rbtree Unit := do
  let x ← loop (rbtreeDeleteFixupStepBy rotate) (← get).fuel x
  assign x (RbNode.setColor BLACK)

def rbtreeDeleteBy (z : Ptr) : Prog Rbtree Ptr := do
  let y ← rbtreeDeleteVictim z
  let x ← rbtreeDeleteChild y
  let yp ← getParent y
  assign x (RbNode.setParent yp)
  rbtreeRelink .left yp y x
  whenever (y ≠ z) (rbtreeDeleteMove z y)
  let yc ← getColor y
  whenever (yc = BLACK) (rbtreeDeleteFixupBy rotate x)
  return y

/-! ### Calls -/

def putKvRbtreeBy (alloc : Bool) (key value : Option CString) : Prog Rbtree Int := do
  match key, value with
  | some key, some value =>
      let T ← get
      let node ← rbtreeSearch key
      if node ≠ T.nil then pure 1
      else
        let node ← malloc alloc RbNode.zero
        if node = 0 then pure (-2)
        else
          assign node (RbNode.setParent T.nil)
          assign node fun nd => { nd with key := strncpy maxKeyLen key.bytes }
          assign node fun nd => { nd with value := strncpy maxValueLen value.bytes }
          mutexLock
          rbtreeInsertBy rotate node
          modify fun T => { T with nbElements := T.nbElements + 1 }
          mutexUnlock
          pure 0
  | _, _ => pure (-1)

def deleteKvRbtreeBy (key : Option CString) : Prog Rbtree Int := do
  match key with
  | none => pure (-1)
  | some key =>
      let T ← get
      let node ← rbtreeSearch key
      if node = T.nil then pure 1
      else
        mutexLock
        let tmp ← rbtreeDeleteBy rotate node
        modify fun T => { T with nbElements := T.nbElements - 1 }
        mutexUnlock
        free tmp
        pure 0

end Functions

/-- A put or a delete over a rotation. -/
def treeOpBy (rotate : Dir → Ptr → Prog Rbtree Unit) : TreeOp → Prog Rbtree Int
  | .put alloc k v => putKvRbtreeBy rotate alloc (some k) (some v)
  | .delete k => deleteKvRbtreeBy rotate (some k)

theorem treeOpBy_rotate : treeOpBy rbtreeRotate = treeOp := by
  funext op
  cases op with
  | put alloc k v => rfl
  | delete k => rfl

end KvStore
