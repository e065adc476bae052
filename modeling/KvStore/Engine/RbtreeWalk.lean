/-
Going through the tree (rbtree.c).

`rbtree_maxi` and `rbtree_traversal` look at the tree and change nothing.  What the traversal
prints is its result here; a string that is printed is read as any other, so a field without a
terminator is read on, and past the end of the node that is a fault.
-/
import KvStore.Engine.Protocol
import KvStore.Engine.Rbtree

namespace KvStore

/-- `while (x->right != T->nil) x = x->right;` -/
def rbtreeMaxiStep (x : Ptr) : Prog Rbtree (Ptr ⊕ Ptr) := do
  let T ← get
  let r ← getChild .right x
  if r ≠ T.nil then pure (.inl r) else pure (.inr x)

def rbtreeMaxi (x : Ptr) : Prog Rbtree Ptr := do
  loop rbtreeMaxiStep (← get).fuel x

/-- `printf("key:%s, value:%s\n", key, value)` -/
def keyValueLine (key value : CString) : List Byte :=
  literal "key:" ++ key.bytes ++ literal ", value:" ++ value.bytes ++ literal "\n"

/-- `rbtree_traversal`, for a tree that is less deep than the fuel. -/
def rbtreeTraversal : Nat → Ptr → Prog Rbtree (List Byte)
  | 0, _ => fault .outOfFuel
  | fuel + 1, node => do
      let T ← get
      if node ≠ T.nil then
        let before ← rbtreeTraversal fuel (← getChild .left node)
        let nd ← deref node
        let key ← liftE (cstr nd.keyMem)
        let value ← liftE (cstr nd.valueMem)
        let after ← rbtreeTraversal fuel (← getChild .right node)
        return before ++ keyValueLine key value ++ after
      else return []

end KvStore
