/-
The block pool of the array engine (kvstore.c, built with `ENABLE_MEM_POOL` 1).

A page is cut into blocks of one size.  The first bytes of a block that is free hold the
address of the next one, and `free_count` says how many there are; the users may do with the
bytes of their blocks what they like.  The pools are objects, and the page is bytes, so that
blocks of any size can be cut and their links read and overwritten as in C.

With the pool an item of the array also has the field `next`.  A pointer and a `size_t` have
64 bits.
-/
import KvStore.Base.Bytes
import KvStore.Base.Memory
import KvStore.Engine.Array
import Mathlib.Algebra.Group.Int.Defs

namespace KvStore

/-- `sizeof(char *)` -/
def sizeofCharPtr : Nat := 8

/-- `sizeof(kvs_array_item_t)`, of the three pointers `next`, `key` and `value` -/
def sizeofKvsArrayItem : Nat := 3 * sizeofCharPtr

/-- `MEM_PAGE_SIZE` -/
def memPageSize : Nat := kvsArrayItemSize * sizeofKvsArrayItem

/-- `mempool_t` -/
structure Mempool where
  blockSize : Int
  freeCount : Int
  freePtr : Nat
  mem : Nat
  deriving DecidableEq

structure PoolHeap where
  pools : Mem Mempool
  bytes : Bytes

instance : HasMem PoolHeap Mempool where
  mem h := h.pools
  withMem h pools := { h with pools := pools }
  mem_withMem _ _ := rfl

/-- What `malloc(MEM_PAGE_SIZE)` gives if it succeeds. -/
abbrev Page := Area sizeofCharPtr memPageSize

/-- `malloc(MEM_PAGE_SIZE)`, given its answer -/
def mallocPage (page : Option Page) : Prog PoolHeap Nat := do
  match page with
  | none => return 0
  | some page =>
      modify fun h => { h with bytes := mapArea h.bytes page }
      return page.addr

/-- `*(char **)ptr` -/
def loadPtr (ptr : Nat) : Prog PoolHeap Nat := do
  let h ← get
  liftE (readWord h.bytes sizeofCharPtr ptr)

/-- `*(char **)ptr = v` -/
def storePtr (ptr v : Nat) : Prog PoolHeap Unit := do
  let h ← get
  let bytes ← liftE (writeWord h.bytes sizeofCharPtr ptr v)
  set { h with bytes := bytes }

/-- `ptr + n` -/
def ptrAdd (ptr : Nat) (n : Int) : Nat := (ptr + n).toNat

/-- An `int` converted to `size_t`. -/
def sizeOfInt (n : Int) : Nat := (n % 2 ^ 64).toNat

/-- `MEM_PAGE_SIZE / block_size`, a division of `size_t` that fits an `int`; one by 0 traps. -/
def blockCount (blockSize : Int) : Except Fault Int :=
  if sizeOfInt blockSize = 0 then .error .overflow
  else .ok (memPageSize / sizeOfInt blockSize : Nat)

/-- One round of the loop of `memp_init`, with `i` and `ptr`. -/
def mempInitStep (m : Ptr) (blockSize : Int) (v : Int × Nat) :
    Prog PoolHeap ((Int × Nat) ⊕ Nat) := do
  if v.1 < (← deref m).freeCount then
    storePtr v.2 (ptrAdd v.2 blockSize)
    return .inl (v.1 + 1, ptrAdd v.2 blockSize)
  else return .inr v.2

/-- `memp_init` after `malloc` -/
def mempInitPage (m : Ptr) (blockSize : Int) : Prog PoolHeap Int := do
  if (← deref m).freePtr = 0 then return -1
  else
    assign m fun pool => { pool with mem := pool.freePtr }
    -- No page has more blocks than bytes.
    let ptr ← loop (mempInitStep m blockSize) (memPageSize + 1) (0, (← deref m).freePtr)
    storePtr ptr 0
    return 0

/-- `memp_init`, given what `malloc` answers -/
def mempInit (page : Option Page) (m : Ptr) (blockSize : Int) : Prog PoolHeap Int := do
  if m = 0 then return -2
  else
    assign m fun pool => { pool with blockSize := blockSize }
    let count ← liftE (blockCount blockSize)
    assign m fun pool => { pool with freeCount := count }
    let ptr ← mallocPage page
    assign m fun pool => { pool with freePtr := ptr }
    mempInitPage m blockSize

/-- `init_array_table`, given what `malloc` answers, for the pool at `mem` -/
def initArrayTable (page : Option Page) (mem : Ptr) : Prog PoolHeap Unit := do
  let _ ← mempInit page mem sizeofKvsArrayItem
  pure ()

/-- `memp_alloc` -/
def mempAlloc (m : Ptr) : Prog PoolHeap Nat := do
  if m = 0 then return 0
  else if (← deref m).freeCount = 0 then return 0
  else
    let ptr := (← deref m).freePtr
    let next ← loadPtr ptr
    assign m fun pool => { pool with freePtr := next }
    assign m fun pool => { pool with freeCount := pool.freeCount - 1 }
    return ptr

/-- `memp_free` -/
def mempFree (m : Ptr) (ptr : Nat) : Prog PoolHeap Nat := do
  storePtr ptr (← deref m).freePtr
  assign m fun pool => { pool with freePtr := ptr }
  assign m fun pool => { pool with freeCount := pool.freeCount + 1 }
  return ptr

/-! ### The pool and its users -/

structure PoolState where
  heap : PoolHeap
  /-- the blocks that were allocated and not freed since -/
  held : List Nat

/--
What can happen to a pool with blocks of `b` bytes: a block is allocated, a block that is held
is freed, or its holder writes a byte of it.
-/
inductive PoolStep (m : Ptr) (b : Nat) (s : PoolState) : PoolState → Prop
  | alloc {ptr : Nat} {heap : PoolHeap} (h : (mempAlloc m).run s.heap = .ok (ptr, heap)) :
      PoolStep m b s ⟨heap, if ptr = 0 then s.held else ptr :: s.held⟩
  | free {ptr r : Nat} {heap : PoolHeap} (hheld : ptr ∈ s.held)
      (h : (mempFree m ptr).run s.heap = .ok (r, heap)) : PoolStep m b s ⟨heap, s.held.erase ptr⟩
  | write {ptr a : Nat} (hheld : ptr ∈ s.held) (hle : ptr ≤ a) (hlt : a < ptr + b) (v : Byte) :
      PoolStep m b s
        ⟨{ s.heap with bytes := Function.update s.heap.bytes a (some v) }, s.held⟩

end KvStore
