/-
What a parent-linked graph in memory says about a tree.

`Rep T np t` is the bridge between rbtree.c and the trees of `Base/RedBlack.lean`:
the nodes reachable from `T->root` spell out the tree `t`, whose payloads carry the
node's address and its two buffers, every parent pointer is right, the sentinel is
as `init_rbtree` left it except for its parent field, which holds `np`, and all
addresses are different.

A position in the tree splits the cells in two: those of the subtree, which see of
their surroundings only the address of the parent, and those of the context, which
see of the subtree only its address.  `cells_fill` says so, and it is what makes
every pointer operation a local change.
-/
import KvStore.Engine.Rbtree
import KvStore.Proofs.Entry
import Mathlib.Data.List.Nodup

namespace KvStore

def Color.byte : Color → UInt8
  | .red => RED
  | .black => BLACK

@[simp] theorem Color.byte_red : Color.byte .red = RED := rfl

@[simp] theorem Color.byte_black : Color.byte .black = BLACK := rfl

theorem Color.byte_eq_red {c : Color} : c.byte = RED ↔ c = .red := by
  cases c <;> simp [Color.byte, RED, BLACK]

theorem Color.byte_eq_black {c : Color} : c.byte = BLACK ↔ c = .black := by
  cases c <;> simp [Color.byte, RED, BLACK]

/-- The cell of a node whose `d` child is at `near`. -/
def cell (d : Dir) (c : Color) (near far par : Ptr) (e : Entry) : RbNode :=
  match d with
  | .left => ⟨c.byte, far, near, par, e.key, e.value⟩
  | .right => ⟨c.byte, near, far, par, e.key, e.value⟩

section Cell

variable (d : Dir) (c : Color) (near far par p : Ptr) (e : Entry)

@[simp] theorem cell_color : (cell d c near far par e).color = c.byte := by cases d <;> rfl

@[simp] theorem cell_parent : (cell d c near far par e).parent = par := by cases d <;> rfl

@[simp] theorem cell_key : (cell d c near far par e).key = e.key := by cases d <;> rfl

@[simp] theorem cell_value : (cell d c near far par e).value = e.value := by cases d <;> rfl

@[simp] theorem cell_near : (cell d c near far par e).child d = near := by cases d <;> rfl

@[simp] theorem cell_far : (cell d c near far par e).child d.flip = far := by cases d <;> rfl

@[simp] theorem cell_setNear :
    (cell d c near far par e).setChild d p = cell d c p far par e := by cases d <;> rfl

@[simp] theorem cell_setFar :
    (cell d c near far par e).setChild d.flip p = cell d c near p par e := by cases d <;> rfl

@[simp] theorem cell_setParent :
    (cell d c near far par e).setParent p = cell d c near far p e := by cases d <;> rfl

@[simp] theorem cell_setColor (c' : Color) :
    (cell d c near far par e).setColor c'.byte = cell d c' near far par e := by cases d <;> rfl

theorem cell_setKey (k : CharBuf maxKeyLen) :
    { cell d c near far par e with key := k } = cell d c near far par { e with key := k } := by
  cases d <;> rfl

theorem cell_setValue (v : CharBuf maxValueLen) :
    { cell d c near far par e with value := v } = cell d c near far par { e with value := v } := by
  cases d <;> rfl

theorem cell_child_of_ne {d' : Dir} (h : d' ≠ d) :
    (cell d' c near far par e).child d = far := by
  cases d <;> cases d' <;> first | rfl | exact absurd rfl h

theorem cell_setChild_of_ne {d' : Dir} (h : d' ≠ d) :
    (cell d' c near far par e).setChild d.flip p = cell d' c p far par e := by
  cases d <;> cases d' <;> first | rfl | exact absurd rfl h

end Cell

/-! ### Addresses -/

/-- The address of a subtree, which is the sentinel's when it is empty. -/
def Tree.ptr (nil : Ptr) : Tree Entry → Ptr
  | .nil => nil
  | .node _ _ e _ => e.ptr

@[simp] theorem Tree.ptr_nil (nil : Ptr) : Tree.ptr nil .nil = nil := rfl

@[simp] theorem Tree.ptr_branch (nil : Ptr) (d : Dir) (c : Color) (t u : Tree Entry) (e : Entry) :
    (Tree.branch d c t e u).ptr nil = e.ptr := by
  cases d <;> rfl

/-- The addresses of a subtree's nodes. -/
def Tree.ptrs (t : Tree Entry) : List Ptr := t.toList.map Entry.ptr

@[simp] theorem Tree.ptrs_nil : Tree.ptrs .nil = [] := rfl

theorem Tree.ptrs_congr {t t' : Tree Entry} (h : t.toList = t'.toList) : t.ptrs = t'.ptrs :=
  congrArg (List.map Entry.ptr) h

theorem Tree.ptrs_branch (d : Dir) (c : Color) (t u : Tree Entry) (e : Entry) :
    (Tree.branch d c t e u).ptrs.Perm (e.ptr :: (t.ptrs ++ u.ptrs)) := by
  cases d with
  | left => simp [Tree.branch, Tree.ptrs, Tree.toList]
  | right =>
      simp only [Tree.branch, Tree.ptrs, Tree.toList, List.map_append, List.map_cons]
      exact List.perm_middle.trans (List.perm_append_comm.cons _)

theorem Tree.ptr_mem {nil : Ptr} {t : Tree Entry} : t.ptr nil = nil ∨ t.ptr nil ∈ t.ptrs := by
  cases t with
  | nil => exact Or.inl rfl
  | node c l e r => exact Or.inr (by simp [Tree.ptr, Tree.ptrs, Tree.toList])

theorem Tree.eq_nil_of_ptr {nil : Ptr} {t : Tree Entry} (hnil : nil ∉ t.ptrs)
    (h : t.ptr nil = nil) : t = .nil := by
  cases t with
  | nil => rfl
  | node c l e r =>
      have hmem : e.ptr ∈ (Tree.node c l e r).ptrs := by simp [Tree.ptrs, Tree.toList]
      exact absurd (show nil ∈ _ by rw [← h]; exact hmem) hnil

theorem Tree.ptr_ne {nil p : Ptr} {t : Tree Entry} (hnil : nil ≠ p) (hp : p ∉ t.ptrs) :
    t.ptr nil ≠ p := by
  rcases (Tree.ptr_mem : t.ptr nil = nil ∨ _) with h | h
  · rw [h]
    exact hnil
  · exact ne_of_mem_of_not_mem h hp

/-- The address of the node above a position. -/
def ctxPtr (nil : Ptr) : Ctx Entry → Ptr
  | [] => nil
  | f :: _ => f.payload.ptr

/-- The addresses of the nodes around a position. -/
def ctxPtrs : Ctx Entry → List Ptr
  | [] => []
  | f :: fs => f.payload.ptr :: (f.sibling.ptrs ++ ctxPtrs fs)

theorem ctxPtr_mem {nil : Ptr} {ctx : Ctx Entry} :
    ctxPtr nil ctx = nil ∨ ctxPtr nil ctx ∈ ctxPtrs ctx := by
  cases ctx with
  | nil => exact Or.inl rfl
  | cons f fs => exact Or.inr (List.mem_cons_self ..)

theorem ctxPtr_ne {nil p : Ptr} {ctx : Ctx Entry} (hnil : nil ≠ p) (hp : p ∉ ctxPtrs ctx) :
    ctxPtr nil ctx ≠ p := by
  rcases (ctxPtr_mem : ctxPtr nil ctx = nil ∨ _) with h | h
  · rw [h]
    exact hnil
  · exact ne_of_mem_of_not_mem h hp

theorem ptrs_fill (ctx : Ctx Entry) (t : Tree Entry) :
    (Ctx.fill ctx t).ptrs.Perm (t.ptrs ++ ctxPtrs ctx) := by
  induction ctx generalizing t with
  | nil => simp [Ctx.fill, ctxPtrs]
  | cons f fs ih =>
      obtain ⟨d, c, e, u⟩ := f
      refine (ih _).trans ?_
      refine ((Tree.ptrs_branch d c t u e).append_right _).trans ?_
      simp only [ctxPtrs, List.cons_append, List.append_assoc]
      exact List.perm_middle.symm

/-! ### Cells -/

/-- The memory holds the subtree `t`, hanging below the node at `par`. -/
def Cells (m : Mem RbNode) (nil : Ptr) : Ptr → Tree Entry → Prop
  | _, .nil => True
  | par, .node c l e r =>
      m.cells e.ptr = some (cell .left c (l.ptr nil) (r.ptr nil) par e) ∧
        Cells m nil e.ptr l ∧ Cells m nil e.ptr r

/-- The memory holds the nodes around a position at which the subtree at `ch` hangs. -/
def CtxCells (m : Mem RbNode) (nil : Ptr) : Ctx Entry → Ptr → Prop
  | [], _ => True
  | f :: fs, ch =>
      m.cells f.payload.ptr =
          some (cell f.dir f.color ch (f.sibling.ptr nil) (ctxPtr nil fs) f.payload) ∧
        Cells m nil f.payload.ptr f.sibling ∧ CtxCells m nil fs f.payload.ptr

section Cells

variable {m m' : Mem RbNode} {nil : Ptr}

theorem cells_branch {d : Dir} {c : Color} {t u : Tree Entry} {e : Entry} {par : Ptr} :
    Cells m nil par (Tree.branch d c t e u) ↔
      m.cells e.ptr = some (cell d c (t.ptr nil) (u.ptr nil) par e) ∧
        Cells m nil e.ptr t ∧ Cells m nil e.ptr u := by
  cases d with
  | left => exact Iff.rfl
  | right =>
      show _ ∧ Cells m nil e.ptr u ∧ Cells m nil e.ptr t ↔ _
      rw [and_comm (a := Cells m nil e.ptr u)]
      exact Iff.rfl

/-- **A position splits the cells.** -/
theorem cells_fill {ctx : Ctx Entry} {t : Tree Entry} :
    Cells m nil nil (Ctx.fill ctx t) ↔
      CtxCells m nil ctx (t.ptr nil) ∧ Cells m nil (ctxPtr nil ctx) t := by
  induction ctx generalizing t with
  | nil => simp [Ctx.fill, CtxCells, ctxPtr]
  | cons f fs ih =>
      obtain ⟨d, c, e, u⟩ := f
      rw [Ctx.fill, ih, Frame.plug, cells_branch, Tree.ptr_branch]
      simp only [CtxCells, ctxPtr]
      tauto

theorem cells_congr {t : Tree Entry} {par : Ptr}
    (h : ∀ q ∈ t.ptrs, m'.cells q = m.cells q) (hc : Cells m nil par t) :
    Cells m' nil par t := by
  induction t generalizing par with
  | nil => trivial
  | node c l e r ihl ihr =>
      obtain ⟨he, hl, hr⟩ := hc
      refine ⟨?_, ihl ?_ hl, ihr ?_ hr⟩
      · rw [h e.ptr (by simp [Tree.ptrs, Tree.toList]), he]
      · intro q hq
        refine h q ?_
        simp only [Tree.ptrs, Tree.toList, List.map_append, List.mem_append] at hq ⊢
        exact Or.inl hq
      · intro q hq
        refine h q ?_
        simp only [Tree.ptrs, Tree.toList, List.map_append, List.map_cons, List.mem_append,
          List.mem_cons] at hq ⊢
        exact Or.inr (Or.inr hq)

theorem ctxCells_congr {ctx : Ctx Entry} {ch : Ptr}
    (h : ∀ q ∈ ctxPtrs ctx, m'.cells q = m.cells q) (hc : CtxCells m nil ctx ch) :
    CtxCells m' nil ctx ch := by
  induction ctx generalizing ch with
  | nil => trivial
  | cons f fs ih =>
      obtain ⟨hf, hs, hfs⟩ := hc
      refine ⟨?_, cells_congr ?_ hs, ih ?_ hfs⟩
      · rw [h f.payload.ptr (by simp [ctxPtrs]), hf]
      · intro q hq
        exact h q (by simp [ctxPtrs, hq])
      · intro q hq
        exact h q (by simp [ctxPtrs, hq])

/-- Every node of the tree is allocated. -/
theorem cells_some {t : Tree Entry} {par : Ptr} (h : Cells m nil par t) :
    ∀ q ∈ t.ptrs, ∃ nd, m.cells q = some nd := by
  induction t generalizing par with
  | nil => intro q hq; simp at hq
  | node c l e r ihl ihr =>
      obtain ⟨he, hl, hr⟩ := h
      intro q hq
      simp only [Tree.ptrs, Tree.toList, List.map_append, List.map_cons, List.mem_append,
        List.mem_cons] at hq
      rcases hq with hq | rfl | hq
      · exact ihl hl q hq
      · exact ⟨_, he⟩
      · exact ihr hr q hq

end Cells

/-! ### The representation -/

/-- The sentinel as `init_rbtree` leaves it, with the parent field `np`. -/
def nilCell (nil np : Ptr) : RbNode :=
  ⟨BLACK, nil, nil, np, zeroBuf maxKeyLen, zeroBuf maxValueLen⟩

/-- The nodes reachable from the root spell out `t`; `np` is the sentinel's parent field. -/
structure Rep (T : Rbtree) (np : Ptr) (t : Tree Entry) : Prop where
  sentinel : T.mem.cells T.nil = some (nilCell T.nil np)
  root : T.root = t.ptr T.nil
  cells : Cells T.mem T.nil T.nil t
  nodup : (T.nil :: t.ptrs).Nodup

/-- What an operation on the tree leaves alone: everything but links, colours and buffers. -/
structure Keeps (T T' : Rbtree) : Prop where
  nil : T'.nil = T.nil
  lock : T'.lock = T.lock
  count : T'.nbElements = T.nbElements
  next : T'.mem.next = T.mem.next
  alloc : ∀ p, (T'.mem.cells p).isSome = (T.mem.cells p).isSome

theorem Keeps.refl (T : Rbtree) : Keeps T T := ⟨rfl, rfl, rfl, rfl, fun _ => rfl⟩

theorem Keeps.trans {T T' T'' : Rbtree} (h : Keeps T T') (h' : Keeps T' T'') : Keeps T T'' :=
  ⟨h'.nil.trans h.nil, h'.lock.trans h.lock, h'.count.trans h.count, h'.next.trans h.next,
    fun p => (h'.alloc p).trans (h.alloc p)⟩

/-- Writing to one node changes nothing else. -/
theorem keeps_write (T : Rbtree) (p : Ptr) (nd : RbNode) :
    Keeps T { T with mem := T.mem.write p nd } :=
  ⟨rfl, rfl, rfl, rfl, fun q => Mem.write_isSome T.mem p q nd⟩

namespace Rep

variable {T : Rbtree} {np : Ptr} {t : Tree Entry} {ctx : Ctx Entry}

/-- All addresses around and in a position are different, and none is the sentinel's. -/
theorem distinct (h : Rep T np (Ctx.fill ctx t)) :
    (T.nil :: (t.ptrs ++ ctxPtrs ctx)).Nodup :=
  ((ptrs_fill ctx t).cons T.nil).nodup_iff.mp h.nodup

theorem ctxCells (h : Rep T np (Ctx.fill ctx t)) : CtxCells T.mem T.nil ctx (t.ptr T.nil) :=
  (cells_fill.mp h.cells).1

theorem subCells (h : Rep T np (Ctx.fill ctx t)) : Cells T.mem T.nil (ctxPtr T.nil ctx) t :=
  (cells_fill.mp h.cells).2

/-- Only the nodes of the tree and the sentinel matter. -/
theorem congr {T' : Rbtree} (h : Rep T np t) (hnil : T'.nil = T.nil) (hroot : T'.root = T.root)
    (hmem : ∀ q ∈ T.nil :: t.ptrs, T'.mem.cells q = T.mem.cells q) : Rep T' np t := by
  have hsub : ∀ q ∈ t.ptrs, T'.mem.cells q = T.mem.cells q :=
    fun q hq => hmem q (List.mem_cons_of_mem _ hq)
  refine ⟨?_, ?_, ?_, ?_⟩
  · rw [hnil, hmem T.nil (by simp), h.sentinel]
  · rw [hroot, hnil, h.root]
  · rw [hnil]
    exact cells_congr hsub h.cells
  · rw [hnil]
    exact h.nodup

theorem nil_notMem (h : Rep T np t) : T.nil ∉ t.ptrs := (List.nodup_cons.mp h.nodup).1

/-- The tree has fewer nodes than addresses were handed out. -/
theorem length_lt (h : Rep T np t) : t.toList.length < T.mem.next := by
  have hlen := Mem.length_le_next h.nodup (by
    intro q hq
    rcases List.mem_cons.mp hq with rfl | hq
    · exact ⟨_, h.sentinel⟩
    · exact cells_some h.cells q hq)
  simp only [List.length_cons, Tree.ptrs, List.length_map] at hlen
  omega

end Rep

end KvStore
