/-
The node a deletion gives up.

`rbtree_delete` returns a node for its caller to free, which need not be the node that held
the key.  Said over the pointers in memory: no node that is still reachable from the root
points to it, and every other node that was reachable still is.  The sentinel, at which
every path ends, is not one of the nodes.
-/
import KvStore.Proofs.Rbtree.Invariant
import KvStore.Proofs.Rbtree.Ops

namespace KvStore

open KvStore.Tree Ctx

/-- Following child pointers from the root leads to the node at this address. -/
inductive FromRoot (T : Rbtree) : Ptr → Prop
  | root (h : T.root ≠ T.nil) : FromRoot T T.root
  | child {p : Ptr} {nd : RbNode} (d : Dir) (hp : FromRoot T p)
      (hcell : T.mem.cells p = some nd) (hne : nd.child d ≠ T.nil) : FromRoot T (nd.child d)

/-- Between two states of the tree the node at `y`, and no other, has left it. -/
structure Detached (T : Rbtree) (y : Ptr) (T' : Rbtree) : Prop where
  /-- it was there -/
  was : FromRoot T y
  root : T'.root ≠ y
  /-- every node that is left is allocated, and none of its pointers leads to `y` -/
  links : ∀ p, FromRoot T' p →
    ∃ nd, T'.mem.cells p = some nd ∧ nd.left ≠ y ∧ nd.right ≠ y ∧ nd.parent ≠ y
  nodes : ∀ p, FromRoot T' p ↔ FromRoot T p ∧ p ≠ y

/-! ### The nodes of the represented tree -/

section Read

variable {T : Rbtree} {np : Ptr} {t : Tree Entry} {p : Ptr}

/-- The root is one of the nodes of the tree, or the sentinel. -/
theorem ptr_mem_nodes {nil : Ptr} : t.ptr nil ∈ nil :: t.ptrs :=
  List.mem_cons.mpr Tree.ptr_mem

/-- So is the parent of a subtree. -/
theorem ctxPtr_mem_nodes {nil : Ptr} {ctx : Ctx Entry} :
    ctxPtr nil ctx ∈ nil :: (fill ctx t).ptrs := by
  cases ctx with
  | nil => exact List.mem_cons_self ..
  | cons f fs =>
      refine List.mem_cons_of_mem _ ((ptrs_fill (f :: fs) t).mem_iff.mpr (List.mem_append_right _ ?_))
      exact List.mem_cons_self ..

/-- The pointers of a node lead to nodes of the tree, or to the sentinel. -/
theorem Rep.links_at (h : Rep T np t) (hp : p ∈ t.ptrs) :
    ∃ nd, T.mem.cells p = some nd ∧ (∀ d, nd.child d ∈ T.nil :: t.ptrs) ∧
      nd.parent ∈ T.nil :: t.ptrs := by
  obtain ⟨e, he, rfl⟩ := List.mem_map.mp hp
  obtain ⟨ctx, c, l, r, rfl⟩ := exists_position he
  refine ⟨_, h.subCells.1, ?_, ctxPtr_mem_nodes⟩
  intro d
  obtain ⟨nd, near, far, hcell, -, hchild, -, hlr⟩ := h.child_at d
  rw [h.subCells.1] at hcell
  cases hcell
  rw [hchild]
  have hnear : near.ptr T.nil ∈ T.nil :: near.ptrs := ptr_mem_nodes
  rcases List.mem_cons.mp hnear with hn | hn
  · rw [hn]
    exact List.mem_cons_self ..
  · refine List.mem_cons_of_mem _ ((ptrs_fill ctx _).mem_iff.mpr (List.mem_append_left _ ?_))
    rcases hlr with rfl | rfl
    · simp only [Tree.ptrs, toList, List.map_append, List.mem_append]
      exact Or.inl hn
    · simp only [Tree.ptrs, toList, List.map_append, List.map_cons, List.mem_append, List.mem_cons]
      exact Or.inr (Or.inr hn)

/-- The node at a position is reached by the pointers of the frames above it. -/
theorem Rep.fromRoot_at {ctx : Ctx Entry} {d : Dir} {c : Color} {u : Tree Entry} {e : Entry}
    (h : Rep T np (fill ctx (branch d c t e u))) : FromRoot T e.ptr := by
  induction ctx generalizing d c t e u with
  | nil =>
      have hroot : T.root = e.ptr := by
        rw [h.root]
        exact ptr_branch ..
      rw [← hroot]
      refine .root ?_
      rw [hroot]
      exact h.ptr_ne_nil
  | cons f fs ih =>
      obtain ⟨fd, fc, a, s⟩ := f
      have hup : Rep T np (fill fs (branch fd fc (branch d c t e u) a s)) := h
      have hnear : (cell fd fc ((branch d c t e u).ptr T.nil) (s.ptr T.nil) (ctxPtr T.nil fs) a).child
          fd = e.ptr := by
        rw [cell_near, ptr_branch]
      rw [← hnear]
      refine .child fd (ih hup) hup.cell_at ?_
      rw [hnear]
      exact h.ptr_ne_nil

/-- **What is reachable from the root are the nodes of the tree.** -/
theorem Rep.fromRoot_iff (h : Rep T np t) : FromRoot T p ↔ p ∈ t.ptrs := by
  constructor
  · intro hp
    induction hp with
    | root hne =>
        rw [h.root] at hne ⊢
        exact (Tree.ptr_mem).resolve_left hne
    | child d _ hcell hne ih =>
        obtain ⟨nd, hcell', hchild, -⟩ := h.links_at ih
        rw [hcell] at hcell'
        cases hcell'
        exact (List.mem_cons.mp (hchild d)).resolve_left hne
  · intro hp
    obtain ⟨e, he, rfl⟩ := List.mem_map.mp hp
    obtain ⟨ctx, c, l, r, rfl⟩ := exists_position he
    exact Rep.fromRoot_at (d := .left) h

/-- **A node that has left the represented tree is detached.** -/
theorem Detached.of_rep {y np' : Ptr} {T' : Rbtree} {t' : Tree Entry} (hrep : Rep T np t)
    (hrep' : Rep T' np' t') (hnil : T'.nil = T.nil) (hptrs : t.ptrs.Perm (y :: t'.ptrs)) :
    Detached T y T' := by
  have hnd := (hptrs.cons T.nil).nodup_iff.mp hrep.nodup
  have hout : ∀ q ∈ T'.nil :: t'.ptrs, q ≠ y := by
    rintro q hq rfl
    simp only [List.nodup_cons, List.mem_cons, not_or] at hnd
    rcases List.mem_cons.mp hq with hq | hq
    · exact hnd.1.1 (hq.trans hnil).symm
    · exact hnd.2.1 hq
  refine ⟨?_, ?_, ?_, ?_⟩
  · exact hrep.fromRoot_iff.mpr (hptrs.mem_iff.mpr (List.mem_cons_self ..))
  · rw [hrep'.root]
    exact hout _ ptr_mem_nodes
  · intro p hp
    obtain ⟨nd, hcell, hchild, hparent⟩ := hrep'.links_at (hrep'.fromRoot_iff.mp hp)
    exact ⟨nd, hcell, hout _ (hchild .left), hout _ (hchild .right), hout _ hparent⟩
  · intro p
    rw [hrep'.fromRoot_iff, hrep.fromRoot_iff, hptrs.mem_iff, List.mem_cons]
    constructor
    · intro hp
      exact ⟨Or.inr hp, hout p (List.mem_cons_of_mem _ hp)⟩
    · rintro ⟨hp, hne⟩
      exact hp.resolve_left hne

end Read

/-! ### Over whole runs -/

/--
**The node that `delete_kv_rbtree` frees is detached, and it is the only node that leaves the
tree**, for every stored key after every run from a fresh engine: `rbtree_delete`, called
under the lock with the node found, returns a node `y` that no reachable node points to, and
`y` is what is freed.
-/
theorem rbtree_delete_detaches (T₀ : Rbtree) (mu : Mutex) (hmu : mu ≠ .held) (ops : List TreeOp)
    (hops : ∀ op ∈ ops, op.KeyFitting) :
    ∃ T₁ rs T, (initRbtree true mu).run T₀ = .ok (0, T₁) ∧
      (runCalls treeOp ops).run T₁ = .ok (rs, T) ∧
      ∀ k, (existKvRbtree (some k)).run T = .ok (1, T) →
        ∃ z y T₂ T₃ T', (rbtreeSearch k).run T = .ok (z, T) ∧ mutexLock.run T = .ok ((), T₂) ∧
          (rbtreeDelete z).run T₂ = .ok (y, T₃) ∧ Detached T y T₃ ∧
          (deleteKvRbtree (some k)).run T = .ok (0, T') ∧ T'.mem = T₃.mem.release y ∧
          T'.root = T₃.root ∧ Detached T y T' := by
  obtain ⟨T₁, rs, T, hinit, hrun, ⟨np, t, m, hst, -⟩, hlock⟩ := treeRun_spec T₀ hmu ops hops
  refine ⟨T₁, rs, T, hinit, hrun, ?_⟩
  intro k hexist
  have hk : k ∈ m := by
    by_contra hc
    rw [hst.exist k, if_neg hc] at hexist
    cases hexist
  obtain ⟨mu', hmu', -⟩ := Mutex.lock_unlock hlock
  obtain ⟨e, y, T₃, np', t', -, hsearch, hne, hdel, hd⟩ := hst.detachBy rotates_rotate hk mu'
  have hrep : Rep { T with lock := mu' } np t := hst.rep.congr rfl rfl (fun _ _ => rfl)
  have hrep' : Rep { T₃ with
      nbElements := T₃.nbElements - 1, lock := T₃.lock.unlock, mem := T₃.mem.release y } np' t' :=
    (hd.release hrep).congr rfl rfl (fun _ _ => rfl)
  obtain ⟨nd, hcell⟩ := hd.cell hrep
  exact ⟨e.ptr, y, _, T₃, _, hsearch, mutexLock_run hmu', hdel,
    .of_rep hst.rep hd.rep hd.keeps.nil hd.ptrs, deleteKvRbtreeBy_run hsearch hne hmu' hdel hcell,
    rfl, rfl, .of_rep hst.rep hrep' hd.keeps.nil hd.ptrs⟩

/-- Of three keys the one in the middle is deleted, whose node has two children. -/
theorem rbtree_delete_detaches_successor :
    let k : CString := ⟨[107], by decide⟩
    let k' : CString := ⟨[108], by decide⟩
    let k'' : CString := ⟨[109], by decide⟩
    ∃ T₁ rs T, (initRbtree true .free).run Rbtree.static = .ok (0, T₁) ∧
      (runCalls treeOp [.put true k k, .put true k' k, .put true k'' k]).run T₁ = .ok (rs, T) ∧
      ∀ k, (existKvRbtree (some k)).run T = .ok (1, T) →
        ∃ z y T₂ T₃ T', (rbtreeSearch k).run T = .ok (z, T) ∧ mutexLock.run T = .ok ((), T₂) ∧
          (rbtreeDelete z).run T₂ = .ok (y, T₃) ∧ Detached T y T₃ ∧
          (deleteKvRbtree (some k)).run T = .ok (0, T') ∧ T'.mem = T₃.mem.release y ∧
          T'.root = T₃.root ∧ Detached T y T' :=
  rbtree_delete_detaches Rbtree.static .free (by decide) _ (by decide)

end KvStore
