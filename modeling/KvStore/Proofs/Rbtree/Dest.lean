/-
Taking the tree down.

`dest_rbtree` deletes the smallest node until there is none.  Its loop is entered with the
node that was freed last, so the test of the loop never ends it; what does is
`rbtree_mini`, which on an empty tree reads the sentinel's left pointer and finds the
sentinel.  A round frees one node of the tree, and the rest is again a tree the engine
maintains.
-/
import KvStore.Proofs.Rbtree.Invariant
import KvStore.Proofs.Rbtree.Ops

namespace KvStore

open KvStore.Tree Ctx

section Rounds

variable {T : Rbtree} {np node : Ptr} {t : Tree Entry}

/-- On an empty tree `rbtree_mini` finds the sentinel. -/
theorem rbtreeMini_nil (h : Rep T np .nil) : (rbtreeMini T.root).run T = .ok (T.nil, T) := by
  have hleft : (getChild .left T.nil).run T = .ok (T.nil, T) := getChild_run h.sentinel .left
  have hstep : (rbtreeMiniStep T.nil).run T = .ok (.inr T.nil, T) :=
    run_bind_of (run_get T) (run_bind_of hleft (run_ite_neg (by simp) rfl))
  rw [h.root]
  exact run_bind_of (run_get T) (loop_inr hstep)

/-- The round that finds no node. -/
theorem dest_last (h : Rep T np .nil) (hnode : node ≠ T.nil) :
    (destRbtreeStep node).run T = .ok (.inr (), T) := by
  refine run_bind_of (run_get T) (run_ite_pos hnode (run_bind_of (rbtreeMini_nil h) ?_))
  exact run_ite_pos rfl rfl

/-- **A round frees one node**, and leaves the rest of the tree in order. -/
theorem dest_round {c : Color} {l r : Tree Entry} {e : Entry} (h : Rep T np (.node c l e r))
    (hinv : TreeInv (.node c l e r)) (hlock : T.lock ≠ .held) (hnode : node ≠ T.nil) :
    ∃ y T' np' t', (destRbtreeStep node).run T = .ok (.inl y, T') ∧ Rep T' np' t' ∧ TreeInv t' ∧
      (Tree.node c l e r).ptrs.Perm (y :: t'.ptrs) ∧ y ≠ T'.nil ∧ T'.nil = T.nil ∧
      T'.lock = T.lock ∧
      ∀ p, (T'.mem.cells p).isSome ↔ (T.mem.cells p).isSome ∧ p ≠ y := by
  obtain ⟨mu, hmu, hunlock⟩ := Mutex.lock_unlock hlock
  have htop : Rep T np (fill [] (.node c l e r)) := h
  obtain ⟨z, hmini, ctx, c', a, u, hfill, -, rfl⟩ := rbtreeMini_spec htop
  rw [hfill] at h hinv ⊢
  have hat : Rep T np (fill ctx (branch .left c' .nil a u)) := h
  have hrep : Rep { T with lock := mu } np (fill ctx (.node c' .nil a u)) :=
    h.congr rfl rfl (fun _ _ => rfl)
  obtain ⟨T₂, y, np', t', hdel, hd⟩ := rbtreeDelete_spec rotates_rotate hrep hinv
  obtain ⟨nd, hcell⟩ := hd.cell hrep
  let T₃ : Rbtree := { T₂ with lock := T₂.lock.unlock }
  refine ⟨y, { T₃ with mem := T₃.mem.release y }, np', t', ?_,
    (hd.release hrep).congr rfl rfl (fun _ _ => rfl), hd.treeInv hinv, hd.ptrs, (hd.apart hrep).1,
    hd.keeps.nil, ?_, ?_⟩
  · have hroot : (rbtreeMini T.root).run T = .ok (a.ptr, T) := by
      rw [htop.root]
      exact hmini
    refine run_bind_of (run_get T) (run_ite_pos hnode (run_bind_of hroot ?_))
    refine run_ite_neg hat.ptr_ne_nil (run_bind_of (mutexLock_run hmu) (run_bind_of hdel ?_))
    exact run_bind_of rfl (run_bind_of (free_run (s := T₃) hcell) rfl)
  · show T₂.lock.unlock = T.lock
    rw [show T₂.lock = mu from hd.keeps.lock, hunlock]
  · intro p
    show (((T₂.mem.release y).cells p).isSome ↔ _)
    by_cases hp : p = y
    · subst hp
      simp [Mem.release_self]
    · rw [Mem.release_of_ne _ hp, hd.keeps.alloc p]
      simp [hp]

/-- The rounds of the loop free the nodes of the tree, each of them once. -/
theorem dest_loops (h : Rep T np t) (hinv : TreeInv t) (hlock : T.lock ≠ .held)
    (hnode : node ≠ T.nil) :
    ∃ ys T' np', Loops destRbtreeStep node T ys () T' ∧ t.ptrs.Perm ys ∧ Rep T' np' .nil ∧
      T'.nil = T.nil ∧ ∀ p, (T'.mem.cells p).isSome ↔ (T.mem.cells p).isSome ∧ p ∉ ys := by
  -- By induction on the number of nodes; deleting one may change the shape of the tree.
  generalize hn : t.ptrs.length = n
  induction n generalizing T np t node with
  | zero =>
      cases t with
      | nil => exact ⟨[], T, np, .leave (dest_last h hnode), .nil, h, rfl, by simp⟩
      | node c l e r => simp [Tree.ptrs, toList] at hn
  | succ n ih =>
      cases t with
      | nil => cases hn
      | node c l e r =>
          obtain ⟨y, T₁, np₁, t₁, hround, hrep₁, hinv₁, hptrs, hy, hnil, hlock₁, hsome⟩ :=
            dest_round h hinv hlock hnode
          have hlen : t₁.ptrs.length = n := by
            have := hptrs.length_eq
            rw [List.length_cons] at this
            omega
          obtain ⟨ys, T', np', hloops, hperm, hrep', hnil', hsome'⟩ :=
            ih hrep₁ hinv₁ (by rw [hlock₁]; exact hlock) hy hlen
          refine ⟨y :: ys, T', np', .again hround hloops, hptrs.trans (hperm.cons y), hrep',
            hnil'.trans hnil, ?_⟩
          intro p
          rw [hsome' p, hsome p, List.mem_cons, not_or, and_assoc]

end Rounds

/-! ### Over whole runs -/

/--
**`dest_rbtree` empties every tree and frees each node once**: after any run from a fresh
engine its loop goes round once for each node, with one call of `rbtree_delete` each, and
the nodes it frees are those of the tree.  It is left by `rbtree_mini` on the empty tree, and
what is then still allocated is the sentinel, which is freed last, or older than the tree.
-/
theorem destRbtree_frees_all (T₀ : Rbtree) (mu : Mutex) (hmu : mu ≠ .held) (ops : List TreeOp)
    (hops : ∀ op ∈ ops, op.KeyFitting) :
    ∃ T₁ rs T ps ys T', (initRbtree true mu).run T₀ = .ok (0, T₁) ∧
      (runCalls treeOp ops).run T₁ = .ok (rs, T) ∧
      InOrder T T.root ps ∧ ps.Nodup ∧
      Loops destRbtreeStep T.root T ys () T' ∧ ps.Perm ys ∧
      (∀ p ∈ ps, T'.mem.cells p = none) ∧
      T'.root = T'.nil ∧ T'.nil = T.nil ∧ (rbtreeMini T'.root).run T' = .ok (T'.nil, T') ∧
      (∀ p, (T'.mem.cells p).isSome → p = T'.nil ∨ (T₀.mem.cells p).isSome) ∧
      destRbtree.run T = .ok ((), { T' with mem := T'.mem.release T'.nil }) := by
  obtain ⟨T₁, rs, T, hinit, hrun, ⟨np, t, m, hst, honly⟩, hlock⟩ := treeRun_spec T₀ hmu ops hops
  have hrep := hst.rep
  have horder : InOrder T T.root t.ptrs := by
    rw [hrep.root]
    exact inOrder_of_cells hrep.cells hrep.nil_notMem
  obtain ⟨ys, T', np', hloops, hperm, hrep', hnil, hsome⟩ : ∃ ys T' np',
      Loops destRbtreeStep T.root T ys () T' ∧ t.ptrs.Perm ys ∧ Rep T' np' .nil ∧
      T'.nil = T.nil ∧ ∀ p, (T'.mem.cells p).isSome ↔ (T.mem.cells p).isSome ∧ p ∉ ys := by
    by_cases hroot : T.root = T.nil
    · -- An empty tree: the loop is not entered.
      cases t with
      | nil =>
          refine ⟨[], T, np, .leave ?_, .nil, hrep, rfl, by simp⟩
          exact run_bind_of (run_get T) (run_ite_neg (by simpa using hroot) rfl)
      | node c l e r =>
          have hat : Rep T np (fill [] (branch .left c l e r)) := hrep
          exact absurd (hrep.root.symm.trans hroot) hat.ptr_ne_nil
    · exact dest_loops hrep hst.inv hlock hroot
  refine ⟨T₁, rs, T, t.ptrs, ys, T', hinit, hrun, horder, (List.nodup_cons.mp hrep.nodup).2, hloops,
    hperm, ?_, hrep'.root, hnil, rbtreeMini_nil hrep', ?_, ?_⟩
  · intro p hp
    have hnone : ¬ (T'.mem.cells p).isSome := fun hc => ((hsome p).mp hc).2 (hperm.mem_iff.mp hp)
    simpa using hnone
  · intro p hp
    obtain ⟨hold, hys⟩ := (hsome p).mp hp
    rw [← hperm.mem_iff] at hys
    rcases honly p hold with hc | hc
    · exact Or.inr hc
    · rw [hnil]
      exact Or.inl ((List.mem_cons.mp hc).resolve_right hys)
  · have hfuel : ys.length < T.fuel := by
      have hlt := hrep.length_lt
      rw [← hperm.length_eq, Tree.ptrs, List.length_map, Rbtree.fuel]
      omega
    refine run_bind_of (run_get T) (run_bind_of (hloops.run hfuel) ?_)
    exact run_bind_of (run_get T') (free_run hrep'.sentinel)

/-- Three nodes are freed, one after the other. -/
theorem destRbtree_frees_all_three :
    let k : CString := ⟨[107], by decide⟩
    let k' : CString := ⟨[108], by decide⟩
    let k'' : CString := ⟨[109], by decide⟩
    ∃ T₁ rs T ps ys T', (initRbtree true .free).run Rbtree.static = .ok (0, T₁) ∧
      (runCalls treeOp [.put true k k, .put true k' k, .put true k'' k]).run T₁ = .ok (rs, T) ∧
      InOrder T T.root ps ∧ ps.Nodup ∧
      Loops destRbtreeStep T.root T ys () T' ∧ ps.Perm ys ∧
      (∀ p ∈ ps, T'.mem.cells p = none) ∧
      T'.root = T'.nil ∧ T'.nil = T.nil ∧ (rbtreeMini T'.root).run T' = .ok (T'.nil, T') ∧
      (∀ p, (T'.mem.cells p).isSome → p = T'.nil ∨ (Rbtree.static.mem.cells p).isSome) ∧
      destRbtree.run T = .ok ((), { T' with mem := T'.mem.release T'.nil }) :=
  destRbtree_frees_all Rbtree.static .free (by decide) _ (by decide)

end KvStore
