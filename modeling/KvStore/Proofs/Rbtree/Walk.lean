/-
The order in which the tree is gone through.

`rbtree_mini`, `rbtree_maxi` and `rbtree_successor` are ends of the tree's list and the step
from one of its nodes to the next.  Where a node has no right child the step is a climb: the
frames above it whose hole is on the right are left behind, and the first other one is the next
node.  `rbtree_traversal` prints the list.
-/
import KvStore.Engine.RbtreeWalk
import KvStore.Proofs.Rbtree.Dest
import KvStore.Proofs.Rbtree.Invariant
import KvStore.Proofs.Rbtree.Ops

namespace KvStore

open KvStore.Tree Ctx

/-! ### The ends -/

section Ends

variable {T : Rbtree} {np : Ptr} {ctx : Ctx Entry} {t r : Tree Entry}

/-- The address of the first node of a list, or the sentinel's. -/
def firstPtr (nil : Ptr) (l : List Entry) : Ptr := (l.head?.map Entry.ptr).getD nil

/-- The leftmost node is the first. -/
theorem Leftmost.first {p : Ptr} (h : Leftmost r p) (nil : Ptr) : p = firstPtr nil r.toList := by
  obtain ⟨ctx₁, c, e, u, rfl, hbefore, rfl⟩ := h
  rw [toList_fill, hbefore]
  rfl

theorem rbtreeMini_first (h : Rep T np t) :
    (rbtreeMini T.root).run T = .ok (firstPtr T.nil t.toList, T) := by
  cases t with
  | nil => exact rbtreeMini_nil h
  | node c l e u =>
      have htop : Rep T np (fill [] (.node c l e u)) := h
      obtain ⟨p, hrun, hp⟩ := rbtreeMini_spec htop
      rw [h.root, ← hp.first T.nil]
      exact hrun

/-- The walk to the right has come to the subtree at `x`. -/
def MaxiInv (T : Rbtree) (r : Tree Entry) (n : Nat) (x : Ptr) (T' : Rbtree) : Prop :=
  ∃ ctx₁ c l e u, r = fill ctx₁ (.node c l e u) ∧ after ctx₁ = [] ∧ n = u.toList.length ∧
    x = e.ptr ∧ T' = T

theorem maxi_step (h : Rep T np (fill ctx r)) :
    ∀ n x T', MaxiInv T r n x T' →
      (∃ p T'', (rbtreeMaxiStep x).run T' = .ok (.inr p, T'') ∧
        T'' = T ∧ some p = r.toList.getLast?.map Entry.ptr) ∨
      (∃ x' T'' m, (rbtreeMaxiStep x).run T' = .ok (.inl x', T'') ∧ m < n ∧
        MaxiInv T r m x' T'') := by
  rintro n x T' ⟨ctx₁, c, l, e, u, rfl, hafter, rfl, rfl, rfl⟩
  rw [← fill_append] at h
  have hat : Rep T' np (fill (ctx₁ ++ ctx) (branch .right c u e l)) := h
  cases u with
  | nil =>
      refine Or.inl ⟨e.ptr, T', run_bind_of (run_get T') (run_bind_of hat.getNear
        (run_ite_neg (by simp) rfl)), rfl, ?_⟩
      rw [toList_fill, hafter]
      simp [toList]
  | node c' l' e' u' =>
      have hright :
          Rep T' np (fill (⟨.right, c, e, l⟩ :: (ctx₁ ++ ctx)) (branch .left c' l' e' u')) := hat
      refine Or.inr ⟨e'.ptr, T', u'.toList.length, run_bind_of (run_get T') (run_bind_of hat.getNear
        (run_ite_pos hright.ptr_ne_nil rfl)), ?_, ⟨.right, c, e, l⟩ :: ctx₁, c', l', e', u', rfl,
        ?_, rfl, rfl, rfl⟩
      · simp only [toList, List.length_append, List.length_cons]
        omega
      · simp [after, Frame.after, hafter]

theorem rbtreeMaxi_last (h : Rep T np t) :
    (rbtreeMaxi T.root).run T = .ok ((t.toList.getLast?.map Entry.ptr).getD T.nil, T) := by
  cases t with
  | nil =>
      refine run_bind_of (run_get T) ?_
      rw [h.root, Rbtree.fuel]
      have hstep : (rbtreeMaxiStep T.nil).run T = .ok (.inr T.nil, T) :=
        run_bind_of (run_get T) (run_bind_of (getChild_run h.sentinel .right)
          (run_ite_neg (by simp [nilCell, RbNode.child]) rfl))
      exact loop_inr hstep
  | node c l e u =>
      have htop : Rep T np (fill [] (.node c l e u)) := h
      have hlt := h.length_lt
      simp only [toList, List.length_append, List.length_cons] at hlt
      obtain ⟨p, T', hrun, rfl, hp⟩ := loop_total (maxi_step htop) T.fuel u.toList.length e.ptr T
        ⟨[], c, l, e, u, rfl, rfl, rfl, rfl, rfl⟩ (by rw [Rbtree.fuel]; omega)
      rw [h.root, ← hp]
      exact run_bind_of (run_get _) hrun

end Ends

/-! ### The step -/

section Successor

variable {T : Rbtree} {np : Ptr} {ctx : Ctx Entry} {t : Tree Entry}

/-- The climb from a subtree ends at the node that comes next after it. -/
theorem climb_run (h : Rep T np (fill ctx t)) (ht : t ≠ .nil) :
    ∀ {fuel : Nat}, ctx.length < fuel →
      (loop rbtreeSuccessorStep fuel (t.ptr T.nil, ctxPtr T.nil ctx)).run T =
        .ok (firstPtr T.nil (after ctx), T) := by
  induction ctx generalizing t with
  | nil =>
      intro fuel hfuel
      obtain ⟨fuel, rfl⟩ : ∃ m, fuel = m + 1 := ⟨fuel - 1, by omega⟩
      have hstep : (rbtreeSuccessorStep (t.ptr T.nil, T.nil)).run T = .ok (.inr T.nil, T) :=
        run_bind_of (run_get T) (run_ite_neg (by simp) rfl)
      exact loop_inr hstep
  | cons f fs ih =>
      intro fuel hfuel
      rw [List.length_cons] at hfuel
      obtain ⟨fuel, rfl⟩ : ∃ m, fuel = m + 1 := ⟨fuel - 1, by omega⟩
      obtain ⟨d, c, e, u⟩ := f
      have hup : Rep T np (fill fs (branch d c t e u)) := h
      have hne := hup.ptr_ne_nil
      cases d with
      | right =>
          have hstep : (rbtreeSuccessorStep (t.ptr T.nil, e.ptr)).run T =
              .ok (.inl (e.ptr, ctxPtr T.nil fs), T) :=
            run_bind_of (run_get T) (run_ite_pos hne (run_bind_of hup.getNear
              (run_ite_pos rfl (run_bind_of hup.getUp rfl))))
          have hnext := @ih _ hup (branch_ne_nil .right c t u e) fuel (by omega)
          rw [ptr_branch] at hnext
          exact (loop_inl hstep).trans hnext
      | left =>
          -- The sibling is another node, or the sentinel.
          have hother : t.ptr T.nil ≠ u.ptr T.nil := by
            have hnd := h.distinct
            obtain ⟨a, ha⟩ : ∃ a, t.ptr T.nil = a ∧ a ∈ t.ptrs := by
              rcases (Tree.ptr_mem : t.ptr T.nil = T.nil ∨ _) with hc | hc
              · exact absurd (Tree.eq_nil_of_ptr (fun hm => (List.nodup_cons.mp hnd).1
                  (List.mem_append_left _ hm)) hc) ht
              · exact ⟨_, rfl, hc⟩
            rw [ha.1]
            rcases (Tree.ptr_mem : u.ptr T.nil = T.nil ∨ _) with hc | hc
            · rw [hc]
              rintro rfl
              exact (List.nodup_cons.mp hnd).1 (List.mem_append_left _ ha.2)
            · intro heq
              refine (List.nodup_append.mp (List.nodup_cons.mp hnd).2).2.2 a ha.2 a ?_ rfl
              rw [ctxPtrs, heq]
              exact List.mem_cons_of_mem _ (List.mem_append_left _ hc)
          have hstep : (rbtreeSuccessorStep (t.ptr T.nil, e.ptr)).run T = .ok (.inr e.ptr, T) :=
            run_bind_of (run_get T) (run_ite_pos hne (run_bind_of hup.getFar
              (run_ite_neg hother rfl)))
          exact loop_inr hstep

/-- **The successor of a node is the node behind it in the list**, or the sentinel. -/
theorem rbtreeSuccessor_next {A B : List Entry} {e : Entry} (h : Rep T np t)
    (hlist : t.toList = A ++ e :: B) :
    (rbtreeSuccessor e.ptr).run T = .ok (firstPtr T.nil B, T) := by
  obtain ⟨ctx, c, l, r, rfl⟩ := exists_position (show e ∈ t.toList by rw [hlist]; simp)
  -- An address occurs once in the list, so the two ways to split it are the same.
  have hB : B = r.toList ++ after ctx := by
    have hnd : (fill ctx (.node c l e r)).toList.Nodup :=
      ((List.nodup_cons.mp h.nodup).2).of_map _
    have hsplit := hlist
    rw [toList_fill, toList, List.append_assoc, List.append_assoc, List.cons_append,
      ← List.append_assoc] at hsplit
    rw [hlist] at hnd
    have hA := List.nodup_append.mp hnd
    have hnotA : e ∉ A := fun hc => hA.2.2 e hc e List.mem_cons_self rfl
    exact ((List.append_cons_inj_of_notMem hnotA (List.nodup_cons.mp hA.2.1).1).mp hsplit.symm).2.2
  have hat : Rep T np (fill ctx (branch .left c l e r)) := h
  rw [hB]
  cases r with
  | nil =>
      refine run_bind_of (run_get T) (run_bind_of hat.getUp (run_bind_of hat.getFar
        (run_ite_neg (by simp) ?_)))
      have hlen : ctx.length < T.fuel := by
        have hle := Ctx.length_le ctx (Tree.node c l e .nil)
        have hlt := h.length_lt
        rw [Rbtree.fuel]
        omega
      have hclimb := climb_run h (by simp) hlen
      exact hclimb
  | node c' l' e' r' =>
      have hright : Rep T np (fill (⟨.right, c, e, l⟩ :: ctx) (.node c' l' e' r')) := h
      obtain ⟨p, hmini, hp⟩ := rbtreeMini_spec hright
      have hne : Rep T np (fill (⟨.right, c, e, l⟩ :: ctx) (branch .left c' l' e' r')) := h
      refine run_bind_of (run_get T) (run_bind_of hat.getUp (run_bind_of hat.getFar
        (run_ite_pos hne.ptr_ne_nil ?_)))
      refine hmini.trans ?_
      obtain ⟨a, as, has⟩ : ∃ a as, (Tree.node c' l' e' r').toList = a :: as :=
        List.exists_cons_of_ne_nil (by simp [toList])
      rw [hp.first T.nil, has]
      rfl

end Successor

/-! ### The traversal -/

section Traversal

variable {T : Rbtree} {np : Ptr} {t : Tree Entry} {m : Dict CString CString}

/-- What the traversal prints for a node. -/
def Entry.line (e : Entry) : List Byte := keyValueLine e.name e.text

/-- The subtree at a node is printed in order, when the strings of its nodes end. -/
theorem traversal_run {par : Ptr} (hcells : Cells T.mem T.nil par t) (hnil : T.nil ∉ t.ptrs)
    (hsound : ∀ e ∈ t.toList, e.Sound ∧ e.Terminated) :
    ∀ {fuel : Nat}, t.depth < fuel →
      (rbtreeTraversal fuel (t.ptr T.nil)).run T = .ok (t.toList.flatMap Entry.line, T) := by
  induction t generalizing par with
  | nil =>
      intro fuel hfuel
      obtain ⟨fuel, rfl⟩ : ∃ m, fuel = m + 1 := ⟨fuel - 1, by omega⟩
      exact run_bind_of (run_get T) (run_ite_neg (by simp) rfl)
  | node c l e r ihl ihr =>
      intro fuel hfuel
      obtain ⟨fuel, rfl⟩ : ∃ m, fuel = m + 1 := ⟨fuel - 1, by omega⟩
      obtain ⟨he, hl, hr⟩ := hcells
      simp only [Tree.ptrs, toList, List.map_append, List.map_cons, List.mem_append, List.mem_cons,
        not_or] at hnil
      simp only [toList, List.mem_append, List.mem_cons] at hsound
      rw [depth] at hfuel
      have hleft := @ihl _ hl hnil.1 (fun a ha => hsound a (Or.inl ha)) fuel (by omega)
      have hright := @ihr _ hr hnil.2.2 (fun a ha => hsound a (Or.inr (Or.inr ha))) fuel (by omega)
      obtain ⟨hs, hterm⟩ := hsound e (Or.inr (Or.inl rfl))
      have hkey : cstr (cell .left c (l.ptr T.nil) (r.ptr T.nil) par e).keyMem = .ok e.name :=
        cstr_of_reads hs.reads
      have hvalue : cstr (cell .left c (l.ptr T.nil) (r.ptr T.nil) par e).valueMem = .ok e.text :=
        cstr_of_reads hterm
      refine run_bind_of (run_get T) (run_ite_pos (Ne.symm hnil.2.1) ?_)
      refine run_bind_of (getChild_run he .left) (run_bind_of hleft (run_bind_of (deref_run he) ?_))
      rw [hkey, hvalue]
      refine run_bind_of rfl (run_bind_of rfl (run_bind_of (getChild_run he .right) ?_))
      refine run_bind_of hright ?_
      rw [toList, List.flatMap_append, List.flatMap_cons, ← List.append_assoc]
      rfl

/-- The pairs of a tree in the order of their keys. -/
theorem Stores.sorted (h : Stores T np t m) :
    ((t.toList.map Entry.pair).map Prod.fst).Pairwise (· < ·) := by
  rw [List.map_map, List.pairwise_map]
  exact h.inv.ascending

theorem Stores.traversal (h : Stores T np t m) (hterm : ∀ e ∈ t.toList, e.Terminated) :
    (rbtreeTraversal T.fuel T.root).run T =
      .ok ((t.toList.map Entry.pair).flatMap fun kv => keyValueLine kv.1 kv.2, T) := by
  rw [List.flatMap_map, h.rep.root]
  refine traversal_run h.rep.cells h.rep.nil_notMem (fun e he => ⟨h.inv.sound e he, hterm e he⟩) ?_
  have hdepth := Tree.depth_le_length t
  have hlt := h.rep.length_lt
  rw [Rbtree.fuel]
  omega

end Traversal

/-! ### In every state of a run -/

/-- The traversal prints one line for each pair of the map, by ascending keys. -/
def PrintsSorted (T : Rbtree) (m : Dict CString CString) : Prop :=
  ∃ pairs : List (CString × CString), (rbtreeTraversal T.fuel T.root).run T =
      .ok (pairs.flatMap fun kv => keyValueLine kv.1 kv.2, T) ∧
    (pairs.map Prod.fst).Pairwise (· < ·) ∧ ∀ k v, (k, v) ∈ pairs ↔ m.lookup k = some v

/--
**`rbtree_traversal` prints the map in the order of its keys**: after every run of calls whose
strings fit it prints one line for each pair that the map machine holds, by ascending keys, and
changes nothing.
-/
theorem rbtree_traversal_prints (T₀ : Rbtree) (mu : Mutex) (hmu : mu ≠ .held) (calls : List Call)
    (hfit : ∀ c ∈ calls, c.Fits) :
    ∃ T₁ rs T, (initRbtree true mu).run T₀ = .ok (0, T₁) ∧
      (runCalls rbtreeCall calls).run T₁ = .ok (rs, T) ∧
      PrintsSorted T (runMachine rbtreeRules.step ∅ calls).2 := by
  obtain ⟨T₁, T, hinit, hrun, hsim⟩ := rbtreeRun_spec T₀ hmu calls hfit
  obtain ⟨np, t, hst, hterm⟩ := hsim.stores
  exact ⟨T₁, _, T, hinit, hrun, _, hst.traversal hterm, hst.sorted, hst.holds.lookup⟩

/-- Two keys are printed in their order, not in the order in which they were put. -/
theorem rbtree_traversal_prints_two :
    let k : CString := ⟨[107], by decide⟩
    let k' : CString := ⟨[108], by decide⟩
    ∃ T₁ rs T, (initRbtree true .free).run Rbtree.static = .ok (0, T₁) ∧
      (runCalls rbtreeCall [.put k' k, .put k k]).run T₁ = .ok (rs, T) ∧
      PrintsSorted T (runMachine rbtreeRules.step ∅ [.put k' k, .put k k]).2 :=
  rbtree_traversal_prints Rbtree.static .free (by decide) _ (by decide)

/--
**`rbtree_successor` goes through the whole tree**: after every run of puts and deletes whose keys
fit, with any outcome of the allocations, the traversal visits addresses by ascending keys;
`rbtree_mini` of the root is the first of them, `rbtree_maxi` the last, and the successor of each
is the one behind it, the sentinel behind the last.
-/
theorem rbtree_successor_walk (T₀ : Rbtree) (mu : Mutex) (hmu : mu ≠ .held) (ops : List TreeOp)
    (hops : ∀ op ∈ ops, op.KeyFitting) :
    ∃ T₁ rs T ps, (initRbtree true mu).run T₀ = .ok (0, T₁) ∧
      (runCalls treeOp ops).run T₁ = .ok (rs, T) ∧
      InOrder T T.root ps ∧ ps.Pairwise (KeyBefore T) ∧
      (rbtreeMini T.root).run T = .ok (ps.head?.getD T.nil, T) ∧
      (rbtreeMaxi T.root).run T = .ok (ps.getLast?.getD T.nil, T) ∧
      ∀ A p B, ps = A ++ p :: B → (rbtreeSuccessor p).run T = .ok (B.head?.getD T.nil, T) := by
  obtain ⟨T₁, rs, T, hinit, hrun, hT⟩ := treeRun_spec T₀ hmu ops hops
  obtain ⟨np, t, m, hst, -⟩ := hT.stores
  obtain ⟨ps, horder, hsorted⟩ := (rbtreeInvariant_of_rep hst.rep hst.inv).ordered
  have hps : ps = t.toList.map Entry.ptr := by
    refine horder.unique ?_
    rw [hst.rep.root]
    exact inOrder_of_cells hst.rep.cells hst.rep.nil_notMem
  subst hps
  have hfirst : ∀ l : List Entry, firstPtr T.nil l = (l.map Entry.ptr).head?.getD T.nil := by
    intro l
    rw [firstPtr, List.head?_map]
  refine ⟨T₁, rs, T, _, hinit, hrun, horder, hsorted, ?_, ?_, ?_⟩
  · rw [← hfirst]
    exact rbtreeMini_first hst.rep
  · rw [List.getLast?_map]
    exact rbtreeMaxi_last hst.rep
  · intro A p B hsplit
    obtain ⟨A', l, hlist, -, hl⟩ := List.map_eq_append_iff.mp hsplit
    obtain ⟨e, B', rfl, rfl, rfl⟩ := List.map_eq_cons_iff.mp hl
    rw [← hfirst]
    exact rbtreeSuccessor_next hst.rep hlist

/-- Also when a key was deleted from between two others. -/
theorem rbtree_successor_walk_three :
    let k : CString := ⟨[107], by decide⟩
    let k' : CString := ⟨[108], by decide⟩
    let k'' : CString := ⟨[109], by decide⟩
    ∃ T₁ rs T ps, (initRbtree true .free).run Rbtree.static = .ok (0, T₁) ∧
      (runCalls treeOp [.put true k k, .put true k' k, .put true k'' k, .delete k']).run T₁ =
        .ok (rs, T) ∧
      InOrder T T.root ps ∧ ps.Pairwise (KeyBefore T) ∧
      (rbtreeMini T.root).run T = .ok (ps.head?.getD T.nil, T) ∧
      (rbtreeMaxi T.root).run T = .ok (ps.getLast?.getD T.nil, T) ∧
      ∀ A p B, ps = A ++ p :: B → (rbtreeSuccessor p).run T = .ok (B.head?.getD T.nil, T) :=
  rbtree_successor_walk Rbtree.static .free (by decide) _ (by decide)

end KvStore
