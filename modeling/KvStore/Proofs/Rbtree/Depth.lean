/-
How far down the tree's functions go.

A red-black tree with `n` nodes has no way down of more than `2 * log2 (n + 1)` nodes, and
every function goes down one way only: the search to the node with the key or to the
sentinel, the insertion to the place for the new node, and the deletion from the node found
on to its successor.  The bound on the ways is `Bal.depth_log`; this file counts the rounds
of the loops against it.
-/
import KvStore.Proofs.Rbtree.Invariant
import KvStore.Proofs.Rbtree.Ops

namespace KvStore

open KvStore.Tree Ctx

/-- Following child pointers from `p` passes `n` nodes and comes to `q`. -/
inductive WayDown (T : Rbtree) : Ptr → Nat → Ptr → Prop
  | here (p : Ptr) : WayDown T p 0 p
  | step {p q : Ptr} {nd : RbNode} {n : Nat} (d : Dir) (hp : p ≠ T.nil)
      (hcell : T.mem.cells p = some nd) (hway : WayDown T (nd.child d) n q) : WayDown T p (n + 1) q

/-- No way from the root, and none of the engine's functions, goes down through more nodes. -/
structure DescendsWithin (T : Rbtree) (h : Nat) : Prop where
  ways : ∀ n, WayDown T T.root n T.nil → n ≤ h
  /-- the search moves on once for each node it passes, and looks at one more if it finds it -/
  search : ∀ k, ∃ xs p, Loops (rbtreeSearchStep k) T.root T xs p T ∧
    xs.length + (if p = T.nil then 0 else 1) ≤ h
  /-- `rbtree_insert`, called for a key that is not stored -/
  insert : ∀ k v, KeyFits k → (existKvRbtree (some k)).run T = .ok (0, T) →
    ∃ mu xs y, T.lock.lock = .ok mu ∧
      (putKvRbtree true (some k) (some v)).run T =
        (do rbtreeInsert T.mem.next
            modify fun T => { T with nbElements := T.nbElements + 1 }
            mutexUnlock
            pure 0 : Prog Rbtree Int).run (putState T mu k v) ∧
      Loops (rbtreeInsertStep T.mem.next) (T.nil, T.root) (putState T mu k v) xs (some y)
        (putState T mu k v) ∧ xs.length ≤ h
  /-- `rbtree_delete`, called for the node with a stored key: after the search it goes on
  from the right child only if the node has two children -/
  delete : ∀ k mu, (existKvRbtree (some k)).run T = .ok (1, T) →
    ∃ xs z y, Loops (rbtreeSearchStep k) T.root T xs z T ∧
      (rbtreeDeleteVictim z).run { T with lock := mu } = .ok (y, { T with lock := mu }) ∧
      ((y = z ∧ xs.length + 1 ≤ h) ∨
        ∃ zr ys, (getChild .right z).run { T with lock := mu } = .ok (zr, { T with lock := mu }) ∧
          Loops rbtreeMiniStep zr { T with lock := mu } ys y { T with lock := mu } ∧
          (xs.length + 1) + (ys.length + 1) ≤ h)

/-! ### Counting rounds -/

section Count

variable {T : Rbtree} {np : Ptr} {t : Tree Entry} {key : CString}

theorem wayDown_le {par p q : Ptr} {n : Nat} (hcells : Cells T.mem T.nil par t)
    (hnil : T.nil ∉ t.ptrs) (hway : WayDown T p n q) (hp : p = t.ptr T.nil) : n ≤ t.depth := by
  induction hway generalizing t par with
  | here p => exact Nat.zero_le _
  | step d hne hcell _ ih =>
      cases t with
      | nil => exact absurd hp hne
      | node c l e r =>
          obtain ⟨he, hl, hr⟩ := hcells
          simp only [Tree.ptrs, toList, List.map_append, List.map_cons, List.mem_append,
            List.mem_cons, not_or] at hnil
          rw [hp, show (Tree.node c l e r).ptr T.nil = e.ptr from rfl, he] at hcell
          cases hcell
          refine Nat.succ_le_succ ?_
          cases d with
          | left => exact (ih hl hnil.1 rfl).trans (le_max_left ..)
          | right => exact (ih hr hnil.2.2 rfl).trans (le_max_right ..)

/-- The search at a position, with the rounds that are left at most. -/
def SearchAt (T : Rbtree) (t : Tree Entry) (key : CString) (n : Nat) (x : Ptr) (T' : Rbtree) :
    Prop :=
  ∃ ctx sub, n + ctx.length = t.depth ∧ x = sub.ptr T.nil ∧ t = fill ctx sub ∧
    Splits Entry.name ctx key ∧ T' = T

/-- The search makes one round for each frame above the node it finds. -/
theorem search_loops (h : Rep T np t) (hinv : TreeInv t) (key : CString) :
    ∃ xs p, Loops (rbtreeSearchStep key) T.root T xs p T ∧
      ((p = T.nil ∧ (∀ e ∈ t.toList, e.name ≠ key) ∧ xs.length ≤ t.depth) ∨
        ∃ ctx c l e r, t = fill ctx (.node c l e r) ∧ e.name = key ∧ p = e.ptr ∧
          xs.length ≤ ctx.length) := by
  have hstep : ∀ n x T', SearchAt T t key n x T' →
      (∃ p T'', (rbtreeSearchStep key x).run T' = .ok (.inr p, T'') ∧
        (T'' = T ∧ ((p = T.nil ∧ ∀ e ∈ t.toList, e.name ≠ key) ∨
          ∃ ctx c l e r, t = fill ctx (.node c l e r) ∧ e.name = key ∧ p = e.ptr ∧
            n + ctx.length = t.depth))) ∨
      (∃ x' T'' m, (rbtreeSearchStep key x).run T' = .ok (.inl x', T'') ∧ m < n ∧
        SearchAt T t key m x' T'') := by
    rintro n x T' ⟨ctx, sub, hn, rfl, rfl, hsplit, rfl⟩
    cases sub with
    | nil => exact Or.inl ⟨T'.nil, T', search_nil T' key, rfl, Or.inl ⟨rfl, hsplit.absent⟩⟩
    | node c l e r =>
        rcases search_at h hinv hsplit with ⟨hrun, hname⟩ | ⟨d, near, far, heq, hsplit', hrun⟩
        · exact Or.inl ⟨e.ptr, T', hrun, rfl, Or.inr ⟨ctx, c, l, e, r, rfl, hname, rfl, hn⟩⟩
        · have hdepth := depth_fill ctx (.node c l e r)
          simp only [Tree.depth] at hdepth
          refine Or.inr ⟨near.ptr T'.nil, T', n - 1, hrun, by omega, ⟨d, c, e, far⟩ :: ctx, near, ?_,
            rfl, by rw [heq]; rfl, hsplit', rfl⟩
          rw [List.length_cons]
          omega
  obtain ⟨xs, m, p, T', hloops, hle, rfl, hp⟩ :=
    loops_total hstep t.depth T.root T ⟨[], t, rfl, h.root, rfl, splits_nil key, rfl⟩
  refine ⟨xs, p, hloops, ?_⟩
  rcases hp with ⟨hp, habs⟩ | ⟨ctx, c, l, e, r, hfill, hname, hp, hm⟩
  · exact Or.inl ⟨hp, habs, by omega⟩
  · exact Or.inr ⟨ctx, c, l, e, r, hfill, hname, hp, by omega⟩

/-- The walk to the leftmost node of a subtree passes no more nodes than the subtree is deep. -/
theorem mini_loops {ctx : Ctx Entry} {c : Color} {l u : Tree Entry} {e : Entry}
    (h : Rep T np (fill ctx (.node c l e u))) :
    ∃ xs y, Loops rbtreeMiniStep e.ptr T xs y T ∧ xs.length + 1 ≤ (Tree.node c l e u).depth := by
  induction l generalizing ctx c e u with
  | nil => exact ⟨[], e.ptr, .leave (mini_at h), Nat.succ_le_succ (Nat.zero_le _)⟩
  | node c' l' e' u' ih _ =>
      have hleft : Rep T np (fill (⟨.left, c, e, u⟩ :: ctx) (.node c' l' e' u')) := h
      obtain ⟨xs, y, hloops, hle⟩ := ih hleft
      refine ⟨e'.ptr :: xs, y, .again (mini_at h) hloops, Nat.succ_le_succ ?_⟩
      exact hle.trans (le_max_left ..)

/-- The descent of an insertion passes no more nodes than the tree is deep. -/
theorem descent_loops {z : Entry} {nz : RbNode} (h : Rep T np t) (hinv : TreeInv t)
    (hz : T.mem.cells z.ptr = some nz) (hkey : Reads nz.keyMem z.name)
    (habs : ∀ e ∈ t.toList, e.name ≠ z.name) :
    ∃ xs y, Loops (rbtreeInsertStep z.ptr) (T.nil, T.root) T xs (some y) T ∧
      xs.length ≤ t.depth := by
  have hsub : ∀ (sub : Tree Entry) (ctx : Ctx Entry) (y : Ptr), t = fill ctx sub →
      Splits Entry.name ctx z.name →
      ∃ xs y', Loops (rbtreeInsertStep z.ptr) (y, sub.ptr T.nil) T xs (some y') T ∧
        xs.length ≤ sub.depth := by
    intro sub
    induction sub with
    | nil =>
        intro ctx y _ _
        exact ⟨[], y, .leave (descent_nil T z.ptr y), Nat.le_refl _⟩
    | node c l e r ihl ihr =>
        rintro ctx y rfl hsplit
        rcases descent_at h hinv hz hkey hsplit with ⟨-, hname⟩ | ⟨d, near, far, heq, hsplit', hrun⟩
        · exact absurd hname (habs e (mem_toList_fill (d := .left)))
        have hdepth : near.depth + 1 ≤ (Tree.node c l e r).depth := by
          rw [heq, depth_branch]
          exact Nat.succ_le_succ (le_max_left ..)
        have hnear : fill ctx (.node c l e r) = fill (⟨d, c, e, far⟩ :: ctx) near := by
          rw [heq]
          rfl
        obtain ⟨xs, y', hloops, hle⟩ : ∃ xs y', Loops (rbtreeInsertStep z.ptr)
            (e.ptr, near.ptr T.nil) T xs (some y') T ∧ xs.length ≤ near.depth := by
          cases d with
          | left =>
              cases heq
              exact ihl _ e.ptr hnear hsplit'
          | right =>
              cases heq
              exact ihr _ e.ptr hnear hsplit'
        exact ⟨_, y', .again hrun hloops, by rw [List.length_cons]; omega⟩
  rw [h.root]
  exact hsub t [] T.nil rfl (splits_nil _)

end Count

/-! ### All functions -/

section All

variable {T : Rbtree} {np : Ptr} {t : Tree Entry} {m : Dict CString CString}

/-- Which node is unlinked, and how far down it is. -/
theorem deleteVictim_loops {ctx : Ctx Entry} {c : Color} {l r : Tree Entry} {e : Entry}
    (h : Rep T np (fill ctx (.node c l e r))) :
    ∃ y, (rbtreeDeleteVictim e.ptr).run T = .ok (y, T) ∧
      (y = e.ptr ∨ ∃ zr ys, (getChild .right e.ptr).run T = .ok (zr, T) ∧
        Loops rbtreeMiniStep zr T ys y T ∧ ys.length + 1 ≤ r.depth) := by
  have hat : Rep T np (fill ctx (branch .left c l e r)) := h
  cases l with
  | nil => exact ⟨e.ptr, deleteVictim_self h (Or.inl rfl), Or.inl rfl⟩
  | node cl ll el rl =>
      cases r with
      | nil => exact ⟨e.ptr, deleteVictim_self h (Or.inr rfl), Or.inl rfl⟩
      | node cr lr er rr =>
          have hr : Rep T np (fill (⟨.right, c, e, .node cl ll el rl⟩ :: ctx)
            (.node cr lr er rr)) := h
          obtain ⟨ys, y, hloops, hle⟩ := mini_loops hr
          have hfuel : ys.length < T.fuel := by
            have hdepth := depth_fill (⟨.right, c, e, .node cl ll el rl⟩ :: ctx) (.node cr lr er rr)
            have hlen := depth_le_length
              (fill (⟨.right, c, e, .node cl ll el rl⟩ :: ctx) (.node cr lr er rr))
            have hlt := hr.length_lt
            rw [Rbtree.fuel]
            omega
          refine ⟨y, ?_, Or.inr ⟨er.ptr, ys, hat.getFar, hloops, hle⟩⟩
          rw [deleteVictim_successor h]
          exact run_bind_of (run_get T) (hloops.run hfuel)

/-- **The engine's functions go down no further than the tree is deep.** -/
theorem Stores.descendsWithin (h : Stores T np t m) (hlock : T.lock ≠ .held) :
    DescendsWithin T t.depth := by
  refine ⟨?_, ?_, ?_, ?_⟩
  · intro n hway
    exact wayDown_le h.rep.cells h.rep.nil_notMem hway h.rep.root
  · intro k
    obtain ⟨xs, p, hloops, hp⟩ := search_loops h.rep h.inv k
    refine ⟨xs, p, hloops, ?_⟩
    rcases hp with ⟨rfl, -, hn⟩ | ⟨ctx, c, l, e, r, rfl, -, rfl, hn⟩
    · rw [if_pos rfl]
      exact hn
    · have hat : Rep T np (fill ctx (branch .left c l e r)) := h.rep
      have hdepth := depth_fill ctx (.node c l e r)
      rw [if_neg hat.ptr_ne_nil]
      simp only [Tree.depth] at hdepth
      omega
  · intro k v hk hexist
    have habs : k ∉ m := by
      intro hc
      rw [h.exist k, if_pos hc] at hexist
      cases hexist
    obtain ⟨mu, hmu, -⟩ := Mutex.lock_unlock hlock
    have hst := h.putState mu k v
    have hnew := h.make_new hk habs T.mem.next v
    have hcell : (KvStore.putState T mu k v).mem.cells (Entry.make T.mem.next k v).ptr =
        some (newCell T.nil k v) := Mem.alloc_self ..
    obtain ⟨xs, y, hloops, hn⟩ :=
      descent_loops hst.rep hst.inv hcell (Entry.make_sound hk).reads hnew
    exact ⟨mu, xs, y, hmu, putKvRbtreeBy_run v (h.search_absent habs) hmu, hloops, hn⟩
  · intro k mu hexist
    have hmem : k ∈ m := by
      by_contra hc
      rw [h.exist k, if_neg hc] at hexist
      cases hexist
    obtain ⟨xs, p, hloops, hp⟩ := search_loops h.rep h.inv k
    rcases hp with ⟨-, habs, -⟩ | ⟨ctx, c, l, e, r, rfl, -, rfl, hn⟩
    · exact absurd hmem (h.notMem habs)
    · have hrep : Rep { T with lock := mu } np (fill ctx (.node c l e r)) :=
        h.rep.congr rfl rfl (fun _ _ => rfl)
      obtain ⟨y, hvictim, hy⟩ := deleteVictim_loops hrep
      have hdepth := depth_fill ctx (.node c l e r)
      simp only [Tree.depth] at hdepth
      refine ⟨xs, e.ptr, y, hloops, hvictim, ?_⟩
      rcases hy with rfl | ⟨zr, ys, hfar, hmini, hn'⟩
      · exact Or.inl ⟨rfl, by omega⟩
      · exact Or.inr ⟨zr, ys, hfar, hmini, by omega⟩

end All

/-! ### Over whole runs -/

/--
**The depth is logarithmic after every history**: after any run of puts and deletes from a
fresh engine, whatever the values and the order of the keys, no way from the root to the
sentinel has more than `h` nodes with `2 ^ h ≤ (n + 1) ^ 2`, where `n` is the number of keys
that are stored, and search, put and delete go down through no more nodes than that.
-/
theorem rbtree_depth_logarithmic (T₀ : Rbtree) (mu : Mutex) (hmu : mu ≠ .held) (ops : List TreeOp)
    (hops : ∀ op ∈ ops, op.KeyFitting) :
    ∃ T₁ rs T h, ∃ K : Finset CString, (initRbtree true mu).run T₀ = .ok (0, T₁) ∧
      (runCalls treeOp ops).run T₁ = .ok (rs, T) ∧
      (∀ k, k ∈ K ↔ (existKvRbtree (some k)).run T = .ok (1, T)) ∧
      2 ^ h ≤ (K.card + 1) ^ 2 ∧ DescendsWithin T h := by
  obtain ⟨T₁, rs, T, hinit, hrun, ⟨np, t, m, hst, -⟩, hlock⟩ := treeRun_spec T₀ hmu ops hops
  obtain ⟨n, hbal⟩ := hst.inv.balanced
  refine ⟨T₁, rs, T, t.depth, m.keys, hinit, hrun, ?_, ?_, hst.descendsWithin hlock⟩
  · intro k
    rw [Finmap.mem_keys, hst.exist k]
    by_cases hk : k ∈ m
    · simp [hk]
    · simp [hk]
  · rw [hst.holds.card, List.length_map]
    exact hbal.depth_log

/-- Three keys in ascending order. -/
theorem rbtree_depth_logarithmic_ascending :
    let k : CString := ⟨[107], by decide⟩
    let k' : CString := ⟨[108], by decide⟩
    let k'' : CString := ⟨[109], by decide⟩
    ∃ T₁ rs T h, ∃ K : Finset CString,
      (initRbtree true .free).run Rbtree.static = .ok (0, T₁) ∧
      (runCalls treeOp [.put true k k, .put true k' k, .put true k'' k]).run T₁ = .ok (rs, T) ∧
      (∀ k, k ∈ K ↔ (existKvRbtree (some k)).run T = .ok (1, T)) ∧
      2 ^ h ≤ (K.card + 1) ^ 2 ∧ DescendsWithin T h :=
  rbtree_depth_logarithmic Rbtree.static .free (by decide) _ (by decide)

end KvStore
