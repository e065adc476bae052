/-
The red-black invariant, as statements about memory.

`RbtreeInvariant` says of the graph below `T->root` what the textbook asks of a
red-black tree with a shared sentinel, in terms of addresses and node fields only.
The trees of `Base/RedBlack.lean` do not occur in it; that a state which represents
one satisfies the invariant is `rbtreeInvariant_of_rep`.
-/
import KvStore.Proofs.Rbtree.Engine

namespace KvStore

open KvStore.Tree Ctx

section Statement

variable (T : Rbtree)

/-- The in-order traversal of the subtree at an address visits these addresses. -/
inductive InOrder : Ptr → List Ptr → Prop
  | nil : InOrder T.nil []
  | node {p : Ptr} {nd : RbNode} {ls rs : List Ptr} (hp : p ≠ T.nil)
      (hcell : T.mem.cells p = some nd) (hl : InOrder nd.left ls) (hr : InOrder nd.right rs) :
      InOrder p (ls ++ p :: rs)

/-- A path from an address down to the sentinel passes this many black nodes. -/
inductive BlackPath : Ptr → Nat → Prop
  | nil : BlackPath T.nil 0
  | step {p : Ptr} {nd : RbNode} {n : Nat} (d : Dir) (hp : p ≠ T.nil)
      (hcell : T.mem.cells p = some nd) (hpath : BlackPath (nd.child d) n) :
      BlackPath p (if nd.color = BLACK then n + 1 else n)

/-- `strcmp` puts the key of the node at `p` before that of the node at `q`. -/
def KeyBefore (p q : Ptr) : Prop :=
  ∃ np nq r, T.mem.cells p = some np ∧ T.mem.cells q = some nq ∧
    strcmp np.keyMem nq.keyMem = .ok r ∧ r < 0

/-- The red-black invariant of the graph below the root. -/
structure RbtreeInvariant : Prop where
  /-- the traversal from the root is finite and visits strictly ascending keys -/
  ordered : ∃ ps, InOrder T T.root ps ∧ ps.Pairwise (KeyBefore T)
  /-- the root is black, and its parent is the sentinel if it is not the sentinel itself -/
  root : ∃ nd, T.mem.cells T.root = some nd ∧ nd.color = BLACK ∧
    (T.root ≠ T.nil → nd.parent = T.nil)
  /-- a red node has no red child -/
  noRedRed : ∀ ps, InOrder T T.root ps → ∀ p ∈ ps, ∀ d, ∃ nd nc,
    T.mem.cells p = some nd ∧ T.mem.cells (nd.child d) = some nc ∧ (nd.color = RED → nc.color ≠ RED)
  /-- all paths from the root to the sentinel have equally many black nodes -/
  blackHeight : ∃ n, ∀ k, BlackPath T T.root k → k = n
  /-- a child's parent pointer leads back -/
  parents : ∀ ps, InOrder T T.root ps → ∀ p ∈ ps, ∀ d, ∃ nd nc,
    T.mem.cells p = some nd ∧ T.mem.cells (nd.child d) = some nc ∧
      (nd.child d ≠ T.nil → nc.parent = p)
  /-- the sentinel is black, and its own child on both sides -/
  sentinel : ∃ nd, T.mem.cells T.nil = some nd ∧ nd.color = BLACK ∧ nd.left = T.nil ∧
    nd.right = T.nil

end Statement

/-! ### From the represented tree to memory -/

section Read

variable {T : Rbtree} {t : Tree Entry} {par : Ptr}

theorem inOrder_of_cells (h : Cells T.mem T.nil par t) (hn : T.nil ∉ t.ptrs) :
    InOrder T (t.ptr T.nil) t.ptrs := by
  induction t generalizing par with
  | nil => exact .nil
  | node c l e r ihl ihr =>
      obtain ⟨he, hl, hr⟩ := h
      simp only [Tree.ptrs, toList, List.map_append, List.map_cons, List.mem_append, List.mem_cons,
        not_or] at hn
      rw [show (Tree.node c l e r).ptrs = l.ptrs ++ e.ptr :: r.ptrs by simp [Tree.ptrs, toList]]
      exact .node (Ne.symm hn.2.1) he (ihl hl hn.1) (ihr hr hn.2.2)

/-- The traversal from an address is determined by memory. -/
theorem InOrder.unique {p : Ptr} {ps qs : List Ptr} (h : InOrder T p ps) (h' : InOrder T p qs) :
    ps = qs := by
  induction h generalizing qs with
  | nil =>
      cases h' with
      | nil => rfl
      | node hp => exact absurd rfl hp
  | node hp hcell _ _ ihl ihr =>
      cases h' with
      | nil => exact absurd rfl hp
      | node _ hcell' hl hr =>
          rw [hcell] at hcell'
          cases hcell'
          rw [ihl hl, ihr hr]

/-- The node a path leaves, and the subtree it goes on in. -/
theorem BlackPath.inv {c : Color} {l r : Tree Entry} {e : Entry} {k : Nat}
    (hcells : Cells T.mem T.nil par (.node c l e r)) (hne : e.ptr ≠ T.nil)
    (h : BlackPath T e.ptr k) :
    ∃ n, (BlackPath T (l.ptr T.nil) n ∨ BlackPath T (r.ptr T.nil) n) ∧
      k = if c = .black then n + 1 else n := by
  generalize hp : e.ptr = p at h
  cases h with
  | nil => exact absurd hp hne
  | @step _ nd n d _ hcell hpath =>
      rw [← hp, hcells.1] at hcell
      cases hcell
      refine ⟨n, ?_, ?_⟩
      · cases d with
        | left => exact Or.inl hpath
        | right => exact Or.inr hpath
      · rw [cell_color]
        exact if_congr Color.byte_eq_black rfl rfl

theorem blackPath_of_bal {c : Color} {n k : Nat} (h : Cells T.mem T.nil par t)
    (hn : T.nil ∉ t.ptrs) (hbal : Bal t c n) (hpath : BlackPath T (t.ptr T.nil) k) : k = n := by
  induction hbal generalizing par k with
  | nil =>
      cases hpath with
      | nil => rfl
      | step _ hp => exact absurd rfl hp
  | @red l r e n _ _ ihl ihr =>
      simp only [Tree.ptrs, toList, List.map_append, List.map_cons, List.mem_append, List.mem_cons,
        not_or] at hn
      obtain ⟨j, hsub, rfl⟩ := hpath.inv h (Ne.symm hn.2.1)
      rcases hsub with hl | hr
      · exact ihl h.2.1 hn.1 hl
      · exact ihr h.2.2 hn.2.2 hr
  | @black l r e c₁ c₂ n _ _ ihl ihr =>
      simp only [Tree.ptrs, toList, List.map_append, List.map_cons, List.mem_append, List.mem_cons,
        not_or] at hn
      obtain ⟨j, hsub, rfl⟩ := hpath.inv h (Ne.symm hn.2.1)
      have hj : j = n := by
        rcases hsub with hl | hr
        · exact ihl h.2.1 hn.1 hl
        · exact ihr h.2.2 hn.2.2 hr
      rw [if_pos rfl, hj]

variable {np : Ptr} {ctx : Ctx Entry}

/-- The child of a node at a position is at a position of its own. -/
theorem Rep.child_at {c : Color} {l r : Tree Entry} {e : Entry}
    (h : Rep T np (fill ctx (.node c l e r))) (d : Dir) :
    ∃ nd near far, T.mem.cells e.ptr = some nd ∧ nd.color = c.byte ∧
      nd.child d = near.ptr T.nil ∧ Rep T np (fill (⟨d, c, e, far⟩ :: ctx) near) ∧
      (near = l ∨ near = r) := by
  have hcell := h.subCells.1
  cases d with
  | left => exact ⟨_, l, r, hcell, rfl, rfl, h, Or.inl rfl⟩
  | right => exact ⟨_, r, l, hcell, rfl, rfl, h, Or.inr rfl⟩

/-- **A state that represents a tree the engine maintains satisfies the invariant.** -/
theorem rbtreeInvariant_of_rep (h : Rep T np t) (hinv : TreeInv t) : RbtreeInvariant T := by
  obtain ⟨m, hbal⟩ := hinv.balanced
  have horder : InOrder T T.root t.ptrs := by
    rw [h.root]
    exact inOrder_of_cells h.cells h.nil_notMem
  -- Every visited address is the node at some position of the tree.
  have hpos : ∀ ps, InOrder T T.root ps → ∀ p ∈ ps,
      ∃ ctx c l e r, t = fill ctx (.node c l e r) ∧ p = e.ptr := by
    intro ps hps p hp
    rw [hps.unique horder] at hp
    obtain ⟨e, he, rfl⟩ := List.mem_map.mp hp
    obtain ⟨ctx, c, l, r, rfl⟩ := exists_position he
    exact ⟨ctx, c, l, e, r, rfl, rfl⟩
  refine ⟨⟨t.ptrs, horder, ?_⟩, ?_, ?_, ⟨m, ?_⟩, ?_, ?_⟩
  · refine List.pairwise_map.mpr (hinv.ascending.imp_of_mem ?_)
    intro a b ha hb hlt
    obtain ⟨ctx, c, l, r, rfl⟩ := exists_position ha
    obtain ⟨ctx', c', l', r', heq⟩ := exists_position hb
    have hcella := h.subCells.1
    have hcellb : Rep T np (fill ctx' (.node c' l' b r')) := heq ▸ h
    obtain ⟨ret, hret, hltret, -⟩ := strcmp_spec (hinv.sound a ha).reads (hinv.sound b hb).reads
    exact ⟨_, _, ret, hcella, hcellb.subCells.1, hret, hltret.mpr hlt⟩
  · have htop : Rep T np (fill [] t) := h
    obtain ⟨nd, hcell, hcolor, hparent⟩ := htop.fields_at
    rw [h.root]
    refine ⟨nd, hcell, ?_, hparent⟩
    rw [hcolor, hbal.color_eq]
    rfl
  · intro ps hps p hp d
    obtain ⟨ctx, c, l, e, r, rfl, rfl⟩ := hpos ps hps p hp
    obtain ⟨nd, near, far, hcell, hcolor, hchild, hnear, hlr⟩ := h.child_at d
    obtain ⟨nc, hcellc, hcolorc, -⟩ := hnear.fields_at
    refine ⟨nd, nc, hcell, by rw [hchild]; exact hcellc, ?_⟩
    intro hred hred'
    rw [hcolor] at hred
    rw [hcolorc] at hred'
    obtain rfl := Color.byte_eq_red.mp hred
    obtain ⟨c₀, n, hsub, -⟩ := CtxBal.of_fill hbal
    cases hsub with
    | red hl hr =>
        have hblack : near.color = .black := by
          rcases hlr with rfl | rfl
          · exact hl.color_eq
          · exact hr.color_eq
        rw [hblack] at hred'
        cases hred'
  · intro k hpath
    rw [h.root] at hpath
    exact blackPath_of_bal h.cells h.nil_notMem hbal hpath
  · intro ps hps p hp d
    obtain ⟨ctx, c, l, e, r, rfl, rfl⟩ := hpos ps hps p hp
    obtain ⟨nd, near, far, hcell, -, hchild, hnear, -⟩ := h.child_at d
    obtain ⟨nc, hcellc, -, hparent⟩ := hnear.fields_at
    refine ⟨nd, nc, hcell, by rw [hchild]; exact hcellc, ?_⟩
    rw [hchild]
    exact hparent
  · exact ⟨_, h.sentinel, rfl, rfl, rfl⟩

end Read

/-! ### Over whole runs -/

/--
**The red-black invariant holds after every run** of calls whose strings fit, from a
fresh engine; in particular the run returns.
-/
theorem rbtree_invariant_run (T₀ : Rbtree) (mu : Mutex) (hmu : mu ≠ .held) (calls : List Call)
    (hfit : ∀ c ∈ calls, c.Fits) :
    ∃ T₁ rs T, (initRbtree true mu).run T₀ = .ok (0, T₁) ∧
      (runCalls rbtreeCall calls).run T₁ = .ok (rs, T) ∧ RbtreeInvariant T := by
  obtain ⟨T₁, T, hinit, hrun, hsim⟩ := rbtreeRun_spec T₀ hmu calls hfit
  obtain ⟨np, t, hst, -⟩ := hsim.stores
  exact ⟨T₁, _, T, hinit, hrun, rbtreeInvariant_of_rep hst.rep hst.inv⟩

theorem rbtree_invariant_run_put_delete :
    let k : CString := ⟨[107], by decide⟩
    let k' : CString := ⟨[108], by decide⟩
    ∃ T₁ rs T, (initRbtree true .free).run Rbtree.static = .ok (0, T₁) ∧
      (runCalls rbtreeCall [.put k k, .put k' k, .delete k]).run T₁ = .ok (rs, T) ∧
      RbtreeInvariant T :=
  rbtree_invariant_run Rbtree.static .free (by decide) _ (by decide)

end KvStore
