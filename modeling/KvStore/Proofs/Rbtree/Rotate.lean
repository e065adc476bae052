/-
Pointer operations as changes of the tree at a position.

Each of the primitive operations of rbtree.c changes the represented tree at one
position and nowhere else: reading a node gives the cell the tree prescribes,
painting a node changes one colour, and a rotation is the textbook rotation, for
both sides and whether or not the position is the root or the middle subtree is
empty.  The sentinel and its parent field are never touched.

The assignments of a rotation are followed in `Turn.lean`, on the pointer graph; here
it is shown that a position with a child to move up is one where that applies
(`Rep.turnable`), and what the turned graph represents.
-/
import KvStore.Engine.RbtreeGuarded
import KvStore.Proofs.Rbtree.Repr
import KvStore.Proofs.Rbtree.Turn

namespace KvStore

open KvStore.Tree Ctx

/-- The root's address, given the address of the subtree at a position. -/
def rootPtr : Ctx Entry → Ptr → Ptr
  | [], ch => ch
  | f :: fs, _ => rootPtr fs f.payload.ptr

theorem ptr_fill (nil : Ptr) (ctx : Ctx Entry) (t : Tree Entry) :
    (fill ctx t).ptr nil = rootPtr ctx (t.ptr nil) := by
  induction ctx generalizing t with
  | nil => rfl
  | cons f fs ih =>
      unfold fill
      rw [ih, Frame.plug, ptr_branch]
      rfl

/-- A tree is represented when the context and the subtree at a position are. -/
theorem Rep.of_fill {T : Rbtree} {np : Ptr} {ctx : Ctx Entry} {t : Tree Entry}
    (hnil : T.mem.cells T.nil = some (nilCell T.nil np))
    (hroot : T.root = rootPtr ctx (t.ptr T.nil))
    (hctx : CtxCells T.mem T.nil ctx (t.ptr T.nil))
    (hsub : Cells T.mem T.nil (ctxPtr T.nil ctx) t)
    (hnd : (T.nil :: (t.ptrs ++ ctxPtrs ctx)).Nodup) : Rep T np (fill ctx t) :=
  ⟨hnil, by rw [ptr_fill]; exact hroot, cells_fill.mpr ⟨hctx, hsub⟩,
    ((ptrs_fill ctx t).cons T.nil).nodup_iff.mpr hnd⟩

theorem Rep.rootPtr_eq {T : Rbtree} {np : Ptr} {ctx : Ctx Entry} {t : Tree Entry}
    (h : Rep T np (fill ctx t)) : T.root = rootPtr ctx (t.ptr T.nil) := by
  rw [h.root, ptr_fill]

section Reading

variable {T : Rbtree} {np : Ptr} {ctx : Ctx Entry} {d : Dir} {c : Color} {t u : Tree Entry}
  {e : Entry}

theorem Rep.cell_at (h : Rep T np (fill ctx (branch d c t e u))) :
    T.mem.cells e.ptr = some (cell d c (t.ptr T.nil) (u.ptr T.nil) (ctxPtr T.nil ctx) e) :=
  (cells_branch.mp h.subCells).1

/-- Reading the node at a position. -/
theorem Rep.deref_at (h : Rep T np (fill ctx (branch d c t e u))) :
    (deref e.ptr : Prog Rbtree RbNode).run T =
      .ok (cell d c (t.ptr T.nil) (u.ptr T.nil) (ctxPtr T.nil ctx) e, T) :=
  deref_run h.cell_at

theorem Rep.getNear (h : Rep T np (fill ctx (branch d c t e u))) :
    (getChild d e.ptr).run T = .ok (t.ptr T.nil, T) := by
  rw [getChild_run h.cell_at, cell_near]

theorem Rep.getFar (h : Rep T np (fill ctx (branch d c t e u))) :
    (getChild d.flip e.ptr).run T = .ok (u.ptr T.nil, T) := by
  rw [getChild_run h.cell_at, cell_far]

theorem Rep.getUp (h : Rep T np (fill ctx (branch d c t e u))) :
    (getParent e.ptr).run T = .ok (ctxPtr T.nil ctx, T) := by
  rw [getParent_run h.cell_at, cell_parent]

/-- The colour at a position, the sentinel's black included. -/
theorem Rep.getColor_at {t : Tree Entry} (h : Rep T np (fill ctx t)) :
    (getColor (t.ptr T.nil)).run T = .ok (t.color.byte, T) := by
  cases t with
  | nil => exact getColor_run h.sentinel
  | node c l e r => exact getColor_run h.subCells.1

/-- What the cell at a position says about the subtree and its parent. -/
theorem Rep.fields_at (h : Rep T np (fill ctx t)) :
    ∃ nd, T.mem.cells (t.ptr T.nil) = some nd ∧ nd.color = t.color.byte ∧
      (t.ptr T.nil ≠ T.nil → nd.parent = ctxPtr T.nil ctx) := by
  cases t with
  | nil => exact ⟨_, h.sentinel, rfl, fun hc => absurd rfl hc⟩
  | node c l e r => exact ⟨_, h.subCells.1, rfl, fun _ => rfl⟩

/-- Two sibling subtrees at one address are both empty. -/
theorem Rep.ptr_inj (h : Rep T np (fill ctx (branch d c t e u))) (heq : t.ptr T.nil = u.ptr T.nil) :
    t = .nil ∧ u = .nil := by
  have hnd : (T.nil :: (e.ptr :: (t.ptrs ++ u.ptrs) ++ ctxPtrs ctx)).Nodup :=
    (((ptrs_branch d c t u e).append_right _).cons _).nodup_iff.mp h.distinct
  simp only [List.cons_append, List.append_assoc, List.nodup_cons, List.nodup_append,
    List.mem_cons, List.mem_append, not_or] at hnd
  obtain ⟨⟨-, hnt, hnu, -⟩, -, -, -, htu⟩ := hnd
  have hnil : t.ptr T.nil = T.nil := by
    by_contra hne
    have hmem : t.ptr T.nil ∈ t.ptrs := ptr_mem.resolve_left hne
    have hmem' : u.ptr T.nil ∈ u.ptrs := ptr_mem.resolve_left (heq ▸ hne)
    exact htu _ hmem _ (Or.inl hmem') heq
  exact ⟨eq_nil_of_ptr hnt hnil, eq_nil_of_ptr hnu (heq ▸ hnil)⟩

theorem Rep.deref_nil {t : Tree Entry} (h : Rep T np t) :
    (deref T.nil : Prog Rbtree RbNode).run T = .ok (nilCell T.nil np, T) :=
  deref_run h.sentinel

/-- The node at a position is not the sentinel. -/
theorem Rep.ptr_ne_nil (h : Rep T np (fill ctx (branch d c t e u))) : e.ptr ≠ T.nil := by
  intro hc
  have hnd := h.distinct
  rw [List.nodup_cons] at hnd
  refine hnd.1 (List.mem_append_left _ ?_)
  rw [← hc]
  exact (ptrs_branch d c t u e).mem_iff.mpr (by simp)

/-- The other child's side of a position. -/
theorem Rep.far_position (h : Rep T np (fill ctx (branch d c t e u))) :
    Rep T np (fill (⟨d.flip, c, e, t⟩ :: ctx) u) := by
  unfold fill
  rw [Frame.plug, branch_flip]
  exact h

end Reading

/-! ### Assigning to one node -/

/-- An assignment that leaves a node's links alone changes its colour or its buffers. -/
theorem assign_rep {T : Rbtree} {np : Ptr} {ctx : Ctx Entry} {d : Dir} {c : Color}
    {t u : Tree Entry} {e : Entry} {f : RbNode → RbNode}
    (h : Rep T np (fill ctx (branch d c t e u))) (c' : Color) (e' : Entry) (hptr : e'.ptr = e.ptr)
    (hf : ∀ near far par, f (cell d c near far par e) = cell d c' near far par e') :
    ∃ T', (assign e.ptr f : Prog Rbtree Unit).run T = .ok ((), T') ∧
      Rep T' np (fill ctx (branch d c' t e' u)) ∧
      (∀ q, q ≠ e.ptr → T'.mem.cells q = T.mem.cells q) ∧ Keeps T T' := by
  refine ⟨_, assign_run h.cell_at _, ?_, fun q hq => Mem.write_of_ne _ hq _, keeps_write T _ _⟩
  have hnd := h.distinct
  have hptrs := ptrs_branch d c t u e
  have hnd' : (T.nil :: (e.ptr :: (t.ptrs ++ u.ptrs) ++ ctxPtrs ctx)).Nodup :=
    ((hptrs.append_right _).cons _).nodup_iff.mp hnd
  simp only [List.cons_append, List.append_assoc, List.nodup_cons, List.mem_cons,
    List.mem_append, not_or] at hnd'
  obtain ⟨⟨hne, -⟩, ⟨het, heu, hec⟩, -⟩ := hnd'
  have hoff : ∀ q, q ≠ e.ptr → ∀ nd, (T.mem.write e.ptr nd).cells q = T.mem.cells q :=
    fun q hq nd => Mem.write_of_ne _ hq _
  obtain ⟨-, ht, hu⟩ := cells_branch.mp h.subCells
  refine Rep.of_fill ?_ ?_ ?_ ?_ ?_
  · exact (hoff _ hne _).trans h.sentinel
  · rw [ptr_branch, hptr]
    exact h.rootPtr_eq.trans (by rw [ptr_branch])
  · rw [ptr_branch, hptr]
    refine ctxCells_congr (fun q hq => hoff q (ne_of_mem_of_not_mem hq hec) _) ?_
    have := h.ctxCells
    rwa [ptr_branch] at this
  · refine cells_branch.mpr ⟨?_, ?_, ?_⟩
    · show (T.mem.write e.ptr _).cells e'.ptr = _
      rw [hptr, Mem.write_self h.cell_at, hf]
      rfl
    · rw [hptr]
      exact cells_congr (fun q hq => hoff q (ne_of_mem_of_not_mem hq het) _) ht
    · rw [hptr]
      exact cells_congr (fun q hq => hoff q (ne_of_mem_of_not_mem hq heu) _) hu
  · have hsame : (branch d c' t e' u).ptrs.Perm (branch d c t e u).ptrs := by
      refine (ptrs_branch d c' t u e').trans ?_
      rw [hptr]
      exact hptrs.symm
    exact ((hsame.append_right _).cons _).nodup_iff.mpr hnd

theorem setColor_rep {T : Rbtree} {np : Ptr} {ctx : Ctx Entry} {d : Dir} {c : Color}
    {t u : Tree Entry} {e : Entry} (c' : Color) (h : Rep T np (fill ctx (branch d c t e u))) :
    ∃ T', (assign e.ptr (RbNode.setColor c'.byte) : Prog Rbtree Unit).run T = .ok ((), T') ∧
      Rep T' np (fill ctx (branch d c' t e u)) ∧ Keeps T T' := by
  obtain ⟨T', hrun, hrep, -, hk⟩ :=
    assign_rep h c' e rfl (fun near far par => cell_setColor d c near far par e c')
  exact ⟨T', hrun, hrep, hk⟩

/-- Painting the sentinel black changes nothing. -/
theorem setColor_nil {T : Rbtree} {np : Ptr} {t : Tree Entry} (h : Rep T np t) :
    (assign T.nil (RbNode.setColor BLACK) : Prog Rbtree Unit).run T = .ok ((), T) := by
  rw [assign_run h.sentinel]
  have hmem : T.mem.write T.nil ((nilCell T.nil np).setColor BLACK) = T.mem := by
    refine Mem.ext (fun q => ?_) rfl
    by_cases hq : q = T.nil
    · subst hq
      rw [Mem.write_self h.sentinel, h.sentinel]
      rfl
    · exact Mem.write_of_ne _ hq _
  show Except.ok ((), { T with mem := T.mem.write T.nil ((nilCell T.nil np).setColor BLACK) }) = _
  rw [hmem]

/-! ### Hanging a subtree elsewhere -/

/-- Only the root of a subtree knows its parent. -/
theorem cells_reparent {m m' : Mem RbNode} {nil par p : Ptr} {b : Tree Entry}
    (hb : Cells m nil par b) (hnd : b.ptrs.Nodup)
    (htop : ∀ nd, b.ptr nil ∈ b.ptrs → m.cells (b.ptr nil) = some nd →
      m'.cells (b.ptr nil) = some (nd.setParent p))
    (hoff : ∀ q ∈ b.ptrs, q ≠ b.ptr nil → m'.cells q = m.cells q) : Cells m' nil p b := by
  cases b with
  | nil => trivial
  | node c l e r =>
      obtain ⟨he, hl, hr⟩ := hb
      have hmem : ∀ q, q ∈ (Tree.node c l e r).ptrs ↔ q ∈ l.ptrs ∨ q = e.ptr ∨ q ∈ r.ptrs := by
        intro q
        simp [Tree.ptrs, Tree.toList]
      simp only [Tree.ptrs, Tree.toList, List.map_append, List.map_cons, List.nodup_append,
        List.nodup_cons, List.mem_cons] at hnd
      obtain ⟨-, ⟨her, -⟩, hlr⟩ := hnd
      have hel : e.ptr ∉ l.ptrs := fun hc => hlr _ hc _ (Or.inl rfl) rfl
      refine ⟨?_, cells_congr (fun q hq => ?_) hl, cells_congr (fun q hq => ?_) hr⟩
      · exact (htop _ ((hmem _).mpr (Or.inr (Or.inl rfl))) he).trans (by rw [cell_setParent])
      · exact hoff q ((hmem q).mpr (Or.inl hq)) (ne_of_mem_of_not_mem hq hel)
      · exact hoff q ((hmem q).mpr (Or.inr (Or.inr hq))) (ne_of_mem_of_not_mem hq her)

/-- Give the root of a subtree, if there is one, a new parent. -/
theorem reparent_run {T : Rbtree} {b : Tree Entry} {par : Ptr} (p : Ptr)
    (hb : Cells T.mem T.nil par b) (hnd : (T.nil :: b.ptrs).Nodup) :
    ∃ m', (whenever (b.ptr T.nil ≠ T.nil) (assign (b.ptr T.nil) (RbNode.setParent p)) :
        Prog Rbtree Unit).run T = .ok ((), { T with mem := m' }) ∧
      Cells m' T.nil p b ∧ (∀ q ∉ b.ptrs, m'.cells q = T.mem.cells q) ∧
      Keeps T { T with mem := m' } := by
  obtain ⟨hnil, hnd⟩ := List.nodup_cons.mp hnd
  rcases (ptr_mem : b.ptr T.nil = T.nil ∨ b.ptr T.nil ∈ b.ptrs) with hb0 | hmem
  · obtain rfl := eq_nil_of_ptr hnil hb0
    exact ⟨T.mem, run_whenever_neg (by simp), trivial, fun _ _ => rfl, Keeps.refl T⟩
  · obtain ⟨nd, hcell⟩ := cells_some hb _ hmem
    have hne : b.ptr T.nil ≠ T.nil := ne_of_mem_of_not_mem hmem hnil
    refine ⟨T.mem.write (b.ptr T.nil) (nd.setParent p), ?_, ?_, ?_, keeps_write T _ _⟩
    · exact run_whenever_pos hne (assign_run hcell _)
    · refine cells_reparent hb hnd (fun nd' _ hcell' => ?_) fun q _ hq => Mem.write_of_ne _ hq _
      obtain rfl := Option.some.inj (hcell.symm.trans hcell')
      exact Mem.write_self hcell _
    · exact fun q hq => Mem.write_of_ne _ (fun hc => hq (by rw [hc]; exact hmem)) _

/-- Of the nodes around a position only the one above knows which child hangs there. -/
theorem ctxCells_above {m m' : Mem RbNode} {nil x y : Ptr} {f : Frame Entry} {fs : Ctx Entry}
    (h : CtxCells m nil (f :: fs) x) (hnd : (ctxPtrs (f :: fs)).Nodup)
    (htop : m'.cells f.payload.ptr =
      some (cell f.dir f.color y (f.sibling.ptr nil) (ctxPtr nil fs) f.payload))
    (hoff : ∀ q ∈ ctxPtrs (f :: fs), q ≠ f.payload.ptr → m'.cells q = m.cells q) :
    CtxCells m' nil (f :: fs) y := by
  obtain ⟨-, hu, hfs⟩ := h
  simp only [ctxPtrs, List.nodup_cons, List.mem_append, not_or] at hnd
  obtain ⟨⟨heu, hefs⟩, -⟩ := hnd
  refine ⟨htop, cells_congr ?_ hu, ctxCells_congr ?_ hfs⟩
  · intro q hq
    exact hoff q (by simp [ctxPtrs, hq]) (ne_of_mem_of_not_mem hq heu)
  · intro q hq
    exact hoff q (by simp [ctxPtrs, hq]) (ne_of_mem_of_not_mem hq hefs)

/-- Making `y` the child above which a position is changes the top frame's cell only. -/
theorem ctxCells_link {m : Mem RbNode} {nil x : Ptr} {f : Frame Entry} {fs : Ctx Entry} (y : Ptr)
    (h : CtxCells m nil (f :: fs) x) (hnd : (ctxPtrs (f :: fs)).Nodup) :
    CtxCells (m.write f.payload.ptr
      (cell f.dir f.color y (f.sibling.ptr nil) (ctxPtr nil fs) f.payload)) nil (f :: fs) y :=
  ctxCells_above h hnd (Mem.write_self h.1 _) fun _ _ hq => Mem.write_of_ne _ hq _

/-- Put `y` in the place of `x` at a position. -/
theorem relink_run {T : Rbtree} {ctx : Ctx Entry} {x : Ptr} (d : Dir) (y : Ptr)
    (hc : CtxCells T.mem T.nil ctx x) (hroot : T.root = rootPtr ctx x)
    (hnd : (T.nil :: ctxPtrs ctx).Nodup) (hx : x ≠ T.nil) (hxc : x ∉ ctxPtrs ctx) :
    ∃ T', (rbtreeRelink d (ctxPtr T.nil ctx) x y).run T = .ok ((), T') ∧
      CtxCells T'.mem T.nil ctx y ∧ T'.root = rootPtr ctx y ∧
      (∀ q ∉ ctxPtrs ctx, T'.mem.cells q = T.mem.cells q) ∧ Keeps T T' := by
  cases ctx with
  | nil =>
      refine ⟨{ T with root := y }, ?_, trivial, rfl, fun _ _ => rfl,
        ⟨rfl, rfl, rfl, rfl, fun _ => rfl⟩⟩
      unfold rbtreeRelink
      rw [run_bind_ok (run_get T), if_pos (show ctxPtr T.nil [] = T.nil from rfl)]
      rfl
  | cons f fs =>
      have hlink := ctxCells_link y hc (List.nodup_cons.mp hnd).2
      obtain ⟨fd, fc, e, u⟩ := f
      obtain ⟨he, -, -⟩ := hc
      simp only [ctxPtrs, List.nodup_cons, List.mem_cons, List.mem_append, not_or] at hnd hxc
      obtain ⟨⟨hne, -, -⟩, -⟩ := hnd
      -- The sibling is not `x`, so the test finds the side `x` is on.
      have hux : x ≠ u.ptr T.nil := by
        intro hcon
        rcases (Tree.ptr_mem : u.ptr T.nil = T.nil ∨ _) with hn | hm
        · exact hx (hcon.trans hn)
        · exact hxc.2.1 (hcon ▸ hm)
      have hrun : (rbtreeRelink d (ctxPtr T.nil (⟨fd, fc, e, u⟩ :: fs)) x y).run T =
          .ok ((), { T with
            mem := T.mem.write e.ptr (cell fd fc y (u.ptr T.nil) (ctxPtr T.nil fs) e) }) := by
        refine run_bind_of (run_get T) (run_ite_neg (Ne.symm hne) ?_)
        refine run_bind_of (getChild_run he d) ?_
        by_cases hd : fd = d
        · subst hd
          refine run_ite_pos (cell_near ..).symm ((assign_run he _).trans ?_)
          rw [cell_setNear]
          rfl
        · refine run_ite_neg ?_ ((assign_run he _).trans ?_)
          · rw [cell_child_of_ne _ _ _ _ _ _ hd]
            exact hux
          · rw [cell_setChild_of_ne _ _ _ _ _ _ _ hd]
            rfl
      refine ⟨_, hrun, hlink, hroot, ?_, keeps_write T _ _⟩
      intro q hq
      refine Mem.write_of_ne _ (fun hcon => hq ?_) _
      simp [ctxPtrs, hcon]

/-! ### Rotations -/

/-- The places a rotation writes to and reads from are different. -/
structure RotateApart (nil : Ptr) (ctx : Ctx Entry) (a b e : Tree Entry) (x y : Entry) : Prop where
  nil_x : nil ≠ x.ptr
  nil_y : nil ≠ y.ptr
  nil_b : nil ∉ b.ptrs
  nil_ctx : nil ∉ ctxPtrs ctx
  x_y : x.ptr ≠ y.ptr
  x_a : x.ptr ∉ a.ptrs
  x_b : x.ptr ∉ b.ptrs
  x_e : x.ptr ∉ e.ptrs
  x_ctx : x.ptr ∉ ctxPtrs ctx
  y_a : y.ptr ∉ a.ptrs
  y_b : y.ptr ∉ b.ptrs
  y_e : y.ptr ∉ e.ptrs
  y_ctx : y.ptr ∉ ctxPtrs ctx
  a_b : ∀ q ∈ a.ptrs, q ∉ b.ptrs
  a_ctx : ∀ q ∈ a.ptrs, q ∉ ctxPtrs ctx
  b_e : ∀ q ∈ b.ptrs, q ∉ e.ptrs
  b_ctx : ∀ q ∈ b.ptrs, q ∉ ctxPtrs ctx
  e_ctx : ∀ q ∈ e.ptrs, q ∉ ctxPtrs ctx
  b_nodup : b.ptrs.Nodup
  ctx_nodup : (ctxPtrs ctx).Nodup

theorem Rep.rotateApart {T : Rbtree} {np : Ptr} {ctx : Ctx Entry} {d : Dir} {c c' : Color}
    {a b e : Tree Entry} {x y : Entry}
    (h : Rep T np (fill ctx (branch d c a x (branch d c' b y e)))) :
    RotateApart T.nil ctx a b e x y := by
  have hperm : (branch d c a x (branch d c' b y e)).ptrs.Perm
      (x.ptr :: (a.ptrs ++ (y.ptr :: (b.ptrs ++ e.ptrs)))) :=
    (ptrs_branch d c a _ x).trans (((ptrs_branch d c' b e y).append_left _).cons _)
  have hnd : (T.nil :: (x.ptr :: (a.ptrs ++ (y.ptr :: (b.ptrs ++ e.ptrs))) ++ ctxPtrs ctx)).Nodup :=
    ((hperm.append_right _).cons _).nodup_iff.mp h.distinct
  simp only [List.cons_append, List.append_assoc, List.nodup_cons, List.nodup_append,
    List.mem_cons, List.mem_append, not_or, forall_eq_or_imp] at hnd
  obtain ⟨⟨hnx, hna, hny, hnb, hne, hnc⟩, ⟨hxa, hxy, hxb, hxe, hxc⟩, -,
    ⟨⟨hyb, hye, hyc⟩, hbnd, ⟨-, hcnd, hec⟩, hbc⟩, hay⟩ := hnd
  exact {
    nil_x := hnx, nil_y := hny, nil_b := hnb, nil_ctx := hnc
    x_y := hxy, x_a := hxa, x_b := hxb, x_e := hxe, x_ctx := hxc
    y_a := fun hq => (hay _ hq).1 rfl
    y_b := hyb, y_e := hye, y_ctx := hyc
    a_b := fun q hq hqb => (hay q hq).2 q (Or.inl hqb) rfl
    a_ctx := fun q hq hqc => (hay q hq).2 q (Or.inr (Or.inr hqc)) rfl
    b_e := fun q hq hqe => hbc q hq q (Or.inl hqe) rfl
    b_ctx := fun q hq hqc => hbc q hq q (Or.inr hqc) rfl
    e_ctx := fun q hq hqc => hec q hq q hqc rfl
    b_nodup := hbnd, ctx_nodup := hcnd }

/-- What a rotation leaves, and where it has written nothing. -/
structure Rotated (T : Rbtree) (ctx : Ctx Entry) (d : Dir) (c c' : Color) (a b e : Tree Entry)
    (x y : Entry) (T' : Rbtree) : Prop where
  cell_x : T'.mem.cells x.ptr = some (cell d c (a.ptr T.nil) (b.ptr T.nil) y.ptr x)
  cell_y : T'.mem.cells y.ptr = some (cell d c' x.ptr (e.ptr T.nil) (ctxPtr T.nil ctx) y)
  middle : Cells T'.mem T.nil x.ptr b
  above : CtxCells T'.mem T.nil ctx y.ptr
  root : T'.root = rootPtr ctx y.ptr
  elsewhere : ∀ q, q ≠ x.ptr → q ≠ y.ptr → q ∉ b.ptrs → q ∉ ctxPtrs ctx →
    T'.mem.cells q = T.mem.cells q
  keeps : Keeps T T'

section Rotations

variable {T : Rbtree} {np : Ptr} {ctx : Ctx Entry} {d : Dir} {c c' : Color}
  {a b e : Tree Entry} {x y : Entry}

/-- **The child on the far side can be moved up.** -/
theorem Rep.turnable (h : Rep T np (fill ctx (branch d c a x (branch d c' b y e)))) :
    Turnable T d x.ptr y.ptr (b.ptr T.nil) (ctxPtr T.nil ctx) := by
  have hapart := h.rotateApart
  have hfar := h.far_position
  have hmid : Rep T np (fill (⟨d, c', y, e⟩ :: ⟨d.flip, c, x, a⟩ :: ctx) b) := hfar
  have hx := h.cell_at
  rw [ptr_branch] at hx
  refine {
    x_ne := Ne.symm hapart.nil_x, y_ne := Ne.symm hapart.nil_y, y_x := Ne.symm hapart.x_y
    b_x := ptr_ne hapart.nil_x hapart.x_b, b_y := ptr_ne hapart.nil_y hapart.y_b
    xp_x := ctxPtr_ne hapart.nil_x hapart.x_ctx, xp_y := ctxPtr_ne hapart.nil_y hapart.y_ctx
    b_xp := fun hb => Ne.symm (ctxPtr_ne (Ne.symm hb) (hapart.b_ctx _ (ptr_mem.resolve_left hb)))
    at_x := ⟨_, hx, cell_far .., cell_parent ..⟩
    at_y := ⟨_, hfar.cell_at, cell_near .., cell_parent ..⟩
    at_b := fun hb => ?_, at_xp := fun hxp => ?_, root := fun hxp => ?_ }
  · obtain ⟨nb, hnb, -, hparent⟩ := hmid.fields_at
    exact ⟨nb, hnb, hparent hb⟩
  · cases ctx with
    | nil => exact absurd rfl hxp
    | cons f fs =>
        obtain ⟨hp, -, -⟩ := h.ctxCells
        have hxs : x.ptr ∉ f.sibling.ptrs := fun hc => hapart.x_ctx (by simp [ctxPtrs, hc])
        have hys : y.ptr ∉ f.sibling.ptrs := fun hc => hapart.y_ctx (by simp [ctxPtrs, hc])
        refine ⟨_, f.dir, hp, ?_, ?_, ?_⟩
        · rw [cell_near, ptr_branch]
        · rw [cell_far]
          exact ptr_ne hapart.nil_x hxs
        · rw [cell_far]
          exact ptr_ne hapart.nil_y hys
  · cases ctx with
    | nil => exact h.rootPtr_eq.trans (ptr_branch ..)
    | cons f fs => exact absurd (by simp [ctxPtrs, ← hxp, ctxPtr]) hapart.nil_ctx

/-- The assignments of a rotation, seen from the tree. -/
theorem rotate_run (h : Rep T np (fill ctx (branch d c a x (branch d c' b y e)))) :
    ∃ T', (rbtreeRotate d x.ptr).run T = .ok ((), T') ∧ Rotated T ctx d c c' a b e x y T' := by
  have hapart := h.rotateApart
  have hturn := h.turnable
  have hctx := h.ctxCells
  obtain ⟨hx, -, hyb⟩ := cells_branch.mp h.subCells
  obtain ⟨hy, hb, -⟩ := cells_branch.mp hyb
  rw [ptr_branch] at hctx hx
  refine ⟨_, rotate_turn hturn, ?_, ?_, ?_, ?_, ?_, ?_, ?_⟩
  · rw [T.turn_cells hx, turned_x, cell_setFar, cell_setParent]
  · rw [T.turn_cells hy, turned_y hturn.y_x, cell_setNear, cell_setParent]
  · refine cells_reparent hb hapart.b_nodup (fun nd hbn hnd => ?_) fun q hq hqb => ?_
    · rw [T.turn_cells hnd, turned_b hturn (ne_of_mem_of_not_mem hbn hapart.nil_b)]
    · refine T.turn_cells_of_ne (fun hc => hapart.x_b (hc ▸ hq)) (fun hc => hapart.y_b (hc ▸ hq))
        (fun _ => hqb) fun _ => ?_
      exact Ne.symm (ctxPtr_ne (fun hc => hapart.nil_b (hc ▸ hq)) (hapart.b_ctx q hq))
  · cases ctx with
    | nil => trivial
    | cons f fs =>
        have hxp : ctxPtr T.nil (f :: fs) ≠ T.nil :=
          ne_of_mem_of_not_mem (List.mem_cons_self ..) hapart.nil_ctx
        refine ctxCells_above hctx hapart.ctx_nodup ?_ fun q hq hqp => ?_
        · have hxs : x.ptr ∉ f.sibling.ptrs := fun hc => hapart.x_ctx (by simp [ctxPtrs, hc])
          refine (T.turn_cells hctx.1).trans (congrArg some ((turned_xp hturn hxp _).trans ?_))
          rw [← RbNode.setChild_eq_relink _ f.dir, cell_setNear]
          · exact cell_near ..
          · rw [cell_far]
            exact ptr_ne hapart.nil_x hxs
        · refine T.turn_cells_of_ne (fun hc => hapart.x_ctx (hc ▸ hq))
            (fun hc => hapart.y_ctx (hc ▸ hq)) (fun hb hc => ?_) fun _ => hqp
          exact hapart.b_ctx _ (ptr_mem.resolve_left hb) (hc ▸ hq)
  · cases ctx with
    | nil => exact if_pos rfl
    | cons f fs =>
        refine (if_neg ?_).trans h.rootPtr_eq
        exact ne_of_mem_of_not_mem (List.mem_cons_self ..) hapart.nil_ctx
  · intro q hqx hqy hqb hqc
    refine T.turn_cells_of_ne hqx hqy (fun hb => ?_) fun hxp => ?_
    · exact Ne.symm (ne_of_mem_of_not_mem (ptr_mem.resolve_left hb) hqb)
    · exact Ne.symm (ne_of_mem_of_not_mem (ctxPtr_mem.resolve_left hxp) hqc)
  · exact ⟨rfl, rfl, rfl, rfl, fun q => Option.isSome_map ..⟩

/-- The subtrees besides the middle one are where nothing was written. -/
theorem Rotated.rep {T' : Rbtree} (hr : Rotated T ctx d c c' a b e x y T')
    (h : Rep T np (fill ctx (branch d c a x (branch d c' b y e)))) :
    Rep T' np (fill ctx (branch d c' (branch d c a x b) y e)) := by
  have hapart := h.rotateApart
  obtain ⟨-, ha, hyb⟩ := cells_branch.mp h.subCells
  obtain ⟨-, -, he⟩ := cells_branch.mp hyb
  have hnil : T'.nil = T.nil := hr.keeps.nil
  refine Rep.of_fill ?_ ?_ ?_ ?_ ?_
  · rw [hnil, hr.elsewhere T.nil hapart.nil_x hapart.nil_y hapart.nil_b hapart.nil_ctx]
    exact h.sentinel
  · rw [ptr_branch]
    exact hr.root
  · rw [ptr_branch, hnil]
    exact hr.above
  · rw [hnil]
    refine cells_branch.mpr ⟨?_, cells_branch.mpr ⟨hr.cell_x, ?_, hr.middle⟩, ?_⟩
    · rw [ptr_branch]
      exact hr.cell_y
    · refine cells_congr (fun q hq => ?_) ha
      exact hr.elsewhere q (fun hc => hapart.x_a (hc ▸ hq)) (fun hc => hapart.y_a (hc ▸ hq))
        (hapart.a_b q hq) (hapart.a_ctx q hq)
    · refine cells_congr (fun q hq => ?_) he
      exact hr.elsewhere q (fun hc => hapart.x_e (hc ▸ hq)) (fun hc => hapart.y_e (hc ▸ hq))
        (fun hc => hapart.b_e q hc hq) (hapart.e_ctx q hq)
  · rw [hnil]
    have hlist : (branch d c' (branch d c a x b) y e).ptrs =
        (branch d c a x (branch d c' b y e)).ptrs := by
      unfold Tree.ptrs
      rw [toList_rotate]
    rw [hlist]
    exact h.distinct

/--
**A rotation rotates.**  `x` with its `d.flip` child `y` becomes `y` with its `d`
child `x`, at any position; the represented tree changes nowhere else.
-/
theorem rotate_rep (h : Rep T np (fill ctx (branch d c a x (branch d c' b y e)))) :
    ∃ T', (rbtreeRotate d x.ptr).run T = .ok ((), T') ∧
      Rep T' np (fill ctx (branch d c' (branch d c a x b) y e)) ∧ Keeps T T' := by
  obtain ⟨T', hrun, hr⟩ := rotate_run h
  exact ⟨T', hrun, hr.rep h, hr.keeps⟩

end Rotations

/-- What the fix-ups need of the rotation they call. -/
def Rotates (rotate : Dir → Ptr → Prog Rbtree Unit) : Prop :=
  ∀ {T : Rbtree} {np : Ptr} {ctx : Ctx Entry} {d : Dir} {c c' : Color} {a b e : Tree Entry}
    {x y : Entry}, Rep T np (fill ctx (branch d c a x (branch d c' b y e))) →
    ∃ T', (rotate d x.ptr).run T = .ok ((), T') ∧
      Rep T' np (fill ctx (branch d c' (branch d c a x b) y e)) ∧ Keeps T T'

theorem rotates_rotate : Rotates rbtreeRotate := fun h => rotate_rep h

/-- At a position with a child to move up the check is passed. -/
theorem rotates_guarded : Rotates rbtreeRotateGuarded := by
  intro T np ctx d c c' a b e x y h
  obtain ⟨T', hrun, hrep⟩ := rotate_rep h
  have hchild := h.getFar
  rw [ptr_branch] at hchild
  have hy : y.ptr ≠ T.nil := h.far_position.ptr_ne_nil
  refine ⟨T', run_bind_of (run_get T) (run_bind_of hchild ?_), hrep⟩
  exact run_ite_pos hy hrun

end KvStore
