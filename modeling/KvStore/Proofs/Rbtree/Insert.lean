/-
Inserting a node.

The descent of `rbtree_insert` ends at a node with the key, and then nothing happens,
or at the one empty position where the key belongs.  Linking the new node there makes
it a red leaf of the represented tree, which is what the fix-up starts from.
-/
import KvStore.Proofs.Rbtree.InsertFixup
import KvStore.Proofs.Rbtree.Search

namespace KvStore

open KvStore.Tree Ctx

section Insert

variable {rotate : Dir → Ptr → Prog Rbtree Unit} {T : Rbtree} {np : Ptr} {t : Tree Entry} {z : Entry}

/-- Where the descent of an insertion ends: at a node with the key, or below `y`. -/
def InsertPlace (T : Rbtree) (t : Tree Entry) (key : CString) : Option Ptr → Prop
  | none => ∃ e ∈ t.toList, e.name = key
  | some y => ∃ ctx, t = fill ctx .nil ∧ Splits Entry.name ctx key ∧ y = ctxPtr T.nil ctx

/-- The descent has come below the node at `y`. -/
def DescentInv (T : Rbtree) (t : Tree Entry) (key : CString) (n : Nat) (yx : Ptr × Ptr)
    (T' : Rbtree) : Prop :=
  ∃ ctx sub, n = sub.toList.length ∧ yx = (ctxPtr T.nil ctx, sub.ptr T.nil) ∧ t = fill ctx sub ∧
    Splits Entry.name ctx key ∧ T' = T

/-- At a node the descent has found the key, or goes on in the subtree the key belongs to. -/
theorem descent_at {ctx : Ctx Entry} {c : Color} {l r : Tree Entry} {e : Entry} {y : Ptr}
    (h : Rep T np (fill ctx (.node c l e r))) (hinv : TreeInv (fill ctx (.node c l e r)))
    {nz : RbNode} (hz : T.mem.cells z.ptr = some nz) (hkey : Reads nz.keyMem z.name)
    (hsplit : Splits Entry.name ctx z.name) :
    ((rbtreeInsertStep z.ptr (y, e.ptr)).run T = .ok (.inr none, T) ∧ e.name = z.name) ∨
      ∃ d near far, .node c l e r = branch d c near e far ∧
        Splits Entry.name (⟨d, c, e, far⟩ :: ctx) z.name ∧
        (rbtreeInsertStep z.ptr (y, e.ptr)).run T = .ok (.inl (e.ptr, near.ptr T.nil), T) := by
  have hat : Rep T np (fill ctx (branch .left c l e r)) := h
  have hsound := hinv.sound e (mem_toList_fill (d := .left))
  obtain ⟨ret, hrun, hlt, heq⟩ := compareKey_run hat.cell_at hkey hsound.reads
  have hne : e.ptr ≠ T.nil := hat.ptr_ne_nil
  have hasc := hinv.ascending
  rcases compare_cases hlt heq with ⟨hr, hk⟩ | ⟨hr, hr', hk⟩ | ⟨hr, hr', hk⟩
  · refine Or.inr ⟨.left, l, r, rfl, splits_left hasc hsplit hk, ?_⟩
    refine run_bind_of (run_get T) (run_ite_pos hne (run_bind_of (deref_run hz) ?_))
    exact run_bind_of hrun (run_ite_pos hr (run_bind_of hat.getNear rfl))
  · refine Or.inr ⟨.right, r, l, rfl, splits_right hasc hsplit hk, ?_⟩
    refine run_bind_of (run_get T) (run_ite_pos hne (run_bind_of (deref_run hz) ?_))
    refine run_bind_of hrun (run_ite_neg hr ?_)
    exact run_ite_pos hr' (run_bind_of hat.getFar rfl)
  · refine Or.inl ⟨?_, hk.symm⟩
    refine run_bind_of (run_get T) (run_ite_pos hne (run_bind_of (deref_run hz) ?_))
    exact run_bind_of hrun (run_ite_neg hr (run_ite_neg hr' rfl))

theorem descent_nil (T : Rbtree) (z y : Ptr) :
    (rbtreeInsertStep z (y, T.nil)).run T = .ok (.inr (some y), T) :=
  run_bind_of (run_get T) (run_ite_neg (by simp) rfl)

theorem descent_step (h : Rep T np t) (hinv : TreeInv t) {nz : RbNode}
    (hz : T.mem.cells z.ptr = some nz) (hkey : Reads nz.keyMem z.name) :
    ∀ n yx T', DescentInv T t z.name n yx T' →
      (∃ p T'', (rbtreeInsertStep z.ptr yx).run T' = .ok (.inr p, T'') ∧ T'' = T ∧
        InsertPlace T t z.name p) ∨
      (∃ yx' T'' m, (rbtreeInsertStep z.ptr yx).run T' = .ok (.inl yx', T'') ∧ m < n ∧
        DescentInv T t z.name m yx' T'') := by
  rintro n yx T' ⟨ctx, sub, rfl, rfl, rfl, hsplit, rfl⟩
  cases sub with
  | nil =>
      exact Or.inl ⟨some (ctxPtr T'.nil ctx), T', descent_nil T' _ _, rfl, ctx, rfl, hsplit, rfl⟩
  | node c l e r =>
      rcases descent_at h hinv hz hkey hsplit with ⟨hrun, hname⟩ | ⟨d, near, far, heq, hsplit', hrun⟩
      · exact Or.inl ⟨none, T', hrun, rfl, e, mem_toList_fill (d := .left), hname⟩
      · rw [heq]
        refine Or.inr ⟨(e.ptr, near.ptr T'.nil), T', near.toList.length, ?_, ?_,
          ⟨d, c, e, far⟩ :: ctx, near, rfl, rfl, rfl, hsplit', rfl⟩
        · rw [ptr_branch]
          exact hrun
        · rw [length_branch]
          omega

/-- The descent of `rbtree_insert` ends where the key belongs. -/
theorem descent_spec (h : Rep T np t) (hinv : TreeInv t) {nz : RbNode}
    (hz : T.mem.cells z.ptr = some nz) (hkey : Reads nz.keyMem z.name) :
    ∃ p, (loop (rbtreeInsertStep z.ptr) T.fuel (T.nil, T.root)).run T = .ok (p, T) ∧
      InsertPlace T t z.name p := by
  have hlt := h.length_lt
  obtain ⟨p, T', hrun, rfl, hplace⟩ :=
    loop_total (descent_step h hinv hz hkey) T.fuel t.toList.length (T.nil, T.root) T
      ⟨[], t, rfl, by rw [h.root]; rfl, rfl, splits_nil _, rfl⟩ (by rw [Rbtree.fuel]; omega)
  exact ⟨p, hrun, hplace⟩

/-- A position's parent, when there is one, has a key on the side the position is not. -/
theorem Splits.side {f : Frame Entry} {fs : Ctx Entry} {k : CString}
    (h : Splits Entry.name (f :: fs) k) :
    (f.dir = .left ∧ k < f.payload.name) ∨ (f.dir = .right ∧ f.payload.name < k) := by
  obtain ⟨d, c, e, u⟩ := f
  cases d with
  | left => exact Or.inl ⟨rfl, h.2 e (by simp [Ctx.after, Frame.after])⟩
  | right => exact Or.inr ⟨rfl, h.1 e (by simp [Ctx.before, Frame.before])⟩

/-- The new node becomes the child, at an empty position, of the node above it. -/
theorem insertLink_run {ctx : Ctx Entry} {nz : RbNode} (h : Rep T np (fill ctx .nil))
    (hsound : ∀ e ∈ (fill ctx (.nil : Tree Entry)).toList, e.Sound)
    (hz : T.mem.cells z.ptr = some nz) (hkey : Reads nz.keyMem z.name)
    (hsplit : Splits Entry.name ctx z.name) :
    ∃ T', (rbtreeInsertLink z.ptr (ctxPtr T.nil ctx)).run T = .ok ((), T') ∧
      CtxCells T'.mem T.nil ctx z.ptr ∧ T'.root = rootPtr ctx z.ptr ∧
      (∀ q ∉ ctxPtrs ctx, T'.mem.cells q = T.mem.cells q) ∧ Keeps T T' := by
  have hnd := h.distinct
  rw [Tree.ptrs_nil, List.nil_append] at hnd
  cases ctx with
  | nil =>
      refine ⟨{ T with root := z.ptr }, ?_, trivial, rfl, fun _ _ => rfl,
        ⟨rfl, rfl, rfl, rfl, fun _ => rfl⟩⟩
      exact run_bind_of (run_get T) (run_ite_pos rfl rfl)
  | cons f fs =>
      have hlink := ctxCells_link z.ptr h.ctxCells (List.nodup_cons.mp hnd).2
      have hside := hsplit.side
      have hroot := h.rootPtr_eq
      obtain ⟨hat, -, -⟩ := h.ctxCells
      obtain ⟨fd, fc, e, u⟩ := f
      have hne : e.ptr ≠ T.nil := by
        intro hcon
        exact (List.nodup_cons.mp hnd).1 (by rw [← hcon]; simp [ctxPtrs])
      have hreads : Reads (cell fd fc T.nil (u.ptr T.nil) (ctxPtr T.nil fs) e).keyMem e.name := by
        rw [RbNode.keyMem, cell_key, cell_value]
        exact (hsound e mem_toList_fill).reads
      obtain ⟨ret, hcmp, hlt, -⟩ := compareKey_run hat hkey hreads
      have hset : ∀ d, fd = d → (assign e.ptr (RbNode.setChild d z.ptr) : Prog Rbtree Unit).run T =
          .ok ((), { T with
            mem := T.mem.write e.ptr (cell fd fc z.ptr (u.ptr T.nil) (ctxPtr T.nil fs) e) }) := by
        rintro d rfl
        refine (assign_run hat _).trans ?_
        rw [cell_setNear]
        rfl
      refine ⟨{ T with mem := T.mem.write e.ptr (cell fd fc z.ptr (u.ptr T.nil) (ctxPtr T.nil fs) e) },
        ?_, hlink, hroot, ?_, keeps_write T _ _⟩
      · refine run_bind_of (run_get T) (run_ite_neg hne (run_bind_of (deref_run hz) ?_))
        refine run_bind_of hcmp ?_
        rcases hside with ⟨hd, hk⟩ | ⟨hd, hk⟩
        · exact run_ite_pos (hlt.mpr hk) (hset _ hd)
        · exact run_ite_neg (fun hc => lt_asymm hk (hlt.mp hc)) (hset _ hd)
      · intro q hq
        refine Mem.write_of_ne _ ?_ _
        rintro rfl
        exact hq (by simp [ctxPtrs])

/-- The assignments after linking make the new node a red leaf. -/
theorem leaf_run {nz : RbNode} {y nil : Ptr} {rest : Prog Rbtree Unit}
    (hcell : T.mem.cells z.ptr = some (nz.setParent y)) (hk : nz.key = z.key)
    (hv : nz.value = z.value) :
    (do assign z.ptr (RbNode.setChild .left nil)
        assign z.ptr (RbNode.setChild .right nil)
        assign z.ptr (RbNode.setColor RED)
        rest : Prog Rbtree Unit).run T =
      rest.run { T with mem := T.mem.write z.ptr (cell .left .red nil nil y z) } := by
  have hcell₁ := Mem.write_self hcell ((nz.setParent y).setChild .left nil)
  have hcell₂ := Mem.write_self hcell₁ (((nz.setParent y).setChild .left nil).setChild .right nil)
  rw [run_bind_ok (assign_run hcell _), run_bind_ok (assign_run hcell₁ _),
    run_bind_ok (assign_run hcell₂ _)]
  show rest.run { T with mem := ((T.mem.write z.ptr _).write z.ptr _).write z.ptr _ } = _
  rw [Mem.write_write, Mem.write_write]
  simp [RbNode.setParent, RbNode.setChild, RbNode.setColor, cell, hk, hv]

/-- Where a leaf was linked and its links were set, it hangs at its place. -/
theorem Rep.hang {T₂ : Rbtree} {ctx : Ctx Entry} {nd : RbNode} (h : Rep T np (fill ctx .nil))
    (hz : z.ptr ≠ T.nil) (hzc : z.ptr ∉ ctxPtrs ctx) (hkeeps : Keeps T T₂)
    (hctx : CtxCells T₂.mem T.nil ctx z.ptr) (hroot : T₂.root = rootPtr ctx z.ptr)
    (hoff : ∀ q ∉ ctxPtrs ctx, T₂.mem.cells q = T.mem.cells q)
    (hcell : T₂.mem.cells z.ptr = some nd) :
    Rep { T₂ with
      mem := T₂.mem.write z.ptr (cell .left .red T.nil T.nil (ctxPtr T.nil ctx) z) } np
      (fill ctx (branch .left .red .nil z .nil)) := by
  have hnil : T₂.nil = T.nil := hkeeps.nil
  have hnd : T.nil ∉ ctxPtrs ctx ∧ (ctxPtrs ctx).Nodup := by
    have hdistinct := h.distinct
    rwa [Tree.ptrs_nil, List.nil_append, List.nodup_cons] at hdistinct
  let m := T₂.mem.write z.ptr (cell .left .red T.nil T.nil (ctxPtr T.nil ctx) z)
  have hoff' : ∀ q, q ≠ z.ptr → m.cells q = T₂.mem.cells q := fun q hq => Mem.write_of_ne _ hq _
  refine Rep.of_fill ?_ hroot ?_ ?_ ?_
  · show m.cells T₂.nil = some (nilCell T₂.nil np)
    rw [hnil, hoff' _ (Ne.symm hz), hoff _ hnd.1, h.sentinel]
  · show CtxCells m T₂.nil ctx z.ptr
    rw [hnil]
    exact ctxCells_congr (fun q hq => hoff' q (ne_of_mem_of_not_mem hq hzc)) hctx
  · show Cells m T₂.nil (ctxPtr T₂.nil ctx) _
    rw [hnil]
    exact ⟨Mem.write_self hcell _, trivial, trivial⟩
  · show (T₂.nil :: ([z.ptr] ++ ctxPtrs ctx)).Nodup
    rw [hnil]
    simp only [List.singleton_append, List.nodup_cons, List.mem_cons, not_or]
    exact ⟨⟨Ne.symm hz, hnd.1⟩, hzc, hnd.2⟩

/-- What `rbtree_insert` has done before the fix-up: the new node is a red leaf at its place. -/
structure Linked (T : Rbtree) (np : Ptr) (t : Tree Entry) (z : Entry) (nz : RbNode)
    (ctx : Ctx Entry) (T₂ : Rbtree) : Prop where
  place : t = fill ctx .nil
  splits : Splits Entry.name ctx z.name
  descent : (loop (rbtreeInsertStep z.ptr) T.fuel (T.nil, T.root)).run T =
    .ok (some (ctxPtr T.nil ctx), T)
  link : (rbtreeInsertLink z.ptr (ctxPtr T.nil ctx)).run
    { T with mem := T.mem.write z.ptr (nz.setParent (ctxPtr T.nil ctx)) } = .ok ((), T₂)
  cell : T₂.mem.cells z.ptr = some (nz.setParent (ctxPtr T.nil ctx))
  rep : Rep { T₂ with
    mem := T₂.mem.write z.ptr (KvStore.cell .left .red T.nil T.nil (ctxPtr T.nil ctx) z) } np
    (fill ctx (branch .left .red .nil z .nil))
  balanced : CtxBal ctx .black 0
  keeps : Keeps T T₂

/-- A node with a new key is linked as a leaf. -/
theorem rbtreeInsert_linked {nz : RbNode} (h : Rep T np t) (hinv : TreeInv t) (hz : z.Sound)
    (hcell : T.mem.cells z.ptr = some nz) (hk : nz.key = z.key) (hv : nz.value = z.value)
    (hnil : z.ptr ≠ T.nil) (hnew : z.ptr ∉ t.ptrs) (habs : ∀ e ∈ t.toList, e.name ≠ z.name) :
    ∃ ctx T₂, Linked T np t z nz ctx T₂ := by
  have hkey : Reads nz.keyMem z.name := by
    rw [RbNode.keyMem, hk, hv]
    exact hz.reads
  obtain ⟨p, hdesc, hplace⟩ := descent_spec h hinv hcell hkey
  cases p with
  | none =>
      obtain ⟨e, he, hname⟩ := hplace
      exact absurd hname (habs e he)
  | some y =>
      obtain ⟨ctx, rfl, hsplit, rfl⟩ := hplace
      have hzc : z.ptr ∉ ctxPtrs ctx := fun hc =>
        hnew ((ptrs_fill ctx .nil).mem_iff.mpr (List.mem_append_right _ hc))
      -- z->parent = y
      have hcell₁ := Mem.write_self hcell (nz.setParent (ctxPtr T.nil ctx))
      have hrep₁ : Rep { T with mem := T.mem.write z.ptr (nz.setParent (ctxPtr T.nil ctx)) } np
          (fill ctx .nil) :=
        h.congr rfl rfl (fun q hq => Mem.write_of_ne _ (by rintro rfl; simp_all) _)
      obtain ⟨T₂, hlink, hctx₂, hroot₂, hoff₂, hk₂⟩ :=
        insertLink_run hrep₁ hinv.sound hcell₁ hkey hsplit
      have hcell₂ := (hoff₂ z.ptr hzc).trans hcell₁
      obtain ⟨m, hbal⟩ := hinv.balanced
      obtain ⟨c, k, hsub, hctxbal⟩ := CtxBal.of_fill hbal
      cases hsub
      exact ⟨ctx, T₂, rfl, hsplit, hdesc, hlink, hcell₂,
        hrep₁.hang hnil hzc hk₂ hctx₂ hroot₂ hoff₂ hcell₂, hctxbal,
        (keeps_write T _ _).trans hk₂⟩

/-- **Inserting a node with a new key adds its entry.** -/
theorem rbtreeInsert_spec (hrot : Rotates rotate) {nz : RbNode} (h : Rep T np t)
    (hinv : TreeInv t) (hz : z.Sound)
    (hcell : T.mem.cells z.ptr = some nz) (hk : nz.key = z.key) (hv : nz.value = z.value)
    (hnil : z.ptr ≠ T.nil) (hnew : z.ptr ∉ t.ptrs) (habs : ∀ e ∈ t.toList, e.name ≠ z.name) :
    ∃ T' t', (rbtreeInsertBy rotate z.ptr).run T = .ok ((), T') ∧ Rep T' np t' ∧ TreeInv t' ∧
      t'.toList.Perm (z :: t.toList) ∧ Keeps T T' := by
  obtain ⟨ctx, T₂, hlinked⟩ := rbtreeInsert_linked h hinv hz hcell hk hv hnil hnew habs
  obtain rfl := hlinked.place
  obtain ⟨T', t', m', hfix, hrep', hlist, hbal', hk'⟩ :=
    rbtreeInsertFixup_spec hrot hlinked.rep .nil .nil hlinked.balanced
  have hperm : t'.toList.Perm (z :: (fill ctx .nil).toList) := by
    rw [hlist, toList_fill, toList_fill]
    simp [branch, toList]
  refine ⟨T', t', ?_, hrep', ⟨?_, ?_, m', hbal'⟩, hperm, ?_⟩
  · refine run_bind_of (run_get T) (run_bind_of hlinked.descent ?_)
    refine run_bind_of (assign_run hcell _) (run_bind_of hlinked.link ?_)
    exact (leaf_run hlinked.cell hk hv).trans hfix
  · rw [hlist]
    exact hlinked.splits.ascending_insert hinv.ascending rfl
  · intro e he
    rcases List.mem_cons.mp (hperm.mem_iff.mp he) with rfl | he
    · exact hz
    · exact hinv.sound e he
  · exact hlinked.keeps.trans ((keeps_write T₂ _ _).trans hk')

end Insert

end KvStore
