/-
Deleting a node.

`rbtree_delete` unlinks a node with at most one child: the node itself, or the
leftmost node of its right subtree, whose buffers are then moved into it.  Unlinking
gives the only child the node's parent, also when the child is the sentinel, and that
parent field is what the fix-up later climbs from.  The entries of the tree lose
exactly the deleted one; which address they live at may change for one of them.
-/
import KvStore.Proofs.Rbtree.DeleteFixup
import KvStore.Proofs.Rbtree.Search

namespace KvStore

open KvStore.Tree Ctx

/-! ### The leftmost node -/

section Mini

variable {T : Rbtree} {np : Ptr} {ctx : Ctx Entry} {r : Tree Entry}

/-- The walk to the left has come to the subtree at `x`. -/
def MiniInv (T : Rbtree) (r : Tree Entry) (n : Nat) (x : Ptr) (T' : Rbtree) : Prop :=
  ∃ ctx₁ c l e u, r = fill ctx₁ (.node c l e u) ∧ before ctx₁ = [] ∧ n = l.toList.length ∧
    x = e.ptr ∧ T' = T

/-- `p` is the first node of the subtree in order, which has no left child. -/
def Leftmost (r : Tree Entry) (p : Ptr) : Prop :=
  ∃ ctx₁ c e u, r = fill ctx₁ (.node c .nil e u) ∧ before ctx₁ = [] ∧ p = e.ptr

/-- At a node the walk goes on to the left, or ends if there is no left child. -/
theorem mini_at {c : Color} {l u : Tree Entry} {e : Entry}
    (h : Rep T np (fill ctx (.node c l e u))) :
    (rbtreeMiniStep e.ptr).run T =
      .ok (match l with | .nil => .inr e.ptr | .node _ _ e' _ => .inl e'.ptr, T) := by
  have hat : Rep T np (fill ctx (branch .left c l e u)) := h
  cases l with
  | nil => exact run_bind_of (run_get T) (run_bind_of hat.getNear (run_ite_neg (by simp) rfl))
  | node c' l' e' u' =>
      have hleft : Rep T np (fill (⟨.left, c, e, u⟩ :: ctx) (branch .left c' l' e' u')) := hat
      exact run_bind_of (run_get T) (run_bind_of hat.getNear (run_ite_pos hleft.ptr_ne_nil rfl))

theorem mini_step (h : Rep T np (fill ctx r)) :
    ∀ n x T', MiniInv T r n x T' →
      (∃ p T'', (rbtreeMiniStep x).run T' = .ok (.inr p, T'') ∧ T'' = T ∧ Leftmost r p) ∨
      (∃ x' T'' m, (rbtreeMiniStep x).run T' = .ok (.inl x', T'') ∧ m < n ∧
        MiniInv T r m x' T'') := by
  rintro n x T' ⟨ctx₁, c, l, e, u, rfl, hbefore, rfl, rfl, rfl⟩
  rw [← fill_append] at h
  cases l with
  | nil => exact Or.inl ⟨e.ptr, T', mini_at h, rfl, ctx₁, c, e, u, rfl, hbefore, rfl⟩
  | node c' l' e' u' =>
      refine Or.inr ⟨e'.ptr, T', l'.toList.length, mini_at h, ?_, ⟨.left, c, e, u⟩ :: ctx₁, c', l',
        e', u', rfl, ?_, rfl, rfl, rfl⟩
      · simp only [toList, List.length_append, List.length_cons]
        omega
      · simp [before, Frame.before, hbefore]

theorem rbtreeMini_spec {c : Color} {l u : Tree Entry} {e : Entry}
    (h : Rep T np (fill ctx (.node c l e u))) :
    ∃ p, (rbtreeMini e.ptr).run T = .ok (p, T) ∧ Leftmost (.node c l e u) p := by
  have hlt := h.length_lt
  have hlen : l.toList.length < (fill ctx (.node c l e u)).toList.length := by
    rw [toList_fill]
    simp only [toList, List.length_append, List.length_cons]
    omega
  obtain ⟨p, T', hrun, rfl, hp⟩ :=
    loop_total (mini_step h) T.fuel l.toList.length e.ptr T
      ⟨[], c, l, e, u, rfl, rfl, rfl, rfl, rfl⟩ (by rw [Rbtree.fuel]; omega)
  exact ⟨p, run_bind_of (run_get _) hrun, hp⟩

end Mini

/-! ### Unlinking -/

section Unlink

variable {T : Rbtree} {np : Ptr} {ctx : Ctx Entry} {d : Dir} {c : Color} {e : Entry}
  {u : Tree Entry}

theorem deleteChild_run (h : Rep T np (fill ctx (branch d c .nil e u))) :
    (rbtreeDeleteChild e.ptr).run T = .ok (u.ptr T.nil, T) := by
  have hret : ∀ p, (if p ≠ T.nil then pure p else pure T.nil : Prog Rbtree Ptr).run T =
      .ok (p, T) := by
    intro p
    by_cases hp : p = T.nil
    · exact run_ite_neg (by simpa using hp) (by rw [hp]; rfl)
    · exact run_ite_pos hp rfl
  refine run_bind_of (run_get T) ?_
  cases d with
  | left =>
      refine run_bind_of h.getNear (run_ite_neg (by simp) ?_)
      exact run_bind_of h.getFar (hret _)
  | right =>
      refine run_bind_of h.getFar ?_
      by_cases hu : u.ptr T.nil = T.nil
      · refine run_ite_neg (by simpa using hu) (run_bind_of h.getNear ?_)
        rw [hu]
        exact hret T.nil
      · exact run_ite_pos hu rfl

/-- The only child gets the parent; the sentinel does when there is none. -/
theorem adopt_run (h : Rep T np (fill ctx (branch d c .nil e u))) (p : Ptr) :
    ∃ T' np', (assign (u.ptr T.nil) (RbNode.setParent p) : Prog Rbtree Unit).run T = .ok ((), T') ∧
      T'.mem.cells T.nil = some (nilCell T.nil np') ∧ Cells T'.mem T.nil p u ∧
      (u = .nil → np' = p) ∧ T'.root = T.root ∧
      (∀ q ∉ T.nil :: u.ptrs, T'.mem.cells q = T.mem.cells q) ∧ Keeps T T' := by
  have hu : Cells T.mem T.nil e.ptr u := (cells_branch.mp h.subCells).2.2
  have hnd : (T.nil :: u.ptrs).Nodup := by
    have := (((ptrs_branch d c .nil u e).append_right (ctxPtrs ctx)).cons T.nil).nodup_iff.mp
      h.distinct
    simp only [ptrs_nil, List.nil_append, List.cons_append, List.nodup_cons, List.nodup_append,
      List.mem_cons, List.mem_append, not_or] at this
    exact List.nodup_cons.mpr ⟨this.1.2.1, this.2.2.1⟩
  by_cases hnil : u.ptr T.nil = T.nil
  · obtain rfl := eq_nil_of_ptr (List.nodup_cons.mp hnd).1 hnil
    refine ⟨{ T with mem := T.mem.write T.nil (nilCell T.nil p) }, p, ?_,
      Mem.write_self h.sentinel _, trivial, fun _ => rfl, rfl, fun q hq => Mem.write_of_ne _ ?_ _,
      keeps_write T _ _⟩
    · exact assign_run (s := T) h.sentinel (RbNode.setParent p)
    · rintro rfl
      exact hq (by simp)
  · obtain ⟨m', hrun, hcells, hoff, hk⟩ := reparent_run p hu hnd
    have hpos : (whenever (u.ptr T.nil ≠ T.nil) (assign (u.ptr T.nil) (RbNode.setParent p)) :
        Prog Rbtree Unit) = assign (u.ptr T.nil) (RbNode.setParent p) := if_pos hnil
    rw [hpos] at hrun
    refine ⟨_, np, hrun, (hoff _ (List.nodup_cons.mp hnd).1).trans h.sentinel, hcells, ?_, rfl,
      fun q hq => hoff q (fun hc => hq (List.mem_cons_of_mem _ hc)), hk⟩
    rintro rfl
    exact absurd rfl hnil

/-- **Unlinking a node with one child puts the child in its place.** -/
theorem unlink_run (h : Rep T np (fill ctx (branch d c .nil e u))) :
    ∃ T₁ T' np', (assign (u.ptr T.nil) (RbNode.setParent (ctxPtr T.nil ctx)) :
        Prog Rbtree Unit).run T = .ok ((), T₁) ∧
      (rbtreeRelink .left (ctxPtr T.nil ctx) e.ptr (u.ptr T.nil)).run T₁ = .ok ((), T') ∧
      Rep T' np' (fill ctx u) ∧ (u = .nil → np' = ctxPtr T'.nil ctx) ∧
      T'.mem.cells e.ptr = T.mem.cells e.ptr ∧ Keeps T T' := by
  have hnd := (((ptrs_branch d c .nil u e).append_right (ctxPtrs ctx)).cons T.nil).nodup_iff.mp
    h.distinct
  simp only [ptrs_nil, List.nil_append, List.cons_append, List.nodup_cons, List.mem_cons,
    List.mem_append, not_or] at hnd
  obtain ⟨⟨hne, hnu, hnc⟩, ⟨heu, hec⟩, hucd⟩ := hnd
  obtain ⟨-, hcd, huc⟩ := List.nodup_append.mp hucd
  obtain ⟨T₁, np', hrun₁, hnil₁, hu₁, hnp, hroot₁, hoff₁, hk₁⟩ := adopt_run h (ctxPtr T.nil ctx)
  have hctx := h.ctxCells
  rw [ptr_branch] at hctx
  have hctx₁ : CtxCells T₁.mem T₁.nil ctx e.ptr := by
    rw [hk₁.nil]
    refine ctxCells_congr (fun q hq => hoff₁ q ?_) hctx
    simp only [List.mem_cons, not_or]
    exact ⟨ne_of_mem_of_not_mem hq hnc, fun hqu => huc q hqu q hq rfl⟩
  obtain ⟨T₂, hrun₂, hctx₂, hroot₂, hoff₂, hk₂⟩ :=
    relink_run .left (u.ptr T.nil) hctx₁
      (by rw [hroot₁, h.rootPtr_eq, ptr_branch])
      (by rw [hk₁.nil]; exact List.nodup_cons.mpr ⟨hnc, hcd⟩) (by rw [hk₁.nil]; exact Ne.symm hne) hec
  rw [hk₁.nil] at hrun₂ hctx₂
  have hnil₂ : T₂.nil = T.nil := hk₂.nil.trans hk₁.nil
  refine ⟨T₁, T₂, np', hrun₁, hrun₂, ?_, ?_, ?_, hk₁.trans hk₂⟩
  · refine Rep.of_fill ?_ ?_ ?_ ?_ ?_
    · rw [hnil₂, hoff₂ _ hnc, hnil₁]
    · rw [hnil₂, hroot₂]
    · rw [hnil₂]
      exact hctx₂
    · rw [hnil₂]
      exact cells_congr (fun q hq => hoff₂ q (fun hqc => huc q hq q hqc rfl)) hu₁
    · rw [hnil₂]
      exact List.nodup_cons.mpr ⟨by simp [hnu, hnc], hucd⟩
  · rw [hnil₂]
    exact hnp
  · rw [hoff₂ _ hec, hoff₁ _ (by simp [Ne.symm hne, heu])]

end Unlink

/-! ### Moving the successor's buffers -/

section Move

section Payload

variable (ctx₁ ctx : Ctx Entry) (d : Dir) (c : Color) {e e' : Entry} (u : Tree Entry)

/-- The addresses around a position do not depend on a payload's buffers. -/
theorem ctxPtr_payload (nil : Ptr) (h : e'.ptr = e.ptr) :
    ctxPtr nil (ctx₁ ++ ⟨d, c, e', u⟩ :: ctx) = ctxPtr nil (ctx₁ ++ ⟨d, c, e, u⟩ :: ctx) := by
  cases ctx₁ with
  | nil => exact h
  | cons f fs => rfl

theorem ctxPtrs_payload (h : e'.ptr = e.ptr) :
    ctxPtrs (ctx₁ ++ ⟨d, c, e', u⟩ :: ctx) = ctxPtrs (ctx₁ ++ ⟨d, c, e, u⟩ :: ctx) := by
  induction ctx₁ with
  | nil => simp [ctxPtrs, h]
  | cons f fs ih => simp only [List.cons_append, ctxPtrs, ih]

theorem mem_ctxPtrs (e : Entry) : e.ptr ∈ ctxPtrs (ctx₁ ++ ⟨d, c, e, u⟩ :: ctx) := by
  induction ctx₁ with
  | nil => simp [ctxPtrs]
  | cons f fs ih => simp [ctxPtrs, ih]

end Payload

variable {T : Rbtree} {np : Ptr} {ctx : Ctx Entry} {d : Dir} {c : Color} {e y : Entry}
  {t u : Tree Entry} {ny : RbNode}

/-- The node at a position gets the buffers of the node at `y`. -/
theorem move_run (h : Rep T np (fill ctx (branch d c t e u))) (hy : T.mem.cells y.ptr = some ny)
    (hk : ny.key = y.key) (hv : ny.value = y.value) (hs : y.Sound) (hne : y.ptr ≠ e.ptr) :
    ∃ T', (rbtreeDeleteMove e.ptr y.ptr).run T = .ok ((), T') ∧
      Rep T' np (fill ctx (branch d c t { y with ptr := e.ptr } u)) ∧
      T'.mem.cells y.ptr = some ny ∧ Keeps T T' := by
  have hkey : strncpy maxKeyLen ny.key.val = y.key := by rw [hk, hs.keyPadded]
  have hvalue : strncpy maxValueLen ny.value.val = y.value := by rw [hv, hs.valuePadded]
  obtain ⟨T₁, hrun₁, hrep₁, hoff₁, hk₁⟩ :=
    assign_rep (f := fun nd => { nd with key := y.key }) h c { e with key := y.key } rfl
      (fun near far par => cell_setKey d c near far par e y.key)
  obtain ⟨T₂, hrun₂, hrep₂, hoff₂, hk₂⟩ :=
    assign_rep (f := fun nd => { nd with value := y.value }) hrep₁ c { y with ptr := e.ptr } rfl
      (fun near far par => cell_setValue d c near far par { e with key := y.key } y.value)
  refine ⟨T₂, run_bind_of (deref_run hy) ?_, hrep₂, ?_, hk₁.trans hk₂⟩
  · rw [hkey, hvalue]
    exact run_bind_of hrun₁ hrun₂
  · rw [hoff₂ _ hne, hoff₁ _ hne, hy]

end Move

/-! ### The whole deletion -/

section Delete

variable {rotate : Dir → Ptr → Prog Rbtree Unit} {T : Rbtree} {np : Ptr} {ctx : Ctx Entry}
  {d : Dir} {c : Color} {e : Entry} {t u : Tree Entry}

/-- The last statements: rebalance if a black node was unlinked. -/
theorem deleteFinish_run (hrot : Rotates rotate) {nd : RbNode} {c₀ : Color} {n : Nat}
    (h : Rep T np (fill ctx u))
    (hcell : T.mem.cells e.ptr = some nd) (hcolor : nd.color = c.byte)
    (hbal : Bal (branch d c .nil e u) c₀ n) (hctx : CtxBal ctx c₀ n)
    (hnp : u = .nil → np = ctxPtr T.nil ctx) :
    ∃ T' t' m, (do let yc ← getColor e.ptr
                   whenever (yc = BLACK) (rbtreeDeleteFixupBy rotate (u.ptr T.nil))
                   return e.ptr : Prog Rbtree Ptr).run T = .ok (e.ptr, T') ∧
      Rep T' np t' ∧ t'.toList = (fill ctx u).toList ∧ Bal t' .black m ∧ Keeps T T' := by
  have hread := getColor_run hcell
  rw [hcolor] at hread
  cases c with
  | red =>
      obtain ⟨rfl, -, hu⟩ := hbal.of_branch_red
      obtain ⟨m, hm⟩ := hctx.of_red.fill hu
      refine ⟨T, fill ctx u, m, ?_, h, rfl, hm, Keeps.refl T⟩
      exact run_bind_of hread (run_bind_of (run_whenever_neg (by simp [RED, BLACK])) rfl)
  | black =>
      obtain ⟨rfl, c₁, c₂, k, rfl, hnil, hu⟩ := hbal.of_branch_black
      cases hnil
      obtain ⟨T', t', m, hfix, hrep, hlist, hm, hk⟩ :=
        rbtreeDeleteFixup_spec hrot h (Short.of_bal hu) hctx hnp
      refine ⟨T', t', m, ?_, hrep, hlist, hm, hk⟩
      exact run_bind_of hread (run_bind_of (run_whenever_pos rfl hfix) rfl)

/-- What a deletion leaves: a tree without the entry, and a node outside it to free. -/
structure Deleted (T : Rbtree) (t : Tree Entry) (e : Entry) (p : Ptr) (T' : Rbtree)
    (np' : Ptr) (t' : Tree Entry) : Prop where
  rep : Rep T' np' t'
  balanced : ∃ m, Bal t' .black m
  ptrs : t.ptrs.Perm (p :: t'.ptrs)
  entries : ∃ A B, t.toList = A ++ e :: B ∧ t'.toList.map Entry.data = (A ++ B).map Entry.data
  keeps : Keeps T T'

/-- A node with at most one child is unlinked itself. -/
theorem delete_self (hrot : Rotates rotate) (h : Rep T np (fill ctx (branch d c .nil e u)))
    (hbal : ∃ m, Bal (fill ctx (branch d c .nil e u)) .black m)
    (hvictim : (rbtreeDeleteVictim e.ptr).run T = .ok (e.ptr, T)) :
    ∃ T' np' t', (rbtreeDeleteBy rotate e.ptr).run T = .ok (e.ptr, T') ∧
      Deleted T (fill ctx (branch d c .nil e u)) e e.ptr T' np' t' := by
  obtain ⟨m, hbal⟩ := hbal
  obtain ⟨c₀, n, hsub, hctx⟩ := CtxBal.of_fill hbal
  obtain ⟨T₁, T₂, np', hrun₁, hrun₂, hrep₂, hnp, hcell₂, hk₂⟩ := unlink_run h
  rw [h.cell_at] at hcell₂
  obtain ⟨T', t', m', hfinish, hrep', hlist, hbal', hk'⟩ :=
    deleteFinish_run hrot hrep₂ hcell₂ (cell_color ..) hsub hctx hnp
  rw [hk₂.nil] at hfinish
  refine ⟨T', np', t', ?_, hrep', ⟨m', hbal'⟩, ?_, ?_, hk₂.trans hk'⟩
  · refine run_bind_of hvictim (run_bind_of (deleteChild_run h) (run_bind_of h.getUp ?_))
    refine run_bind_of hrun₁ (run_bind_of hrun₂ ?_)
    exact run_bind_of (run_whenever_neg (by simp)) hfinish
  · refine (ptrs_fill ctx _).trans (((ptrs_branch d c .nil u e).append_right _).trans ?_)
    rw [ptrs_congr hlist]
    exact ((ptrs_fill ctx u).symm).cons e.ptr
  · cases d with
    | left =>
        refine ⟨before ctx, u.toList ++ after ctx, ?_, ?_⟩
        · simp [toList_fill, branch, toList]
        · rw [hlist, toList_fill, List.append_assoc]
    | right =>
        refine ⟨before ctx ++ u.toList, after ctx, ?_, ?_⟩
        · simp [toList_fill, branch, toList]
        · rw [hlist, toList_fill]

/-- Of a node with two children the successor is unlinked, and its buffers move. -/
theorem delete_successor (hrot : Rotates rotate) {l r : Tree Entry}
    (h : Rep T np (fill ctx (.node c l e r)))
    (hbal : ∃ m, Bal (fill ctx (.node c l e r)) .black m)
    (hsound : ∀ a ∈ (fill ctx (.node c l e r)).toList, a.Sound) {p : Ptr} (hp : Leftmost r p)
    (hvictim : (rbtreeDeleteVictim e.ptr).run T = .ok (p, T)) :
    ∃ T' np' t', (rbtreeDeleteBy rotate e.ptr).run T = .ok (p, T') ∧
      Deleted T (fill ctx (.node c l e r)) e p T' np' t' := by
  obtain ⟨ctx₁, cy, y, u, rfl, hbefore, rfl⟩ := hp
  have heq : ∀ (a : Entry) (s : Tree Entry), fill ctx (.node c l a (fill ctx₁ s)) =
      fill (ctx₁ ++ ⟨.right, c, a, l⟩ :: ctx) s := by
    intro a s
    rw [fill_append]
    rfl
  have hy : Rep T np (fill (ctx₁ ++ ⟨.right, c, e, l⟩ :: ctx) (branch .left cy .nil y u)) := by
    rw [← heq e]
    exact h
  obtain ⟨m, hbal⟩ := hbal
  rw [heq e] at hbal
  obtain ⟨c₀, n, hsub, hctx⟩ := CtxBal.of_fill hbal
  obtain ⟨T₁, T₂, np', hrun₁, hrun₂, hrep₂, hnp, hcell₂, hk₂⟩ := unlink_run hy
  rw [hy.cell_at] at hcell₂
  have hne : y.ptr ≠ e.ptr := by
    intro hcon
    have hnd := (((ptrs_branch .left cy .nil u y).append_right _).cons T.nil).nodup_iff.mp hy.distinct
    refine (List.nodup_cons.mp (List.nodup_cons.mp hnd).2).1 (List.mem_append_right _ ?_)
    rw [hcon]
    exact mem_ctxPtrs ctx₁ ctx .right c l e
  have hz₂ : Rep T₂ np' (fill ctx (branch .left c l e (fill ctx₁ u))) := by
    show Rep T₂ np' (fill ctx (.node c l e (fill ctx₁ u)))
    rw [heq e]
    exact hrep₂
  have hys : y.Sound := by
    refine hsound y ?_
    rw [heq e]
    exact mem_toList_fill (d := .left)
  obtain ⟨T₃, hrun₃, hrep₃, hcell₃, hk₃⟩ := move_run hz₂ hcell₂ (cell_key ..) (cell_value ..) hys hne
  have hrep₃' : Rep T₃ np' (fill (ctx₁ ++ ⟨.right, c, { y with ptr := e.ptr }, l⟩ :: ctx) u) := by
    rw [← heq]
    exact hrep₃
  obtain ⟨T', t', m', hfinish, hrep', hlist, hbal', hk'⟩ :=
    deleteFinish_run hrot (d := .left) hrep₃' hcell₃ (cell_color ..) hsub (hctx.payload _) (by
      intro hu
      rw [hnp hu, hk₃.nil]
      exact ctxPtr_payload ctx₁ ctx .right c l T₂.nil rfl)
  rw [hk₃.nil, hk₂.nil] at hfinish
  refine ⟨T', np', t', ?_, hrep', ⟨m', hbal'⟩, ?_, ?_, (hk₂.trans hk₃).trans hk'⟩
  · refine run_bind_of hvictim (run_bind_of (deleteChild_run hy) (run_bind_of hy.getUp ?_))
    refine run_bind_of hrun₁ (run_bind_of hrun₂ ?_)
    exact run_bind_of (run_whenever_pos hne hrun₃) hfinish
  · rw [heq e]
    refine (ptrs_fill _ _).trans (((ptrs_branch .left cy .nil u y).append_right _).trans ?_)
    rw [ptrs_congr hlist]
    refine List.Perm.cons y.ptr ((ptrs_fill _ u).trans ?_).symm
    exact List.Perm.of_eq (congrArg _ (ctxPtrs_payload ctx₁ ctx .right c l rfl))
  · refine ⟨before ctx ++ l.toList, y :: (u.toList ++ after ctx₁ ++ after ctx), ?_, ?_⟩
    · simp [toList_fill, toList, hbefore]
    · rw [hlist, ← heq]
      simp [toList_fill, toList, hbefore, Entry.data]

/-- A node with at most one child is the one to unlink. -/
theorem deleteVictim_self {l r : Tree Entry} (h : Rep T np (fill ctx (.node c l e r)))
    (hlr : l = .nil ∨ r = .nil) : (rbtreeDeleteVictim e.ptr).run T = .ok (e.ptr, T) := by
  have hat : Rep T np (fill ctx (branch .left c l e r)) := h
  have hfar : (getChild .right e.ptr).run T = .ok (r.ptr T.nil, T) := hat.getFar
  refine run_bind_of (run_get T) (run_bind_of hat.getNear ?_)
  by_cases hl : l.ptr T.nil = T.nil
  · exact run_ite_pos hl rfl
  · refine run_ite_neg hl (run_bind_of hfar (run_ite_pos ?_ rfl))
    rcases hlr with rfl | rfl
    · exact absurd rfl hl
    · rfl

/-- For a node with two children it is the leftmost one of the right subtree. -/
theorem deleteVictim_successor {cl cr : Color} {ll rl lr rr : Tree Entry} {el er : Entry}
    (h : Rep T np (fill ctx (.node c (.node cl ll el rl) e (.node cr lr er rr)))) :
    (rbtreeDeleteVictim e.ptr).run T = (rbtreeMini er.ptr).run T := by
  have hat : Rep T np (fill ctx (branch .left c (.node cl ll el rl) e (.node cr lr er rr))) := h
  have hfar : (getChild .right e.ptr).run T = .ok (er.ptr, T) := hat.getFar
  have hl : Rep T np (fill (⟨.left, c, e, .node cr lr er rr⟩ :: ctx) (branch .left cl ll el rl)) := h
  have hr : Rep T np (fill (⟨.right, c, e, .node cl ll el rl⟩ :: ctx) (branch .left cr lr er rr)) := h
  refine run_bind_of (run_get T) (run_bind_of hat.getNear (run_ite_neg hl.ptr_ne_nil ?_))
  refine run_bind_of hfar (run_ite_neg hr.ptr_ne_nil ?_)
  refine run_bind_of (run_get T) (run_bind_of hat.getUp (run_bind_of hfar ?_))
  exact run_ite_pos hr.ptr_ne_nil rfl

/-- **Deleting a node removes its entry, and detaches one node.** -/
theorem rbtreeDelete_spec (hrot : Rotates rotate) {l r : Tree Entry}
    (h : Rep T np (fill ctx (.node c l e r))) (hinv : TreeInv (fill ctx (.node c l e r))) :
    ∃ T' p np' t', (rbtreeDeleteBy rotate e.ptr).run T = .ok (p, T') ∧
      Deleted T (fill ctx (.node c l e r)) e p T' np' t' := by
  cases l with
  | nil =>
      obtain ⟨T', np', t', hrun, hdel⟩ :=
        delete_self hrot (d := .left) h hinv.balanced (deleteVictim_self h (Or.inl rfl))
      exact ⟨T', e.ptr, np', t', hrun, hdel⟩
  | node cl ll el rl =>
      cases r with
      | nil =>
          obtain ⟨T', np', t', hrun, hdel⟩ :=
            delete_self hrot (d := .right) h hinv.balanced (deleteVictim_self h (Or.inr rfl))
          exact ⟨T', e.ptr, np', t', hrun, hdel⟩
      | node cr lr er rr =>
          have hr : Rep T np (fill (⟨.right, c, e, .node cl ll el rl⟩ :: ctx)
            (branch .left cr lr er rr)) := h
          obtain ⟨p, hmini, hp⟩ := rbtreeMini_spec hr
          obtain ⟨T', np', t', hrun, hdel⟩ := delete_successor hrot h hinv.balanced hinv.sound hp
            ((deleteVictim_successor h).trans hmini)
          exact ⟨T', p, np', t', hrun, hdel⟩

/-- The tree a deletion leaves is one the engine maintains. -/
theorem Deleted.treeInv {T' : Rbtree} {p np' : Ptr} {t' : Tree Entry}
    (h : Deleted T t e p T' np' t') (hinv : TreeInv t) : TreeInv t' := by
  obtain ⟨A, B, hlist, hdata⟩ := h.entries
  have hsub : (A ++ B).Sublist t.toList := by
    rw [hlist]
    exact List.Sublist.append_left (List.sublist_cons_self e B) A
  have hnames : t'.toList.map Entry.name = (A ++ B).map Entry.name := by
    have := congrArg (List.map Prod.fst) (Entry.map_pair hdata)
    rwa [List.map_map, List.map_map] at this
  refine ⟨?_, ?_, h.balanced⟩
  · have hasc : ((A ++ B).map Entry.name).Pairwise (· < ·) :=
      List.pairwise_map.mpr (hinv.ascending.sublist hsub)
    rw [← hnames] at hasc
    exact List.pairwise_map.mp hasc
  · intro a ha
    have hmem : a.data ∈ (A ++ B).map Entry.data := by
      rw [← hdata]
      exact List.mem_map_of_mem ha
    obtain ⟨b, hb, hbdata⟩ := List.mem_map.mp hmem
    exact (hinv.sound b (hsub.subset hb)).congr hbdata

section Free

variable {T' : Rbtree} {p np' : Ptr} {t' : Tree Entry}

/-- The detached node is neither the sentinel nor in the tree any more. -/
theorem Deleted.apart (h : Deleted T t e p T' np' t') (hrep : Rep T np t) :
    p ≠ T'.nil ∧ p ∉ t'.ptrs := by
  have hnd := (h.ptrs.cons T.nil).nodup_iff.mp hrep.nodup
  simp only [List.nodup_cons, List.mem_cons, not_or] at hnd
  rw [h.keeps.nil]
  exact ⟨Ne.symm hnd.1.1, hnd.2.1⟩

/-- The detached node is still allocated. -/
theorem Deleted.cell (h : Deleted T t e p T' np' t') (hrep : Rep T np t) :
    ∃ nd, T'.mem.cells p = some nd := by
  obtain ⟨nd, hnd⟩ := cells_some hrep.cells p (h.ptrs.mem_iff.mpr (by simp))
  have hsome := h.keeps.alloc p
  rw [hnd] at hsome
  exact Option.isSome_iff_exists.mp hsome

/-- Freeing it leaves the tree as it is. -/
theorem Deleted.release (h : Deleted T t e p T' np' t') (hrep : Rep T np t) :
    Rep { T' with mem := T'.mem.release p } np' t' := by
  obtain ⟨hnil, hp⟩ := h.apart hrep
  refine h.rep.congr rfl rfl (fun q hq => Mem.release_of_ne _ ?_)
  rintro rfl
  exact (List.mem_cons.mp hq).elim hnil hp

end Free

end Delete

end KvStore
