/-
The insert fix-up restores the red-black properties.

The loop's invariant: the tree is a red-black tree except that the red node `z` may
hang below a red parent, or be the root.  One iteration either moves that one
defect two levels up or repairs it; the number of frames above `z` bounds the
iterations.  Everything the loop does is painting and rotating, so the payloads in
order stay the same.

Which rotation the loop calls does not matter, as long as it rotates.
-/
import KvStore.Proofs.Rbtree.Rotate

namespace KvStore

open KvStore.Tree Ctx

/-- The red node at the address `z` is the only place where the tree may be wrong. -/
def InsertInv (L : List Entry) (np : Ptr) (T₀ : Rbtree) (n : Nat) (z : Ptr) (T : Rbtree) : Prop :=
  ∃ ctx d t e u k, n = ctx.length ∧ z = e.ptr ∧ Rep T np (fill ctx (branch d .red t e u)) ∧
    (fill ctx (branch d .red t e u)).toList = L ∧ Bal t .black k ∧ Bal u .black k ∧
    CtxBal ctx .black k ∧ Keeps T₀ T

/-- What the loop leaves: a red-black tree but for the colour of its root. -/
def InsertPost (L : List Entry) (np : Ptr) (T₀ : Rbtree) (T : Rbtree) : Prop :=
  ∃ t m, Rep T np t ∧ t.toList = L ∧ Bal t.blacken .black m ∧ Keeps T₀ T

section Fixup

variable {rotate : Dir → Ptr → Prog Rbtree Unit}

section Half

variable {T : Rbtree} {np : Ptr} {fs : Ctx Entry} {d pd zd : Dir} {cg : Color}
  {t u S U : Tree Entry} {e p g : Entry} {k : Nat}

/-- After the inner `if` the red node is an outer grandchild, on the side `d`. -/
theorem insertFixupOuter_spec (hrot : Rotates rotate)
    (h : Rep T np (fill fs (branch d cg (branch pd .red (branch zd .red t e u) p S) g U)))
    (ht : Bal t .black k) (hu : Bal u .black k) (hS : Bal S .black k) :
    ∃ T' zd' t' x u' q W, (rbtreeInsertFixupOuterBy rotate d e.ptr p.ptr).run T = .ok (x.ptr, T') ∧
      Rep T' np (fill fs (branch d cg (branch d .red (branch zd' .red t' x u') q W) g U)) ∧
      (branch d .red (branch zd' .red t' x u') q W).toList =
        (branch pd .red (branch zd .red t e u) p S).toList ∧
      Bal t' .black k ∧ Bal u' .black k ∧ Bal W .black k ∧ Keeps T T' := by
  -- The position of `p`, below `g`.
  have hp : Rep T np (fill (⟨d, cg, g, U⟩ :: fs) (branch pd .red (branch zd .red t e u) p S)) := h
  by_cases hd : pd = d
  · subst hd
    refine ⟨T, zd, t, e, u, p, S, ?_, h, rfl, ht, hu, hS, Keeps.refl T⟩
    refine run_bind_of hp.getFar (run_ite_neg ?_ rfl)
    intro hc
    exact branch_ne_nil _ _ _ _ _ (hp.ptr_inj (by rw [ptr_branch]; exact hc)).1
  · -- `z` is an inner grandchild: rotate its parent, which takes its place.
    have hflip := Dir.eq_flip_of_ne hd
    subst hflip
    have hchild := hp.getNear
    rw [ptr_branch] at hchild
    obtain ⟨t', u', heq, ht', hu'⟩ :=
      branch_view (P := fun x => Bal x .black k) d zd (c := .red) (a := e) ht hu
    rw [heq, branch_flip] at hp
    obtain ⟨T', hrun, hrep, hkeep⟩ := hrot hp
    refine ⟨T', d, S, p, t', e, u', ?_, hrep, ?_, hS, ht', hu', hkeep⟩
    · exact run_bind_of hchild (run_ite_pos rfl (run_bind_of hrun rfl))
    · rw [heq, branch_flip, toList_rotate]

/-- The grandparent's side: painting and rotating repairs the tree. -/
theorem insertFixup_rotate (hrot : Rotates rotate) {zd' : Dir} {t' u' W : Tree Entry} {x q : Entry}
    (h : Rep T np (fill fs (branch d .black (branch d .red (branch zd' .red t' x u') q W) g U)))
    (hW : Bal W .black k) (hU : Bal U .black k) (hfs : CtxBal fs .black (k + 1)) :
    ∃ T' R, (do
        let p ← getParent x.ptr
        assign p (RbNode.setColor BLACK)
        let g ← getParent p
        assign g (RbNode.setColor RED)
        rotate d.flip g
        return x.ptr : Prog Rbtree Ptr).run T = .ok (x.ptr, T') ∧
      Rep T' np (fill (⟨d, .black, q, R⟩ :: fs) (branch zd' .red t' x u')) ∧
      (fill (⟨d, .black, q, R⟩ :: fs) (branch zd' .red t' x u')).toList =
        (fill fs (branch d .black (branch d .red (branch zd' .red t' x u') q W) g U)).toList ∧
      CtxBal (⟨d, .black, q, R⟩ :: fs) .black k ∧ Keeps T T' := by
  have hx : Rep T np (fill (⟨d, .red, q, W⟩ :: ⟨d, .black, g, U⟩ :: fs)
    (branch zd' .red t' x u')) := h
  have hq : Rep T np (fill (⟨d, .black, g, U⟩ :: fs)
    (branch d .red (branch zd' .red t' x u') q W)) := h
  obtain ⟨T₁, hrun₁, hrep₁, hk₁⟩ := setColor_rep .black hq
  have hg : Rep T₁ np (fill fs
    (branch d .black (branch d .black (branch zd' .red t' x u') q W) g U)) := hrep₁
  obtain ⟨T₂, hrun₂, hrep₂, hk₂⟩ := setColor_rep .red hg
  -- Seen from the other side, `g` has its child `q` on the far side.
  have hmirror : branch d .red (branch d .black (branch zd' .red t' x u') q W) g U =
      branch d.flip .red U g (branch d.flip .black W q (branch zd' .red t' x u')) := by
    rw [branch_flip, branch_flip]
  rw [hmirror] at hrep₂
  obtain ⟨T₃, hrun₃, hrep₃, hk₃⟩ := hrot hrep₂
  refine ⟨T₃, branch d .red W g U, ?_, ?_, ?_, .black hfs (.branch_red hW hU),
    (hk₁.trans hk₂).trans hk₃⟩
  · refine run_bind_of hx.getUp (run_bind_of hrun₁ ?_)
    refine run_bind_of hrep₁.getUp (run_bind_of hrun₂ ?_)
    exact run_bind_of hrun₃ rfl
  · rw [branch_flip, branch_flip] at hrep₃
    exact hrep₃
  · refine toList_fill_congr fs ?_
    exact (toList_rotate d .red .black .black .red _ _ _ _ _).symm

/-- **One half of the loop body** moves the defect up or repairs it. -/
theorem insertFixupHalf_spec (hrot : Rotates rotate) {T₀ : Rbtree} {L : List Entry}
    (h : Rep T np (fill fs (branch d .black (branch pd .red (branch zd .red t e u) p S) g U)))
    (hL : (fill fs (branch d .black (branch pd .red (branch zd .red t e u) p S) g U)).toList = L)
    (ht : Bal t .black k) (hu : Bal u .black k) (hS : Bal S .black k) {cu : Color}
    (hU : Bal U cu k) (hfs : CtxBal fs .black (k + 1)) (hk : Keeps T₀ T) :
    ∃ z' T' m, (rbtreeInsertFixupHalfBy rotate d e.ptr p.ptr g.ptr).run T = .ok (z', T') ∧
      m < fs.length + 2 ∧ InsertInv L np T₀ m z' T' := by
  have hg : Rep T np (fill fs (branch d .black (branch pd .red (branch zd .red t e u) p S) g U)) := h
  have hcolor : (getColor (U.ptr T.nil)).run T = .ok (cu.byte, T) := by
    have hUpos : Rep T np (fill (⟨d.flip, .black, g,
        branch pd .red (branch zd .red t e u) p S⟩ :: fs) U) := by
      unfold fill
      rw [Frame.plug, branch_flip]
      exact h
    rw [hUpos.getColor_at, hU.color_eq]
  cases cu with
  | red =>
      -- A red uncle: three nodes change colour and the defect moves to the grandparent.
      obtain ⟨u₁, y, u₂, rfl, hu₁, hu₂⟩ := hU.red_inv d
      have hp : Rep T np (fill (⟨d, .black, g, branch d .red u₁ y u₂⟩ :: fs)
        (branch pd .red (branch zd .red t e u) p S)) := h
      obtain ⟨T₁, hrun₁, hrep₁, hk₁⟩ := setColor_rep .black hp
      have hy : Rep T₁ np (fill (⟨d.flip, .black, g,
          branch pd .black (branch zd .red t e u) p S⟩ :: fs) (branch d .red u₁ y u₂)) := by
        unfold fill
        rw [Frame.plug, branch_flip]
        exact hrep₁
      obtain ⟨T₂, hrun₂, hrep₂, hk₂⟩ := setColor_rep .black hy
      rw [fill, Frame.plug, branch_flip] at hrep₂
      obtain ⟨T₃, hrun₃, hrep₃, hk₃⟩ := setColor_rep .red hrep₂
      refine ⟨g.ptr, T₃, fs.length, ?_, by omega, fs, d, _, g, _, k + 1, rfl, rfl, hrep₃, ?_,
        .branch_black (.branch_red ht hu) hS, .branch_black hu₁ hu₂, hfs,
        ((hk.trans hk₁).trans hk₂).trans hk₃⟩
      · refine run_bind_of hg.getFar ?_
        refine run_bind_of hcolor (run_ite_pos rfl ?_)
        rw [ptr_branch]
        exact run_bind_of hrun₁ (run_bind_of hrun₂ (run_bind_of hrun₃ rfl))
      · rw [← hL]
        refine toList_fill_congr fs (toList_branch_congr _ _ _ _ ?_ ?_)
        · exact toList_branch_congr _ _ _ _ rfl rfl
        · exact toList_branch_congr _ _ _ _ rfl rfl
  | black =>
      obtain ⟨T₁, zd', t', x, u', q, W, hrun₁, hrep₁, hlist₁, ht', hu', hW, hk₁⟩ :=
        insertFixupOuter_spec hrot h ht hu hS
      obtain ⟨T₂, R, hrun₂, hrep₂, hlist₂, hctx, hk₂⟩ := insertFixup_rotate hrot hrep₁ hW hU hfs
      refine ⟨x.ptr, T₂, fs.length + 1, ?_, by omega, _, zd', t', x, u', k, rfl, rfl, hrep₂, ?_,
        ht', hu', hctx, (hk.trans hk₁).trans hk₂⟩
      · refine run_bind_of hg.getFar ?_
        refine run_bind_of hcolor (run_ite_neg (by simp [RED, BLACK]) ?_)
        exact run_bind_of hrun₁ hrun₂
      · rw [hlist₂, ← hL]
        exact toList_fill_congr fs (toList_branch_congr _ _ _ _ hlist₁ rfl)

end Half

/-- **One iteration** leaves the loop with a repaired tree or lowers the position. -/
theorem insertFixup_step (hrot : Rotates rotate) {L : List Entry} {np : Ptr} {T₀ : Rbtree} :
    ∀ n z T, InsertInv L np T₀ n z T →
      (∃ b T', (rbtreeInsertFixupStepBy rotate z).run T = .ok (.inr b, T') ∧ InsertPost L np T₀ T') ∨
      (∃ z' T' m, (rbtreeInsertFixupStepBy rotate z).run T = .ok (.inl z', T') ∧ m < n ∧
        InsertInv L np T₀ m z' T') := by
  rintro n z T ⟨ctx, zd, t, e, u, k, rfl, rfl, hrep, hL, ht, hu, hctx, hk⟩
  have hfocus : Bal (branch zd .red t e u) .red k := .branch_red ht hu
  cases hctx with
  | root =>
      -- `z` is the root: its parent is the sentinel, which is black.
      obtain ⟨m, hm⟩ := hfocus.blacken
      refine Or.inl ⟨(), T, ?_, _, m, hrep, hL, hm, hk⟩
      refine run_bind_of hrep.getUp (run_bind_of (getColor_run hrep.sentinel) ?_)
      exact run_ite_neg (by simp [nilCell, RED, BLACK]) rfl
  | @black d p S fs _ c' _ hfs hS =>
      obtain ⟨m, hm⟩ := (CtxBal.black (c := .red) (d := d) (a := p) hfs hS).fill hfocus
      obtain ⟨m', hm'⟩ := hm.blacken
      refine Or.inl ⟨(), T, ?_, _, m', hrep, hL, hm', hk⟩
      have hp : Rep T np (fill fs (branch d .black (branch zd .red t e u) p S)) := hrep
      refine run_bind_of hrep.getUp (run_bind_of (getColor_run hp.cell_at) ?_)
      rw [cell_color]
      exact run_ite_neg (by simp [RED, BLACK]) rfl
  | @red pd p S fs _ hfs hS =>
      obtain ⟨gd, g, U, fs', cu, rfl, hfs', hU⟩ := hfs.red_inv
      have hp : Rep T np (fill (⟨gd, .black, g, U⟩ :: fs')
        (branch pd .red (branch zd .red t e u) p S)) := hrep
      have hg : Rep T np (fill fs'
        (branch gd .black (branch pd .red (branch zd .red t e u) p S) g U)) := hrep
      obtain ⟨z', T', m, hrun, hm, hinv⟩ := insertFixupHalf_spec hrot hg hL ht hu hS hU hfs' hk
      refine Or.inr ⟨z', T', m, ?_, by rw [List.length_cons]; omega, hinv⟩
      refine run_bind_of hrep.getUp (run_bind_of (getColor_run hp.cell_at) ?_)
      rw [cell_color]
      refine run_ite_pos rfl (run_bind_of hp.getUp ?_)
      cases gd with
      | left =>
          refine run_bind_of hg.getNear (run_ite_pos ?_ (run_bind_of hrun rfl))
          rw [ptr_branch]
          rfl
      | right =>
          refine run_bind_of hg.getFar (run_ite_neg ?_ (run_bind_of hrun rfl))
          intro hc
          exact branch_ne_nil _ _ _ _ _ (hg.ptr_inj (by rw [ptr_branch]; exact hc)).1

/--
**The insert fix-up returns a red-black tree with the same entries in order**, from a
tree that is one but for the red node `z`.
-/
theorem rbtreeInsertFixup_spec (hrot : Rotates rotate) {T : Rbtree} {np : Ptr} {ctx : Ctx Entry}
    {d : Dir} {t u : Tree Entry} {e : Entry} {k : Nat} (h : Rep T np (fill ctx (branch d .red t e u)))
    (ht : Bal t .black k) (hu : Bal u .black k) (hctx : CtxBal ctx .black k) :
    ∃ T' t' m, (rbtreeInsertFixupBy rotate e.ptr).run T = .ok ((), T') ∧ Rep T' np t' ∧
      t'.toList = (fill ctx (branch d .red t e u)).toList ∧ Bal t' .black m ∧ Keeps T T' := by
  have hlen := ctx.length_le (branch d .red t e u)
  have hlt := h.length_lt
  obtain ⟨_, T₁, hrun₁, t₁, m, hrep₁, hlist, hbal, hk₁⟩ :=
    loop_total (insertFixup_step hrot) T.fuel ctx.length e.ptr T
      ⟨ctx, d, t, e, u, k, rfl, rfl, h, rfl, ht, hu, hctx, Keeps.refl T⟩
      (by rw [Rbtree.fuel]; omega)
  -- The tree is not empty, so the last assignment paints a node.
  cases t₁ with
  | nil =>
      rw [toList_fill] at hlist
      have hlen' := congrArg List.length hlist
      have hmem : e ∈ (branch d .red t e u).toList := mem_toList_branch.mpr (Or.inr (Or.inl rfl))
      have hpos := List.length_pos_of_mem hmem
      simp only [toList_nil, List.length_nil, List.length_append] at hlen'
      omega
  | node c l a r =>
      have hroot : Rep T₁ np (fill [] (branch .left c l a r)) := hrep₁
      obtain ⟨T₂, hrun₂, hrep₂, hk₂⟩ := setColor_rep .black hroot
      refine ⟨T₂, .node .black l a r, m, ?_, hrep₂, hlist, hbal, hk₁.trans hk₂⟩
      refine run_bind_of (run_get T) (run_bind_of hrun₁ (run_bind_of (run_get T₁) ?_))
      rw [hrep₁.root]
      exact hrun₂

end Fixup

end KvStore
