/-
The delete fix-up restores the red-black properties.

The loop's invariant: the tree is a red-black tree except that the subtree at `x` is
one black node short of what its position needs.  A red `x` can be painted black and
the loop is left; otherwise the sibling `w` of `x` is a node, because its side has at
least one black node, and the four cases of the loop body either pay the missing
black node or move the shortage to the parent.

`x` may be the sentinel.  Its parent field then has to say where it hangs, which is
the one place where that field is read; the invariant carries it as `np`.
-/
import KvStore.Proofs.Rbtree.Rotate

namespace KvStore

open KvStore.Tree Ctx

/-- The subtree has black height `k`, or gets to `k + 1` when its red root is painted. -/
def Short (t : Tree Entry) (k : Nat) : Prop :=
  Bal t .black k ∨ (t.color = .red ∧ Bal t.blacken .black (k + 1))

theorem Short.of_bal {t : Tree Entry} {c : Color} {k : Nat} (h : Bal t c k) : Short t k := by
  cases c with
  | black => exact Or.inl h
  | red =>
      refine Or.inr ⟨h.color_eq, ?_⟩
      cases h with
      | red hl hr => exact .black hl hr

/-- Bound on the iterations that are left. -/
def shortBound (ctx : Ctx Entry) (t : Tree Entry) : Nat :=
  if t.color = .red then 0 else ctx.length

/-- The subtree at the address `x` is one black node short. -/
def DeleteInv (L : List Entry) (np : Ptr) (T₀ : Rbtree) (n : Nat) (x : Ptr) (T : Rbtree) : Prop :=
  ∃ ctx t k, shortBound ctx t ≤ n ∧ x = t.ptr T.nil ∧ Rep T np (fill ctx t) ∧
    (fill ctx t).toList = L ∧ Short t k ∧ CtxBal ctx .black (k + 1) ∧
    (t = .nil → np = ctxPtr T.nil ctx) ∧ Keeps T₀ T

/-- What the loop leaves: painting `x` black makes a red-black tree. -/
def DeletePost (L : List Entry) (np : Ptr) (T₀ : Rbtree) (x : Ptr) (T : Rbtree) : Prop :=
  ∃ ctx t m, x = t.ptr T.nil ∧ Rep T np (fill ctx t) ∧ (fill ctx t).toList = L ∧
    Bal (fill ctx t.blacken) .black m ∧ Keeps T₀ T

/-- The parent of `x`, which for the sentinel is what its parent field says. -/
theorem getParent_focus {T : Rbtree} {np : Ptr} {ctx : Ctx Entry} {t : Tree Entry}
    (h : Rep T np (fill ctx t)) (hnp : t = .nil → np = ctxPtr T.nil ctx) :
    (getParent (t.ptr T.nil)).run T = .ok (ctxPtr T.nil ctx, T) := by
  cases t with
  | nil =>
      rw [← hnp rfl]
      exact getParent_run h.sentinel
  | node c l e r => exact getParent_run h.subCells.1

section Fixup

variable {rotate : Dir → Ptr → Prog Rbtree Unit}

section Half

variable {T : Rbtree} {np : Ptr} {fs : Ctx Entry} {d : Dir} {cp : Color} {X W : Tree Entry}
  {p : Entry} {k : Nat}

/-- The sibling of a subtree that is a black node short has a black node to spare. -/
theorem sibling_bal (h : CtxBal (⟨d, cp, p, W⟩ :: fs) .black (k + 1)) :
    ∃ cw, Bal W cw (k + 1) ∧ (cw = .red → cp = .black) := by
  cases h with
  | red _ hW => exact ⟨.black, hW, by simp⟩
  | @black _ _ _ _ _ cw _ _ hW => exact ⟨cw, hW, fun _ => rfl⟩

/-- After the first `if` the sibling is black, and `x` may have moved one level down. -/
theorem deleteFixupRed_spec (hrot : Rotates rotate) (h : Rep T np (fill fs (branch d cp X p W)))
    (hnp : X = .nil → np = p.ptr) (hctx : CtxBal (⟨d, cp, p, W⟩ :: fs) .black (k + 1)) :
    ∃ T' cp' fs' b w e cb ce,
      (rbtreeDeleteFixupRedBy rotate d (X.ptr T.nil) p.ptr (W.ptr T.nil)).run T = .ok (w.ptr, T') ∧
      Rep T' np (fill fs' (branch d cp' X p (branch d .black b w e))) ∧
      (fill fs' (branch d cp' X p (branch d .black b w e))).toList =
        (fill fs (branch d cp X p W)).toList ∧
      CtxBal (⟨d, cp', p, branch d .black b w e⟩ :: fs') .black (k + 1) ∧
      Bal b cb k ∧ Bal e ce k ∧ (cp' = .red ∨ fs'.length = fs.length) ∧ Keeps T T' := by
  obtain ⟨cw, hW, hcw⟩ := sibling_bal hctx
  have hw := h.far_position
  have hcolor : (getColor (W.ptr T.nil)).run T = .ok (cw.byte, T) := by
    rw [hw.getColor_at, hW.color_eq]
  cases cw with
  | black =>
      obtain ⟨b, w, e, cb, ce, rfl, hb, he⟩ := hW.black_inv d
      refine ⟨T, cp, fs, b, w, e, cb, ce, ?_, h, rfl, hctx, hb, he, Or.inr rfl, Keeps.refl T⟩
      refine run_bind_of hcolor (run_ite_neg (by simp [RED, BLACK]) ?_)
      rw [ptr_branch]
      rfl
  | red =>
      -- A red sibling has a black parent; rotating puts a black child of it beside `x`.
      have hcp := hcw rfl
      subst hcp
      obtain ⟨b, w, e, rfl, hb, he⟩ := hW.red_inv d
      have hfs : CtxBal fs .black (k + 2) := by
        cases hctx with
        | black hfs _ => exact hfs
      obtain ⟨T₁, hrun₁, hrep₁, hk₁⟩ := setColor_rep .black hw
      rw [fill, Frame.plug, branch_flip] at hrep₁
      obtain ⟨T₂, hrun₂, hrep₂, hk₂⟩ := setColor_rep .red hrep₁
      obtain ⟨T₃, hrun₃, hrep₃, hk₃⟩ := hrot hrep₂
      have hk := (hk₁.trans hk₂).trans hk₃
      obtain ⟨b₁, v, b₂, c₁, c₂, rfl, hb₁, hb₂⟩ := hb.black_inv d
      have hfs' : CtxBal (⟨d, .black, w, e⟩ :: fs) .red (k + 1) := .black hfs he
      have hx : Rep T₃ np (fill (⟨d, .red, p, branch d .black b₁ v b₂⟩ ::
        ⟨d, .black, w, e⟩ :: fs) X) := hrep₃
      have hp : Rep T₃ np (fill (⟨d, .black, w, e⟩ :: fs)
        (branch d .red X p (branch d .black b₁ v b₂))) := hrep₃
      refine ⟨T₃, .red, ⟨d, .black, w, e⟩ :: fs, b₁, v, b₂, c₁, c₂, ?_, hp, ?_,
        .red hfs' (.branch_black hb₁ hb₂), hb₁, hb₂, Or.inl rfl, hk⟩
      · refine run_bind_of hcolor (run_ite_pos rfl ?_)
        rw [ptr_branch]
        refine run_bind_of hrun₁ (run_bind_of hrun₂ (run_bind_of hrun₃ ?_))
        rw [← hk.nil]
        refine run_bind_of (getParent_focus hx (by rw [hk.nil]; exact hnp)) ?_
        refine hp.getFar.trans ?_
        rw [ptr_branch]
      · exact toList_fill_congr fs (toList_rotate d .red .black .black .red _ _ _ _ _)

/-- The test of the sibling's two children. -/
theorem bothBlack_run {ctx : Ctx Entry} {b e : Tree Entry} {w : Entry} {cw : Color}
    (h : Rep T np (fill ctx (branch d cw b w e))) :
    (rbtreeBothBlack w.ptr).run T =
      .ok (decide (b.color = .black ∧ e.color = .black), T) := by
  have hnode : ∀ (l r : Tree Entry), Rep T np (fill ctx (branch .left cw l w r)) →
      (rbtreeBothBlack w.ptr).run T = .ok (decide (l.color = .black ∧ r.color = .black), T) := by
    intro l r hlr
    have hl : Rep T np (fill (⟨.left, cw, w, r⟩ :: ctx) l) := hlr
    refine run_bind_of hlr.getNear (run_bind_of hl.getColor_at ?_)
    by_cases hlc : l.color = .black
    · refine run_ite_pos (Color.byte_eq_black.mpr hlc) ?_
      refine run_bind_of hlr.getFar (run_bind_of hlr.far_position.getColor_at ?_)
      simp only [Color.byte_eq_black, hlc, true_and]
      rfl
    · refine run_ite_neg (fun hc => hlc (Color.byte_eq_black.mp hc)) ?_
      simp only [hlc, false_and, decide_false]
      rfl
  cases d with
  | left => exact hnode b e h
  | right =>
      rw [hnode e b h]
      simp only [and_comm]

/-- After the inner `if` the sibling's far child is red. -/
theorem deleteFixupFar_spec (hrot : Rotates rotate) {b e : Tree Entry} {w : Entry} {cb ce : Color}
    (h : Rep T np (fill fs (branch d cp X p (branch d .black b w e))))
    (hnp : X = .nil → np = p.ptr) (hb : Bal b cb k) (he : Bal e ce k)
    (hne : ¬ (b.color = .black ∧ e.color = .black)) :
    ∃ T' b' w' e' cb', (rbtreeDeleteFixupFarBy rotate d (X.ptr T.nil) w.ptr).run T = .ok (w'.ptr, T') ∧
      Rep T' np (fill fs (branch d cp X p (branch d .black b' w' e'))) ∧
      (branch d .black b' w' e').toList = (branch d .black b w e).toList ∧
      Bal b' cb' k ∧ Bal e' .red k ∧ Keeps T T' := by
  have hw := h.far_position
  have hfar := hw.far_position.getColor_at
  rw [he.color_eq] at hfar
  rw [hb.color_eq, he.color_eq] at hne
  cases ce with
  | red =>
      refine ⟨T, b, w, e, cb, ?_, h, rfl, hb, he, Keeps.refl T⟩
      refine run_bind_of hw.getFar (run_bind_of hfar ?_)
      exact run_ite_neg (by simp [RED, BLACK]) rfl
  | black =>
      -- The near child is red: it is painted and rotated into the sibling's place.
      have hcb : cb = .red := by
        cases cb with
        | red => rfl
        | black => exact absurd ⟨rfl, rfl⟩ hne
      subst hcb
      obtain ⟨b₁, v, b₂, rfl, hb₁, hb₂⟩ := hb.red_inv d
      have hv : Rep T np (fill (⟨d, .black, w, e⟩ :: ⟨d.flip, cp, p, X⟩ :: fs)
        (branch d .red b₁ v b₂)) := hw
      obtain ⟨T₁, hrun₁, hrep₁, hk₁⟩ := setColor_rep .black hv
      have hw₁ : Rep T₁ np (fill (⟨d.flip, cp, p, X⟩ :: fs)
        (branch d .black (branch d .black b₁ v b₂) w e)) := hrep₁
      obtain ⟨T₂, hrun₂, hrep₂, hk₂⟩ := setColor_rep .red hw₁
      have hmirror : branch d .red (branch d .black b₁ v b₂) w e =
          branch d.flip .red e w (branch d.flip .black b₂ v b₁) := by
        rw [branch_flip, branch_flip]
      rw [hmirror] at hrep₂
      obtain ⟨T₃, hrun₃, hrep₃, hk₃⟩ := hrot hrep₂
      rw [branch_flip, branch_flip, fill, Frame.plug, branch_flip] at hrep₃
      have hk := (hk₁.trans hk₂).trans hk₃
      have hx : Rep T₃ np (fill (⟨d, cp, p, branch d .black b₁ v (branch d .red b₂ w e)⟩ :: fs) X) :=
        hrep₃
      refine ⟨T₃, b₁, v, branch d .red b₂ w e, .black, ?_, hrep₃, ?_, hb₁, .branch_red hb₂ he, hk⟩
      · refine run_bind_of hw.getFar (run_bind_of hfar (run_ite_pos rfl ?_))
        refine run_bind_of hw.getNear ?_
        rw [ptr_branch]
        refine run_bind_of hrun₁ (run_bind_of hrun₂ (run_bind_of hrun₃ ?_))
        rw [← hk.nil]
        refine run_bind_of (getParent_focus hx (by rw [hk.nil]; exact hnp)) ?_
        refine hrep₃.getFar.trans ?_
        rw [ptr_branch]
      · exact (toList_rotate d .red .black .black .red _ _ _ _ _).symm

/-- The last case: paint, rotate at the parent, and the tree is repaired. -/
theorem deleteFixup_rotate (hrot : Rotates rotate) {b e : Tree Entry} {w : Entry} {cb : Color}
    (h : Rep T np (fill fs (branch d cp X p (branch d .black b w e))))
    (hnp : X = .nil → np = p.ptr) (hX : Bal X .black k) (hb : Bal b cb k) (he : Bal e .red k)
    (hctx : CtxBal (⟨d, cp, p, branch d .black b w e⟩ :: fs) .black (k + 1)) :
    ∃ T' t m, (do
        let p ← getParent (X.ptr T.nil)
        let pc ← getColor p
        assign w.ptr (RbNode.setColor pc)
        assign p (RbNode.setColor BLACK)
        assign (← getChild d.flip w.ptr) (RbNode.setColor BLACK)
        rotate d p
        return (← get).root : Prog Rbtree Ptr).run T = .ok (t.ptr T'.nil, T') ∧
      Rep T' np t ∧ t.toList = (fill fs (branch d cp X p (branch d .black b w e))).toList ∧
      Bal t .black m ∧ Keeps T T' := by
  have hx : Rep T np (fill (⟨d, cp, p, branch d .black b w e⟩ :: fs) X) := h
  obtain ⟨T₁, hrun₁, hrep₁, hk₁⟩ := setColor_rep cp h.far_position
  rw [fill, Frame.plug, branch_flip] at hrep₁
  obtain ⟨T₂, hrun₂, hrep₂, hk₂⟩ := setColor_rep .black hrep₁
  obtain ⟨e₁, v, e₂, rfl, he₁, he₂⟩ := he.red_inv d
  have hw₂ := hrep₂.far_position
  obtain ⟨T₃, hrun₃, hrep₃, hk₃⟩ := setColor_rep .black hw₂.far_position
  simp only [fill, Frame.plug, branch_flip] at hrep₃
  obtain ⟨T₄, hrun₄, hrep₄, hk₄⟩ := hrot hrep₃
  have hA : Bal (branch d .black X p b) .black (k + 1) := .branch_black hX hb
  have hE : Bal (branch d .black e₁ v e₂) .black (k + 1) := .branch_black he₁ he₂
  obtain ⟨m, hm⟩ : ∃ m, Bal (fill fs (branch d cp (branch d .black X p b) w
      (branch d .black e₁ v e₂))) .black m := by
    cases hctx with
    | red hfs _ => exact hfs.fill (.branch_red hA hE)
    | black hfs _ => exact hfs.fill (.branch_black hA hE)
  refine ⟨T₄, _, m, ?_, hrep₄, ?_, hm, ((hk₁.trans hk₂).trans hk₃).trans hk₄⟩
  · refine run_bind_of (getParent_focus hx hnp) ?_
    refine run_bind_of (getColor_run h.cell_at) ?_
    rw [cell_color]
    refine run_bind_of hrun₁ (run_bind_of hrun₂ ?_)
    refine run_bind_of hw₂.getFar ?_
    rw [ptr_branch]
    refine run_bind_of hrun₃ (run_bind_of hrun₄ (run_bind_of (run_get T₄) ?_))
    rw [hrep₄.root]
    rfl
  · refine toList_fill_congr fs ((toList_rotate d .black cp cp cp _ _ _ _ _).trans ?_)
    refine toList_branch_congr _ _ _ _ rfl (toList_branch_congr _ _ _ _ rfl ?_)
    exact toList_branch_congr _ _ _ _ rfl rfl

/-- With the sibling painted red the shortage is the parent's, unless painting that pays. -/
theorem deleteInv_recolored {T₀ : Rbtree} {L : List Entry} {b e : Tree Entry} {w : Entry} {n : Nat}
    (h : Rep T np (fill fs (branch d cp X p (branch d .red b w e))))
    (hL : (fill fs (branch d cp X p (branch d .red b w e))).toList = L)
    (hX : Bal X .black k) (hb : Bal b .black k) (he : Bal e .black k)
    (hctx : CtxBal (⟨d, cp, p, branch d .black b w e⟩ :: fs) .black (k + 1))
    (hcase : cp = .red ∨ fs.length = n) (hk : Keeps T₀ T) : DeleteInv L np T₀ n p.ptr T := by
  have hblack : Bal (branch d .black X p (branch d .red b w e)) .black (k + 1) :=
    .branch_black hX (.branch_red hb he)
  have hne : branch d cp X p (branch d .red b w e) = .nil → np = ctxPtr T.nil fs :=
    fun hc => absurd hc (branch_ne_nil _ _ _ _ _)
  cases hctx with
  | red hfs _ =>
      refine ⟨fs, _, k, ?_, (ptr_branch ..).symm, h, hL, Or.inr ⟨?_, ?_⟩, hfs.of_red, hne, hk⟩
      · cases d <;> simp [shortBound, branch, Tree.color]
      · cases d <;> rfl
      · cases d <;> exact hblack
  | black hfs _ =>
      refine ⟨fs, _, k + 1, ?_, (ptr_branch ..).symm, h, hL, Or.inl hblack, hfs, hne, hk⟩
      unfold shortBound
      rw [if_neg (by rw [hblack.color_eq]; simp)]
      rcases hcase with hc | hlen
      · cases hc
      · exact Nat.le_of_eq hlen

/-- **One half of the loop body** pays the missing black node or moves the shortage up. -/
theorem deleteFixupHalf_spec (hrot : Rotates rotate) {T₀ : Rbtree} {L : List Entry}
    (h : Rep T np (fill fs (branch d cp X p W))) (hL : (fill fs (branch d cp X p W)).toList = L)
    (hnp : X = .nil → np = p.ptr) (hX : Bal X .black k)
    (hctx : CtxBal (⟨d, cp, p, W⟩ :: fs) .black (k + 1)) (hk : Keeps T₀ T) :
    ∃ x' T', (rbtreeDeleteFixupHalfBy rotate d (X.ptr T.nil)).run T = .ok (x', T') ∧
      DeleteInv L np T₀ fs.length x' T' := by
  have hx : Rep T np (fill (⟨d, cp, p, W⟩ :: fs) X) := h
  obtain ⟨T₁, cp', fs', b, w, e, cb, ce, hrun₁, hrep₁, hlist₁, hctx₁, hb, he, hcase, hk₁⟩ :=
    deleteFixupRed_spec hrot h hnp hctx
  have hx₁ : Rep T₁ np (fill (⟨d, cp', p, branch d .black b w e⟩ :: fs') X) := hrep₁
  have hw₁ := hrep₁.far_position
  have hnil₁ := hk₁.nil
  by_cases hboth : b.color = .black ∧ e.color = .black
  · -- Both children of the sibling are black: it is painted red, and the parent is short.
    obtain ⟨T₂, hrun₂, hrep₂, hk₂⟩ := setColor_rep .red hw₁
    rw [fill, Frame.plug, branch_flip] at hrep₂
    have hx₂ : Rep T₂ np (fill (⟨d, cp', p, branch d .red b w e⟩ :: fs') X) := hrep₂
    have hnil₂ := (hk₁.trans hk₂).nil
    rw [← hb.color_eq, hboth.1] at hb
    rw [← he.color_eq, hboth.2] at he
    refine ⟨p.ptr, T₂, ?_, ?_⟩
    · refine run_bind_of (getParent_focus hx hnp) (run_bind_of h.getFar ?_)
      refine run_bind_of hrun₁ (run_bind_of (bothBlack_run hw₁) ?_)
      refine run_ite_pos (decide_eq_true hboth) (run_bind_of hrun₂ ?_)
      rw [← hnil₂]
      exact getParent_focus hx₂ (by rw [hnil₂]; exact hnp)
    · have hL₂ : (fill fs' (branch d cp' X p (branch d .red b w e))).toList = L := by
        rw [← hL, ← hlist₁]
        exact toList_fill_congr fs' (toList_branch_congr _ _ _ _ rfl
          (toList_branch_congr _ _ _ _ rfl rfl))
      exact deleteInv_recolored hrep₂ hL₂ hX hb he hctx₁ hcase ((hk.trans hk₁).trans hk₂)
  · obtain ⟨T₂, b', w', e', cb', hrun₂, hrep₂, hlist₂, hb', he', hk₂⟩ :=
      deleteFixupFar_spec hrot hrep₁ hnp hb he hboth
    have hctx₂ : CtxBal (⟨d, cp', p, branch d .black b' w' e'⟩ :: fs') .black (k + 1) := by
      cases hctx₁ with
      | red hfs _ => exact .red hfs (.branch_black hb' he')
      | black hfs _ => exact .black hfs (.branch_black hb' he')
    obtain ⟨T₃, t, m, hrun₃, hrep₃, hlist₃, hbal, hk₃⟩ :=
      deleteFixup_rotate hrot hrep₂ hnp hX hb' he' hctx₂
    have hL₃ : t.toList = L := by
      rw [hlist₃, ← hL, ← hlist₁]
      exact toList_fill_congr fs' (toList_branch_congr _ _ _ _ rfl hlist₂)
    refine ⟨t.ptr T₃.nil, T₃, ?_, [], t, m, ?_, rfl, hrep₃, hL₃, Or.inl hbal, .root _, ?_,
      ((hk.trans hk₁).trans hk₂).trans hk₃⟩
    · refine run_bind_of (getParent_focus hx hnp) (run_bind_of h.getFar ?_)
      refine run_bind_of hrun₁ (run_bind_of (bothBlack_run hw₁) ?_)
      refine run_ite_neg (fun hc => hboth (of_decide_eq_true hc)) ?_
      rw [← hnil₁]
      refine run_bind_of hrun₂ ?_
      rw [← hk₂.nil]
      exact hrun₃
    · unfold shortBound
      rw [hbal.color_eq]
      exact Nat.zero_le _
    · rintro rfl
      have hmem : p ∈ (fill fs' (branch d cp' X p (branch d .black b' w' e'))).toList := by
        rw [toList_fill]
        simp [mem_toList_branch]
      rw [← hlist₃] at hmem
      simp at hmem

end Half

/-! ### The loop -/

/-- The root is at or above any proper position. -/
theorem rootPtr_mem (f : Frame Entry) (fs : Ctx Entry) (ch : Ptr) :
    rootPtr (f :: fs) ch ∈ ctxPtrs (f :: fs) := by
  induction fs generalizing f ch with
  | nil => simp [rootPtr, ctxPtrs]
  | cons g gs ih =>
      have := ih g f.payload.ptr
      unfold rootPtr
      unfold ctxPtrs
      exact List.mem_cons_of_mem _ (List.mem_append_right _ this)

/-- Below a frame, `x` is not the root. -/
theorem Rep.ptr_ne_root {T : Rbtree} {np : Ptr} {f : Frame Entry} {fs : Ctx Entry}
    {t : Tree Entry} (h : Rep T np (fill (f :: fs) t)) : t.ptr T.nil ≠ T.root := by
  intro hc
  have hmem := rootPtr_mem f fs (t.ptr T.nil)
  rw [← h.rootPtr_eq, ← hc] at hmem
  have hnd := h.distinct
  rw [List.nodup_cons, List.nodup_append] at hnd
  rcases (Tree.ptr_mem : t.ptr T.nil = T.nil ∨ _) with hn | hm
  · rw [hn] at hmem
    exact hnd.1 (List.mem_append_right _ hmem)
  · exact hnd.2.2.2 _ hm _ hmem rfl

/-- **One iteration** leaves the loop or lowers the bound. -/
theorem deleteFixup_step (hrot : Rotates rotate) {L : List Entry} {np : Ptr} {T₀ : Rbtree} :
    ∀ n x T, DeleteInv L np T₀ n x T →
      (∃ b T', (rbtreeDeleteFixupStepBy rotate x).run T = .ok (.inr b, T') ∧ DeletePost L np T₀ b T') ∨
      (∃ x' T' m, (rbtreeDeleteFixupStepBy rotate x).run T = .ok (.inl x', T') ∧ m < n ∧
        DeleteInv L np T₀ m x' T') := by
  rintro n x T ⟨ctx, t, k, hn, rfl, hrep, hL, hshort, hctx, hnp, hk⟩
  cases ctx with
  | nil =>
      -- At the root nothing is missing.
      obtain ⟨m, hm⟩ : ∃ m, Bal t.blacken .black m := by
        rcases hshort with hb | ⟨-, hb⟩
        · exact hb.blacken
        · exact ⟨_, hb⟩
      refine Or.inl ⟨_, T, ?_, [], t, m, rfl, hrep, hL, hm, hk⟩
      refine run_bind_of (run_get T) (run_ite_neg ?_ rfl)
      rw [hrep.root]
      simp [fill]
  | cons f fs =>
      have hroot := hrep.ptr_ne_root
      rcases hshort with hb | ⟨hred, hb⟩
      · obtain ⟨d, cp, p, W⟩ := f
        have hp : Rep T np (fill fs (branch d cp t p W)) := hrep
        obtain ⟨x', T', hrun, hinv⟩ := deleteFixupHalf_spec hrot hp hL hnp hb hctx hk
        refine Or.inr ⟨x', T', fs.length, ?_, ?_, hinv⟩
        · refine run_bind_of (run_get T) (run_ite_pos hroot ?_)
          refine run_bind_of hrep.getColor_at (run_ite_pos ?_ ?_)
          · rw [hb.color_eq]
            rfl
          refine run_bind_of (getParent_focus hrep hnp) ?_
          cases d with
          | left => exact run_bind_of hp.getNear (run_ite_pos rfl (run_bind_of hrun rfl))
          | right =>
              refine run_bind_of hp.getFar (run_ite_neg ?_ (run_bind_of hrun rfl))
              intro hc
              obtain ⟨cw, hW, -⟩ := sibling_bal hctx
              have hnil := (hp.ptr_inj hc).2
              rw [hnil] at hW
              cases hW
        · rw [shortBound, if_neg (by rw [hb.color_eq]; simp)] at hn
          simp only [List.length_cons] at hn
          omega
      · obtain ⟨m, hm⟩ := hctx.fill hb
        refine Or.inl ⟨_, T, ?_, f :: fs, t, m, rfl, hrep, hL, hm, hk⟩
        refine run_bind_of (run_get T) (run_ite_pos hroot ?_)
        refine run_bind_of hrep.getColor_at (run_ite_neg ?_ rfl)
        rw [hred]
        simp [RED, BLACK]

/--
**The delete fix-up returns a red-black tree with the same entries in order**, from a
tree that is one black node short at `x`.
-/
theorem rbtreeDeleteFixup_spec (hrot : Rotates rotate) {T : Rbtree} {np : Ptr} {ctx : Ctx Entry}
    {t : Tree Entry} {k : Nat} (h : Rep T np (fill ctx t)) (hshort : Short t k)
    (hctx : CtxBal ctx .black (k + 1))
    (hnp : t = .nil → np = ctxPtr T.nil ctx) :
    ∃ T' t' m, (rbtreeDeleteFixupBy rotate (t.ptr T.nil)).run T = .ok ((), T') ∧ Rep T' np t' ∧
      t'.toList = (fill ctx t).toList ∧ Bal t' .black m ∧ Keeps T T' := by
  have hlen := ctx.length_le t
  have hlt := h.length_lt
  have hbound : shortBound ctx t ≤ ctx.length := by
    unfold shortBound
    split <;> omega
  obtain ⟨x, T₁, hrun₁, ctx₁, t₁, m, rfl, hrep₁, hlist, hbal, hk₁⟩ :=
    loop_total (deleteFixup_step hrot) T.fuel ctx.length (t.ptr T.nil) T
      ⟨ctx, t, k, hbound, rfl, h, rfl, hshort, hctx, hnp, Keeps.refl T⟩
      (by rw [Rbtree.fuel]; omega)
  cases t₁ with
  | nil =>
      refine ⟨T₁, _, m, ?_, hrep₁, hlist, hbal, hk₁⟩
      exact run_bind_of (run_get T) (run_bind_of hrun₁ (setColor_nil hrep₁))
  | node c l a r =>
      have hat : Rep T₁ np (fill ctx₁ (branch .left c l a r)) := hrep₁
      obtain ⟨T₂, hrun₂, hrep₂, hk₂⟩ := setColor_rep .black hat
      refine ⟨T₂, _, m, ?_, hrep₂, ?_, hbal, hk₁.trans hk₂⟩
      · exact run_bind_of (run_get T) (run_bind_of hrun₁ hrun₂)
      · rw [← hlist]
        exact toList_fill_congr ctx₁ (toList_branch_congr _ _ _ _ rfl rfl)

end Fixup

end KvStore
