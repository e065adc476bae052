/-
The sentinel's parent field is never observed.

`rbtree_delete` gives the sentinel a parent, and leaves it with one that may be freed by the
time of the next call.  Two heaps that differ in nothing but that field are compared here: a
call does the same from both, and leaves two heaps that differ in nothing else again.

What has to be shown is that every parent that is read is another node's.  A red node is not
the sentinel, nor is a node that has a red child; the climb to the successor stops before it
would read the sentinel's; and the fix-up of a deletion is entered with the sentinel only
after its parent was set, when the two heaps are one.
-/
import KvStore.Proofs.Rbtree.Ops
import KvStore.Proofs.Rbtree.NilParent

namespace KvStore

open KvStore.Tree Ctx

/-! ### Inserting -/

section Insert

variable {n : Ptr} {T T' : Rbtree} {np : Ptr}

section Half

variable {fs : Ctx Entry} {d pd zd : Dir} {t u S U : Tree Entry} {e p g : Entry} {k : Nat}

/-- The inner `if` of an iteration rotates the red parent. -/
theorem insertFixupOuter_alike (h : SameButParent n T T') (d : Dir) (z : Ptr) {p : Ptr}
    (hp : p ≠ n) : RunsAlike (SameButParent n) (rbtreeInsertFixupOuter d z p) T T' := by
  refine (getChild_alike h d.flip p).then_ fun pc T T' h => .ite (fun _ => ?_) fun _ => .pure _ h
  exact (rbtreeRotate_alike h d hp).then_ fun _ _ _ h => .pure _ h

/-- One half of the loop body, at a node with a grandparent. -/
theorem insertFixupHalf_alike (h : SameButParent T.nil T T')
    (hrep : Rep T np (fill fs (branch d .black (branch pd .red (branch zd .red t e u) p S) g U)))
    (ht : Bal t .black k) (hu : Bal u .black k) (hS : Bal S .black k) :
    RunsAlike (SameButParent T.nil) (rbtreeInsertFixupHalf d e.ptr p.ptr g.ptr) T T' := by
  have hp : Rep T np (fill (⟨d, .black, g, U⟩ :: fs)
    (branch pd .red (branch zd .red t e u) p S)) := hrep
  have hU : Rep T np (fill (⟨d.flip, .black, g, branch pd .red (branch zd .red t e u) p S⟩ :: fs)
    U) := hrep.far_position
  refine (getChild_alike h d.flip g.ptr).seq_of hrep.getFar fun T' h => ?_
  refine (getColor_alike h _).seq_of hU.getColor_at fun T' h => .ite (fun _ => ?_) fun _ => ?_
  · refine (setColor_alike h _ _).then_ fun _ _ _ h => ?_
    refine (setColor_alike h _ _).then_ fun _ _ _ h => ?_
    exact (setColor_alike h _ _).then_ fun _ _ _ h => .pure _ h
  · -- The grandparent's side: after the inner `if` the red node `x` hangs below `q`.
    obtain ⟨T₁, zd', t', x, u', q, W, hrun₁, hrep₁, -, -, -, -, hk₁⟩ :=
      insertFixupOuter_spec rotates_rotate hrep ht hu hS
    have hx : Rep T₁ np (fill (⟨d, .red, q, W⟩ :: ⟨d, .black, g, U⟩ :: fs)
      (branch zd' .red t' x u')) := hrep₁
    have hq : Rep T₁ np (fill (⟨d, .black, g, U⟩ :: fs)
      (branch d .red (branch zd' .red t' x u') q W)) := hrep₁
    obtain ⟨T₂, hrun₂, hrep₂, hk₂⟩ := setColor_rep .black hq
    have hq₂ : Rep T₂ np (fill (⟨d, .black, g, U⟩ :: fs)
      (branch d .black (branch zd' .red t' x u') q W)) := hrep₂
    have hxn := hx.ptr_ne_nil
    have hqn := hq.ptr_ne_nil
    have hgn := hrep.ptr_ne_nil
    rw [hk₁.nil] at hxn hqn
    refine (insertFixupOuter_alike h d e.ptr hp.ptr_ne_nil).seq_of hrun₁ fun T' h => ?_
    refine (getParent_alike h hxn).seq_of hx.getUp fun T' h => ?_
    refine (setColor_alike h _ _).seq_of hrun₂ fun T' h => ?_
    refine (getParent_alike h hqn).seq_of hq₂.getUp fun T' h => ?_
    refine (setColor_alike h _ _).then_ fun _ _ _ h => ?_
    exact (rbtreeRotate_alike h d.flip hgn).then_ fun _ _ _ h => .pure _ h

end Half

/-- One iteration of the fix-up. -/
theorem insertFixupStep_alike {L : List Entry} {T₀ : Rbtree} {m : Nat} {z : Ptr}
    (hinv : InsertInv L np T₀ m z T) (h : SameButParent T₀.nil T T') :
    RunsAlike (SameButParent T₀.nil) (rbtreeInsertFixupStep z) T T' := by
  obtain ⟨ctx, zd, t, e, u, k, rfl, rfl, hrep, hL, ht, hu, hctx, hk⟩ := hinv
  rw [← hk.nil] at h ⊢
  refine (getParent_alike h hrep.ptr_ne_nil).seq_of hrep.getUp fun T' h => ?_
  cases hctx with
  | root =>
      refine (getColor_alike h _).seq_of (getColor_run hrep.sentinel) fun T' h => ?_
      exact .ite (fun hc => absurd hc (by simp [nilCell, RED, BLACK])) fun _ => .pure _ h
  | @black d p S fs _ c' _ hfs hS =>
      have hp : Rep T np (fill fs (branch d .black (branch zd .red t e u) p S)) := hrep
      refine (getColor_alike h _).seq_of (getColor_run hp.cell_at) fun T' h => ?_
      exact .ite (fun hc => absurd hc (by simp [RED, BLACK])) fun _ => .pure _ h
  | @red pd p S fs _ hfs hS =>
      obtain ⟨gd, g, U, fs', cu, rfl, hfs', hU⟩ := hfs.red_inv
      have hp : Rep T np (fill (⟨gd, .black, g, U⟩ :: fs')
        (branch pd .red (branch zd .red t e u) p S)) := hrep
      have hg : Rep T np (fill fs'
        (branch gd .black (branch pd .red (branch zd .red t e u) p S) g U)) := hrep
      refine (getColor_alike h _).seq_of (getColor_run hp.cell_at) fun T' h => .ite (fun _ => ?_)
        fun _ => .pure _ h
      refine (getParent_alike h hp.ptr_ne_nil).seq_of hp.getUp fun T' h => ?_
      have hhalf : ∀ T', SameButParent T.nil T T' →
          RunsAlike (SameButParent T.nil) (rbtreeInsertFixupHalf gd e.ptr p.ptr g.ptr) T T' :=
        fun T' h => insertFixupHalf_alike h hg ht hu hS
      cases gd with
      | left =>
          refine (getChild_alike h .left g.ptr).seq_of hg.getNear fun T' h => .ite (fun _ => ?_) ?_
          · exact (hhalf T' h).then_ fun _ _ _ h => .pure _ h
          · intro hc
            exact absurd (ptr_branch T.nil pd .red _ S p).symm hc
      | right =>
          refine (getChild_alike h .left g.ptr).seq_of hg.getFar fun T' h => .ite ?_ fun _ => ?_
          · intro hc
            exact absurd (hg.ptr_inj (by rw [ptr_branch]; exact hc)).1 (branch_ne_nil _ _ _ _ _)
          · exact (hhalf T' h).then_ fun _ _ _ h => .pure _ h

/-- **The insert fix-up** is entered with a red node, and never looks at the sentinel's parent. -/
theorem rbtreeInsertFixup_alike {ctx : Ctx Entry} {d : Dir} {t u : Tree Entry} {e : Entry} {k : Nat}
    (hn : T.nil = n) (h : SameButParent n T T') (hrep : Rep T np (fill ctx (branch d .red t e u)))
    (ht : Bal t .black k) (hu : Bal u .black k) (hctx : CtxBal ctx .black k) :
    RunsAlike (SameButParent n) (rbtreeInsertFixup e.ptr) T T' := by
  subst hn
  refine .get (by simp only [h.fuel]) (RunsAlike.then_ ?_ fun _ T₁ T₁' h₁ => ?_)
  · refine RunsAlike.loop (I := fun z S => ∃ m,
      InsertInv (fill ctx (branch d .red t e u)).toList np T m z S) ?_ ?_ _ _ _ _
      ⟨ctx.length, ctx, d, t, e, u, k, rfl, rfl, hrep, rfl, ht, hu, hctx, Keeps.refl T⟩ h
    · rintro z S S' ⟨m, hinv⟩ h
      exact insertFixupStep_alike hinv h
    · rintro z S z' S₁ ⟨m, hinv⟩ hrun
      rcases insertFixup_step rotates_rotate m z S hinv with
        ⟨_, _, hleave, -⟩ | ⟨z'', S'', m', hgo, -, hinv'⟩
      · rw [show rbtreeInsertFixupStepBy rbtreeRotate z = rbtreeInsertFixupStep z from rfl, hrun]
          at hleave
        cases hleave
      · rw [show rbtreeInsertFixupStepBy rbtreeRotate z = rbtreeInsertFixupStep z from rfl, hrun]
          at hgo
        cases hgo
        exact ⟨m', hinv'⟩
  · refine .get (by simp only [h₁.root]) (setColor_alike h₁ _ _)

/-- The descent of an insertion. -/
theorem descent_alike (h : SameButParent n T T') {z : Ptr} (hz : z ≠ n) (fuel : Nat)
    (yx : Ptr × Ptr) :
    RunsAlike (SameButParent n) (loop (rbtreeInsertStep z) fuel yx) T T' := by
  refine .loop_ (fun yx T T' h => ?_) _ _ h
  obtain ⟨y, x⟩ := yx
  refine .get (by simp only [h.nil]) (.ite (fun _ => ?_) fun _ => .pure _ h)
  refine read_alike h (fun hc => absurd hc hz) fun nd _ => ?_
  refine (compareKey_alike h _ x).then_ fun ret T T' h => .ite (fun _ => ?_) fun _ => .ite ?_ ?_
  · exact (getChild_alike h .left x).then_ fun l _ _ h => .pure _ h
  · exact fun _ => (getChild_alike h .right x).then_ fun r _ _ h => .pure _ h
  · exact fun _ => .pure _ h

theorem rbtreeInsertLink_alike (h : SameButParent n T T') {z : Ptr} (hz : z ≠ n) (y : Ptr) :
    RunsAlike (SameButParent n) (rbtreeInsertLink z y) T T' := by
  refine .get (by simp only [h.nil]) (.ite (fun _ => .modify ?_) fun _ => ?_)
  · exact ⟨rfl, h.nil, h.lock, h.count, h.next, h.cells, h.fields⟩
  · refine read_alike h (fun hc => absurd hc hz) fun nd _ => ?_
    exact (compareKey_alike h _ y).then_ fun ret _ _ h =>
      .ite (fun _ => setChild_alike h _ _ _) fun _ => setChild_alike h _ _ _

/-- Inserting a node with a new key. -/
theorem rbtreeInsert_alike {t : Tree Entry} {z : Entry} {nz : RbNode} (h : SameButParent T.nil T T')
    (hrep : Rep T np t) (hinv : TreeInv t) (hz : z.Sound) (hcell : T.mem.cells z.ptr = some nz)
    (hk : nz.key = z.key) (hv : nz.value = z.value) (hnil : z.ptr ≠ T.nil) (hnew : z.ptr ∉ t.ptrs)
    (habs : ∀ e ∈ t.toList, e.name ≠ z.name) :
    RunsAlike (SameButParent T.nil) (rbtreeInsert z.ptr) T T' := by
  obtain ⟨ctx, T₂, hlinked⟩ := rbtreeInsert_linked hrep hinv hz hcell hk hv hnil hnew habs
  refine .get (by simp only [h.fuel, h.root, h.nil]) ?_
  refine (descent_alike h hnil _ _).seq_of hlinked.descent fun T' h => ?_
  refine (setParent_alike h _ _).seq_of (assign_run hcell _) fun T' h => ?_
  refine (rbtreeInsertLink_alike h hnil _).seq_of hlinked.link fun T₂' h₂ => ?_
  have hcell₂ := (h₂.cells z.ptr hnil).trans hlinked.cell
  refine .congr (leaf_run hlinked.cell hk hv) (leaf_run hcell₂ hk hv) ?_
  exact rbtreeInsertFixup_alike hlinked.keeps.nil (h₂.write z.ptr rfl fun _ => rfl) hlinked.rep
    .nil .nil hlinked.balanced

end Insert

/-! ### Deleting -/

section Delete

variable {n : Ptr} {T T' : Rbtree} {np : Ptr}

theorem rbtreeMini_alike (h : SameButParent n T T') (x : Ptr) :
    RunsAlike (SameButParent n) (rbtreeMini x) T T' := by
  refine .get (by simp only [h.fuel]) (.loop_ (fun x T T' h => ?_) _ _ h)
  refine .get (by simp only [h.nil]) ((getChild_alike h .left x).then_ fun l T T' h => ?_)
  exact .ite (fun _ => .pure _ h) fun _ => .pure _ h

/-- The climb to the successor stops at the sentinel, before it reads its parent. -/
theorem rbtreeSuccessor_alike (hn : T.nil = n) (h : SameButParent n T T') {x : Ptr} (hx : x ≠ n) :
    RunsAlike (SameButParent n) (rbtreeSuccessor x) T T' := by
  refine .get (by simp only [h.fuel, h.nil]) (.read ?_ (getParent_alike h hx) fun y T' h => ?_)
  · exact .seq (.deref x) fun _ => .pure _
  refine .read (getChild_readOnly .right x) (getChild_alike h .right x) fun xr T' h => ?_
  refine .ite (fun _ => rbtreeMini_alike h xr) fun _ => ?_
  refine RunsAlike.loop (I := fun _ S => S.nil = n) ?_ ?_ _ _ _ _ hn h
  · rintro ⟨x, y⟩ S S' hS h
    refine .get (by simp only [h.nil]) (.ite (fun hy => ?_) fun _ => .pure _ h)
    rw [hS] at hy
    refine (getChild_alike h .right y).then_ fun yr S S' h => .ite (fun _ => ?_) fun _ => .pure _ h
    exact (getParent_alike h hy).then_ fun _ _ _ h => .pure _ h
  · rintro ⟨x, y⟩ S xy S₁ hS hrun
    have hread : ReadOnly (rbtreeSuccessorStep (x, y)) := by
      refine .seq .get fun T => .ite (.seq (getChild_readOnly .right y) fun yr => ?_) (.pure _)
      exact .ite (.seq (.seq (.deref y) fun _ => .pure _) fun _ => .pure _) (.pure _)
    rw [hread _ _ _ hrun]
    exact hS

theorem rbtreeDeleteVictim_alike (hn : T.nil = n) (h : SameButParent n T T') {z : Ptr}
    (hz : z ≠ n) : RunsAlike (SameButParent n) (rbtreeDeleteVictim z) T T' := by
  refine .get (by simp only [h.nil]) ?_
  refine .read (getChild_readOnly .left z) (getChild_alike h .left z) fun zl T' h => ?_
  refine .ite (fun _ => .pure z h) fun _ => ?_
  refine .read (getChild_readOnly .right z) (getChild_alike h .right z) fun zr T' h => ?_
  exact .ite (fun _ => .pure z h) fun _ => rbtreeSuccessor_alike hn h hz

theorem rbtreeDeleteChild_alike (h : SameButParent n T T') (y : Ptr) :
    RunsAlike (SameButParent n) (rbtreeDeleteChild y) T T' := by
  refine .get (by simp only [h.nil]) ((getChild_alike h .left y).then_ fun yl T T' h => ?_)
  refine .ite (fun _ => .pure _ h) fun _ => (getChild_alike h .right y).then_ fun yr T T' h => ?_
  exact .ite (fun _ => .pure _ h) fun _ => .pure _ h

theorem rbtreeDeleteMove_alike (h : SameButParent n T T') (z y : Ptr) :
    RunsAlike (SameButParent n) (rbtreeDeleteMove z y) T T' := by
  refine read_alike h (fun _ _ _ => rfl) fun ny _ => ?_
  exact (assign_alike h z fun _ _ => rfl).then_ fun _ _ _ h => assign_alike h z fun _ _ => rfl

/-- Moving a node's buffers changes no colour. -/
theorem rbtreeDeleteMove_color {z y p : Ptr} {nd : RbNode}
    (hrun : (rbtreeDeleteMove z y).run T = .ok ((), T')) (hcell : T.mem.cells p = some nd) :
    ∃ nd', T'.mem.cells p = some nd' ∧ nd'.color = nd.color := by
  obtain ⟨ny, T₁, hread, hmove⟩ := run_bind_inv hrun
  obtain ⟨-, rfl⟩ := deref_inv hread
  obtain ⟨_, T₂, hkey, hvalue⟩ := run_bind_inv hmove
  obtain ⟨nd₁, hcell₁, rfl⟩ := assign_inv hkey
  obtain ⟨nd₂, hcell₂, rfl⟩ := assign_inv hvalue
  by_cases hp : p = z
  · subst hp
    obtain rfl : nd = nd₁ := Option.some.inj (hcell.symm.trans hcell₁)
    have hcell₂' := (Mem.write_self hcell _).symm.trans hcell₂
    obtain rfl := Option.some.inj hcell₂'
    exact ⟨_, Mem.write_self hcell₂ _, rfl⟩
  · refine ⟨nd, ?_, rfl⟩
    exact (Mem.write_of_ne _ hp _).trans ((Mem.write_of_ne _ hp _).trans hcell)

/-- With the node to rebalance from red, the fix-up only paints it. -/
theorem rbtreeDeleteFixup_alike_red {x : Ptr} {nd : RbNode} (h : SameButParent n T T')
    (hcell : T.mem.cells x = some nd) (hx : x ≠ n) (hred : nd.color ≠ BLACK) :
    RunsAlike (SameButParent n) (rbtreeDeleteFixup x) T T' := by
  have hstep : ∀ S : Rbtree, S.mem.cells x = some nd →
      (loop rbtreeDeleteFixupStep S.fuel x).run S = .ok (x, S) := by
    intro S hS
    refine loop_inr (run_bind_of (run_get S) ?_)
    by_cases hroot : x = S.root
    · exact run_ite_neg (by simpa using hroot) rfl
    · exact run_ite_pos hroot (run_bind_of (getColor_run hS) (run_ite_neg hred rfl))
  have hcell' : T'.mem.cells x = some nd := (h.cells x hx).trans hcell
  have hloop : RunsAlike (SameButParent n) (loop rbtreeDeleteFixupStep T.fuel x) T T' :=
    .of_ok (hstep T hcell) (h.fuel ▸ hstep T' hcell') h
  refine .get (by simp only [h.fuel]) (hloop.then_ fun x T T' h => setColor_alike h x BLACK)

/-- A parent given to the node at `n` before anything else is read. -/
theorem adopt_alike {β : Type} (h : SameButParent n T T') (p : Ptr) (f : Unit → Prog Rbtree β) :
    RunsAlike (SameButParent n) (assign n (RbNode.setParent p) >>= f) T T' := by
  cases hrun : (assign n (RbNode.setParent p) : Prog Rbtree Unit).run T with
  | error e =>
      exact .of_error (run_bind_error hrun) (run_bind_error ((setParent_alike h n p).error hrun))
  | ok r =>
      obtain ⟨⟨⟩, T₁⟩ := r
      obtain ⟨T₁', hrun', -⟩ := (setParent_alike h n p).ok hrun
      obtain rfl := setParent_same h hrun hrun'
      exact .congr (run_bind_ok hrun) (run_bind_ok hrun') (.refl (SameButParent.refl n) _ _)

/-- The node a deletion unlinks has one child at most. -/
theorem rbtreeDeleteVictim_spec {ctx : Ctx Entry} {c : Color} {l r : Tree Entry} {e : Entry}
    (h : Rep T np (fill ctx (.node c l e r))) :
    ∃ ctx' d c' y u, fill ctx (.node c l e r) = fill ctx' (branch d c' .nil y u) ∧
      (rbtreeDeleteVictim e.ptr).run T = .ok (y.ptr, T) := by
  cases l with
  | nil => exact ⟨ctx, .left, c, e, r, rfl, deleteVictim_self h (Or.inl rfl)⟩
  | node cl ll el rl =>
      cases r with
      | nil => exact ⟨ctx, .right, c, e, _, rfl, deleteVictim_self h (Or.inr rfl)⟩
      | node cr lr er rr =>
          have hr : Rep T np (fill (⟨.right, c, e, .node cl ll el rl⟩ :: ctx)
            (branch .left cr lr er rr)) := h
          obtain ⟨p, hmini, ctx₁, cy, y, u, heq, -, rfl⟩ := rbtreeMini_spec hr
          refine ⟨ctx₁ ++ ⟨.right, c, e, .node cl ll el rl⟩ :: ctx, .left, cy, y, u, ?_,
            (deleteVictim_successor h).trans hmini⟩
          rw [fill_append]
          exact congrArg (fun s => fill ctx (.node c (.node cl ll el rl) e s)) heq

/-- **A deletion** sets the sentinel's parent before it looks at it, or never looks at it. -/
theorem rbtreeDelete_alike {ctx : Ctx Entry} {c : Color} {l r : Tree Entry} {e : Entry}
    (h : SameButParent T.nil T T') (hrep : Rep T np (fill ctx (.node c l e r)))
    (hbal : ∃ m, Bal (fill ctx (.node c l e r)) .black m) :
    RunsAlike (SameButParent T.nil) (rbtreeDelete e.ptr) T T' := by
  have he : e.ptr ≠ T.nil :=
    (show Rep T np (fill ctx (branch .left c l e r)) from hrep).ptr_ne_nil
  obtain ⟨ctx', d, c', y, u, heq, hvictim⟩ := rbtreeDeleteVictim_spec hrep
  rw [heq] at hrep hbal
  obtain ⟨m, hbal⟩ := hbal
  obtain ⟨c₀, k, hsub, hctx⟩ := CtxBal.of_fill hbal
  obtain ⟨T₁, T₂, np', hrun₁, hrun₂, hrep₂, -, hcell₂, hk₂⟩ := unlink_run hrep
  refine (rbtreeDeleteVictim_alike rfl h he).seq_of hvictim fun T' h => ?_
  refine (rbtreeDeleteChild_alike h y.ptr).seq_of (deleteChild_run hrep) fun T' h => ?_
  refine (getParent_alike h hrep.ptr_ne_nil).seq_of hrep.getUp fun T' h => ?_
  cases u with
  | nil => exact adopt_alike h _ _
  | node cx lx x rx =>
      have hat : Rep T np (fill (⟨d.flip, c', y, .nil⟩ :: ctx') (branch .left cx lx x rx)) :=
        hrep.far_position
      have hat₂ : Rep T₂ np' (fill ctx' (branch .left cx lx x rx)) := hrep₂
      refine (setParent_alike h x.ptr _).seq_of hrun₁ fun T' h => ?_
      refine (rbtreeRelink_alike h .left _ y.ptr x.ptr).seq_of hrun₂ fun T' h => ?_
      refine RunsAlike.seq (.whenever h fun _ => rbtreeDeleteMove_alike h e.ptr y.ptr)
        fun _ T₃ T' hmove h => ?_
      have hcolor : ∀ p nd, T₂.mem.cells p = some nd →
          ∃ nd', T₃.mem.cells p = some nd' ∧ nd'.color = nd.color := by
        intro p nd hp
        by_cases hz : y.ptr ≠ e.ptr
        · rw [whenever, if_pos hz] at hmove
          exact rbtreeDeleteMove_color hmove hp
        · rw [run_whenever_neg hz] at hmove
          cases hmove
          exact ⟨nd, hp, rfl⟩
      obtain ⟨ny, hy₃, hyc⟩ := hcolor y.ptr _ (hcell₂.trans hrep.cell_at)
      obtain ⟨nx, hx₃, hxc⟩ := hcolor x.ptr _ hat₂.cell_at
      rw [cell_color] at hyc hxc
      refine (getColor_alike h y.ptr).seq_of (getColor_run hy₃) fun T' h => ?_
      refine (RunsAlike.whenever h fun hblack => ?_).then_ fun _ _ _ h => .pure _ h
      -- Below a black node with one child, that child is red.
      have hred : cx = .red := by
        rw [hyc, Color.byte_eq_black] at hblack
        subst hblack
        obtain ⟨-, c₁, c₂, k', -, hnil, hu⟩ := hsub.of_branch_black
        cases hnil
        cases hu
        rfl
      refine rbtreeDeleteFixup_alike_red h hx₃ hat.ptr_ne_nil ?_
      rw [hxc, hred]
      simp [RED, BLACK]

end Delete

/-! ### Calls -/

section Calls

variable {n : Ptr} {T T' : Rbtree} {np : Ptr} {t : Tree Entry} {m : Dict CString CString}

theorem getKvRbtree_alike (h : SameButParent n T T') (key : Option CString) :
    RunsAlike (SameButParent n) (getKvRbtree key) T T' := by
  cases key with
  | none => exact .pure _ h
  | some key =>
      refine (rbtreeSearch_alike h key).then_ fun p T T' h => ?_
      exact read_alike h (fun _ _ _ => rfl) fun _ _ => .pure _ h

theorem existKvRbtree_alike (h : SameButParent n T T') (key : Option CString) :
    RunsAlike (SameButParent n) (existKvRbtree key) T T' := by
  cases key with
  | none => exact .pure _ h
  | some key =>
      refine .get (by simp only [h.nil]) ((rbtreeSearch_alike h key).then_ fun p T T' h => ?_)
      exact .ite (fun _ => .pure _ h) fun _ => .pure _ h

theorem countKvRbtree_alike (h : SameButParent n T T') :
    RunsAlike (SameButParent n) countKvRbtree T T' :=
  .get (by simp only [h.count]) (.pure _ h)

/-- The tree stores the same map whatever the sentinel's parent is. -/
theorem Stores.sameButParent (h : Stores T np t m) (hT : SameButParent T.nil T T') :
    ∃ np', Stores T' np' t m := by
  rcases hT.cell_cases T.nil with ⟨hnone, -⟩ | ⟨nd, q, hnd, hnd', -⟩
  · rw [h.rep.sentinel] at hnone
    cases hnone
  · rw [h.rep.sentinel] at hnd
    cases hnd
    refine ⟨q, ⟨?_, ?_, ?_, ?_⟩, h.inv, h.holds⟩
    · rw [hT.nil, hnd']
      rfl
    · rw [hT.root, hT.nil, h.rep.root]
    · rw [hT.nil]
      refine cells_congr (fun p hp => hT.cells p ?_) h.rep.cells
      exact ne_of_mem_of_not_mem hp h.rep.nil_notMem
    · rw [hT.nil]
      exact h.rep.nodup

theorem putKvRbtree_alike (hst : Stores T np t m) (hlock : T.lock ≠ .held)
    (h : SameButParent T.nil T T') (alloc : Bool) {k : CString} (hk : KeyFits k) (v : CString) :
    RunsAlike (SameButParent T.nil) (putKvRbtree alloc (some k) (some v)) T T' := by
  obtain ⟨np', hst'⟩ := hst.sameButParent h
  by_cases hstored : k ∈ m
  · exact .of_ok (hst.put_stored hstored alloc v) (hst'.put_stored hstored alloc v) h
  cases alloc with
  | false => exact .of_ok (hst.put_noAlloc hstored v) (hst'.put_noAlloc hstored v) h
  | true =>
      obtain ⟨mu, hmu, -⟩ := Mutex.lock_unlock hlock
      have hmu' : T'.lock.lock = .ok mu := by rw [h.lock, hmu]
      have hst₁ := hst.putState mu k v
      have hold := hst.rep.ne_next
      have hrun : (putKvRbtreeBy rbtreeRotate true (some k) (some v)).run T = _ :=
        putKvRbtreeBy_run v (hst.search_absent hstored) hmu
      have hrun' : (putKvRbtreeBy rbtreeRotate true (some k) (some v)).run T' = _ :=
        putKvRbtreeBy_run v (hst'.search_absent hstored) hmu'
      rw [h.next] at hrun'
      refine .congr hrun hrun' ?_
      have h₁ : SameButParent T.nil (putState T mu k v) (putState T' mu k v) := by
        have halloc := h.alloc (newCell T.nil k v)
        unfold putState
        rw [h.nil]
        exact ⟨h.root, rfl, rfl, h.count, halloc.next, halloc.cells, halloc.fields⟩
      refine (rbtreeInsert_alike h₁ hst₁.rep hst₁.inv (z := Entry.make T.mem.next k v)
        (Entry.make_sound hk) (Mem.alloc_self ..) rfl rfl ?_ ?_ ?_).then_ fun _ T₂ T₂' h₂ => ?_
      · exact fun hc => hold T.nil (by simp) hc.symm
      · exact fun hc => hold _ (List.mem_cons_of_mem _ hc) rfl
      · exact hst.make_new hk hstored T.mem.next v
      · refine (RunsAlike.modify ?_).then_ fun _ T₃ T₃' h₃ => ?_
        · exact ⟨h₂.root, h₂.nil, h₂.lock, congrArg (· + 1) h₂.count, h₂.next, h₂.cells, h₂.fields⟩
        · exact (mutexUnlock_alike h₃).then_ fun _ _ _ h => .pure _ h

theorem deleteKvRbtree_alike (hst : Stores T np t m) (hlock : T.lock ≠ .held)
    (h : SameButParent T.nil T T') (k : CString) :
    RunsAlike (SameButParent T.nil) (deleteKvRbtree (some k)) T T' := by
  obtain ⟨mu, hmu, -⟩ := Mutex.lock_unlock hlock
  obtain ⟨p, hsearch, hloc⟩ := hst.search k
  refine .get (by simp only [h.nil]) ?_
  refine (rbtreeSearch_alike h k).seq_of hsearch fun T' h => .ite (fun _ => .pure _ h) fun hp => ?_
  refine (mutexLock_alike h).seq_of (mutexLock_run hmu) fun T' h => ?_
  rcases hloc with ⟨-, ctx, c, l, e, r, rfl, -, rfl, -⟩ | ⟨hc, -⟩
  · have hst₁ : Stores { T with lock := mu } np (fill ctx (.node c l e r)) m :=
      hst.congr rfl rfl (fun _ _ => rfl)
    refine (rbtreeDelete_alike h hst₁.rep hst₁.inv.balanced).then_ fun q T₂ T₂' h₂ => ?_
    refine (RunsAlike.modify ?_).then_ fun _ T₃ T₃' h₃ => ?_
    · exact ⟨h₂.root, h₂.nil, h₂.lock, congrArg (· - 1) h₂.count, h₂.next, h₂.cells, h₂.fields⟩
    · refine (mutexUnlock_alike h₃).then_ fun _ _ _ h => ?_
      exact (free_alike h q).then_ fun _ _ _ h => .pure _ h
  · exact absurd hc hp

end Calls

/-- A call of the engine's interface; an argument is a string or `NULL`. -/
inductive TreeCall
  | put (alloc : Bool) (key value : Option CString)
  | get (key : Option CString)
  | delete (key : Option CString)
  | exist (key : Option CString)
  | count
  deriving DecidableEq

/-- What the call answers: a number, or for `get_kv_rbtree` the memory at the value. -/
def treeCall : TreeCall → Prog Rbtree (Int ⊕ Option (List Byte))
  | .put alloc k v => Sum.inl <$> putKvRbtree alloc k v
  | .get k => Sum.inr <$> getKvRbtree k
  | .delete k => Sum.inl <$> deleteKvRbtree k
  | .exist k => Sum.inl <$> existKvRbtree k
  | .count => Sum.inl <$> countKvRbtree

/-- A key that is put fits a key field with its terminator. -/
def TreeCall.KeyFitting : TreeCall → Prop
  | .put _ (some k) _ => KeyFits k
  | _ => True

section Runs

variable {T T' : Rbtree} {np : Ptr} {t : Tree Entry} {m : Dict CString CString} {c : TreeCall}

theorem treeCall_alike (hst : Stores T np t m) (hlock : T.lock ≠ .held) (hc : c.KeyFitting)
    (h : SameButParent T.nil T T') : RunsAlike (SameButParent T.nil) (treeCall c) T T' := by
  cases c with
  | put alloc k v =>
      refine .map _ ?_
      cases k with
      | none => exact .pure _ h
      | some k =>
          cases v with
          | none => exact .pure _ h
          | some v => exact putKvRbtree_alike hst hlock h alloc hc v
  | get k => exact .map _ (getKvRbtree_alike h k)
  | delete k =>
      refine .map _ ?_
      cases k with
      | none => exact .pure _ h
      | some k => exact deleteKvRbtree_alike hst hlock h k
  | exist k => exact .map _ (existKvRbtree_alike h k)
  | count => exact .map _ (countKvRbtree_alike h)

/-- Every call returns, and the sentinel stays where it is. -/
theorem treeCall_run (hst : Stores T np t m) (hlock : T.lock ≠ .held) (hc : c.KeyFitting) :
    ∃ r T', (treeCall c).run T = .ok (r, T') ∧ T'.nil = T.nil := by
  cases c with
  | put alloc k v =>
      cases k with
      | none => exact ⟨_, T, run_map_of _ rfl, rfl⟩
      | some k =>
          cases v with
          | none => exact ⟨_, T, run_map_of _ rfl, rfl⟩
          | some v =>
              by_cases hk : k ∈ m
              · exact ⟨_, T, run_map_of _ (hst.put_stored hk alloc v), rfl⟩
              cases alloc with
              | false => exact ⟨_, T, run_map_of _ (hst.put_noAlloc hk v), rfl⟩
              | true =>
                  obtain ⟨T', t', hrun, -, -, -, -, hnil, -⟩ :=
                    hst.putBy rotates_rotate hlock hc hk v
                  exact ⟨_, T', run_map_of _ hrun, hnil⟩
  | get k =>
      cases k with
      | none => exact ⟨_, T, run_map_of _ rfl, rfl⟩
      | some k =>
          obtain ⟨p, hsearch, hloc⟩ := hst.search k
          have hcell : ∃ nd, T.mem.cells p = some nd := by
            rcases hloc with ⟨-, ctx, c, l, e, r, rfl, -, rfl, -⟩ | ⟨rfl, -⟩
            · exact ⟨_, (show Rep T np (fill ctx (branch .left c l e r)) from hst.rep).cell_at⟩
            · exact ⟨_, hst.rep.sentinel⟩
          obtain ⟨nd, hnd⟩ := hcell
          exact ⟨_, T, run_map_of _ (run_bind_of hsearch (run_bind_of (deref_run hnd) rfl)), rfl⟩
  | delete k =>
      cases k with
      | none => exact ⟨_, T, run_map_of _ rfl, rfl⟩
      | some k =>
          by_cases hk : k ∈ m
          · obtain ⟨T', np', t', hrun, -, -, -, -, hnil, -⟩ := hst.deleteBy rotates_rotate hlock hk
            exact ⟨_, T', run_map_of _ hrun, hnil⟩
          · exact ⟨_, T, run_map_of _ (hst.delete_absent hk), rfl⟩
  | exist k =>
      cases k with
      | none => exact ⟨_, T, run_map_of _ rfl, rfl⟩
      | some k => exact ⟨_, T, run_map_of _ (hst.exist k), rfl⟩
  | count => exact ⟨_, T, run_map_of _ (run_bind_of (run_get T) rfl), rfl⟩

end Runs

/--
**The sentinel's stale parent is never observed**: after any run of puts and deletes from a
fresh engine, take two trees that agree with the one reached on everything but `nil->parent`.
Any call returns the same from both, and leaves two trees that again agree on everything but
`nil->parent`.
-/
theorem rbtree_stale_parent_unobserved (T₀ : Rbtree) (mu : Mutex) (hmu : mu ≠ .held)
    (ops : List TreeOp) (hops : ∀ op ∈ ops, op.KeyFitting) (c : TreeCall) (hc : c.KeyFitting) :
    ∃ T₁ rs T, (initRbtree true mu).run T₀ = .ok (0, T₁) ∧
      (runCalls treeOp ops).run T₁ = .ok (rs, T) ∧
      ∀ Ta Tb, SameButParent T.nil T Ta → SameButParent T.nil T Tb →
        ∃ r Ta' Tb', (treeCall c).run Ta = .ok (r, Ta') ∧ (treeCall c).run Tb = .ok (r, Tb') ∧
          SameButParent Ta'.nil Ta' Tb' := by
  obtain ⟨T₁, rs, T, hinit, hrun, ⟨np, t, m, hst, -⟩, hlock⟩ := treeRun_spec T₀ hmu ops hops
  refine ⟨T₁, rs, T, hinit, hrun, fun Ta Tb ha hb => ?_⟩
  obtain ⟨npa, hsta⟩ := hst.sameButParent ha
  have hlocka : Ta.lock ≠ .held := by rw [ha.lock]; exact hlock
  have hab : SameButParent Ta.nil Ta Tb := by
    rw [ha.nil]
    exact ha.symm.trans hb
  obtain ⟨r, Ta', hruna, hnila⟩ := treeCall_run hsta hlocka hc
  obtain ⟨Tb', hrunb, hab'⟩ := (treeCall_alike hsta hlocka hc hab).ok hruna
  rw [← hnila] at hab'
  exact ⟨r, Ta', Tb', hruna, hrunb, hab'⟩

/-- A deletion gives the sentinel a parent, the next one frees it, and a put follows. -/
theorem rbtree_stale_parent_unobserved_put :
    let k : CString := ⟨[107], by decide⟩
    let k' : CString := ⟨[108], by decide⟩
    ∃ T₁ rs T, (initRbtree true .free).run Rbtree.static = .ok (0, T₁) ∧
      (runCalls treeOp [.put true k k, .put true k' k, .delete k', .delete k]).run T₁ =
        .ok (rs, T) ∧
      ∀ Ta Tb, SameButParent T.nil T Ta → SameButParent T.nil T Tb →
        ∃ r Ta' Tb', (treeCall (.put true (some k) (some k'))).run Ta = .ok (r, Ta') ∧
          (treeCall (.put true (some k) (some k'))).run Tb = .ok (r, Tb') ∧
          SameButParent Ta'.nil Ta' Tb' :=
  rbtree_stale_parent_unobserved Rbtree.static .free (by decide) _ (by decide) _
    (show KeyFits _ by decide)

end KvStore
