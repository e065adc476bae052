/-
A rotation as one change of the pointer graph.

The six assignments of a rotation touch four nodes: the node `x`, its child `y` that moves up,
the subtree `b` that moves over from `y` to `x`, and the node `xp` above.  `turned` says what
becomes of each node, and `rotate_turn` that the assignments, in their order, come to just
that.  Nothing is asked of colours and keys, nor of the rest of the graph.

Turning back is the same change with `x` and `y` exchanged, and it undoes the first one field
by field.
-/
import KvStore.Engine.Rbtree

namespace KvStore

namespace RbNode

variable (nd : RbNode) (d : Dir) (x y p q : Ptr)

/-- Put `y` in the place of the child `x`. -/
def relink : RbNode :=
  { nd with left := if nd.left = x then y else nd.left
            right := if nd.right = x then y else nd.right }

@[simp] theorem child_setChild : (nd.setChild d p).child d = p := by cases d <;> rfl

@[simp] theorem child_setChild_flip : (nd.setChild d.flip p).child d = nd.child d := by
  cases d <;> rfl

@[simp] theorem child_setChild_other : (nd.setChild d p).child d.flip = nd.child d.flip := by
  cases d <;> rfl

@[simp] theorem child_setParent : (nd.setParent p).child d = nd.child d := by cases d <;> rfl

@[simp] theorem child_relink :
    (nd.relink x y).child d = if nd.child d = x then y else nd.child d := by cases d <;> rfl

@[simp] theorem parent_setChild : (nd.setChild d p).parent = nd.parent := by cases d <;> rfl

@[simp] theorem parent_setParent : (nd.setParent p).parent = p := rfl

@[simp] theorem parent_relink : (nd.relink x y).parent = nd.parent := rfl

@[simp] theorem setParent_setParent : (nd.setParent p).setParent q = nd.setParent q := rfl

theorem setParent_self : nd.setParent nd.parent = nd := rfl

theorem setChild_self : nd.setChild d (nd.child d) = nd := by cases d <;> rfl

theorem setChild_setChild : (nd.setChild d p).setChild d q = nd.setChild d q := by
  cases d <;> rfl

theorem setParent_setChild : (nd.setChild d p).setParent q = (nd.setParent q).setChild d p := by
  cases d <;> rfl

/-- Only one child is `x`. -/
theorem setChild_eq_relink (h : nd.child d = x) (h' : nd.child d.flip ≠ x) :
    nd.setChild d y = nd.relink x y := by
  obtain ⟨c, r, l, par, k, v⟩ := nd
  cases d with
  | left =>
      obtain rfl : l = x := h
      simp only [relink, if_true, if_neg (show r ≠ l from h')]
      rfl
  | right =>
      obtain rfl : r = x := h
      simp only [relink, if_true, if_neg (show l ≠ r from h')]
      rfl

/-- Putting it back. -/
theorem relink_relink (h : ∀ d, nd.child d ≠ y) : (nd.relink x y).relink y x = nd := by
  have hback : ∀ d, (if (if nd.child d = x then y else nd.child d) = y then x
      else (if nd.child d = x then y else nd.child d)) = nd.child d := by
    intro d
    by_cases hx : nd.child d = x
    · rw [if_pos hx, if_pos rfl, hx]
    · rw [if_neg hx, if_neg (h d)]
  have hl : (if (if nd.left = x then y else nd.left) = y then x
      else (if nd.left = x then y else nd.left)) = nd.left := hback .left
  have hr : (if (if nd.right = x then y else nd.right) = y then x
      else (if nd.right = x then y else nd.right)) = nd.right := hback .right
  unfold relink
  rw [hl, hr]

end RbNode

@[simp] theorem Dir.flip_flip (d : Dir) : d.flip.flip = d := by cases d <;> rfl

/-! ### The change -/

/--
What a rotation at `x` makes of the node at `q`: `y` takes the place of `x` below `xp`, `x`
becomes the `d` child of `y`, and `b` moves from `y` to `x`.
-/
def turned (nil : Ptr) (d : Dir) (x y b xp q : Ptr) (nd : RbNode) : RbNode :=
  if q = x then (nd.setChild d.flip b).setParent y
  else if q = y then (nd.setChild d x).setParent xp
  else if q = b ∧ b ≠ nil then nd.setParent x
  else if q = xp ∧ xp ≠ nil then nd.relink x y
  else nd

/-- Change the nodes of a tree. -/
def Rbtree.change (T : Rbtree) (f : Ptr → RbNode → RbNode) : Rbtree :=
  { T with mem := T.mem.mapCells f }

theorem Rbtree.change_cells {T : Rbtree} {p : Ptr} {nd : RbNode} (h : T.mem.cells p = some nd)
    (f : Ptr → RbNode → RbNode) : (T.change f).mem.cells p = some (f p nd) :=
  Mem.mapCells_of_some h f

/-- The rotation of `x`, which has the child `y`, below `xp`. -/
def Rbtree.turn (T : Rbtree) (d : Dir) (x y b xp : Ptr) : Rbtree :=
  { T.change (turned T.nil d x y b xp) with root := if xp = T.nil then y else T.root }

/-- `x` has the `d.flip` child `y`, which has the `d` child `b`, and hangs below `xp`. -/
structure Turnable (T : Rbtree) (d : Dir) (x y b xp : Ptr) : Prop where
  x_ne : x ≠ T.nil
  y_ne : y ≠ T.nil
  y_x : y ≠ x
  b_x : b ≠ x
  b_y : b ≠ y
  xp_x : xp ≠ x
  xp_y : xp ≠ y
  b_xp : b ≠ T.nil → b ≠ xp
  at_x : ∃ nd, T.mem.cells x = some nd ∧ nd.child d.flip = y ∧ nd.parent = xp
  at_y : ∃ nd, T.mem.cells y = some nd ∧ nd.child d = b ∧ nd.parent = x
  at_b : b ≠ T.nil → ∃ nd, T.mem.cells b = some nd ∧ nd.parent = y
  at_xp : xp ≠ T.nil → ∃ nd s, T.mem.cells xp = some nd ∧ nd.child s = x ∧
    nd.child s.flip ≠ x ∧ nd.child s.flip ≠ y
  root : xp = T.nil → T.root = x

/-! ### The assignments -/

theorem getChild_run {T : Rbtree} {p : Ptr} {nd : RbNode} (h : T.mem.cells p = some nd) (d : Dir) :
    (getChild d p).run T = .ok (nd.child d, T) :=
  run_bind_of (deref_run h) rfl

theorem getParent_run {T : Rbtree} {p : Ptr} {nd : RbNode} (h : T.mem.cells p = some nd) :
    (getParent p).run T = .ok (nd.parent, T) :=
  run_bind_of (deref_run h) rfl

theorem getColor_run {T : Rbtree} {p : Ptr} {nd : RbNode} (h : T.mem.cells p = some nd) :
    (getColor p).run T = .ok (nd.color, T) :=
  run_bind_of (deref_run h) rfl

section Assignments

variable {T : Rbtree}

theorem assign_change {p : Ptr} {nd : RbNode} (h : T.mem.cells p = some nd) (f : RbNode → RbNode) :
    (assign p f : Prog Rbtree Unit).run T =
      .ok ((), T.change fun q nd => if q = p then f nd else nd) := by
  refine (assign_run h f).trans ?_
  show Except.ok ((), { T with mem := T.mem.write p (f nd) }) = _
  rw [Mem.write_eq_mapCells h]
  rfl

theorem whenever_change {b : Ptr} (h : b ≠ T.nil → ∃ nd, T.mem.cells b = some nd)
    (f : RbNode → RbNode) :
    (whenever (b ≠ T.nil) (assign b f) : Prog Rbtree Unit).run T =
      .ok ((), T.change fun q nd => if q = b ∧ b ≠ T.nil then f nd else nd) := by
  by_cases hb : b ≠ T.nil
  · obtain ⟨nd, hcell⟩ := h hb
    simp only [hb, ne_eq, not_false_eq_true, and_true]
    exact run_whenever_pos hb (assign_change hcell f)
  · refine (run_whenever_neg hb).trans ?_
    simp only [hb, and_false, if_false]
    rw [Rbtree.change, Mem.mapCells_id]

/-- The if-chain finds the side that `x` is on, or the root. -/
theorem relink_change (d : Dir) {xp x : Ptr} (y : Ptr)
    (h : xp ≠ T.nil → ∃ nd s, T.mem.cells xp = some nd ∧ nd.child s = x ∧ nd.child s.flip ≠ x) :
    (rbtreeRelink d xp x y).run T =
      .ok ((), { T.change fun q nd => if q = xp ∧ xp ≠ T.nil then nd.relink x y else nd with
        root := if xp = T.nil then y else T.root }) := by
  by_cases hxp : xp = T.nil
  · refine run_bind_of (run_get T) (run_ite_pos hxp ?_)
    simp only [hxp, ne_eq, not_true_eq_false, and_false, if_false, if_true]
    rw [Rbtree.change, Mem.mapCells_id]
    rfl
  · obtain ⟨nd, s, hcell, hs, hs'⟩ := h hxp
    have hset : ∀ d', d' = s → (assign xp (RbNode.setChild d' y) : Prog Rbtree Unit).run T =
        .ok ((), T.change fun q nd => if q = xp then nd.relink x y else nd) := by
      rintro d' rfl
      refine (assign_change hcell _).trans
        (congrArg (fun m => Except.ok ((), { T with mem := m })) ?_)
      refine Mem.mapCells_congr fun q nd' hq => ?_
      by_cases hqp : q = xp
      · subst hqp
        rw [hcell] at hq
        cases hq
        rw [if_pos rfl, if_pos rfl, RbNode.setChild_eq_relink nd d' x y hs hs']
      · rw [if_neg hqp, if_neg hqp]
    refine run_bind_of (run_get T) (run_ite_neg hxp (run_bind_of (getChild_run hcell d) ?_))
    simp only [hxp, ne_eq, not_false_eq_true, and_true, if_false]
    by_cases hd : d = s
    · subst hd
      exact run_ite_pos hs.symm (hset d rfl)
    · have hflip := Dir.eq_flip_of_ne hd
      refine run_ite_neg ?_ (hset d.flip (by rw [hflip, Dir.flip_flip]))
      rw [hflip]
      exact Ne.symm hs'

/-- One assignment after the other makes of every node what the rotation makes of it. -/
theorem turned_eq {d : Dir} {x y b xp : Ptr} (h : Turnable T d x y b xp) (q : Ptr) (nd : RbNode) :
    (let nd := if q = x then nd.setChild d.flip b else nd
     let nd := if q = b ∧ b ≠ T.nil then nd.setParent x else nd
     let nd := if q = y then nd.setParent xp else nd
     let nd := if q = xp ∧ xp ≠ T.nil then nd.relink x y else nd
     let nd := if q = y then nd.setChild d x else nd
     if q = x then nd.setParent y else nd) = turned T.nil d x y b xp q nd := by
  unfold turned
  by_cases hx : q = x
  · subst hx
    simp only [if_true, Ne.symm h.b_x, Ne.symm h.y_x, Ne.symm h.xp_x, false_and, if_false]
  by_cases hy : q = y
  · subst hy
    simp only [hx, if_false, if_true, Ne.symm h.b_y, Ne.symm h.xp_y, false_and]
    rw [RbNode.setParent_setChild]
  by_cases hb : q = b ∧ b ≠ T.nil
  · obtain ⟨rfl, hne⟩ := hb
    simp only [hx, hy, if_false, hne, ne_eq, not_false_eq_true, and_self, if_true, h.b_xp hne,
      false_and]
  · simp only [hx, hy, hb, if_false]

/-- **The assignments of a rotation turn the graph.** -/
theorem rotate_turn {d : Dir} {x y b xp : Ptr} (h : Turnable T d x y b xp) :
    (rbtreeRotate d x).run T = .ok ((), T.turn d x y b xp) := by
  obtain ⟨nx, hx, hxy, hxp⟩ := h.at_x
  obtain ⟨ny, hy, hyb, -⟩ := h.at_y
  -- `x->right = y->left`
  let f₁ := fun q (nd : RbNode) => if q = x then nd.setChild d.flip b else nd
  have hx₁ := T.change_cells hx f₁
  have hy₁ := T.change_cells hy f₁
  -- `y->left->parent = x`
  let f₂ := fun q (nd : RbNode) => if q = b ∧ b ≠ T.nil then nd.setParent x else nd
  have hb₁ : b ≠ T.nil → ∃ nd, (T.change f₁).mem.cells b = some nd := by
    intro hb
    obtain ⟨nb, hcell, -⟩ := h.at_b hb
    exact ⟨_, T.change_cells hcell f₁⟩
  have hx₂ := (T.change f₁).change_cells hx₁ f₂
  have hy₂ := (T.change f₁).change_cells hy₁ f₂
  have hparent : (f₂ x (f₁ x nx)).parent = xp := by
    simp only [f₁, f₂, if_true, Ne.symm h.b_x, false_and, if_false, RbNode.parent_setChild, hxp]
  -- `y->parent = x->parent`, and the link above
  let f₃ := fun q (nd : RbNode) => if q = y then nd.setParent xp else nd
  have hxp₃ : xp ≠ T.nil → ∃ nd s, (((T.change f₁).change f₂).change f₃).mem.cells xp = some nd ∧
      nd.child s = x ∧ nd.child s.flip ≠ x := by
    intro hne
    obtain ⟨np, s, hcell, hs, hs', -⟩ := h.at_xp hne
    have hcell₃ := Rbtree.change_cells (Rbtree.change_cells (Rbtree.change_cells hcell f₁) f₂) f₃
    have hnb : ¬ (xp = b ∧ b ≠ T.nil) := fun hc => h.b_xp hc.2 hc.1.symm
    simp only [f₁, f₂, f₃, h.xp_x, h.xp_y, hnb, if_false] at hcell₃
    exact ⟨np, s, hcell₃, hs, hs'⟩
  let f₄ := fun q (nd : RbNode) => if q = xp ∧ xp ≠ T.nil then nd.relink x y else nd
  let T₄ : Rbtree := { (((T.change f₁).change f₂).change f₃).change f₄ with
    root := if xp = T.nil then y else T.root }
  have hx₄ := Rbtree.change_cells (Rbtree.change_cells hx₂ f₃) f₄
  have hy₄ := Rbtree.change_cells (Rbtree.change_cells hy₂ f₃) f₄
  -- `y->left = x`, `x->parent = y`
  let f₅ := fun q (nd : RbNode) => if q = y then nd.setChild d x else nd
  let f₆ := fun q (nd : RbNode) => if q = x then nd.setParent y else nd
  refine run_bind_of (run_get T) ?_
  refine run_bind_of ((getChild_run hx _).trans (by rw [hxy])) ?_
  refine run_bind_of ((getChild_run hy _).trans (by rw [hyb])) ?_
  refine run_bind_of (assign_change hx _) ?_
  refine run_bind_of (whenever_change (T := T.change f₁) hb₁ _) ?_
  refine run_bind_of ((getParent_run hx₂).trans (by rw [hparent])) ?_
  refine run_bind_of (assign_change hy₂ _) (run_bind_of (relink_change d y hxp₃) ?_)
  refine run_bind_of (assign_change (T := T₄) hy₄ _) ?_
  refine (assign_change (T := T₄.change f₅) (Rbtree.change_cells (T := T₄) hx₄ f₅) _).trans ?_
  have hmem : (((((T.mem.mapCells f₁).mapCells f₂).mapCells f₃).mapCells f₄).mapCells f₅).mapCells
      f₆ = T.mem.mapCells (turned T.nil d x y b xp) := by
    simp only [Mem.mapCells_mapCells]
    exact Mem.mapCells_congr fun q nd _ => turned_eq h q nd
  exact congrArg (fun m => Except.ok ((), { T with
    root := if xp = T.nil then y else T.root, mem := m })) hmem

end Assignments

/-! ### Turning back -/

section Back

variable {T : Rbtree} {d : Dir} {x y b xp : Ptr}

theorem turned_x (nil : Ptr) (nd : RbNode) :
    turned nil d x y b xp x nd = (nd.setChild d.flip b).setParent y := if_pos rfl

theorem turned_y (h : y ≠ x) (nil : Ptr) (nd : RbNode) :
    turned nil d x y b xp y nd = (nd.setChild d x).setParent xp := by
  unfold turned
  rw [if_neg h, if_pos rfl]

theorem turned_b (h : Turnable T d x y b xp) (hb : b ≠ T.nil) (nd : RbNode) :
    turned T.nil d x y b xp b nd = nd.setParent x := by
  unfold turned
  rw [if_neg h.b_x, if_neg h.b_y, if_pos ⟨rfl, hb⟩]

theorem turned_xp (h : Turnable T d x y b xp) (hxp : xp ≠ T.nil) (nd : RbNode) :
    turned T.nil d x y b xp xp nd = nd.relink x y := by
  have hb : ¬ (xp = b ∧ b ≠ T.nil) := fun hc => h.b_xp hc.2 hc.1.symm
  unfold turned
  rw [if_neg h.xp_x, if_neg h.xp_y, if_neg hb, if_pos ⟨rfl, hxp⟩]

theorem turned_of_ne {nil q : Ptr} (hx : q ≠ x) (hy : q ≠ y) (hb : b ≠ nil → q ≠ b)
    (hxp : xp ≠ nil → q ≠ xp) (nd : RbNode) : turned nil d x y b xp q nd = nd := by
  unfold turned
  rw [if_neg hx, if_neg hy, if_neg fun hc => hb hc.2 hc.1, if_neg fun hc => hxp hc.2 hc.1]

theorem Rbtree.turn_cells {q : Ptr} {nd : RbNode} (h : T.mem.cells q = some nd) :
    (T.turn d x y b xp).mem.cells q = some (turned T.nil d x y b xp q nd) :=
  Mem.mapCells_of_some h _

/-- The nodes besides these four stay as they are. -/
theorem Rbtree.turn_cells_of_ne {q : Ptr} (hx : q ≠ x) (hy : q ≠ y) (hb : b ≠ T.nil → q ≠ b)
    (hxp : xp ≠ T.nil → q ≠ xp) : (T.turn d x y b xp).mem.cells q = T.mem.cells q := by
  show (T.mem.cells q).map (turned T.nil d x y b xp q) = T.mem.cells q
  rw [funext (turned_of_ne hx hy hb hxp), Option.map_id']

/-- After the rotation `y` can be rotated the other way. -/
theorem Turnable.back (h : Turnable T d x y b xp) :
    Turnable (T.turn d x y b xp) d.flip y x b xp := by
  obtain ⟨nx, hx, hxy, hxp⟩ := h.at_x
  obtain ⟨ny, hy, hyb, -⟩ := h.at_y
  refine {
    x_ne := h.y_ne, y_ne := h.x_ne, y_x := Ne.symm h.y_x, b_x := h.b_y, b_y := h.b_x
    xp_x := h.xp_y, xp_y := h.xp_x, b_xp := h.b_xp
    at_x := ⟨_, T.turn_cells hy, ?_, ?_⟩, at_y := ⟨_, T.turn_cells hx, ?_, ?_⟩
    at_b := fun hb => ?_, at_xp := fun hne => ?_, root := fun hc => if_pos hc }
  · rw [turned_y h.y_x]
    simp
  · rw [turned_y h.y_x]
    rfl
  · rw [turned_x]
    simp
  · rw [turned_x]
    rfl
  · obtain ⟨nb, hnb, -⟩ := h.at_b hb
    refine ⟨_, T.turn_cells hnb, ?_⟩
    rw [turned_b h hb]
    rfl
  · obtain ⟨np, s, hnp, hs, hs', hs''⟩ := h.at_xp hne
    refine ⟨_, s, T.turn_cells hnp, ?_, ?_, ?_⟩
    all_goals rw [turned_xp h hne, RbNode.child_relink]
    · rw [if_pos hs]
    · rw [if_neg hs']
      exact hs''
    · rw [if_neg hs']
      exact hs'

/-- Every node comes back to what it was. -/
theorem turned_turned (h : Turnable T d x y b xp) {q : Ptr} {nd : RbNode}
    (hq : T.mem.cells q = some nd) :
    turned T.nil d.flip y x b xp q (turned T.nil d x y b xp q nd) = nd := by
  have hback := h.back
  by_cases hqx : q = x
  · subst hqx
    obtain ⟨nx, hx, rfl, rfl⟩ := h.at_x
    obtain rfl := Option.some.inj (hq.symm.trans hx)
    rw [turned_x, turned_y (Ne.symm h.y_x), ← RbNode.setParent_setChild,
      RbNode.setParent_setParent, RbNode.setParent_setChild, RbNode.setParent_setChild,
      RbNode.setParent_self, RbNode.setChild_setChild, RbNode.setChild_self]
  by_cases hqy : q = y
  · subst hqy
    obtain ⟨ny, hy, rfl, rfl⟩ := h.at_y
    obtain rfl := Option.some.inj (hq.symm.trans hy)
    rw [turned_y h.y_x, turned_x, Dir.flip_flip, ← RbNode.setParent_setChild,
      RbNode.setParent_setParent, RbNode.setParent_setChild, RbNode.setParent_setChild,
      RbNode.setParent_self, RbNode.setChild_setChild, RbNode.setChild_self]
  by_cases hqb : b ≠ T.nil ∧ q = b
  · obtain ⟨hb, rfl⟩ := hqb
    obtain ⟨nb, hnb, rfl⟩ := h.at_b hb
    obtain rfl := Option.some.inj (hq.symm.trans hnb)
    rw [turned_b h hb]
    exact turned_b hback hb _
  by_cases hqp : xp ≠ T.nil ∧ q = xp
  · obtain ⟨hxp, rfl⟩ := hqp
    obtain ⟨np, s, hnp, hs, hs', hs''⟩ := h.at_xp hxp
    obtain rfl := Option.some.inj (hq.symm.trans hnp)
    rw [turned_xp h hxp]
    refine (turned_xp hback hxp _).trans (RbNode.relink_relink nd x y fun d' => ?_)
    by_cases hd : d' = s
    · rw [hd, hs]
      exact Ne.symm h.y_x
    · rw [Dir.eq_flip_of_ne hd]
      exact hs''
  · have hb : b ≠ T.nil → q ≠ b := fun hb hc => hqb ⟨hb, hc⟩
    have hxp : xp ≠ T.nil → q ≠ xp := fun hxp hc => hqp ⟨hxp, hc⟩
    rw [turned_of_ne hqx hqy hb hxp, turned_of_ne hqy hqx hb hxp]

/-- **Turning back restores the tree.** -/
theorem turn_turn (h : Turnable T d x y b xp) : (T.turn d x y b xp).turn d.flip y x b xp = T := by
  have hmem : (T.mem.mapCells (turned T.nil d x y b xp)).mapCells (turned T.nil d.flip y x b xp) =
      T.mem := by
    rw [Mem.mapCells_mapCells, Mem.mapCells_congr fun q nd hq => turned_turned h hq,
      Mem.mapCells_id]
  have hroot : (if xp = T.nil then x else if xp = T.nil then y else T.root) = T.root := by
    by_cases hxp : xp = T.nil
    · rw [if_pos hxp, h.root hxp]
    · rw [if_neg hxp, if_neg hxp]
  calc (T.turn d x y b xp).turn d.flip y x b xp
      = { T with
          root := if xp = T.nil then x else if xp = T.nil then y else T.root
          mem := (T.mem.mapCells (turned T.nil d x y b xp)).mapCells
            (turned T.nil d.flip y x b xp) } := rfl
    _ = T := by rw [hmem, hroot]

end Back

end KvStore
