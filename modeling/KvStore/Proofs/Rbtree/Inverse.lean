/-
Rotations keep the order of the nodes, and the two rotations undo each other.

`WellFormed T ps` is about the pointer graph alone: the nodes below the root are `ps` in order,
all different, and every child's parent pointer leads back.  Colours and keys may be anything,
and so may the sentinel's fields.  From it every node with a child on the far side is one that
`Turn.lean` can rotate, and what the rotation leaves is well-formed with the same `ps`.

That the traversal stays the same is an induction on the length of a subtree's list: at the
rotated node both it and its child are taken apart, so the subtrees below are two levels down.
-/
import KvStore.Proofs.Rbtree.Invariant
import KvStore.Proofs.Rbtree.Turn

namespace KvStore

/-! ### Lists of a node and its two sides -/

/-- The nodes on the `d` side of `p`, `p` itself and the nodes on its other side, in order. -/
def weave (d : Dir) (near : List Ptr) (p : Ptr) (far : List Ptr) : List Ptr :=
  match d with
  | .left => near ++ p :: far
  | .right => far ++ p :: near

section Weave

variable {d : Dir} {p q : Ptr} {near far : List Ptr}

theorem mem_weave : q ∈ weave d near p far ↔ q = p ∨ q ∈ near ∨ q ∈ far := by
  cases d <;> simp only [weave, List.mem_append, List.mem_cons] <;> tauto

theorem nodup_weave : (weave d near p far).Nodup ↔
    (p ∉ near ∧ p ∉ far) ∧ near.Nodup ∧ far.Nodup ∧ near.Disjoint far := by
  have hperm : (weave d near p far).Perm (p :: (near ++ far)) := by
    cases d with
    | left => exact List.perm_middle
    | right => exact List.perm_middle.trans (List.perm_append_comm.cons p)
  rw [hperm.nodup_iff, List.nodup_cons, List.mem_append, not_or, List.nodup_append']

/-- The list does not change when the root of a rotation does. -/
theorem weave_weave (d : Dir) (as bs es : List Ptr) (x y : Ptr) :
    weave d as x (weave d bs y es) = weave d (weave d as x bs) y es := by
  cases d <;> simp [weave]

theorem length_weave (d : Dir) (near far : List Ptr) (p : Ptr) :
    (weave d near p far).length = near.length + far.length + 1 := by
  cases d <;> simp only [weave, List.length_append, List.length_cons] <;> omega

end Weave

/-! ### The traversal, from either side -/

section Traversal

variable {T : Rbtree} {p q : Ptr} {qs near far : List Ptr} {nd : RbNode}

theorem InOrder.weave {d : Dir} (hp : p ≠ T.nil) (hcell : T.mem.cells p = some nd)
    (hnear : InOrder T (nd.child d) near) (hfar : InOrder T (nd.child d.flip) far) :
    InOrder T p (weave d near p far) := by
  cases d with
  | left => exact .node hp hcell hnear hfar
  | right => exact .node hp hcell hfar hnear

theorem InOrder.inv (h : InOrder T p qs) (hp : p ≠ T.nil) (hcell : T.mem.cells p = some nd)
    (d : Dir) : ∃ near far, InOrder T (nd.child d) near ∧ InOrder T (nd.child d.flip) far ∧
      qs = KvStore.weave d near p far := by
  cases h with
  | nil => exact absurd rfl hp
  | node _ hcell' hl hr =>
      obtain rfl := Option.some.inj (hcell.symm.trans hcell')
      cases d with
      | left => exact ⟨_, _, hl, hr, rfl⟩
      | right => exact ⟨_, _, hr, hl, rfl⟩

/-- The traversal from a node starts with it, one from the sentinel visits nothing. -/
theorem InOrder.head (h : InOrder T p qs) (hp : p ≠ T.nil) : p ∈ qs := by
  cases h with
  | nil => exact absurd rfl hp
  | node => simp

/-- Every node that is visited is allocated, and the traversal from it is part of the whole. -/
theorem InOrder.sub (h : InOrder T p qs) (hq : q ∈ qs) :
    q ≠ T.nil ∧ (∃ nd, T.mem.cells q = some nd) ∧ ∃ rs, InOrder T q rs ∧ rs.Sublist qs := by
  induction h with
  | nil => cases hq
  | node hp hcell hl hr ihl ihr =>
      rcases List.mem_append.mp hq with hq | hq
      · obtain ⟨hne, hsome, rs, hrs, hsub⟩ := ihl hq
        exact ⟨hne, hsome, rs, hrs, hsub.trans (List.sublist_append_left _ _)⟩
      rcases List.mem_cons.mp hq with rfl | hq
      · exact ⟨hp, ⟨_, hcell⟩, _, .node hp hcell hl hr, List.Sublist.refl _⟩
      · obtain ⟨hne, hsome, rs, hrs, hsub⟩ := ihr hq
        exact ⟨hne, hsome, rs, hrs,
          hsub.trans ((List.sublist_cons_self _ _).trans (List.sublist_append_right _ _))⟩

/-- Every node that is visited is where the traversal starts, or the child of another. -/
theorem InOrder.above (h : InOrder T p qs) (hq : q ∈ qs) :
    q = p ∨ ∃ r ∈ qs, ∃ nd d, T.mem.cells r = some nd ∧ nd.child d = q := by
  induction h with
  | nil => cases hq
  | @node p nd ls rs hp hcell hl hr ihl ihr =>
      rcases List.mem_append.mp hq with hq | hq
      · rcases ihl hq with rfl | ⟨r, hmem, nr, d, hr, hd⟩
        · exact Or.inr ⟨p, by simp, nd, .left, hcell, rfl⟩
        · exact Or.inr ⟨r, List.mem_append_left _ hmem, nr, d, hr, hd⟩
      rcases List.mem_cons.mp hq with rfl | hq
      · exact Or.inl rfl
      · rcases ihr hq with rfl | ⟨r, hmem, nr, d, hr, hd⟩
        · exact Or.inr ⟨p, by simp, nd, .right, hcell, rfl⟩
        · exact Or.inr ⟨r, by simp [hmem], nr, d, hr, hd⟩

/-- Around a node of a list without repetitions. -/
structure Around (T : Rbtree) (d : Dir) (p : Ptr) (nd : RbNode) (near far : List Ptr) : Prop where
  nearOrder : InOrder T (nd.child d) near
  farOrder : InOrder T (nd.child d.flip) far
  p_near : p ∉ near
  p_far : p ∉ far
  disjoint : near.Disjoint far

theorem InOrder.around (h : InOrder T p qs) (hnd : qs.Nodup) (hq : q ∈ qs)
    (hcell : T.mem.cells q = some nd) (d : Dir) :
    ∃ near far, Around T d q nd near far ∧ (KvStore.weave d near q far).Sublist qs := by
  obtain ⟨hne, -, rs, hrs, hsub⟩ := h.sub hq
  obtain ⟨near, far, hnear, hfar, rfl⟩ := hrs.inv hne hcell d
  obtain ⟨⟨hpnear, hpfar⟩, -, -, hdisjoint⟩ := nodup_weave.mp (hnd.sublist hsub)
  exact ⟨near, far, ⟨hnear, hfar, hpnear, hpfar, hdisjoint⟩, hsub⟩

end Traversal

/-! ### Well-formed graphs -/

/-- The nodes below the root are `ps`, in order, and their parent pointers are right. -/
structure WellFormed (T : Rbtree) (ps : List Ptr) : Prop where
  order : InOrder T T.root ps
  distinct : ps.Nodup
  rootParent : T.root ≠ T.nil → ∃ nd, T.mem.cells T.root = some nd ∧ nd.parent = T.nil
  parents : ∀ p ∈ ps, ∀ nd d, T.mem.cells p = some nd → nd.child d ≠ T.nil →
    ∃ nc, T.mem.cells (nd.child d) = some nc ∧ nc.parent = p

namespace WellFormed

variable {T : Rbtree} {ps : List Ptr} {d : Dir} {p x y b xp : Ptr} {nd nx : RbNode}

/-- A child that is not the sentinel is one of the nodes. -/
theorem child_mem (h : WellFormed T ps) (hp : p ∈ ps) (hcell : T.mem.cells p = some nd)
    (hc : nd.child d ≠ T.nil) : nd.child d ∈ ps := by
  obtain ⟨near, far, hat, hsub⟩ := h.order.around h.distinct hp hcell d
  exact hsub.subset (mem_weave.mpr (Or.inr (Or.inl (hat.nearOrder.head hc))))

/-- The two children of a node are different. -/
theorem children_ne (h : WellFormed T ps) (hp : p ∈ ps) (hcell : T.mem.cells p = some nd)
    (hc : nd.child d ≠ T.nil) : nd.child d ≠ nd.child d.flip := by
  obtain ⟨near, far, hat, -⟩ := h.order.around h.distinct hp hcell d
  intro heq
  have hfar : nd.child d ∈ far := by
    rw [heq]
    exact hat.farOrder.head (heq ▸ hc)
  exact hat.disjoint (hat.nearOrder.head hc) hfar

/-- A node is the root, with the sentinel as its parent, or a child of its parent. -/
theorem parent_cases (h : WellFormed T ps) (hx : x ∈ ps) (hcell : T.mem.cells x = some nx) :
    (x = T.root ∧ nx.parent = T.nil) ∨
      (nx.parent ∈ ps ∧ ∃ np s, T.mem.cells nx.parent = some np ∧ np.child s = x) := by
  have hne := (h.order.sub hx).1
  rcases h.order.above hx with rfl | ⟨r, hr, nr, s, hcellr, rfl⟩
  · obtain ⟨nd, hnd, hparent⟩ := h.rootParent hne
    obtain rfl := Option.some.inj (hcell.symm.trans hnd)
    exact Or.inl ⟨rfl, hparent⟩
  · obtain ⟨nc, hnc, hparent⟩ := h.parents r hr nr s hcellr hne
    obtain rfl := Option.some.inj (hcell.symm.trans hnc)
    rw [hparent]
    exact Or.inr ⟨hr, nr, s, hcellr, rfl⟩

/-- The child of a node is not visited from where the node is below. -/
theorem parent_notMem (h : WellFormed T ps) {q r : Ptr} {rs : List Ptr} (hq : q ∈ ps)
    (hcell : T.mem.cells q = some nd) (hr : nd.child d = r) (horder : InOrder T r rs) :
    q ∉ rs := by
  subst hr
  obtain ⟨near, far, hat, -⟩ := h.order.around h.distinct hq hcell d
  rw [horder.unique hat.nearOrder]
  exact hat.p_near

/-- The far child of `x` and the child between them are below `x`, and different. -/
theorem below (h : WellFormed T ps) (hx : x ∈ ps) (hcell : T.mem.cells x = some nx)
    (hy : nx.child d.flip ≠ T.nil) {ny : RbNode} (hny : T.mem.cells (nx.child d.flip) = some ny) :
    ∃ qs, InOrder T x qs ∧ x ∈ qs ∧ nx.child d.flip ∈ qs ∧ (ny.child d ≠ T.nil → ny.child d ∈ qs) ∧
      nx.child d.flip ≠ x ∧ ny.child d ≠ x ∧ ny.child d ≠ nx.child d.flip := by
  have hxne := (h.order.sub hx).1
  obtain ⟨as, far, hatx, -⟩ := h.order.around h.distinct hx hcell d
  obtain ⟨bs, es, haty, -⟩ := h.order.around h.distinct (h.child_mem hx hcell hy) hny d
  -- The far side of `x` is the traversal from `y`, so all of it is below `x`.
  have hfar : far = KvStore.weave d bs (nx.child d.flip) es :=
    hatx.farOrder.unique (.weave hy hny haty.nearOrder haty.farOrder)
  have hyfar : nx.child d.flip ∈ far := hatx.farOrder.head hy
  have hbbs : ny.child d ≠ T.nil → ny.child d ∈ bs := haty.nearOrder.head
  have hbfar : ny.child d ≠ T.nil → ny.child d ∈ far := by
    intro hb
    rw [hfar]
    exact mem_weave.mpr (Or.inr (Or.inl (hbbs hb)))
  refine ⟨_, .weave hxne hcell hatx.nearOrder hatx.farOrder, mem_weave.mpr (Or.inl rfl),
    mem_weave.mpr (Or.inr (Or.inr hyfar)), fun hb => mem_weave.mpr (Or.inr (Or.inr (hbfar hb))),
    ?_, ?_, ?_⟩
  · exact fun hc => hatx.p_far (hc ▸ hyfar)
  · intro hc
    exact hatx.p_far (hc ▸ hbfar (hc ▸ hxne))
  · intro hc
    exact haty.p_near (hc ▸ hbbs (hc ▸ hy))

/-- **A node with a child on the far side can be rotated.** -/
theorem turnable (h : WellFormed T ps) (hx : x ∈ ps) (hcell : T.mem.cells x = some nx) (d : Dir)
    (hy : nx.child d.flip ≠ T.nil) :
    ∃ ny, T.mem.cells (nx.child d.flip) = some ny ∧
      Turnable T d x (nx.child d.flip) (ny.child d) nx.parent := by
  have hxne := (h.order.sub hx).1
  have hymem := h.child_mem hx hcell hy
  obtain ⟨ny, hny, hyparent⟩ := h.parents x hx nx d.flip hcell hy
  obtain ⟨qs, hqs, hxqs, hyqs, hbqs, hyx, hbx, hby⟩ := h.below hx hcell hy hny
  refine ⟨ny, hny, ?_⟩
  rcases h.parent_cases hx hcell with ⟨hroot, hpar⟩ | ⟨hmem, np, s, hnp, hs⟩
  · rw [hpar]
    exact {
      x_ne := hxne, y_ne := hy, y_x := hyx, b_x := hbx, b_y := hby
      xp_x := Ne.symm hxne, xp_y := Ne.symm hy, b_xp := id
      at_x := ⟨nx, hcell, rfl, hpar⟩, at_y := ⟨ny, hny, rfl, hyparent⟩
      at_b := h.parents _ hymem ny d hny
      at_xp := fun hc => absurd rfl hc, root := fun _ => hroot.symm }
  · have hnot : nx.parent ∉ qs := h.parent_notMem hmem hnp hs hqs
    have hxpx : nx.parent ≠ x := fun hc => hnot (hc ▸ hxqs)
    refine {
      x_ne := hxne, y_ne := hy, y_x := hyx, b_x := hbx, b_y := hby
      xp_x := hxpx, xp_y := fun hc => hnot (hc ▸ hyqs), b_xp := fun hb hc => hnot (hc ▸ hbqs hb)
      at_x := ⟨nx, hcell, rfl, rfl⟩, at_y := ⟨ny, hny, rfl, hyparent⟩
      at_b := h.parents _ hymem ny d hny
      at_xp := fun _ => ⟨np, s, hnp, hs, ?_, ?_⟩
      root := fun hc => absurd hc (h.order.sub hmem).1 }
    · rw [← hs]
      exact Ne.symm (h.children_ne hmem hnp (hs ▸ hxne))
    · -- Its parent would be both `x` and the parent of `x`.
      intro hc
      obtain ⟨nc, hnc, hparent⟩ := h.parents _ hmem np s.flip hnp (hc ▸ hy)
      rw [hc, hny] at hnc
      obtain rfl := Option.some.inj hnc
      exact hxpx (hparent.symm.trans hyparent)

/-! ### After a rotation -/

/-- A child is hung below its parent. -/
theorem child_parent (h : WellFormed T ps) {q c : Ptr} {nc : RbNode} {s : Dir} (hq : q ∈ ps)
    (hcell : T.mem.cells q = some nd) (hs : nd.child s = c) (hc : c ≠ T.nil)
    (hnc : T.mem.cells c = some nc) : nc.parent = q := by
  subst hs
  obtain ⟨nc', hnc', hparent⟩ := h.parents q hq nd s hcell hc
  obtain rfl := Option.some.inj (hnc.symm.trans hnc')
  exact hparent

/-- Of the nodes around the rotation, each has `y` for a child where it had `x`. -/
theorem child_turned (h : WellFormed T ps) (ht : Turnable T d x y b xp) {q : Ptr} (hq : q ∈ ps)
    (hcell : T.mem.cells q = some nd) (hqx : q ≠ x) (hqy : q ≠ y) (s : Dir) :
    (turned T.nil d x y b xp q nd).child s = if nd.child s = x then y else nd.child s := by
  obtain ⟨nx, hx, -, hxp⟩ := ht.at_x
  have honly : nd.child s = x → q = xp := fun hs =>
    (h.child_parent hq hcell hs ht.x_ne hx).symm.trans hxp
  have hqne := (h.order.sub hq).1
  unfold turned
  rw [if_neg hqx, if_neg hqy]
  by_cases hb : q = b ∧ b ≠ T.nil
  · rw [if_pos hb, RbNode.child_setParent, if_neg]
    exact fun hs => ht.b_xp hb.2 (hb.1.symm.trans (honly hs))
  rw [if_neg hb]
  by_cases hqp : q = xp ∧ xp ≠ T.nil
  · rw [if_pos hqp, RbNode.child_relink]
  · rw [if_neg hqp, if_neg]
    exact fun hs => hqp ⟨honly hs, honly hs ▸ hqne⟩

/-- The child `y` is one of the nodes. -/
theorem turnable_mem (h : WellFormed T ps) (ht : Turnable T d x y b xp) (hx : x ∈ ps) : y ∈ ps := by
  obtain ⟨nx, hcellx, hxy, -⟩ := ht.at_x
  rw [← hxy]
  exact h.child_mem hx hcellx (hxy ▸ ht.y_ne)

/-- The near child of `x` is neither `x` nor `y`. -/
theorem turnable_near (h : WellFormed T ps) (ht : Turnable T d x y b xp) (hx : x ∈ ps)
    (hcell : T.mem.cells x = some nx) : nx.child d ≠ x ∧ nx.child d ≠ y := by
  obtain ⟨nx', hcell', hxy, hxp⟩ := ht.at_x
  obtain rfl := Option.some.inj (hcell.symm.trans hcell')
  constructor
  · intro hc
    exact ht.xp_x (hxp.symm.trans (h.child_parent hx hcell hc ht.x_ne hcell))
  · intro hc
    exact h.children_ne hx hcell (hc ▸ ht.y_ne) (hc.trans hxy.symm)

/-- The far child of `y` is neither `x` nor `y`. -/
theorem turnable_far (h : WellFormed T ps) (ht : Turnable T d x y b xp) (hx : x ∈ ps) {ny : RbNode}
    (hcell : T.mem.cells y = some ny) : ny.child d.flip ≠ x ∧ ny.child d.flip ≠ y := by
  obtain ⟨nx, hcellx, -, hxp⟩ := ht.at_x
  obtain ⟨ny', hcell', -, hyx⟩ := ht.at_y
  obtain rfl := Option.some.inj (hcell.symm.trans hcell')
  have hy := h.turnable_mem ht hx
  constructor
  · intro hc
    exact ht.xp_y (hxp.symm.trans (h.child_parent hy hcell hc ht.x_ne hcellx))
  · intro hc
    exact ht.y_x ((h.child_parent hy hcell hc ht.y_ne hcell).symm.trans hyx)

/-- The three subtrees, put together again with `y` at the top. -/
theorem order_rejoin (ht : Turnable T d x y b xp) {ny : RbNode} {as bs es : List Ptr}
    (hcellx : T.mem.cells x = some nx) (hcelly : T.mem.cells y = some ny)
    (has : InOrder (T.turn d x y b xp) (nx.child d) as) (hbs : InOrder (T.turn d x y b xp) b bs)
    (hes : InOrder (T.turn d x y b xp) (ny.child d.flip) es) :
    InOrder (T.turn d x y b xp) y (KvStore.weave d (KvStore.weave d as x bs) y es) := by
  refine .weave ht.y_ne (T.turn_cells hcelly) ?_ ?_
  · rw [turned_y ht.y_x, RbNode.child_setParent, RbNode.child_setChild]
    refine .weave ht.x_ne (T.turn_cells hcellx) ?_ ?_
    · rw [turned_x, RbNode.child_setParent, RbNode.child_setChild_flip]
      exact has
    · rw [turned_x, RbNode.child_setParent, RbNode.child_setChild]
      exact hbs
  · rw [turned_y ht.y_x, RbNode.child_setParent, RbNode.child_setChild_other]
    exact hes

/-- The traversal of a subtree, with `y` at its top if that was `x`. -/
theorem order_turn (h : WellFormed T ps) (ht : Turnable T d x y b xp) (hx : x ∈ ps) :
    ∀ (k : Nat) (p : Ptr) (qs : List Ptr), qs.length < k → InOrder T p qs → qs ⊆ ps → p ≠ y →
      InOrder (T.turn d x y b xp) (if p = x then y else p) qs := by
  obtain ⟨nx, hcellx, hxy, -⟩ := ht.at_x
  obtain ⟨ny, hcelly, hyb, hyx⟩ := ht.at_y
  intro k
  induction k with
  | zero => exact fun p qs hlen => absurd hlen (Nat.not_lt_zero _)
  | succ k ih =>
      intro p qs hlen horder hsub hpy
      by_cases hp : p = T.nil
      · subst hp
        rw [if_neg (Ne.symm ht.x_ne)]
        cases horder with
        | nil => exact .nil
        | node hc => exact absurd rfl hc
      obtain ⟨-, ⟨nd, hnd⟩, -⟩ := horder.sub (horder.head hp)
      have hpmem := hsub (horder.head hp)
      by_cases hpx : p = x
      · -- `x` and `y` are taken apart, and put together the other way round.
        subst hpx
        obtain ⟨as, far, has, hfar, rfl⟩ := horder.inv hp hcellx d
        rw [hxy] at hfar
        obtain ⟨bs, es, hbs, hes, rfl⟩ := hfar.inv ht.y_ne hcelly d
        rw [hyb] at hbs
        simp only [length_weave] at hlen
        have hsub' : ∀ q, q ∈ as ∨ q ∈ bs ∨ q ∈ es → q ∈ ps := fun q hq =>
          hsub (mem_weave.mpr (by rw [mem_weave]; tauto))
        obtain ⟨hax, hay⟩ := h.turnable_near ht hx hcellx
        obtain ⟨hex, hey⟩ := h.turnable_far ht hx hcelly
        have has' := ih _ as (by omega) has (fun q hq => hsub' q (Or.inl hq)) hay
        have hbs' := ih _ bs (by omega) hbs (fun q hq => hsub' q (Or.inr (Or.inl hq))) ht.b_y
        have hes' := ih _ es (by omega) hes (fun q hq => hsub' q (Or.inr (Or.inr hq))) hey
        rw [if_neg hax] at has'
        rw [if_neg ht.b_x] at hbs'
        rw [if_neg hex] at hes'
        rw [if_pos rfl, weave_weave]
        exact order_rejoin ht hcellx hcelly has' hbs' hes'
      · rw [if_neg hpx]
        obtain ⟨near, far, hnear, hfar, rfl⟩ := horder.inv hp hnd .left
        have hchild : ∀ s, nd.child s ≠ y := by
          intro s hs
          exact hpx ((h.child_parent hpmem hnd hs ht.y_ne hcelly).symm.trans hyx)
        rw [length_weave] at hlen
        refine .weave hp (T.turn_cells hnd) ?_ ?_
        · rw [h.child_turned ht hpmem hnd hpx hpy]
          refine ih _ _ (by omega) hnear (fun q hq => hsub ?_) (hchild .left)
          exact mem_weave.mpr (Or.inr (Or.inl hq))
        · rw [h.child_turned ht hpmem hnd hpx hpy]
          refine ih _ _ (by omega) hfar (fun q hq => hsub ?_) (hchild .right)
          exact mem_weave.mpr (Or.inr (Or.inr hq))

/-- The new parent of a node. -/
theorem parent_turned (nil q : Ptr) (nd : RbNode) :
    (turned nil d x y b xp q nd).parent =
      if q = x then y else if q = y then xp else if q = b ∧ b ≠ nil then x else nd.parent := by
  unfold turned
  split_ifs <;> simp

/-- Other nodes than the three keep their parents. -/
theorem parent_turned_of_ne {nil q : Ptr} (hx : q ≠ x) (hy : q ≠ y) (hb : b ≠ nil → q ≠ b)
    (nd : RbNode) : (turned nil d x y b xp q nd).parent = nd.parent := by
  rw [parent_turned, if_neg hx, if_neg hy, if_neg fun hc => hb hc.2 hc.1]

/-- In the turned graph the parent pointer of the child at `c` leads to `p`. -/
def ParentTurned (T : Rbtree) (d : Dir) (x y b xp p c : Ptr) : Prop :=
  ∃ nc, T.mem.cells c = some nc ∧ (turned T.nil d x y b xp c nc).parent = p

theorem parents_turn_x (h : WellFormed T ps) (ht : Turnable T d x y b xp) (hx : x ∈ ps)
    (hcell : T.mem.cells x = some nx) (s : Dir)
    (hs : (turned T.nil d x y b xp x nx).child s ≠ T.nil) :
    ParentTurned T d x y b xp x ((turned T.nil d x y b xp x nx).child s) := by
  rw [turned_x, RbNode.child_setParent] at hs ⊢
  by_cases hd : s = d
  · -- the near child, which stays
    subst hd
    rw [RbNode.child_setChild_flip] at hs ⊢
    obtain ⟨hax, hay⟩ := h.turnable_near ht hx hcell
    obtain ⟨na, hna, hparent⟩ := h.parents x hx nx s hcell hs
    refine ⟨na, hna, ?_⟩
    rw [parent_turned, if_neg hax, if_neg hay, hparent, ite_self]
  · -- the child that moved over
    obtain rfl := Dir.eq_flip_of_ne hd
    rw [RbNode.child_setChild] at hs ⊢
    obtain ⟨nb, hnb, -⟩ := ht.at_b hs
    exact ⟨nb, hnb, by rw [turned_b ht hs]; rfl⟩

theorem parents_turn_y (h : WellFormed T ps) (ht : Turnable T d x y b xp) (hx : x ∈ ps)
    {ny : RbNode} (hcell : T.mem.cells y = some ny) (s : Dir)
    (hs : (turned T.nil d x y b xp y ny).child s ≠ T.nil) :
    ParentTurned T d x y b xp y ((turned T.nil d x y b xp y ny).child s) := by
  obtain ⟨nx, hcellx, -⟩ := ht.at_x
  obtain ⟨ny', hcell', hyb, -⟩ := ht.at_y
  obtain rfl := Option.some.inj (hcell.symm.trans hcell')
  have hy := h.turnable_mem ht hx
  rw [turned_y ht.y_x, RbNode.child_setParent] at hs ⊢
  by_cases hd : s = d
  · -- the node that was above
    subst hd
    rw [RbNode.child_setChild]
    exact ⟨nx, hcellx, by rw [turned_x]; rfl⟩
  · -- the far child, which stays
    obtain rfl := Dir.eq_flip_of_ne hd
    rw [RbNode.child_setChild_other] at hs ⊢
    obtain ⟨hex, hey⟩ := h.turnable_far ht hx hcell
    obtain ⟨ne, hne, hparent⟩ := h.parents y hy ny d.flip hcell hs
    refine ⟨ne, hne, ?_⟩
    rw [parent_turned_of_ne hex hey, hparent]
    intro hb hc
    exact h.children_ne hy hcell (hyb.symm ▸ hb) (hyb.trans hc.symm)

/-- After the rotation every child's parent pointer leads back. -/
theorem parents_turn (h : WellFormed T ps) (ht : Turnable T d x y b xp) (hx : x ∈ ps) {p : Ptr}
    (hp : p ∈ ps) (hcell : T.mem.cells p = some nd) (s : Dir)
    (hs : (turned T.nil d x y b xp p nd).child s ≠ T.nil) :
    ParentTurned T d x y b xp p ((turned T.nil d x y b xp p nd).child s) := by
  obtain ⟨nx, hcellx, -, hxp⟩ := ht.at_x
  obtain ⟨ny, hcelly, -, hyx⟩ := ht.at_y
  by_cases hpx : p = x
  · subst hpx
    exact h.parents_turn_x ht hx hcell s hs
  by_cases hpy : p = y
  · subst hpy
    exact h.parents_turn_y ht hx hcell s hs
  rw [h.child_turned ht hp hcell hpx hpy] at hs ⊢
  by_cases hsx : nd.child s = x
  · -- the node above, which has `y` for `x`
    rw [if_pos hsx]
    refine ⟨ny, hcelly, ?_⟩
    rw [turned_y ht.y_x, RbNode.parent_setParent, ← hxp]
    exact h.child_parent hp hcell hsx ht.x_ne hcellx
  · rw [if_neg hsx] at hs ⊢
    obtain ⟨nc, hnc, hparent⟩ := h.parents p hp nd s hcell hs
    refine ⟨nc, hnc, ?_⟩
    rw [parent_turned_of_ne hsx, hparent]
    · intro hc
      exact hpx ((h.child_parent hp hcell hc ht.y_ne hcelly).symm.trans hyx)
    · intro hb hc
      obtain ⟨nb, hnb, hby⟩ := ht.at_b hb
      exact hpy ((h.child_parent hp hcell hc hb hnb).symm.trans hby)

/-- **A rotation keeps the graph well-formed, with the same nodes in the same order.** -/
theorem turn (h : WellFormed T ps) (ht : Turnable T d x y b xp) (hx : x ∈ ps) :
    WellFormed (T.turn d x y b xp) ps := by
  obtain ⟨nx, hcellx, -, hxp⟩ := ht.at_x
  obtain ⟨ny, hcelly, -, hyx⟩ := ht.at_y
  have hrootParent : ∀ {q nd}, T.root = q → q ≠ T.nil → T.mem.cells q = some nd →
      nd.parent = T.nil := by
    rintro q nd rfl hne hq
    obtain ⟨nd', hnd', hparent⟩ := h.rootParent hne
    obtain rfl := Option.some.inj (hq.symm.trans hnd')
    exact hparent
  have hroot : (T.turn d x y b xp).root = if T.root = x then y else T.root := by
    refine if_congr ⟨ht.root, fun hc => ?_⟩ rfl rfl
    rw [← hxp]
    exact hrootParent hc ht.x_ne hcellx
  have hrooty : T.root ≠ y := fun hc =>
    ht.x_ne (hyx.symm.trans (hrootParent hc ht.y_ne hcelly))
  refine ⟨?_, h.distinct, ?_, ?_⟩
  · rw [hroot]
    exact h.order_turn ht hx _ _ _ (Nat.lt_succ_self _) h.order (List.Subset.refl _) hrooty
  · rw [hroot]
    intro hne
    by_cases hrx : T.root = x
    · rw [if_pos hrx]
      refine ⟨_, T.turn_cells hcelly, ?_⟩
      rw [turned_y ht.y_x, RbNode.parent_setParent, ← hxp]
      exact hrootParent hrx ht.x_ne hcellx
    · rw [if_neg hrx] at hne ⊢
      obtain ⟨nr, hnr, hparent⟩ := h.rootParent hne
      refine ⟨_, T.turn_cells hnr, ?_⟩
      rw [parent_turned_of_ne hrx hrooty]
      · exact hparent
      · rintro hb rfl
        obtain ⟨nb, hnb, hby⟩ := ht.at_b hb
        exact ht.y_ne (hby.symm.trans (hrootParent rfl hb hnb))
  · intro p hp nd' s hnd' hs
    obtain ⟨-, ⟨nd, hnd⟩, -⟩ := h.order.sub hp
    obtain rfl := Option.some.inj (hnd'.symm.trans (T.turn_cells hnd))
    obtain ⟨nc, hnc, hparent⟩ := h.parents_turn ht hx hp hnd s hs
    exact ⟨_, T.turn_cells hnc, hparent⟩

end WellFormed

/-- A state that represents a tree is well-formed, whatever the tree's colours and keys. -/
theorem Rep.wellFormed {T : Rbtree} {np : Ptr} {t : Tree Entry} (h : Rep T np t) :
    WellFormed T t.ptrs := by
  refine ⟨?_, (List.nodup_cons.mp h.nodup).2, ?_, ?_⟩
  · rw [h.root]
    exact inOrder_of_cells h.cells h.nil_notMem
  · have htop : Rep T np (Ctx.fill [] t) := h
    obtain ⟨nd, hcell, -, hparent⟩ := htop.fields_at
    rw [h.root]
    exact fun hne => ⟨nd, hcell, hparent hne⟩
  · intro p hp nd d hcell hc
    obtain ⟨e, he, rfl⟩ := List.mem_map.mp hp
    obtain ⟨ctx, c, l, r, rfl⟩ := Ctx.exists_position he
    obtain ⟨nd', near, far, hcell', -, hchild, hnear, -⟩ := h.child_at d
    obtain rfl := Option.some.inj (hcell.symm.trans hcell')
    obtain ⟨nc, hcellc, -, hparent⟩ := hnear.fields_at
    rw [hchild] at hc ⊢
    exact ⟨nc, hcellc, hparent hc⟩

/-! ### The two rotations -/

/--
What a rotation of `x` and its child `y` leaves alone; `b` is the child of `y` that changes
sides, and `xp` the parent of `x`.
-/
structure RotatedOnly (T T' : Rbtree) (x y b xp : Ptr) : Prop where
  data : ∀ q, (T'.mem.cells q).map (fun nd => (nd.color, nd.key, nd.value)) =
    (T.mem.cells q).map (fun nd => (nd.color, nd.key, nd.value))
  links : ∀ q, q ≠ x → q ≠ y → q ≠ b → q ≠ xp → T'.mem.cells q = T.mem.cells q
  root : xp ≠ T.nil → T'.root = T.root
  nil : T'.nil = T.nil
  sentinel : T'.mem.cells T.nil = T.mem.cells T.nil
  lock : T'.lock = T.lock
  count : T'.nbElements = T.nbElements
  next : T'.mem.next = T.mem.next

theorem turn_rotatedOnly {T : Rbtree} {d : Dir} {x y b xp : Ptr} (h : Turnable T d x y b xp) :
    RotatedOnly T (T.turn d x y b xp) x y b xp := by
  refine ⟨fun q => ?_, fun q hx hy hb hxp => T.turn_cells_of_ne hx hy (fun _ => hb) fun _ => hxp,
    fun hxp => if_neg hxp, rfl,
    T.turn_cells_of_ne (Ne.symm h.x_ne) (Ne.symm h.y_ne) Ne.symm Ne.symm, rfl, rfl, rfl⟩
  show ((T.mem.cells q).map (turned T.nil d x y b xp q)).map _ = _
  rw [Option.map_map]
  refine congrArg (fun f => (T.mem.cells q).map f) (funext fun nd => ?_)
  simp only [Function.comp, turned]
  split_ifs
  · cases d <;> rfl
  · cases d <;> rfl
  · rfl
  · rfl
  · rfl

/-- A rotation followed by the other one, at a node with a child on the far side. -/
theorem rotate_back {T : Rbtree} {ps : List Ptr} {d : Dir} {x : Ptr} {nx : RbNode}
    (h : WellFormed T ps) (hx : x ∈ ps) (hcell : T.mem.cells x = some nx)
    (hy : nx.child d.flip ≠ T.nil) :
    ∃ ny T', T.mem.cells (nx.child d.flip) = some ny ∧
      (rbtreeRotate d x).run T = .ok ((), T') ∧
      T' = T.turn d x (nx.child d.flip) (ny.child d) nx.parent ∧ WellFormed T' ps ∧
      RotatedOnly T T' x (nx.child d.flip) (ny.child d) nx.parent ∧
      (rbtreeRotate d.flip (nx.child d.flip)).run T' = .ok ((), T) := by
  obtain ⟨ny, hny, ht⟩ := h.turnable hx hcell d hy
  refine ⟨ny, _, hny, rotate_turn ht, rfl, h.turn ht hx, turn_rotatedOnly ht, ?_⟩
  have hback := rotate_turn ht.back
  rwa [turn_turn ht] at hback

/--
**Rotations keep the order of the nodes, and undo each other**: in every well-formed graph,
the left rotation of a node with a right child `y`, and the right rotation of a node with a
left child `y`, return with `y` in the place of the node and the node below it (`Rbtree.turn`).
They leave a well-formed graph with the same nodes in the same order, all colours, keys and
values, and every link outside the two nodes, the child that changes sides and the node above;
and the other rotation of `y` then restores the whole state.
-/
theorem rbtree_rotations_inverse (T : Rbtree) (ps : List Ptr) (h : WellFormed T ps) :
    (∀ x ∈ ps, ∀ nx, T.mem.cells x = some nx → nx.right ≠ T.nil →
      ∃ ny T', T.mem.cells nx.right = some ny ∧ (rbtreeLeftRotate x).run T = .ok ((), T') ∧
        T' = T.turn .left x nx.right ny.left nx.parent ∧
        WellFormed T' ps ∧ RotatedOnly T T' x nx.right ny.left nx.parent ∧
        (rbtreeRightRotate nx.right).run T' = .ok ((), T)) ∧
    (∀ x ∈ ps, ∀ nx, T.mem.cells x = some nx → nx.left ≠ T.nil →
      ∃ ny T', T.mem.cells nx.left = some ny ∧ (rbtreeRightRotate x).run T = .ok ((), T') ∧
        T' = T.turn .right x nx.left ny.right nx.parent ∧
        WellFormed T' ps ∧ RotatedOnly T T' x nx.left ny.right nx.parent ∧
        (rbtreeLeftRotate nx.left).run T' = .ok ((), T)) :=
  ⟨fun _ hx _ hcell hy => rotate_back (d := .left) h hx hcell hy,
    fun _ hx _ hcell hy => rotate_back (d := .right) h hx hcell hy⟩

/-- Three nodes, of which the root is rotated. -/
theorem rbtree_rotations_inverse_three :
    let e : Ptr → Entry := fun p => ⟨p, zeroBuf maxKeyLen, zeroBuf maxValueLen⟩
    let T : Rbtree :=
      { freshTree .static .free with
        root := 2
        mem := (((freshTree .static .free).mem.alloc (cell .left .black 1 3 1 (e 2))).alloc
          (cell .left .red 4 1 2 (e 3))).alloc (cell .left .black 1 1 3 (e 4)) }
    ∃ T', (rbtreeLeftRotate 2).run T = .ok ((), T') ∧ T'.root = 3 ∧ WellFormed T' [2, 4, 3] ∧
      (rbtreeRightRotate 3).run T' = .ok ((), T) := by
  intro e T
  have hrep : Rep T 0
      (.node .black .nil (e 2) (.node .red (.node .black .nil (e 4) .nil) (e 3) .nil)) :=
    ⟨rfl, rfl, ⟨rfl, trivial, rfl, ⟨rfl, trivial, trivial⟩, trivial⟩, by decide⟩
  obtain ⟨ny, T', -, hrun, hturn, hwf, -, hback⟩ :=
    (rbtree_rotations_inverse T [2, 4, 3] hrep.wellFormed).1 2 (by decide) _ rfl (by decide)
  exact ⟨T', hrun, by rw [hturn]; rfl, hwf, hback⟩

end KvStore
