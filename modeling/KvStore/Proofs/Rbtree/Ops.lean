/-
Runs of puts and deletes on the tree, with every rotation checked.

`treeOpBy_spec` is the step lemma of this module and of those that follow it: over any
rotation that rotates, a put or a delete whose key fits returns and leaves a tree the engine
maintains, whatever the value and whether or not `malloc` succeeds.

For the rotation with its check in front this says more: the calls return, so the check was
passed every time, and they are the engine's own, because a check can only take runs away
(`treeOpBy_below`).
-/
import KvStore.Base.ReadOnly
import KvStore.Proofs.Rbtree.Engine

namespace KvStore

open KvStore.Tree Ctx

/-! ### One call -/

section Ops

variable {rotate : Dir → Ptr → Prog Rbtree Unit} {old : Mem RbNode} {T : Rbtree}

/--
The tree is one the engine maintains and ready for the next call, and apart from what was
allocated before it was created in `old`, its nodes and the sentinel are all there is.
-/
structure Maintained (old : Mem RbNode) (T : Rbtree) : Prop where
  stores : ∃ np t m, Stores T np t m ∧
    ∀ p, (T.mem.cells p).isSome → (old.cells p).isSome ∨ p ∈ T.nil :: t.ptrs
  lock : T.lock ≠ .held

theorem treeOpBy_spec (hrot : Rotates rotate) (h : Maintained old T) {op : TreeOp}
    (hop : op.KeyFitting) :
    ∃ r T', (treeOpBy rotate op).run T = .ok (r, T') ∧ Maintained old T' := by
  obtain ⟨⟨np, t, m, hst, honly⟩, hlock⟩ := h
  cases op with
  | put alloc k v =>
      by_cases hk : k ∈ m
      · exact ⟨1, T, hst.putBy_stored rotate hk alloc v, ⟨np, t, m, hst, honly⟩, hlock⟩
      cases alloc with
      | false => exact ⟨-2, T, hst.putBy_noAlloc rotate hk v, ⟨np, t, m, hst, honly⟩, hlock⟩
      | true =>
          obtain ⟨T', t', hrun, hst', hperm, -, hlock', hnil, hsome⟩ :=
            hst.putBy hrot hlock hop hk v
          refine ⟨0, T', hrun, ⟨np, t', _, hst', ?_⟩, by rw [hlock']; exact hlock⟩
          intro p hp
          have hptrs : t'.ptrs.Perm (T.mem.next :: t.ptrs) := hperm.map Entry.ptr
          rw [hnil, List.mem_cons, hptrs.mem_iff, List.mem_cons]
          rcases hsome p hp with rfl | hp
          · exact Or.inr (Or.inr (Or.inl rfl))
          · have := honly p hp
            rw [List.mem_cons] at this
            tauto
  | delete k =>
      by_cases hk : k ∈ m
      · obtain ⟨T', np', t', hrun, hst', -, -, hlock', hnil, q, hperm, hsome⟩ :=
          hst.deleteBy hrot hlock hk
        refine ⟨0, T', hrun, ⟨np', t', _, hst', ?_⟩, by rw [hlock']; exact hlock⟩
        intro p hp
        obtain ⟨hpq, hp⟩ := hsome p hp
        have := honly p hp
        rw [List.mem_cons, hperm.mem_iff, List.mem_cons] at this
        rw [hnil, List.mem_cons]
        tauto
      · exact ⟨1, T, hst.deleteBy_absent rotate hk, ⟨np, t, m, hst, honly⟩, hlock⟩

/-- The same for the engine's own calls. -/
theorem treeOp_spec (h : Maintained old T) {op : TreeOp} (hop : op.KeyFitting) :
    ∃ r T', (treeOp op).run T = .ok (r, T') ∧ Maintained old T' := by
  rw [← treeOpBy_rotate]
  exact treeOpBy_spec rotates_rotate h hop

theorem freshTree_maintained (T₀ : Rbtree) {mu : Mutex} (hmu : mu ≠ .held) :
    Maintained T₀.mem (freshTree T₀ mu) := by
  refine ⟨⟨0, .nil, ∅, freshTree_stores T₀ mu, ?_⟩, hmu⟩
  intro p hp
  by_cases hnext : p = T₀.mem.next
  · exact Or.inr (List.mem_cons.mpr (Or.inl hnext))
  · have hsame : (freshTree T₀ mu).mem.cells p = T₀.mem.cells p := Mem.alloc_of_ne _ hnext _
    rw [hsame] at hp
    exact Or.inl hp

/-- From a fresh engine every run returns, and leaves a tree the engine maintains. -/
theorem treeRun_spec (T₀ : Rbtree) {mu : Mutex} (hmu : mu ≠ .held) (ops : List TreeOp)
    (hops : ∀ op ∈ ops, op.KeyFitting) :
    ∃ T₁ rs T, (initRbtree true mu).run T₀ = .ok (0, T₁) ∧
      (runCalls treeOp ops).run T₁ = .ok (rs, T) ∧ Maintained T₀.mem T := by
  obtain ⟨rs, T, hrun, hT⟩ := runCalls_total (fun T op hT hop => treeOp_spec hT hop) ops
    (freshTree T₀ mu) (freshTree_maintained T₀ hmu) hops
  exact ⟨_, rs, T, initRbtree_run T₀ mu, hrun, hT⟩

end Ops

/-! ### The check only takes runs away -/

section Guard

variable {rotate rotate' : Dir → Ptr → Prog Rbtree Unit}

theorem rotateGuarded_below (d : Dir) (x : Ptr) :
    Below (rbtreeRotateGuarded d x) (rbtreeRotate d x) := by
  intro T r h
  obtain ⟨_, T₁, hget, h⟩ := run_bind_inv h
  cases hget
  obtain ⟨y, T₂, hchild, h⟩ := run_bind_inv h
  have hread : ReadOnly (getChild d.flip x) := .seq (.deref x) fun _ => .pure _
  rw [hread _ _ _ hchild] at h
  exact (Below.refl _).guarded _ r h

variable (hrot : ∀ d x, Below (rotate d x) (rotate' d x))
include hrot

theorem insertFixupHalfBy_below (d : Dir) (z p g : Ptr) :
    Below (rbtreeInsertFixupHalfBy rotate d z p g) (rbtreeInsertFixupHalfBy rotate' d z p g) := by
  refine .then_ fun y => .then_ fun yc => .ite (.refl _) (.seq ?_ fun z => ?_)
  · exact .then_ fun pc => .ite (.seq (hrot d p) fun _ => .refl _) (.refl _)
  · exact .then_ fun p => .then_ fun _ => .then_ fun g => .then_ fun _ =>
      .seq (hrot d.flip g) fun _ => .refl _

theorem insertFixupBy_below (z : Ptr) :
    Below (rbtreeInsertFixupBy rotate z) (rbtreeInsertFixupBy rotate' z) := by
  refine .then_ fun T => .seq (.loop (fun z => ?_) _ _) fun _ => .refl _
  refine .then_ fun p => .then_ fun pc => .ite (.then_ fun g => .then_ fun gl => ?_) (.refl _)
  exact .ite (.seq (insertFixupHalfBy_below hrot .left z p g) fun _ => .refl _)
    (.seq (insertFixupHalfBy_below hrot .right z p g) fun _ => .refl _)

theorem insertBy_below (z : Ptr) : Below (rbtreeInsertBy rotate z) (rbtreeInsertBy rotate' z) := by
  refine .then_ fun T => .then_ fun place => ?_
  cases place with
  | none => exact .refl _
  | some y =>
      exact .then_ fun _ => .then_ fun _ => .then_ fun _ => .then_ fun _ => .then_ fun _ =>
        insertFixupBy_below hrot z

theorem deleteFixupHalfBy_below (d : Dir) (x : Ptr) :
    Below (rbtreeDeleteFixupHalfBy rotate d x) (rbtreeDeleteFixupHalfBy rotate' d x) := by
  refine .then_ fun p => .then_ fun w => .seq ?_ fun w => .then_ fun both => .ite (.refl _) ?_
  · exact .then_ fun wc => .ite (.then_ fun _ => .then_ fun _ => .seq (hrot d p) fun _ => .refl _)
      (.refl _)
  refine .seq ?_ fun w => ?_
  · exact .then_ fun f => .then_ fun fc => .ite (.then_ fun _ => .then_ fun _ => .then_ fun _ =>
      .seq (hrot d.flip w) fun _ => .refl _) (.refl _)
  · exact .then_ fun p => .then_ fun pc => .then_ fun _ => .then_ fun _ => .then_ fun _ =>
      .then_ fun _ => .seq (hrot d p) fun _ => .refl _

theorem deleteFixupBy_below (x : Ptr) :
    Below (rbtreeDeleteFixupBy rotate x) (rbtreeDeleteFixupBy rotate' x) := by
  refine .then_ fun T => .seq (.loop (fun x => ?_) _ _) fun _ => .refl _
  refine .then_ fun T => .ite (.then_ fun xc => .ite (.then_ fun p => .then_ fun pl => ?_)
    (.refl _)) (.refl _)
  exact .ite (.seq (deleteFixupHalfBy_below hrot .left x) fun _ => .refl _)
    (.seq (deleteFixupHalfBy_below hrot .right x) fun _ => .refl _)

theorem deleteBy_below (z : Ptr) : Below (rbtreeDeleteBy rotate z) (rbtreeDeleteBy rotate' z) := by
  refine .then_ fun y => .then_ fun x => .then_ fun yp => .then_ fun _ => .then_ fun _ =>
    .then_ fun _ => .then_ fun yc => .seq ?_ fun _ => .refl _
  exact .ite (deleteFixupBy_below hrot x) (.refl _)

/-- A call over a checked rotation returns what the call over the rotation returns. -/
theorem treeOpBy_below (op : TreeOp) : Below (treeOpBy rotate op) (treeOpBy rotate' op) := by
  cases op with
  | put alloc k v =>
      refine .then_ fun T => .then_ fun node => .ite (.refl _) (.then_ fun node => ?_)
      refine .ite (.refl _) (.then_ fun _ => .then_ fun _ => .then_ fun _ => .then_ fun _ => ?_)
      exact .seq (insertBy_below hrot node) fun _ => .refl _
  | delete k =>
      refine .then_ fun T => .then_ fun node => .ite (.refl _) (.then_ fun _ => ?_)
      exact .seq (deleteBy_below hrot node) fun _ => .refl _

end Guard

/-! ### Over whole runs -/

/--
**The fix-up loops end, never touch a null or a freed pointer, and never rotate the sentinel
up**: after any run from a fresh engine, a further put or delete returns also with a check
in front of every rotation that the child it moves up is not the sentinel, and this run is
the engine's own.
-/
theorem rbtree_rotations_safe (T₀ : Rbtree) (mu : Mutex) (hmu : mu ≠ .held) (ops : List TreeOp)
    (hops : ∀ op ∈ ops, op.KeyFitting) (op : TreeOp) (hop : op.KeyFitting) :
    ∃ T₁ rs T r T', (initRbtree true mu).run T₀ = .ok (0, T₁) ∧
      (runCalls treeOp ops).run T₁ = .ok (rs, T) ∧
      (treeOpBy rbtreeRotateGuarded op).run T = .ok (r, T') ∧ (treeOp op).run T = .ok (r, T') := by
  obtain ⟨T₁, rs, T, hinit, hrun, hT⟩ := treeRun_spec T₀ hmu ops hops
  obtain ⟨r, T', hguarded, -⟩ := treeOpBy_spec rotates_guarded hT hop
  refine ⟨T₁, rs, T, r, T', hinit, hrun, hguarded, ?_⟩
  rw [← treeOpBy_rotate]
  exact treeOpBy_below rotateGuarded_below op T _ hguarded

/-- Three keys in ascending order make the tree rotate, and one of them is deleted. -/
theorem rbtree_rotations_safe_ascending :
    let k : CString := ⟨[107], by decide⟩
    let k' : CString := ⟨[108], by decide⟩
    let k'' : CString := ⟨[109], by decide⟩
    ∃ T₁ rs T r T', (initRbtree true .free).run Rbtree.static = .ok (0, T₁) ∧
      (runCalls treeOp [.put true k k, .put true k' k, .put true k'' k]).run T₁ = .ok (rs, T) ∧
      (treeOpBy rbtreeRotateGuarded (.delete k')).run T = .ok (r, T') ∧
      (treeOp (.delete k')).run T = .ok (r, T') :=
  rbtree_rotations_safe Rbtree.static .free (by decide) _ (by decide) _ (by decide)

end KvStore
