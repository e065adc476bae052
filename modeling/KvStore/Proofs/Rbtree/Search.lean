/-
Searching by key.

Over sound entries in ascending order of their keys the search finds the node with a
key, or the sentinel.
-/
import KvStore.Base.ReadOnly
import KvStore.Proofs.Rbtree.Rotate

namespace KvStore

open KvStore.Tree Ctx

/-- What the engine maintains of the tree: the order of the keys and the balance. -/
structure TreeInv (t : Tree Entry) : Prop where
  ascending : Ascending Entry.name t.toList
  sound : ∀ e ∈ t.toList, e.Sound
  balanced : ∃ m, Bal t .black m

theorem TreeInv.nil : TreeInv .nil :=
  ⟨List.Pairwise.nil, by simp, 0, .nil⟩

theorem getChild_readOnly (d : Dir) (p : Ptr) : ReadOnly (getChild d p) :=
  .seq (.deref p) fun _ => .pure _

/-- Comparing a string with a node's key decides their order. -/
theorem compareKey_run {T : Rbtree} {p : Ptr} {nd : RbNode} {m : List Byte} {a b : CString}
    (h : T.mem.cells p = some nd) (ha : Reads m a) (hb : Reads nd.keyMem b) :
    ∃ r, (compareKey m p).run T = .ok (r, T) ∧ (r < 0 ↔ a < b) ∧ (r = 0 ↔ a = b) := by
  obtain ⟨r, hr, hlt, heq⟩ := strcmp_spec ha hb
  refine ⟨r, run_bind_of (deref_run h) ?_, hlt, heq⟩
  rw [hr]
  rfl

/-- The three ways a comparison can go. -/
theorem compare_cases {r : Int} {a b : CString} (hlt : r < 0 ↔ a < b) (heq : r = 0 ↔ a = b) :
    (r < 0 ∧ a < b) ∨ (¬ r < 0 ∧ r > 0 ∧ b < a) ∨ (¬ r < 0 ∧ ¬ r > 0 ∧ a = b) := by
  rcases lt_trichotomy a b with h | h | h
  · exact Or.inl ⟨hlt.mpr h, h⟩
  · have := heq.mpr h
    exact Or.inr (Or.inr ⟨by omega, by omega, h⟩)
  · have h1 : ¬ r < 0 := fun hc => lt_asymm h (hlt.mp hc)
    have h2 : r ≠ 0 := fun hc => absurd (heq.mp hc) (ne_of_gt h)
    exact Or.inr (Or.inl ⟨h1, by omega, h⟩)

section Search

variable {T : Rbtree} {np : Ptr} {t : Tree Entry} {key : CString}

/-- The node at a position is one of the tree's. -/
theorem mem_toList_fill {ctx : Ctx Entry} {d : Dir} {c : Color} {t u : Tree Entry} {e : Entry} :
    e ∈ (fill ctx (branch d c t e u)).toList := by
  rw [toList_fill]
  refine List.mem_append_left _ (List.mem_append_right _ ?_)
  exact mem_toList_branch.mpr (Or.inr (Or.inl rfl))

/-- The descent has come to the subtree at `x`, to which the key belongs. -/
def SearchInv (T : Rbtree) (t : Tree Entry) (key : CString) (n : Nat) (x : Ptr) (T' : Rbtree) :
    Prop :=
  ∃ ctx sub, n = sub.toList.length ∧ x = sub.ptr T.nil ∧ t = fill ctx sub ∧
    Splits Entry.name ctx key ∧ T' = T

/-- Where a search ends: at the node with the key, or at the sentinel if there is none. -/
def Located (T : Rbtree) (t : Tree Entry) (key : CString) (p : Ptr) : Prop :=
  (∃ ctx c l e r, t = fill ctx (.node c l e r) ∧ e.name = key ∧ p = e.ptr) ∨
    ((∀ e ∈ t.toList, e.name ≠ key) ∧ p = T.nil)

/-- At a node the search has found the key, or goes on in the subtree the key belongs to. -/
theorem search_at {ctx : Ctx Entry} {c : Color} {l r : Tree Entry} {e : Entry}
    (h : Rep T np (fill ctx (.node c l e r))) (hinv : TreeInv (fill ctx (.node c l e r)))
    (hsplit : Splits Entry.name ctx key) :
    ((rbtreeSearchStep key e.ptr).run T = .ok (.inr e.ptr, T) ∧ e.name = key) ∨
      ∃ d near far, .node c l e r = branch d c near e far ∧
        Splits Entry.name (⟨d, c, e, far⟩ :: ctx) key ∧
        (rbtreeSearchStep key e.ptr).run T = .ok (.inl (near.ptr T.nil), T) := by
  have hat : Rep T np (fill ctx (branch .left c l e r)) := h
  obtain ⟨ret, hrun, hlt, heq⟩ :=
    compareKey_run hat.cell_at key.reads_mem (hinv.sound e (mem_toList_fill (d := .left))).reads
  have hne : e.ptr ≠ T.nil := hat.ptr_ne_nil
  have hasc := hinv.ascending
  rcases compare_cases hlt heq with ⟨hr, hk⟩ | ⟨hr, hr', hk⟩ | ⟨hr, hr', hk⟩
  · refine Or.inr ⟨.left, l, r, rfl, splits_left hasc hsplit hk, ?_⟩
    refine run_bind_of (run_get T) (run_ite_pos hne (run_bind_of hrun (run_ite_pos hr ?_)))
    exact run_bind_of hat.getNear rfl
  · refine Or.inr ⟨.right, r, l, rfl, splits_right hasc hsplit hk, ?_⟩
    refine run_bind_of (run_get T) (run_ite_pos hne (run_bind_of hrun (run_ite_neg hr ?_)))
    exact run_ite_pos hr' (run_bind_of hat.getFar rfl)
  · refine Or.inl ⟨?_, hk.symm⟩
    refine run_bind_of (run_get T) (run_ite_pos hne (run_bind_of hrun (run_ite_neg hr ?_)))
    exact run_ite_neg hr' rfl

theorem search_nil (T : Rbtree) (key : CString) :
    (rbtreeSearchStep key T.nil).run T = .ok (.inr T.nil, T) :=
  run_bind_of (run_get T) (run_ite_neg (by simp) rfl)

theorem search_step (h : Rep T np t) (hinv : TreeInv t) :
    ∀ n x T', SearchInv T t key n x T' →
      (∃ p T'', (rbtreeSearchStep key x).run T' = .ok (.inr p, T'') ∧ T'' = T ∧ Located T t key p) ∨
      (∃ x' T'' m, (rbtreeSearchStep key x).run T' = .ok (.inl x', T'') ∧ m < n ∧
        SearchInv T t key m x' T'') := by
  rintro n x T' ⟨ctx, sub, rfl, rfl, rfl, hsplit, rfl⟩
  cases sub with
  | nil => exact Or.inl ⟨T'.nil, T', search_nil T' key, rfl, Or.inr ⟨hsplit.absent, rfl⟩⟩
  | node c l e r =>
      rcases search_at h hinv hsplit with ⟨hrun, hname⟩ | ⟨d, near, far, heq, hsplit', hrun⟩
      · exact Or.inl ⟨e.ptr, T', hrun, rfl, Or.inl ⟨ctx, c, l, e, r, rfl, hname, rfl⟩⟩
      · rw [heq]
        refine Or.inr ⟨near.ptr T'.nil, T', near.toList.length, ?_, ?_, ⟨d, c, e, far⟩ :: ctx, near,
          rfl, rfl, rfl, hsplit', rfl⟩
        · rw [ptr_branch]
          exact hrun
        · rw [length_branch]
          omega

/-- **The search finds the key.** -/
theorem rbtreeSearch_spec (h : Rep T np t) (hinv : TreeInv t) (key : CString) :
    ∃ p, (rbtreeSearch key).run T = .ok (p, T) ∧ Located T t key p := by
  have hlt := h.length_lt
  obtain ⟨p, T', hrun, rfl, hloc⟩ :=
    loop_total (search_step h hinv) T.fuel t.toList.length T.root T
      ⟨[], t, rfl, h.root, rfl, splits_nil key, rfl⟩ (by rw [Rbtree.fuel]; omega)
  exact ⟨p, run_bind_of (run_get _) hrun, hloc⟩

end Search

end KvStore
