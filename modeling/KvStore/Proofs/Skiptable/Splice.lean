/-
Linking and unlinking a tower.

Both loops go up the levels and change one lane at a time behind the node that `update`
holds for it.  `Spliced S A C D i` is their common invariant: behind the entries `A`
every level below `i` leads on to `D` and every other level still to `C`.  To insert an
entry is to go from `B` to `e :: B`, to delete it is to go back.
-/
import KvStore.Proofs.Skiptable.Descent

namespace KvStore

/-! ### Changing one pointer -/

/-- The memory `m'` is `m` with the pointer of `p` on level `i` set to `q`. -/
structure Redirect (m m' : Mem SkNode) (i : Nat) (p q : Ptr) : Prop where
  next : m'.next = m.next
  shape : ∀ r, shapeAt m' r = shapeAt m r
  forward : ∀ j r, forwardAt m' j r = if j = i ∧ r = p then some q else forwardAt m j r

section Pointers

variable {S : SkipList} {i n : Nat} {p q : Ptr}

theorem setForward_run (h : (forwardAt S.mem i p).isSome) (q : Ptr) :
    ∃ m', (setForward p i q).run S = .ok ((), { S with mem := m' }) ∧ Redirect S.mem m' i p q := by
  obtain ⟨old, hold⟩ := Option.isSome_iff_exists.mp h
  obtain ⟨nd, hcell, hget⟩ := Option.bind_eq_some_iff.mp hold
  have hi : i < nd.forward.length := (List.getElem?_eq_some_iff.mp hget).1
  let nd' : SkNode := { nd with forward := nd.forward.set i q }
  have hself : (S.mem.write p nd').cells p = some nd' := Mem.write_self hcell nd'
  refine ⟨S.mem.write p nd', ?_, rfl, ?_, ?_⟩
  · exact run_bind_of (deref_run hcell) (run_ite_pos hi (assign_run (s := S) hcell _))
  · intro r
    by_cases hr : r = p
    · subst hr
      unfold shapeAt
      rw [hself, hcell]
      simp [SkNode.shape, nd']
    · rw [shapeAt, Mem.write_of_ne _ hr, shapeAt]
  · intro j r
    by_cases hr : r = p
    · subst hr
      unfold forwardAt
      rw [hself, hcell]
      by_cases hj : j = i
      · subst hj
        simp [nd', hi]
      · simp [nd', hj, Ne.symm hj]
    · rw [if_neg (fun hc => hr hc.2), forwardAt, Mem.write_of_ne _ hr, forwardAt]

/-- A tower has a pointer on every level it reaches. -/
theorem forwardAt_isSome {m : Mem SkNode} {k : CharBuf maxKeyLen} {v : CharBuf maxValueLen}
    (h : shapeAt m p = some (k, v, n)) (hi : i < n) : (forwardAt m i p).isSome := by
  rw [shapeAt, Option.map_eq_some_iff] at h
  obtain ⟨nd, hcell, hnd⟩ := h
  simp only [SkNode.shape, Prod.mk.injEq] at hnd
  unfold forwardAt
  rw [hcell]
  simp [hnd.2.2, hi]

theorem isSome_of_shape {m m' : Mem SkNode} (h : shapeAt m' p = shapeAt m p) :
    (m'.cells p).isSome = (m.cells p).isSome := by
  have hsome := congrArg Option.isSome h
  rwa [shapeAt, shapeAt, Option.isSome_map, Option.isSome_map] at hsome

theorem getUpdate_run {update : Update} (hi : i < maxLevel) (h : update[i] = some p) :
    (getUpdate update i).run S = .ok (p, S) := by
  unfold getUpdate
  rw [dif_pos hi, h]
  rfl

end Pointers

/-! ### One level after another -/

/-- Behind the entries `A`, the levels below `i` lead on to `D` and the others to `C`. -/
def Spliced (S : SkipList) (A C D : List Tower) (i : Nat) : Prop :=
  ∀ j, j < maxLevel →
    ChainFrom (forwardAt S.mem j) S.header (lane j A ++ lane j (if j < i then D else C))

section Splice

variable {S : SkipList} {A B C D : List Tower} {e : Tower} {i n : Nat} {update : Update}

theorem Spliced.at (h : Spliced S A C D i) (hi : i < maxLevel) :
    ChainFrom (forwardAt S.mem i) S.header (lane i A ++ lane i C) := by
  have := h i hi
  rwa [if_neg (Nat.lt_irrefl i)] at this

/-- Changing the pointers of one level leaves the others alone. -/
theorem Spliced.next {m' : Mem SkNode} (h : Spliced S A C D i)
    (hother : ∀ j, j ≠ i → ∀ r, forwardAt m' j r = forwardAt S.mem j r)
    (hi : i < maxLevel → ChainFrom (forwardAt m' i) S.header (lane i A ++ lane i D)) :
    Spliced { S with mem := m' } A C D (i + 1) := by
  intro j hj
  by_cases hji : j = i
  · subst hji
    rw [if_pos (Nat.lt_succ_self j)]
    exact hi hj
  · have hkeep := (h j hj).congr (fun q _ => hother j hji q)
    have hlt : j < i + 1 ↔ j < i := by omega
    simp only [hlt]
    exact hkeep

/-- The state after pointers have changed: the nodes are the same. -/
structure Relinked (S S' : SkipList) : Prop where
  state : ∃ m', S' = { S with mem := m' }
  next : S'.mem.next = S.mem.next
  shape : ∀ r, shapeAt S'.mem r = shapeAt S.mem r

theorem Relinked.refl (S : SkipList) : Relinked S S := ⟨⟨S.mem, rfl⟩, rfl, fun _ => rfl⟩

theorem Relinked.trans {S₁ S₂ S₃ : SkipList} (h : Relinked S₁ S₂) (h' : Relinked S₂ S₃) :
    Relinked S₁ S₃ := by
  obtain ⟨⟨m₂, rfl⟩, hn, hs⟩ := h
  obtain ⟨⟨m₃, rfl⟩, hn', hs'⟩ := h'
  exact ⟨⟨m₃, rfl⟩, hn'.trans hn, fun r => (hs' r).trans (hs r)⟩

theorem Redirect.relinked {m' : Mem SkNode} {p q : Ptr} (h : Redirect S.mem m' i p q) :
    Relinked S { S with mem := m' } :=
  ⟨⟨m', rfl⟩, h.next, h.shape⟩

theorem mem_ptrs_of_lane {q : Ptr} (hq : q ∈ S.header :: lane i A) (hAB : ∀ a ∈ A, a ∈ B) :
    q ∈ S.header :: B.map fun e => e.ptr := by
  rcases List.mem_cons.mp hq with rfl | hq
  · simp
  · obtain ⟨a, ha, -, rfl⟩ := mem_lane.mp hq
    exact List.mem_cons_of_mem _ (List.mem_map.mpr ⟨a, hAB a ha, rfl⟩)

/-- The last node of the front part on a level is one of the list's, or the header. -/
theorem predOn_mem : predOn S i A ∈ S.header :: (A ++ B).map fun e => e.ptr :=
  mem_ptrs_of_lane (ChainFrom.getLastD_mem S.header (lane i A)) (fun _ => List.mem_append_left B)

/-- The entry `e` is not linked yet. -/
structure Unlinked (S : SkipList) (A B : List Tower) (e : Tower) : Prop where
  nodup : (S.header :: (A ++ B).map fun e => e.ptr).Nodup
  fresh : e.ptr ∉ S.header :: (A ++ B).map fun e => e.ptr
  shape : shapeAt S.mem e.ptr = some e.shape
  height : e.height ≤ maxLevel

theorem Unlinked.relinked {S' : SkipList} (h : Unlinked S A B e) (hr : Relinked S S') :
    Unlinked S' A B e := by
  obtain ⟨⟨m', rfl⟩, -, hshape⟩ := hr
  exact ⟨h.nodup, h.fresh, (hshape e.ptr).trans h.shape, h.height⟩

theorem ptr_ne_zero (h : shapeAt S.mem e.ptr = some e.shape) : e.ptr ≠ 0 := by
  obtain ⟨nd, hcell, -⟩ := Option.map_eq_some_iff.mp h
  exact Mem.ne_zero_of_some hcell

/-- Linking the node on one level. -/
theorem link_step (h : Spliced S A B (e :: B) i) (hu : Unlinked S A B e) (hi : i < e.height)
    (hupdate : ∀ hi : i < maxLevel, update[i] = some (predOn S i A)) :
    ∃ u q S₁ S₂, (getUpdate update i).run S = .ok (u, S) ∧ (getForward u i).run S = .ok (q, S) ∧
      (setForward e.ptr i q).run S = .ok ((), S₁) ∧ (setForward u i e.ptr).run S₁ = .ok ((), S₂) ∧
      Relinked S S₂ ∧ Spliced S₂ A B (e :: B) (i + 1) := by
  have hmax : i < maxLevel := Nat.lt_of_lt_of_le hi hu.height
  have hchain := h.at hmax
  have hfirst : forwardAt S.mem i (predOn S i A) = some ((lane i B).headD 0) := hchain.drop.first
  have hne : predOn S i A ≠ e.ptr := fun hc => hu.fresh (hc ▸ predOn_mem)
  obtain ⟨m₁, hset₁, hr₁⟩ := setForward_run (S := S) (forwardAt_isSome hu.shape hi)
    ((lane i B).headD 0)
  have hsome : (forwardAt m₁ i (predOn S i A)).isSome := by
    rw [hr₁.forward, if_neg (fun hc => hne hc.2), hfirst]
    rfl
  obtain ⟨m₂, hset₂, hr₂⟩ := setForward_run (S := { S with mem := m₁ }) hsome e.ptr
  refine ⟨_, _, _, _, getUpdate_run hmax (hupdate hmax), getForward_run hfirst, hset₁, hset₂,
    hr₁.relinked.trans hr₂.relinked, h.next ?_ ?_⟩
  · intro j hj r
    rw [hr₂.forward, if_neg (fun hc => hj hc.1), hr₁.forward, if_neg (fun hc => hj hc.1)]
  · intro _
    rw [lane_cons_pos hi]
    have hsub : (S.header :: (lane i A ++ lane i B)).Sublist
        (S.header :: (A ++ B).map fun e => e.ptr) := by
      rw [← lane_append]
      exact lane_sublist.cons_cons _
    refine hchain.insert (hu.nodup.sublist hsub) (ptr_ne_zero hu.shape) ?_ ?_ ?_
    · intro q hq hqu
      have hqe : q ≠ e.ptr := fun hc => hu.fresh (hc ▸ hsub.subset hq)
      rw [hr₂.forward, if_neg (fun hc => hqu hc.2), hr₁.forward, if_neg (fun hc => hqe hc.2)]
    · rw [hr₂.forward]
      exact if_pos ⟨rfl, rfl⟩
    · rw [hr₂.forward, if_neg (fun hc => hne hc.2.symm), hr₁.forward, if_pos ⟨rfl, rfl⟩]
      exact hfirst.symm

/-- **The loop of `insert` links the node on all levels of its tower.** -/
theorem linkNode_spec (h : Spliced S A B (e :: B) i) (hu : Unlinked S A B e)
    (hn : i + n = e.height)
    (hupdate : ∀ j, ∀ hj : j < maxLevel, j < e.height → update[j] = some (predOn S j A)) :
    ∃ S', (linkNode e.ptr update n i).run S = .ok ((), S') ∧ Relinked S S' ∧
      Spliced S' A B (e :: B) e.height := by
  induction n generalizing i S with
  | zero =>
      obtain rfl : i = e.height := hn
      exact ⟨S, rfl, Relinked.refl S, h⟩
  | succ n ih =>
      obtain ⟨u, q, S₁, S₂, hget, hfwd, hset₁, hset₂, hr, hs⟩ :=
        link_step h hu (by omega) (fun hi => hupdate i hi (by omega))
      obtain ⟨S', hrun, hr', hs'⟩ := ih hs (hu.relinked hr) (by omega) (by
        obtain ⟨⟨m', rfl⟩, -, -⟩ := hr
        exact hupdate)
      refine ⟨S', ?_, hr.trans hr', hs'⟩
      exact run_bind_of hget (run_bind_of hfwd (run_bind_of hset₁ (run_bind_of hset₂ hrun)))

/-- Unlinking the node from one level. -/
theorem unlink_step (h : Spliced S A (e :: B) B i) (hi : i < maxLevel)
    (hnd : (S.header :: (A ++ e :: B).map fun e => e.ptr).Nodup) (he : e.ptr ≠ 0)
    (hupdate : update[i] = some (predOn S i A)) :
    ∃ S', (unlinkLevel e.ptr update i).run S = .ok ((), S') ∧ Relinked S S' ∧
      Spliced S' A (e :: B) B (i + 1) := by
  have hchain := h.at hi
  have hfirst : forwardAt S.mem i (predOn S i A) = some ((lane i (e :: B)).headD 0) :=
    hchain.drop.first
  have hsub : (S.header :: (lane i A ++ lane i (e :: B))).Sublist
      (S.header :: (A ++ e :: B).map fun e => e.ptr) := by
    rw [← lane_append]
    exact lane_sublist.cons_cons _
  have hlane := hnd.sublist hsub
  by_cases hhigh : i < e.height
  · rw [lane_cons_pos hhigh] at hfirst hchain hlane
    have hrest : forwardAt S.mem i e.ptr = some ((lane i B).headD 0) := hchain.drop.2.2.first
    obtain ⟨m', hset, hr⟩ := setForward_run (S := S) (i := i) (p := predOn S i A)
      (by rw [hfirst]; rfl) ((lane i B).headD 0)
    refine ⟨_, ?_, hr.relinked, h.next ?_ ?_⟩
    · refine run_bind_of (getUpdate_run hi hupdate) (run_bind_of (getForward_run hfirst) ?_)
      exact run_whenever_pos rfl (run_bind_of (getForward_run hrest) hset)
    · intro j hj r
      rw [hr.forward, if_neg (fun hc => hj hc.1)]
    · intro _
      refine hchain.remove hlane ?_ ?_
      · intro q _ hqu
        rw [hr.forward, if_neg (fun hc => hqu hc.2)]
      · rw [hr.forward, hrest]
        exact if_pos ⟨rfl, rfl⟩
  · -- The node is not on this level, so the pointer leads elsewhere.
    rw [lane_cons_neg hhigh] at hfirst hchain
    have hne : (lane i B).headD 0 ≠ e.ptr := by
      cases hB : lane i B with
      | nil => exact Ne.symm he
      | cons q Q =>
          obtain ⟨b, hb, -, rfl⟩ := mem_lane.mp (show q ∈ lane i B by rw [hB]; simp)
          rw [List.map_append, List.map_cons, List.nodup_cons, List.nodup_append,
            List.nodup_cons] at hnd
          intro hc
          exact hnd.2.2.1.1 (List.mem_map.mpr ⟨b, hb, hc⟩)
    refine ⟨S, ?_, Relinked.refl S, h.next (fun _ _ _ => rfl) (fun _ => hchain)⟩
    refine run_bind_of (getUpdate_run hi hupdate) (run_bind_of (getForward_run hfirst) ?_)
    exact run_whenever_neg hne

/-- **The loop of `delete` unlinks the node from all levels.** -/
theorem unlinkLevels_spec (h : Spliced S A (e :: B) B i) (hn : i + n ≤ maxLevel)
    (hnd : (S.header :: (A ++ e :: B).map fun e => e.ptr).Nodup) (he : e.ptr ≠ 0)
    (hupdate : ∀ j, ∀ hj : j < maxLevel, j < i + n → update[j] = some (predOn S j A)) :
    ∃ S', (unlinkLevels e.ptr update n i).run S = .ok ((), S') ∧ Relinked S S' ∧
      Spliced S' A (e :: B) B (i + n) := by
  induction n generalizing i S with
  | zero => exact ⟨S, rfl, Relinked.refl S, h⟩
  | succ n ih =>
      obtain ⟨S₁, hrun₁, hr₁, hs₁⟩ :=
        unlink_step h (by omega) hnd he (hupdate i (by omega) (by omega))
      obtain ⟨⟨m', rfl⟩, -, -⟩ := id hr₁
      have hsum : i + 1 + n = i + (n + 1) := by omega
      obtain ⟨S', hrun, hr', hs'⟩ := ih hs₁ (by omega) hnd (fun j hj hlt => hupdate j hj (by omega))
      rw [hsum] at hs'
      exact ⟨S', run_bind_of hrun₁ hrun, hr₁.trans hr', hs'⟩

end Splice

end KvStore
