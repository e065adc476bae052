/-
The second hash engine maps keys to stacks.

All values of a key are in one chain, among those of other keys, with the newest in
front.  `DhashTable.stack` filters them out of it.  A `put` conses onto the chain and
so onto the stack of one key; a `delete` erases the first node with the key, which is
the top of its stack, and leaves every other key's filter alone.
-/
import KvStore.Base.Table
import KvStore.Engine.Dhash
import KvStore.Spec.Stacks
import Mathlib.Algebra.BigOperators.Group.Finset.Piecewise

namespace KvStore

/-! ### Walking a chain -/

section Chain

/-- The values of a key in a chain, in the chain's order. -/
def chainStack (chain : List KvNode) (k : CString) : List CString :=
  (chain.filter fun node => node.key = k).map KvNode.value

variable (key : CString)

theorem strcmp_eq_zero (a b : CString) : ∃ r, strcmp a.mem b.mem = .ok r ∧ (r = 0 ↔ a = b) := by
  obtain ⟨r, hr, -, heq⟩ := strcmp_spec a.reads_mem b.reads_mem
  exact ⟨r, hr, heq⟩

theorem findKv_eq (chain : List KvNode) :
    findKv key chain = .ok (chain.find? fun node => node.key = key) := by
  induction chain with
  | nil => rfl
  | cons node next ih =>
      obtain ⟨r, hr, heq⟩ := strcmp_eq_zero node.key key
      unfold findKv
      rw [hr, List.find?_cons]
      by_cases hk : node.key = key
      · simp [hk, heq.mpr hk]
        rfl
      · simp only [hk, decide_false]
        rw [← ih]
        exact if_neg (fun hc => hk (heq.mp hc))

theorem unlinkKv_eq (chain : List KvNode) :
    unlinkKv key chain = .ok (if chainStack chain key = [] then none
      else some (chain.eraseP fun node => node.key = key)) := by
  induction chain with
  | nil => rfl
  | cons node next ih =>
      obtain ⟨r, hr, heq⟩ := strcmp_eq_zero node.key key
      by_cases hk : node.key = key
      · have hstack : chainStack (node :: next) key ≠ [] := by simp [chainStack, hk]
        rw [if_neg hstack, unlinkKv, hr, List.eraseP_cons_of_pos (by simpa using hk)]
        exact if_neg (by simpa using heq.mpr hk)
      · have hstack : chainStack (node :: next) key = chainStack next key := by
          simp [chainStack, hk]
        rw [hstack, unlinkKv, hr, List.eraseP_cons_of_neg (by simpa using hk)]
        refine (if_pos (fun hc => hk (heq.mp hc))).trans ?_
        rw [ih]
        by_cases hempty : chainStack next key = []
        · rw [if_pos hempty, if_pos hempty]
          rfl
        · rw [if_neg hempty, if_neg hempty]
          rfl

/-- The first node with the key is the top of its stack. -/
theorem find_value (chain : List KvNode) :
    (chain.find? fun node => node.key = key).map KvNode.value = (chainStack chain key).head? := by
  unfold chainStack
  rw [List.head?_map, List.head?_filter]

/-- Erasing the first node with the key pops its stack and no other. -/
theorem chainStack_erase (chain : List KvNode) (k : CString) :
    chainStack (chain.eraseP fun node => node.key = key) k =
      if k = key then (chainStack chain key).tail else chainStack chain k := by
  induction chain with
  | nil => simp [chainStack]
  | cons node next ih =>
      by_cases hk : node.key = key
      · rw [List.eraseP_cons_of_pos (by simpa using hk)]
        by_cases hkk : k = key
        · simp [chainStack, hk, hkk]
        · have hne : node.key ≠ k := fun hc => hkk (hc.symm.trans hk)
          simp [chainStack, hkk, hne]
      · rw [List.eraseP_cons_of_neg (by simpa using hk)]
        by_cases hnk : node.key = k
        · have hkk : k ≠ key := fun hc => hk (hnk.trans hc)
          rw [if_neg hkk] at ih ⊢
          simp only [chainStack] at ih ⊢
          simp [hnk, ih]
        · have hcons : ∀ l, chainStack (node :: l) k = chainStack l k := by
            intro l
            simp [chainStack, hnk]
          have hcons' : chainStack (node :: next) key = chainStack next key := by
            simp [chainStack, hk]
          rw [hcons, hcons, hcons', ih]

end Chain

/-! ### The table -/

theorem hashFunction_lt (k : CString) : (hashFunction k).toNat < dhashTableSize := by
  unfold hashFunction
  rw [UInt32.toNat_mod]
  exact Nat.mod_lt _ (by decide)

/-- The stack of a key: its values in the chain it hashes to. -/
def DhashTable.stack (D : DhashTable) (k : CString) : List CString :=
  match D.table with
  | none => []
  | some t => chainStack (t.get ⟨(hashFunction k).toNat, hashFunction_lt k⟩) k

/-- The chains of the table hold the stacks, each key's in its own chain. -/
structure DhashSim (D : DhashTable) (m : Stacks) : Prop where
  table : ∃ t, D.table = some t ∧
    ∀ i, ∀ hi : i < dhashTableSize, ∀ node ∈ t[i], (hashFunction node.key).toNat = i
  stack : ∀ k, D.stack k = m.stack k

section Calls

variable {D : DhashTable} {t : Vector (List KvNode) dhashTableSize} {m : Stacks} {k : CString}

theorem dhashChain_run (ht : D.table = some t) {i : Nat} (hi : i < dhashTableSize) :
    (dhashChain i).run D = .ok (t[i], D) := by
  refine run_bind_of (run_get D) ?_
  rw [ht]
  show (if h : i < dhashTableSize then _ else _ : Prog DhashTable (List KvNode)).run D = _
  rw [dif_pos hi]
  rfl

theorem setDhashChain_run (ht : D.table = some t) {i : Nat} (hi : i < dhashTableSize)
    (chain : List KvNode) :
    (setDhashChain i chain).run D = .ok ((), ⟨some (t.set i chain)⟩) := by
  refine run_bind_of (run_get D) ?_
  rw [ht]
  show (if h : i < dhashTableSize then _ else _ : Prog DhashTable Unit).run D = _
  rw [dif_pos hi]
  rfl

theorem stack_eq (ht : D.table = some t) (k : CString) :
    D.stack k = chainStack (t.get ⟨(hashFunction k).toNat, hashFunction_lt k⟩) k := by
  unfold DhashTable.stack
  rw [ht]

theorem get_slot {i : Nat} (hi : i < dhashTableSize) : t.get ⟨i, hi⟩ = t[i] := rfl

/-- A chain that holds only its own keys is put in the place of another. -/
theorem DhashSim.set (h : DhashSim D m) (ht : D.table = some t) {i : Nat}
    (hi : i < dhashTableSize) (chain : List KvNode) (m' : Stacks)
    (hhome : ∀ node ∈ chain, (hashFunction node.key).toNat = i)
    (hsame : ∀ k, (hashFunction k).toNat = i → chainStack chain k = m'.stack k)
    (hother : ∀ k, (hashFunction k).toNat ≠ i → m'.stack k = m.stack k) :
    DhashSim ⟨some (t.set i chain)⟩ m' := by
  obtain ⟨t', ht', hhome'⟩ := h.table
  rw [ht] at ht'
  cases ht'
  refine ⟨⟨t.set i chain, rfl, ?_⟩, ?_⟩
  · intro j hj node hnode
    rw [Vector.getElem_set] at hnode
    by_cases hij : i = j
    · rw [if_pos hij] at hnode
      rw [← hij]
      exact hhome node hnode
    · rw [if_neg hij] at hnode
      exact hhome' j hj node hnode
  · intro k
    rw [stack_eq rfl, get_slot, Vector.getElem_set]
    by_cases hik : i = (hashFunction k).toNat
    · rw [if_pos hik]
      exact hsame k hik.symm
    · rw [if_neg hik, hother k (Ne.symm hik), ← h.stack k, stack_eq ht, get_slot]

/-- The chain a key hashes to holds its stack. -/
theorem DhashSim.chain (h : DhashSim D m) (ht : D.table = some t) {i : Nat}
    (hi : i < dhashTableSize) (hk : (hashFunction k).toNat = i) :
    chainStack t[i] k = m.stack k := by
  subst hk
  rw [← h.stack k, stack_eq ht, get_slot]

theorem putKvDhashtable_spec (h : DhashSim D m) (k v : CString) :
    ∃ D', (putKvDhashtable true true true (some k) (some v)).run D = .ok (0, D') ∧
      DhashSim D' (m.push k v) := by
  obtain ⟨t, ht, hhome⟩ := h.table
  have hi := hashFunction_lt k
  refine ⟨_, ?_, h.set ht hi (⟨k, v⟩ :: t[(hashFunction k).toNat]) (m.push k v) ?_ ?_ ?_⟩
  · refine run_bind_of rfl (run_ite_neg (by decide) (run_bind_of rfl (run_ite_neg (by simp) ?_)))
    exact run_bind_of (dhashChain_run ht hi) (run_bind_of (setDhashChain_run ht hi _) rfl)
  · intro node hnode
    rcases List.mem_cons.mp hnode with rfl | hnode
    · rfl
    · exact hhome _ hi node hnode
  · intro k' hk'
    unfold Stacks.push
    rw [Stacks.stack_insert, ← h.chain ht hi rfl, ← h.chain ht hi hk']
    by_cases hkk : k' = k
    · simp [chainStack, hkk]
    · simp [chainStack, hkk, Ne.symm hkk]
  · intro k' hk'
    unfold Stacks.push
    rw [Stacks.stack_insert, if_neg]
    rintro rfl
    exact hk' rfl

theorem deleteKvDhashtable_spec (h : DhashSim D m) (k : CString) :
    ∃ D', (deleteKvDhashtable (some k)).run D =
        .ok (if m.stack k = [] then -1 else 0, D') ∧
      DhashSim D' (if m.stack k = [] then m else m.pop k) ∧ (m.stack k = [] → D' = D) := by
  obtain ⟨t, ht, hhome⟩ := h.table
  have hi := hashFunction_lt k
  have hchain := h.chain ht hi rfl
  by_cases hempty : m.stack k = []
  · rw [if_pos hempty, if_pos hempty]
    refine ⟨D, run_bind_of rfl (run_bind_of (dhashChain_run ht hi) ?_), h, fun _ => rfl⟩
    rw [unlinkKv_eq, if_pos (hchain.trans hempty)]
    rfl
  · rw [if_neg hempty, if_neg hempty]
    refine ⟨_, run_bind_of rfl (run_bind_of (dhashChain_run ht hi) ?_),
      h.set ht hi (t[(hashFunction k).toNat].eraseP fun node => node.key = k) (m.pop k) ?_ ?_ ?_,
      fun hc => absurd hc hempty⟩
    · rw [unlinkKv_eq, if_neg (fun hc => hempty (hchain.symm.trans hc))]
      exact run_bind_of (run_liftE_ok _ D) (run_bind_of (setDhashChain_run ht hi _) rfl)
    · intro node hnode
      exact hhome _ hi node (List.mem_of_mem_eraseP hnode)
    · intro k' hk'
      unfold Stacks.pop
      rw [Stacks.stack_insert, chainStack_erase, hchain, h.chain ht hi hk']
    · intro k' hk'
      unfold Stacks.pop
      rw [Stacks.stack_insert, if_neg]
      rintro rfl
      exact hk' rfl

theorem getKvDhashtable_spec (h : DhashSim D m) (k : CString) :
    (getKvDhashtable (some k)).run D = .ok ((m.stack k).head?, D) := by
  obtain ⟨t, ht, -⟩ := h.table
  have hi := hashFunction_lt k
  refine run_bind_of rfl (run_bind_of (dhashChain_run ht hi) ?_)
  rw [findKv_eq, ← h.chain ht hi rfl, ← find_value]
  rfl

theorem existKvDhashtable_spec (h : DhashSim D m) (k : CString) :
    (existKvDhashtable (some k)).run D = .ok (if m.stack k = [] then 0 else 1, D) := by
  obtain ⟨t, ht, -⟩ := h.table
  have hi := hashFunction_lt k
  refine run_bind_of rfl (run_bind_of (dhashChain_run ht hi) ?_)
  have hfind := find_value k t[(hashFunction k).toNat]
  rw [h.chain ht hi rfl] at hfind
  rw [findKv_eq]
  cases hf : t[(hashFunction k).toNat].find? fun node => node.key = k with
  | none =>
      rw [hf] at hfind
      rw [if_pos (List.head?_eq_none_iff.mp hfind.symm)]
      rfl
  | some node =>
      rw [hf] at hfind
      have hne : m.stack k ≠ [] := by
        intro hempty
        rw [hempty] at hfind
        cases hfind
      rw [if_neg hne]
      rfl

/-- The two loops of the count add up the chains' lengths. -/
theorem foldl_count (chains : List (List KvNode)) (c : Int) :
    chains.foldl (fun count chain => chain.foldl (fun c _ => c + 1) count) c =
      c + chains.flatten.length := by
  have hinner : ∀ (chain : List KvNode) (c : Int),
      chain.foldl (fun c _ => c + 1) c = c + chain.length := by
    intro chain
    induction chain with
    | nil => simp
    | cons node next ih =>
        intro c
        rw [List.foldl_cons, ih]
        simp
        omega
  induction chains generalizing c with
  | nil => simp
  | cons chain rest ih =>
      rw [List.foldl_cons, hinner, ih]
      simp
      omega

/-- A key's nodes are in its own chain and in no other. -/
theorem count_flatten (hhome : ∀ i, ∀ hi : i < dhashTableSize, ∀ node ∈ t[i],
    (hashFunction node.key).toNat = i) (k : CString) :
    (t.toList.flatten.map KvNode.key).count k =
      (chainStack (t.get ⟨(hashFunction k).toNat, hashFunction_lt k⟩) k).length := by
  obtain ⟨P, S, hlist, -, hrest⟩ := vector_split t (hashFunction_lt k)
  have hzero : ∀ chains : List (List KvNode), (∀ x ∈ chains, x ∈ P ++ S) →
      (chains.flatten.map KvNode.key).count k = 0 := by
    intro chains hsub
    rw [List.count_eq_zero]
    intro hmem
    obtain ⟨node, hnode, rfl⟩ := List.mem_map.mp hmem
    obtain ⟨chain, hchain, hnode⟩ := List.mem_flatten.mp hnode
    obtain ⟨j, hj, hne, rfl⟩ := hrest chain (hsub chain hchain)
    exact hne (hhome j hj node hnode).symm
  rw [hlist, List.flatten_append, List.flatten_cons, List.map_append, List.map_append,
    List.count_append, List.count_append, hzero P (fun x hx => List.mem_append_left _ hx),
    hzero S (fun x hx => List.mem_append_right _ hx), chainStack, List.length_map,
    ← List.countP_eq_length_filter, List.count_eq_countP, List.countP_map, get_slot]
  simp only [Nat.zero_add, Nat.add_zero]
  refine List.countP_congr ?_
  intro node _
  simp

/-- The table has as many nodes as the stacks have values. -/
theorem DhashSim.length (h : DhashSim D m) (ht : D.table = some t) :
    t.toList.flatten.length = m.total := by
  obtain ⟨t', ht', hhome⟩ := h.table
  rw [ht] at ht'
  cases ht'
  have hcount : ∀ k, (t.toList.flatten.map KvNode.key).count k = (m.stack k).length := by
    intro k
    rw [count_flatten hhome, ← stack_eq ht, h.stack]
  have hmem : ∀ k ∈ (↑(t.toList.flatten.map KvNode.key) : Multiset CString), k ∈ m.keys := by
    intro k hk
    refine Finmap.mem_keys.mpr (Stacks.mem_of_stack ?_)
    intro hempty
    have hpos := List.count_pos_iff.mpr (Multiset.mem_coe.mp hk)
    rw [hcount, hempty] at hpos
    exact absurd hpos (by simp)
  have hsum := Multiset.sum_count_eq_card hmem
  rw [Multiset.coe_card, List.length_map] at hsum
  rw [← hsum, Stacks.total]
  refine Finset.sum_congr rfl ?_
  intro k _
  rw [Multiset.coe_count, hcount]

theorem countKvDhashtable_spec (h : DhashSim D m) :
    countKvDhashtable.run D = .ok ((m.total : Int), D) := by
  obtain ⟨t, ht, -⟩ := h.table
  refine run_bind_of (run_get D) ?_
  rw [ht, ← h.length ht]
  show Except.ok (t.toList.foldl _ _, D) = _
  rw [foldl_count]
  simp

/--
**Every call answers as the stacks do**, and a call that does not report success changes
nothing.
-/
theorem dhashCall_refines (h : DhashSim D m) (c : Call) :
    ∃ D', (dhashCall c).run D = .ok ((m.step c).1, D') ∧ DhashSim D' (m.step c).2 ∧
      (¬ c.Succeeds (m.step c).1 → D' = D) := by
  cases c with
  | put k v =>
      obtain ⟨D', hrun, hsim⟩ := putKvDhashtable_spec h k v
      exact ⟨D', run_map_of _ hrun, hsim, fun hc => absurd rfl hc⟩
  | get k => exact ⟨D, run_map_of _ (getKvDhashtable_spec h k), h, fun _ => rfl⟩
  | count => exact ⟨D, run_map_of _ (countKvDhashtable_spec h), h, fun _ => rfl⟩
  | exist k => exact ⟨D, run_map_of _ (existKvDhashtable_spec h k), h, fun _ => rfl⟩
  | delete k =>
      obtain ⟨D', hrun, hsim, hsame⟩ := deleteKvDhashtable_spec h k
      refine ⟨D', (run_map_of _ hrun).trans ?_, ?_, ?_⟩
      · by_cases hempty : m.stack k = [] <;> simp [Stacks.step, hempty]
      · by_cases hempty : m.stack k = [] <;> simpa [Stacks.step, hempty] using hsim
      · intro hfail
        refine hsame ?_
        by_contra hempty
        rw [Stacks.step, if_neg hempty] at hfail
        exact hfail rfl

/-- A fresh table has no stacks. -/
theorem DhashSim.fresh : DhashSim DhashTable.fresh ∅ := by
  refine ⟨⟨_, rfl, ?_⟩, ?_⟩
  · intro i hi node hnode
    rw [Vector.getElem_replicate] at hnode
    cases hnode
  · intro k
    rw [stack_eq (D := DhashTable.fresh) rfl, get_slot, Vector.getElem_replicate]
    simp [chainStack]

end Calls

/-! ### Over whole runs -/

/-- The stacks after a list of calls. -/
def Stacks.after (m : Stacks) (calls : List Call) : Stacks := (runMachine Stacks.step m calls).2

/-- A call changes the stack of no key but its own. -/
theorem Stacks.step_other {m : Stacks} {c : Call} {k : CString} (h : ¬ c.Names k) :
    (m.step c).2.stack k = m.stack k := by
  cases c with
  | put k' v =>
      unfold Stacks.step Stacks.push
      rw [Stacks.stack_insert, if_neg]
      exact fun hc => h hc.symm
  | get | count | exist => rfl
  | delete k' =>
      rw [Stacks.step]
      by_cases hempty : m.stack k' = []
      · rw [if_pos hempty]
      · rw [if_neg hempty, Stacks.pop, Stacks.stack_insert, if_neg]
        exact fun hc => h hc.symm

/-- No key has more than one value. -/
def Stacks.Flat (m : Stacks) : Prop := ∀ k, (m.stack k).length ≤ 1

theorem Stacks.Flat.total {m : Stacks} (h : m.Flat) :
    m.total = (m.keys.filter fun k => m.stack k ≠ []).card := by
  unfold Stacks.total
  rw [Finset.card_filter]
  refine Finset.sum_congr rfl ?_
  intro k _
  have hlen := h k
  cases hs : m.stack k with
  | nil => simp
  | cons v rest =>
      rw [hs, List.length_cons] at hlen
      rw [List.length_cons, if_pos (by simp)]
      omega

theorem Stacks.Flat.step {m : Stacks} (h : m.Flat) {c : Call}
    (hput : ∀ k v, c = .put k v → m.stack k = []) : (m.step c).2.Flat := by
  intro k
  by_cases hk : c.Names k
  · cases c with
    | put k' v =>
        obtain rfl : k' = k := hk
        unfold Stacks.step Stacks.push
        rw [Stacks.stack_insert, if_pos rfl, hput k' v rfl]
        simp
    | get | exist => exact h k
    | count => exact absurd hk (by simp [Call.Names])
    | delete k' =>
        obtain rfl : k' = k := hk
        have hlen := h k'
        rw [Stacks.step]
        by_cases hs : m.stack k' = []
        · rw [if_pos hs]
          exact hlen
        · rw [if_neg hs, Stacks.pop, Stacks.stack_insert, if_pos rfl, List.length_tail]
          omega
  · rw [Stacks.step_other hk]
    exact h k

end KvStore
