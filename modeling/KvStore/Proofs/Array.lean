/-
The array engine is a finite map with room for 1023 keys.

The table is read as the list of its slots, and the stored pairs are those of the
occupied ones.  A set changes one free slot and a delete one occupied slot, so the
list of pairs gains or loses one pair in the middle.  That a free slot exists is a
matter of counting: at most 1023 of the 1024 slots are occupied.
-/
import KvStore.Base.Table
import KvStore.Engine.Array
import KvStore.Spec.MapRules

namespace KvStore

namespace ArrayItem

/-- The pair an occupied slot stores. -/
def pair (item : ArrayItem) : Option (CString × CString) :=
  match item.key, item.value with
  | some k, some v => some (k, v)
  | _, _ => none

/-- The slot has both strings or neither. -/
def Sound (item : ArrayItem) : Prop := item.key = none ↔ item.value = none

theorem Sound.cases {item : ArrayItem} (h : item.Sound) :
    item = ⟨none, none⟩ ∨ ∃ k v, item = ⟨some k, some v⟩ := by
  obtain ⟨k, v⟩ := item
  cases k with
  | none =>
      have hv : v = none := h.mp rfl
      exact Or.inl (by rw [hv])
  | some k =>
      cases v with
      | none => exact absurd (h.mpr rfl) (by simp)
      | some v => exact Or.inr ⟨k, v, rfl⟩

end ArrayItem

/-- The pairs in the occupied slots. -/
def ArrayTable.pairs (A : ArrayTable) : List (CString × CString) :=
  A.items.toList.filterMap ArrayItem.pair

/-- The table stores the map `m`. -/
structure ArraySim (A : ArrayTable) (m : Dict CString CString) : Prop where
  sound : ∀ item ∈ A.items.toList, item.Sound
  holds : Holds A.pairs m
  count : A.count = m.keys.card
  bound : m.keys.card ≤ 1023

section Slots

variable {A : ArrayTable} {i : Nat}

theorem arrayItem_run (hi : i < kvsArrayItemSize) :
    (arrayItem i).run A = .ok (A.items[i], A) := by
  refine run_bind_of (run_get A) ?_
  rw [dif_pos hi]
  rfl

theorem assignItem_run (hi : i < kvsArrayItemSize) (f : ArrayItem → ArrayItem) :
    (assignItem i f).run A = .ok ((), { A with items := A.items.set i (f A.items[i]) }) := by
  refine run_bind_of (run_get A) ?_
  rw [dif_pos hi]
  rfl

/-- Two assignments to one slot are one. -/
theorem assignItem_twice_run {rest : Prog ArrayTable Int} (hi : i < kvsArrayItemSize)
    (f g : ArrayItem → ArrayItem) :
    (do assignItem i f
        assignItem i g
        rest : Prog ArrayTable Int).run A =
      rest.run { A with items := A.items.set i (g (f A.items[i])) } := by
  rw [run_bind_ok (assignItem_run hi f), run_bind_ok (assignItem_run hi g)]
  simp

theorem arrayKeyIs_run (hi : i < kvsArrayItemSize) (key : CString) :
    (arrayKeyIs key i).run A = .ok (decide (A.items[i].key = some key), A) := by
  refine run_bind_of (arrayItem_run hi) ?_
  cases hk : A.items[i].key with
  | none => rfl
  | some k =>
      obtain ⟨r, hr, -, heq⟩ := strcmp_spec k.reads_mem key.reads_mem
      show (do return (← liftE (strcmp k.mem key.mem)) = 0 : Prog ArrayTable Bool).run A = _
      rw [hr]
      simp [heq]

theorem arrayIsFree_run (hi : i < kvsArrayItemSize) :
    (arrayIsFree i).run A =
      .ok (decide (A.items[i].key = none) && decide (A.items[i].value = none), A) :=
  run_bind_of (arrayItem_run hi) rfl

/-- A scan of the table stops at a slot that passes the test, unless none does. -/
theorem scan_run {test : Nat → Prog ArrayTable Bool} {q : ArrayItem → Bool}
    (htest : ∀ i, ∀ hi : i < kvsArrayItemSize, (test i).run A = .ok (q A.items[i], A)) :
    ∃ i, (forFirst kvsArrayItemSize test).run A = .ok (i, A) ∧
      ((∃ hi : i < kvsArrayItemSize, q A.items[i] = true) ∨
        (¬ i < kvsArrayItemSize ∧ ∀ item ∈ A.items.toList, q item = false)) := by
  let p : Nat → Bool := fun i => if h : i < kvsArrayItemSize then q A.items[i] else false
  have hp : ∀ i, ∀ hi : i < kvsArrayItemSize, p i = q A.items[i] := fun i hi => dif_pos hi
  obtain ⟨i, hrun, hle, hbefore, hat⟩ :=
    forFirst_run (p := p) (fun i hi => by rw [htest i hi, hp i hi])
  refine ⟨i, hrun, ?_⟩
  by_cases hi : i < kvsArrayItemSize
  · exact Or.inl ⟨hi, by rw [← hp i hi]; exact hat hi⟩
  · refine Or.inr ⟨hi, ?_⟩
    intro item hitem
    obtain ⟨j, hj, rfl⟩ := exists_slot hitem
    rw [← hp j hj]
    exact hbefore j (by omega)

/-- The search finds the slot with the key, if there is one. -/
theorem kvsArraySearchItem_spec (A : ArrayTable) (key : CString) :
    ∃ r, (kvsArraySearchItem (some key)).run A = .ok (r, A) ∧
      ((∃ i, ∃ hi : i < kvsArrayItemSize, r = some i ∧ A.items[i].key = some key) ∨
        (r = none ∧ ∀ item ∈ A.items.toList, item.key ≠ some key)) := by
  obtain ⟨i, hrun, hi⟩ := scan_run (q := fun item => decide (item.key = some key))
    (fun i hi => arrayKeyIs_run (A := A) hi key)
  rcases hi with ⟨hi, hkey⟩ | ⟨hi, hnone⟩
  · exact ⟨some i, run_bind_of hrun (run_ite_pos hi rfl),
      Or.inl ⟨i, hi, rfl, of_decide_eq_true hkey⟩⟩
  · exact ⟨none, run_bind_of hrun (run_ite_neg hi rfl),
      Or.inr ⟨rfl, fun item hitem => of_decide_eq_false (hnone item hitem)⟩⟩

/-- An assignment to a slot exchanges its pair in the list of stored pairs. -/
theorem pairs_set (A : ArrayTable) (hi : i < kvsArrayItemSize) :
    ∃ P S, A.pairs = P ++ A.items[i].pair.toList ++ S ∧
      ∀ item c, ArrayTable.pairs ⟨A.items.set i item, c⟩ = P ++ item.pair.toList ++ S := by
  obtain ⟨P, S, hlist, hset, -⟩ := vector_split A.items hi
  have hmap : ∀ item : ArrayItem, (P ++ item :: S).filterMap ArrayItem.pair =
      P.filterMap ArrayItem.pair ++ item.pair.toList ++ S.filterMap ArrayItem.pair := by
    intro item
    cases hp : item.pair <;> simp [hp]
  refine ⟨P.filterMap ArrayItem.pair, S.filterMap ArrayItem.pair, ?_, ?_⟩
  · unfold ArrayTable.pairs
    rw [hlist, hmap]
  · intro item c
    unfold ArrayTable.pairs
    rw [hset, hmap]

/-- An assignment to a slot leaves the others alone. -/
theorem sound_set (hs : ∀ item ∈ A.items.toList, item.Sound) (hi : i < kvsArrayItemSize)
    {item : ArrayItem} (hitem : item.Sound) : ∀ x ∈ (A.items.set i item).toList, x.Sound := by
  obtain ⟨P, S, hlist, hset, -⟩ := vector_split A.items hi
  intro x hx
  rw [hset] at hx
  rw [hlist] at hs
  simp only [List.mem_append, List.mem_cons] at hx hs
  rcases hx with hx | rfl | hx
  · exact hs x (Or.inl hx)
  · exact hitem
  · exact hs x (Or.inr (Or.inr hx))

/-- While not all slots are occupied, the scan for a free one stops at one. -/
theorem kvsArrayFreeSlot_spec (hs : ∀ item ∈ A.items.toList, item.Sound)
    (hlt : A.pairs.length < kvsArrayItemSize) :
    ∃ i, ∃ hi : i < kvsArrayItemSize, kvsArrayFreeSlot.run A = .ok (i, A) ∧
      A.items[i] = ⟨none, none⟩ := by
  obtain ⟨i, hrun, hi⟩ := scan_run
    (q := fun item => decide (item.key = none) && decide (item.value = none))
    (fun i hi => arrayIsFree_run (A := A) hi)
  rcases hi with ⟨hi, hfree⟩ | ⟨-, hfull⟩
  · refine ⟨i, hi, hrun, ?_⟩
    simp only [Bool.and_eq_true, decide_eq_true_eq] at hfree
    cases hitem : A.items[i]
    simp_all
  · -- Every slot would be occupied, so there would be as many pairs as slots.
    exfalso
    have hall : ∀ item ∈ A.items.toList, item.pair.isSome := by
      intro item hitem
      rcases (hs item hitem).cases with rfl | ⟨k, v, rfl⟩
      · exact absurd (hfull _ hitem) (by simp)
      · rfl
    rw [ArrayTable.pairs, List.length_filterMap_eq_countP, List.countP_eq_length.mpr hall] at hlt
    simp at hlt

end Slots

section Calls

variable {A : ArrayTable} {m : Dict CString CString}

/-- The search decides whether the map has the key. -/
theorem ArraySim.search (h : ArraySim A m) (key : CString) :
    ∃ r, (kvsArraySearchItem (some key)).run A = .ok (r, A) ∧
      ((∃ i, ∃ hi : i < kvsArrayItemSize, ∃ v, r = some i ∧ A.items[i] = ⟨some key, some v⟩ ∧
          m.lookup key = some v) ∨
        (r = none ∧ key ∉ m)) := by
  obtain ⟨r, hrun, hr⟩ := kvsArraySearchItem_spec A key
  refine ⟨r, hrun, ?_⟩
  rcases hr with ⟨i, hi, rfl, hkey⟩ | ⟨rfl, hnone⟩
  · have hmem : A.items[i] ∈ A.items.toList := by simp
    obtain hitem | ⟨k, v, hitem⟩ := (h.sound _ hmem).cases
    · rw [hitem] at hkey
      cases hkey
    · rw [hitem] at hkey
      cases hkey
      refine Or.inl ⟨i, hi, v, rfl, hitem, (h.holds.lookup key v).mp ?_⟩
      exact List.mem_filterMap.mpr ⟨A.items[i], hmem, by rw [hitem]; rfl⟩
  · refine Or.inr ⟨rfl, (h.holds.notMem_iff key).mpr ?_⟩
    intro p hp hkey
    obtain ⟨item, hitem, hpair⟩ := List.mem_filterMap.mp hp
    obtain rfl | ⟨k, v, rfl⟩ := (h.sound _ hitem).cases
    · cases hpair
    · cases hpair
      exact hnone _ hitem (by rw [← hkey])

theorem kvsArrayExist_spec (h : ArraySim A m) (key : CString) :
    (kvsArrayExist (some key)).run A = .ok (if key ∈ m then 1 else 0, A) := by
  obtain ⟨r, hrun, hr⟩ := h.search key
  refine run_bind_of hrun ?_
  rcases hr with ⟨i, hi, v, rfl, -, hlook⟩ | ⟨rfl, habs⟩
  · rw [if_pos (Finmap.mem_of_lookup_eq_some hlook)]
    rfl
  · rw [if_neg habs]
    rfl

theorem kvsArrayGet_spec (h : ArraySim A m) (key : CString) :
    (kvsArrayGet (some key)).run A = .ok (arrayRules.get m key, A) := by
  obtain ⟨r, hrun, hr⟩ := h.search key
  refine run_bind_of hrun ?_
  rcases hr with ⟨i, hi, v, rfl, hitem, hlook⟩ | ⟨rfl, habs⟩
  · refine run_bind_of (arrayItem_run hi) ?_
    rw [hitem, MapRules.get_stored hlook]
    rfl
  · rw [MapRules.get_absent habs]
    rfl

theorem kvsArraySet_spec (h : ArraySim A m) (k v : CString) :
    ∃ A', (kvsArraySet true true (some k) (some v)).run A = .ok ((arrayRules.put m k v).1, A') ∧
      ArraySim A' (arrayRules.put m k v).2 ∧ ((arrayRules.put m k v).1 ≠ 0 → A' = A) := by
  have hexist := kvsArrayExist_spec h k
  by_cases hfull : A.count = kvsArrayItemSize - 1
  · have hroom : ¬ arrayRules.HasRoom m := by
      rw [h.count] at hfull
      simp only [MapRules.HasRoom, arrayRules, Option.mem_some_iff, forall_eq', kvsArrayItemSize]
        at hfull ⊢
      omega
    rw [MapRules.put_full rfl hroom]
    exact ⟨A, run_bind_of (run_get A) (run_ite_pos hfull rfl), h, fun _ => rfl⟩
  have hlt : m.keys.card < 1023 := by
    have := h.bound
    rw [h.count] at hfull
    simp only [kvsArrayItemSize] at hfull
    omega
  by_cases hk : k ∈ m
  · rw [if_pos hk] at hexist
    rw [MapRules.put_stored rfl hk]
    refine ⟨A, run_bind_of (run_get A) (run_ite_neg hfull (run_bind_of hexist ?_)), h, fun _ => rfl⟩
    exact run_ite_pos (by decide) rfl
  rw [if_neg hk] at hexist
  rw [MapRules.put_new hk (by simpa [MapRules.HasRoom, arrayRules] using hlt)]
  obtain ⟨i, hi, hscan, hfree⟩ := kvsArrayFreeSlot_spec h.sound (by
    rw [← h.holds.card, kvsArrayItemSize]
    omega)
  obtain ⟨P, S, hpairs, hset⟩ := pairs_set A hi
  have hholds : Holds (P ++ (k, v) :: S) (m.insert k v) := by
    have hold := h.holds
    rw [hpairs, hfree, show (⟨none, none⟩ : ArrayItem).pair.toList = [] from rfl,
      List.append_nil] at hold
    exact (hold.insert hk v).perm List.perm_middle.symm
  have hnew : Holds (ArrayTable.pairs ⟨A.items.set i ⟨some k, some v⟩, A.count + 1⟩)
      (m.insert k v) := by
    rw [hset, List.append_assoc]
    exact hholds
  have hcard : (m.insert k v).keys.card = m.keys.card + 1 := by
    rw [(h.holds.insert hk v).card, h.holds.card, List.length_cons]
  refine ⟨⟨A.items.set i ⟨some k, some v⟩, A.count + 1⟩, ?_, ⟨?_, hnew, ?_, ?_⟩,
    fun hc => absurd rfl hc⟩
  · refine run_bind_of (run_get A) (run_ite_neg hfull (run_bind_of hexist ?_))
    refine run_ite_neg (by decide) (run_ite_neg (by decide) (run_ite_neg (by decide) ?_))
    refine run_bind_of hscan ((assignItem_twice_run hi _ _).trans ?_)
    rw [hfree]
    rfl
  · exact sound_set h.sound hi (by simp [ArrayItem.Sound])
  · show A.count + 1 = _
    rw [h.count, hcard]
    rfl
  · rw [hcard]
    omega

theorem kvsArrayDelete_spec (h : ArraySim A m) (k : CString) :
    ∃ A', (kvsArrayDelete (some k)).run A = .ok ((arrayRules.delete m k).1, A') ∧
      ArraySim A' (arrayRules.delete m k).2 ∧ ((arrayRules.delete m k).1 ≠ 0 → A' = A) := by
  obtain ⟨r, hrun, hr⟩ := h.search k
  rcases hr with ⟨i, hi, v, rfl, hitem, hlook⟩ | ⟨rfl, habs⟩
  swap
  · rw [MapRules.delete_absent habs]
    exact ⟨A, run_bind_of hrun rfl, h, fun _ => rfl⟩
  rw [MapRules.delete_stored (Finmap.mem_of_lookup_eq_some hlook)]
  obtain ⟨P, S, hpairs, hset⟩ := pairs_set A hi
  have hold : Holds (P ++ (k, v) :: S) m := by
    have := h.holds
    rwa [hpairs, hitem, List.append_assoc] at this
  have hnew : Holds (ArrayTable.pairs ⟨A.items.set i ⟨none, none⟩, A.count - 1⟩) (m.erase k) := by
    rw [hset, show (⟨none, none⟩ : ArrayItem).pair.toList = [] from rfl, List.append_nil]
    exact hold.erase
  have hcard : m.keys.card = (m.erase k).keys.card + 1 := by
    rw [hold.card, hold.erase.card]
    simp only [List.length_append, List.length_cons]
    omega
  refine ⟨⟨A.items.set i ⟨none, none⟩, A.count - 1⟩, ?_, ⟨?_, hnew, ?_, ?_⟩,
    fun hc => absurd rfl hc⟩
  · refine run_bind_of hrun (run_bind_of (arrayItem_run hi) ?_)
    rw [hitem, whenever, if_pos (by simp), whenever, if_pos (by simp)]
    refine (assignItem_twice_run hi _ _).trans ?_
    rw [hitem]
    rfl
  · exact sound_set h.sound hi (by simp [ArrayItem.Sound])
  · show A.count - 1 = _
    rw [h.count, hcard]
    simp
  · have := h.bound
    show (m.erase k).keys.card ≤ 1023
    omega

/--
**Every call answers as the map with room for 1023 keys does**, and a call that does not
report success changes nothing.
-/
theorem arrayCall_refines (h : ArraySim A m) (c : Call) :
    ∃ A', (arrayCall c).run A = .ok ((arrayRules.step m c).1, A') ∧
      ArraySim A' (arrayRules.step m c).2 ∧ (¬ c.Succeeds (arrayRules.step m c).1 → A' = A) := by
  cases c with
  | put k v =>
      obtain ⟨A', hrun, hsim, hsame⟩ := kvsArraySet_spec h k v
      exact ⟨A', run_map_of _ hrun, hsim, hsame⟩
  | get k => exact ⟨A, run_map_of _ (kvsArrayGet_spec h k), h, fun _ => rfl⟩
  | count =>
      have hrun : kvsArrayCount.run A = .ok (A.count, A) := run_bind_of (run_get A) rfl
      rw [h.count] at hrun
      exact ⟨A, run_map_of _ hrun, h, fun _ => rfl⟩
  | exist k => exact ⟨A, run_map_of _ (kvsArrayExist_spec h k), h, fun _ => rfl⟩
  | delete k =>
      obtain ⟨A', hrun, hsim, hsame⟩ := kvsArrayDelete_spec h k
      exact ⟨A', run_map_of _ hrun, hsim, hsame⟩

/-- The static table stores the empty map. -/
theorem ArraySim.static : ArraySim ArrayTable.static ∅ := by
  have hlist : ArrayTable.static.items.toList =
      List.replicate kvsArrayItemSize (⟨none, none⟩ : ArrayItem) := by
    simp [ArrayTable.static]
  refine ⟨?_, ?_, rfl, by simp⟩
  · intro item hitem
    rw [hlist] at hitem
    rw [List.eq_of_mem_replicate hitem]
    exact Iff.rfl
  · have hnone : ArrayTable.static.pairs = [] := by
      unfold ArrayTable.pairs
      rw [hlist]
      simp [ArrayItem.pair]
    rw [hnone]
    exact .nil

end Calls

/-! ### Over whole runs -/

/-- What holds of the table between any two calls. -/
structure ArrayInvariant (A : ArrayTable) : Prop where
  /-- a slot's key is null iff its value is -/
  nullTogether : ∀ item ∈ A.items.toList, item.key = none ↔ item.value = none
  /-- occupied slots hold different keys -/
  distinct : A.items.toList.Pairwise fun a b => ∀ k, a.key = some k → b.key ≠ some k
  /-- the counter counts the occupied slots -/
  counted : A.count = A.items.toList.countP (fun item => item.key.isSome)
  bounded : A.count ≤ 1023
  /-- the scan for a free slot stops inside the table -/
  freeSlot : ∃ i, i < kvsArrayItemSize ∧ kvsArrayFreeSlot.run A = .ok (i, A)

theorem ArraySim.invariant {A : ArrayTable} {m : Dict CString CString} (h : ArraySim A m) :
    ArrayInvariant A := by
  have hlen := h.holds.card
  refine ⟨h.sound, ?_, ?_, ?_, ?_⟩
  · have hnd := h.holds.nodup
    rw [ArrayTable.pairs, List.Nodup, List.pairwise_map, List.pairwise_filterMap] at hnd
    refine hnd.imp_of_mem ?_
    intro a b ha hb hab k hak hbk
    obtain rfl | ⟨ka, va, rfl⟩ := (h.sound a ha).cases
    · cases hak
    obtain rfl | ⟨kb, vb, rfl⟩ := (h.sound b hb).cases
    · cases hbk
    cases hak
    cases hbk
    exact hab (k, va) rfl (k, vb) rfl rfl
  · rw [h.count, hlen, ArrayTable.pairs, List.length_filterMap_eq_countP]
    congr 1
    refine List.countP_congr ?_
    intro item hitem
    obtain rfl | ⟨k, v, rfl⟩ := (h.sound item hitem).cases <;> simp [ArrayItem.pair]
  · have := h.bound
    rw [h.count]
    omega
  · have := h.bound
    obtain ⟨i, hi, hrun, -⟩ := kvsArrayFreeSlot_spec h.sound (by
      rw [← hlen, kvsArrayItemSize]
      omega)
    exact ⟨i, hi, hrun⟩

/--
**The array engine refines a finite map of at most 1023 keys**: every run of calls
from the static table returns the map machine's answers and keeps the invariant.
-/
theorem array_refines_map (calls : List Call) :
    ∃ A, (runCalls arrayCall calls).run ArrayTable.static =
        .ok ((runMachine arrayRules.step ∅ calls).1, A) ∧
      ArrayInvariant A := by
  have hcall : ∀ A m c, ArraySim A m → True → ∃ A', (arrayCall c).run A =
      .ok ((arrayRules.step m c).1, A') ∧ ArraySim A' (arrayRules.step m c).2 :=
    fun _ _ c h _ => (arrayCall_refines h c).imp fun _ hA => ⟨hA.1, hA.2.1⟩
  obtain ⟨A, hrun, hsim⟩ :=
    run_refines hcall calls ArrayTable.static ∅ ArraySim.static (fun _ _ => trivial)
  exact ⟨A, hrun, hsim.invariant⟩

end KvStore
