/-
The red-black tree engine is a finite map.

`RbtreeSim T m` relates the engine's state to the map it stores: the tree is one the
engine maintains, its entries are the pairs of `m`, and the counter counts them.
Every call returns what the map machine answers and keeps the relation, so every run
does.
-/
import KvStore.Proofs.Rbtree.Delete
import KvStore.Proofs.Rbtree.Insert
import KvStore.Spec.MapRules

namespace KvStore

open KvStore.Tree Ctx

/-- The tree `t` in memory stores the map `m`. -/
structure Stores (T : Rbtree) (np : Ptr) (t : Tree Entry) (m : Dict CString CString) : Prop where
  rep : Rep T np t
  inv : TreeInv t
  holds : Holds (t.toList.map Entry.pair) m

/-- The engine stores the map `m` and is ready for the next call. -/
structure RbtreeSim (T : Rbtree) (m : Dict CString CString) : Prop where
  stores : ∃ np t, Stores T np t m ∧ ∀ e ∈ t.toList, e.Terminated
  count : T.nbElements = m.keys.card
  lock : T.lock ≠ .held

section Calls

variable {rotate : Dir → Ptr → Prog Rbtree Unit} {T : Rbtree} {np : Ptr} {t : Tree Entry}
  {m : Dict CString CString} {key : CString}

theorem Stores.notMem (h : Stores T np t m) (habs : ∀ e ∈ t.toList, e.name ≠ key) : key ∉ m := by
  rw [h.holds.notMem_iff]
  intro q hq
  obtain ⟨e, he, rfl⟩ := List.mem_map.mp hq
  exact habs e he

/-- The search finds the node of a stored key, and the sentinel for any other. -/
theorem Stores.search (h : Stores T np t m) (key : CString) :
    ∃ p, (rbtreeSearch key).run T = .ok (p, T) ∧
      ((p ≠ T.nil ∧ ∃ ctx c l e r, t = fill ctx (.node c l e r) ∧ e.name = key ∧ p = e.ptr ∧
          m.lookup key = some e.text) ∨
        (p = T.nil ∧ key ∉ m)) := by
  obtain ⟨p, hrun, hloc⟩ := rbtreeSearch_spec h.rep h.inv key
  refine ⟨p, hrun, ?_⟩
  rcases hloc with ⟨ctx, c, l, e, r, rfl, hname, rfl⟩ | ⟨habs, rfl⟩
  · have hrep : Rep T np (fill ctx (branch .left c l e r)) := h.rep
    refine Or.inl ⟨hrep.ptr_ne_nil, ctx, c, l, e, r, rfl, hname, rfl, ?_⟩
    refine (h.holds.lookup key e.text).mp (List.mem_map.mpr ⟨e, ?_, ?_⟩)
    · exact mem_toList_fill (d := .left)
    · unfold Entry.pair
      rw [hname]
  · exact Or.inr ⟨rfl, h.notMem habs⟩

theorem Stores.exist (h : Stores T np t m) (key : CString) :
    (existKvRbtree (some key)).run T = .ok (if key ∈ m then 1 else 0, T) := by
  obtain ⟨p, hrun, hloc⟩ := h.search key
  refine run_bind_of (run_get T) (run_bind_of hrun ?_)
  rcases hloc with ⟨hp, _, _, _, _, _, _, _, _, hlook⟩ | ⟨hp, habs⟩
  · rw [if_pos (Finmap.mem_of_lookup_eq_some hlook)]
    exact run_ite_pos hp rfl
  · rw [if_neg habs]
    exact run_ite_neg (by simpa using hp) rfl

theorem existKvRbtree_spec (h : RbtreeSim T m) (key : CString) :
    (existKvRbtree (some key)).run T = .ok (if key ∈ m then 1 else 0, T) := by
  obtain ⟨np, t, hst, -⟩ := h.stores
  exact hst.exist key

theorem getKvRbtree_spec (h : RbtreeSim T m) (key : CString) :
    ∃ mem v, (getKvRbtree (some key)).run T = .ok (some mem, T) ∧ Reads mem v ∧
      rbtreeRules.get m key = some v := by
  obtain ⟨np, t, hst, hterm⟩ := h.stores
  obtain ⟨p, hrun, hloc⟩ := hst.search key
  rcases hloc with ⟨-, ctx, c, l, e, r, rfl, -, rfl, hlook⟩ | ⟨rfl, habs⟩
  · have hrep : Rep T np (fill ctx (branch .left c l e r)) := hst.rep
    refine ⟨e.value.val, e.text, run_bind_of hrun (run_bind_of hrep.deref_at rfl), ?_, ?_⟩
    · exact hterm e (mem_toList_fill (d := .left))
    · exact MapRules.get_stored hlook
  · refine ⟨(zeroBuf maxValueLen).val, CString.empty,
      run_bind_of hrun (run_bind_of hst.rep.deref_nil rfl), ⟨List.replicate 511 0, rfl⟩, ?_⟩
    exact MapRules.get_absent habs

/-- What an operation does not look at: the counter, the lock and the other cells. -/
theorem Stores.congr {T' : Rbtree} (h : Stores T np t m) (hnil : T'.nil = T.nil)
    (hroot : T'.root = T.root)
    (hmem : ∀ q ∈ T.nil :: t.ptrs, T'.mem.cells q = T.mem.cells q) : Stores T' np t m :=
  ⟨h.rep.congr hnil hroot hmem, h.inv, h.holds⟩

/-- The cell of a node that `put_kv_rbtree` has filled in. -/
def newCell (nil : Ptr) (k v : CString) : RbNode :=
  { RbNode.zero with
    parent := nil
    key := strncpy maxKeyLen k.bytes
    value := strncpy maxValueLen v.bytes }

/-- Allocating and filling in a node. -/
theorem newNode_run {rest : Prog Rbtree Int} (T : Rbtree) (nil : Ptr) (k v : CString) :
    (do assign T.mem.next (RbNode.setParent nil)
        assign T.mem.next fun nd => { nd with key := strncpy maxKeyLen k.bytes }
        assign T.mem.next fun nd => { nd with value := strncpy maxValueLen v.bytes }
        rest : Prog Rbtree Int).run { T with mem := T.mem.alloc RbNode.zero } =
      rest.run { T with mem := T.mem.alloc (newCell nil k v) } := by
  have hcell := T.mem.alloc_self RbNode.zero
  have hcell₁ := Mem.write_self hcell (RbNode.zero.setParent nil)
  have hcell₂ := Mem.write_self hcell₁
    { RbNode.zero.setParent nil with key := strncpy maxKeyLen k.bytes }
  refine run_bind_of (assign_run (s := { T with mem := T.mem.alloc RbNode.zero }) hcell _) ?_
  refine run_bind_of (assign_run hcell₁ _) (run_bind_of (assign_run hcell₂ _) ?_)
  show rest.run { T with mem := (((T.mem.alloc _).write _ _).write _ _).write _ _ } = _
  rw [Mem.write_write, Mem.write_write, Mem.alloc_write]
  rfl

/-- A `put` of a stored key changes nothing. -/
theorem Stores.putBy_stored (h : Stores T np t m) (rotate : Dir → Ptr → Prog Rbtree Unit)
    {k : CString} (hk : k ∈ m) (alloc : Bool) (v : CString) :
    (putKvRbtreeBy rotate alloc (some k) (some v)).run T = .ok (1, T) := by
  obtain ⟨p, hsearch, hloc⟩ := h.search k
  rcases hloc with ⟨hp, -⟩ | ⟨-, habs⟩
  · exact run_bind_of (run_get T) (run_bind_of hsearch (run_ite_pos hp rfl))
  · exact absurd hk habs

theorem Stores.put_stored (h : Stores T np t m) {k : CString} (hk : k ∈ m) (alloc : Bool)
    (v : CString) : (putKvRbtree alloc (some k) (some v)).run T = .ok (1, T) :=
  h.putBy_stored rbtreeRotate hk alloc v

/-- The state in which a `put` of a new key calls `rbtree_insert`, for the node at `T.mem.next`. -/
def putState (T : Rbtree) (mu : Mutex) (k v : CString) : Rbtree :=
  { T with lock := mu, mem := T.mem.alloc (newCell T.nil k v) }

/-- The statements of a `put` around the insertion. -/
theorem putKvRbtreeBy_run {k : CString} {mu : Mutex} (v : CString)
    (hsearch : (rbtreeSearch k).run T = .ok (T.nil, T)) (hmu : T.lock.lock = .ok mu) :
    (putKvRbtreeBy rotate true (some k) (some v)).run T =
      (do rbtreeInsertBy rotate T.mem.next
          modify fun T => { T with nbElements := T.nbElements + 1 }
          mutexUnlock
          pure 0 : Prog Rbtree Int).run (putState T mu k v) := by
  refine run_bind_of (run_get T) (run_bind_of hsearch (run_ite_neg (by simp) ?_))
  refine run_bind_of (malloc_run T RbNode.zero) (run_ite_neg (Nat.ne_of_gt T.mem.next_pos) ?_)
  refine (newNode_run T T.nil k v).trans ?_
  exact run_bind_of (mutexLock_run hmu) rfl

/-- The new node is none of the tree's. -/
theorem Rep.ne_next (h : Rep T np t) : ∀ q ∈ T.nil :: t.ptrs, q ≠ T.mem.next := by
  intro q hq
  have hsome : ∃ nd, T.mem.cells q = some nd := by
    rcases List.mem_cons.mp hq with rfl | hq
    · exact ⟨_, h.sentinel⟩
    · exact cells_some h.cells q hq
  obtain ⟨nd, hnd⟩ := hsome
  exact Nat.ne_of_lt (Mem.lt_next_of_some hnd)

theorem Stores.putState (h : Stores T np t m) (mu : Mutex) (k v : CString) :
    Stores (KvStore.putState T mu k v) np t m :=
  h.congr rfl rfl (fun q hq => Mem.alloc_of_ne _ (h.rep.ne_next q hq) _)

/-- The search for a key that is not stored ends at the sentinel. -/
theorem Stores.search_absent (h : Stores T np t m) {k : CString} (hk : k ∉ m) :
    (rbtreeSearch k).run T = .ok (T.nil, T) := by
  obtain ⟨p, hsearch, hloc⟩ := h.search k
  rcases hloc with ⟨_, _, _, _, _, _, _, _, _, hlook⟩ | ⟨rfl, -⟩
  · exact absurd (Finmap.mem_of_lookup_eq_some hlook) hk
  · exact hsearch

/-- No entry has the key of a new one. -/
theorem Stores.make_new (h : Stores T np t m) {k : CString} (hk : KeyFits k) (habs : k ∉ m)
    (p : Ptr) (v : CString) : ∀ e ∈ t.toList, e.name ≠ (Entry.make p k v).name := by
  intro e he hname
  rw [Entry.make_name hk] at hname
  exact (h.holds.notMem_iff k).mp habs e.pair (List.mem_map_of_mem he) hname

/-- Without memory a `put` of a new key changes nothing either. -/
theorem Stores.putBy_noAlloc (h : Stores T np t m) (rotate : Dir → Ptr → Prog Rbtree Unit)
    {k : CString} (hk : k ∉ m) (v : CString) :
    (putKvRbtreeBy rotate false (some k) (some v)).run T = .ok (-2, T) := by
  refine run_bind_of (run_get T) (run_bind_of (h.search_absent hk) (run_ite_neg (by simp) ?_))
  exact run_bind_of rfl (run_ite_pos rfl rfl)

theorem Stores.put_noAlloc (h : Stores T np t m) {k : CString} (hk : k ∉ m) (v : CString) :
    (putKvRbtree false (some k) (some v)).run T = .ok (-2, T) :=
  h.putBy_noAlloc rbtreeRotate hk v

/-- A `put` of a new key adds an entry, whatever the value. -/
theorem Stores.putBy (hrot : Rotates rotate) (h : Stores T np t m) (hlock : T.lock ≠ .held)
    {k : CString} (hk : KeyFits k) (habs : k ∉ m) (v : CString) :
    ∃ T' t', (putKvRbtreeBy rotate true (some k) (some v)).run T = .ok (0, T') ∧
      Stores T' np t' (m.insert k (Entry.fieldText v)) ∧
      t'.toList.Perm (Entry.make T.mem.next k v :: t.toList) ∧
      T'.nbElements = T.nbElements + 1 ∧ T'.lock = T.lock ∧ T'.nil = T.nil ∧
      ∀ p, (T'.mem.cells p).isSome → p = T.mem.next ∨ (T.mem.cells p).isSome := by
  obtain ⟨mu, hmu, hunlock⟩ := Mutex.lock_unlock hlock
  have hold := h.rep.ne_next
  have hst₁ := h.putState mu k v
  have hnew := h.make_new hk habs T.mem.next v
  obtain ⟨T₂, t₂, hins, hrep₂, hinv₂, hperm, hk₂⟩ :=
    rbtreeInsert_spec hrot hst₁.rep hst₁.inv (Entry.make_sound hk) (Mem.alloc_self ..) rfl rfl
      (fun hc => hold T.nil (by simp) hc.symm)
      (fun hc => hold _ (List.mem_cons_of_mem _ hc) rfl) hnew
  refine ⟨{ T₂ with nbElements := T₂.nbElements + 1, lock := T₂.lock.unlock }, t₂, ?_,
    ⟨hrep₂.congr rfl rfl (fun _ _ => rfl), hinv₂, ?_⟩, hperm, ?_, ?_, hk₂.nil, ?_⟩
  · rw [putKvRbtreeBy_run v (h.search_absent habs) hmu]
    exact run_bind_of hins (run_bind_of rfl (run_bind_of rfl rfl))
  · have hmap := hperm.map Entry.pair
    rw [List.map_cons, Entry.make_pair hk] at hmap
    exact (h.holds.insert habs (Entry.fieldText v)).perm hmap.symm
  · show T₂.nbElements + 1 = _
    rw [show T₂.nbElements = T.nbElements from hk₂.count]
  · show T₂.lock.unlock = _
    rw [show T₂.lock = mu from hk₂.lock, hunlock]
  · intro p hp
    have hsome : (T₂.mem.cells p).isSome = ((T.mem.alloc (newCell T.nil k v)).cells p).isSome :=
      hk₂.alloc p
    by_cases hnext : p = T.mem.next
    · exact Or.inl hnext
    · rw [Mem.alloc_of_ne _ hnext] at hsome
      exact Or.inr (hsome ▸ hp)

theorem Stores.put (h : Stores T np t m) (hlock : T.lock ≠ .held) {k : CString} (hk : KeyFits k)
    (habs : k ∉ m) (v : CString) :
    ∃ T' t', (putKvRbtree true (some k) (some v)).run T = .ok (0, T') ∧
      Stores T' np t' (m.insert k (Entry.fieldText v)) ∧
      t'.toList.Perm (Entry.make T.mem.next k v :: t.toList) ∧
      T'.nbElements = T.nbElements + 1 ∧ T'.lock = T.lock := by
  obtain ⟨T', t', hrun, hst, hperm, hcount, hlock', -⟩ := h.putBy rotates_rotate hlock hk habs v
  exact ⟨T', t', hrun, hst, hperm, hcount, hlock'⟩

theorem putKvRbtree_spec (h : RbtreeSim T m) {k v : CString} (hk : KeyFits k) (hv : ValueFits v) :
    ∃ T', (putKvRbtree true (some k) (some v)).run T = .ok ((rbtreeRules.put m k v).1, T') ∧
      RbtreeSim T' (rbtreeRules.put m k v).2 ∧ ((rbtreeRules.put m k v).1 ≠ 0 → T' = T) := by
  obtain ⟨np, t, hst, hterm⟩ := h.stores
  by_cases hstored : k ∈ m
  · rw [MapRules.put_stored rfl hstored]
    exact ⟨T, hst.put_stored hstored true v, h, fun _ => rfl⟩
  rw [MapRules.put_new hstored (MapRules.hasRoom_of_unbounded rfl)]
  obtain ⟨T', t', hrun, hst', hperm, hcount, hlock⟩ := hst.put h.lock hk hstored v
  rw [Entry.fieldText_eq hv] at hst'
  refine ⟨T', hrun, ⟨⟨np, t', hst', ?_⟩, ?_, ?_⟩, fun hc => absurd rfl hc⟩
  · intro e he
    rcases List.mem_cons.mp (hperm.mem_iff.mp he) with rfl | he
    · exact Entry.make_terminated hv
    · exact hterm e he
  · rw [hcount, h.count, card_insert_new hstored]
    simp
  · rw [hlock]
    exact h.lock

/-- A `delete` of an absent key changes nothing. -/
theorem Stores.deleteBy_absent (h : Stores T np t m) (rotate : Dir → Ptr → Prog Rbtree Unit)
    {k : CString} (hk : k ∉ m) : (deleteKvRbtreeBy rotate (some k)).run T = .ok (1, T) := by
  exact run_bind_of (run_get T) (run_bind_of (h.search_absent hk) (run_ite_pos rfl rfl))

theorem Stores.delete_absent (h : Stores T np t m) {k : CString} (hk : k ∉ m) :
    (deleteKvRbtree (some k)).run T = .ok (1, T) :=
  h.deleteBy_absent rbtreeRotate hk

/-- The node a `delete` of a stored key detaches, under the lock. -/
theorem Stores.detachBy (hrot : Rotates rotate) (h : Stores T np t m) {k : CString} (hk : k ∈ m)
    (mu : Mutex) :
    ∃ e q T' np' t', e.name = k ∧ (rbtreeSearch k).run T = .ok (e.ptr, T) ∧ e.ptr ≠ T.nil ∧
      (rbtreeDeleteBy rotate e.ptr).run { T with lock := mu } = .ok (q, T') ∧
      Deleted { T with lock := mu } t e q T' np' t' := by
  obtain ⟨p, hsearch, hloc⟩ := h.search k
  rcases hloc with ⟨hp, ctx, c, l, e, r, rfl, hname, rfl, -⟩ | ⟨-, habs⟩
  · have hst₁ : Stores { T with lock := mu } np (fill ctx (.node c l e r)) m :=
      h.congr rfl rfl (fun _ _ => rfl)
    obtain ⟨T', q, np', t', hdel, hd⟩ := rbtreeDelete_spec hrot hst₁.rep hst₁.inv
    exact ⟨e, q, T', np', t', hname, hsearch, hp, hdel, hd⟩
  · exact absurd hk habs

/-- The statements of a `delete` around the detaching. -/
theorem deleteKvRbtreeBy_run {T' : Rbtree} {k : CString} {p q : Ptr} {mu : Mutex} {nd : RbNode}
    (hsearch : (rbtreeSearch k).run T = .ok (p, T)) (hp : p ≠ T.nil) (hmu : T.lock.lock = .ok mu)
    (hdel : (rbtreeDeleteBy rotate p).run { T with lock := mu } = .ok (q, T'))
    (hcell : T'.mem.cells q = some nd) :
    (deleteKvRbtreeBy rotate (some k)).run T =
      .ok (0, { T' with
        nbElements := T'.nbElements - 1, lock := T'.lock.unlock, mem := T'.mem.release q }) := by
  let T₁ : Rbtree := { T' with nbElements := T'.nbElements - 1, lock := T'.lock.unlock }
  refine run_bind_of (run_get T) (run_bind_of hsearch (run_ite_neg hp ?_))
  refine run_bind_of (mutexLock_run hmu) (run_bind_of hdel ?_)
  refine run_bind_of rfl (run_bind_of rfl ?_)
  exact run_bind_of (free_run (s := T₁) hcell) rfl

/-- A `delete` of a stored key takes its entry out; entries may move to other nodes. -/
theorem Stores.deleteBy (hrot : Rotates rotate) (h : Stores T np t m) (hlock : T.lock ≠ .held)
    {k : CString} (hk : k ∈ m) :
    ∃ T' np' t', (deleteKvRbtreeBy rotate (some k)).run T = .ok (0, T') ∧
      Stores T' np' t' (m.erase k) ∧
      (∀ e' ∈ t'.toList, ∃ e ∈ t.toList, e.data = e'.data) ∧
      T'.nbElements = T.nbElements - 1 ∧ T'.lock = T.lock ∧ T'.nil = T.nil ∧
      ∃ q, t.ptrs.Perm (q :: t'.ptrs) ∧
        ∀ p, (T'.mem.cells p).isSome → p ≠ q ∧ (T.mem.cells p).isSome := by
  obtain ⟨mu, hmu, hunlock⟩ := Mutex.lock_unlock hlock
  obtain ⟨e, q, T₂, np', t₂, rfl, hsearch, hp, hdel, hd⟩ := h.detachBy hrot hk mu
  have hrep : Rep { T with lock := mu } np t := h.rep.congr rfl rfl (fun _ _ => rfl)
  obtain ⟨nq, hcell⟩ := hd.cell hrep
  obtain ⟨A, B, hlist, hdata⟩ := hd.entries
  refine ⟨_, np', t₂, deleteKvRbtreeBy_run hsearch hp hmu hdel hcell,
    ⟨(hd.release hrep).congr rfl rfl (fun _ _ => rfl), hd.treeInv h.inv, ?_⟩, ?_, ?_, ?_,
    hd.keeps.nil, q, hd.ptrs, ?_⟩
  · have hold : Holds (A.map Entry.pair ++ (e.name, e.text) :: B.map Entry.pair) m := by
      have := h.holds
      rwa [hlist, List.map_append, List.map_cons] at this
    rw [Entry.map_pair hdata, List.map_append]
    exact hold.erase
  · intro e' he'
    have hmem : e'.data ∈ (A ++ B).map Entry.data := by
      rw [← hdata]
      exact List.mem_map_of_mem he'
    obtain ⟨a, ha, hea⟩ := List.mem_map.mp hmem
    refine ⟨a, ?_, hea⟩
    rw [hlist]
    simp only [List.mem_append, List.mem_cons] at ha ⊢
    tauto
  · show T₂.nbElements - 1 = _
    rw [show T₂.nbElements = T.nbElements from hd.keeps.count]
  · show T₂.lock.unlock = _
    rw [show T₂.lock = mu from hd.keeps.lock, hunlock]
  · intro p hp
    by_cases hpq : p = q
    · subst hpq
      rw [Mem.release_self] at hp
      cases hp
    · rw [Mem.release_of_ne _ hpq, hd.keeps.alloc p] at hp
      exact ⟨hpq, hp⟩

theorem Stores.delete (h : Stores T np t m) (hlock : T.lock ≠ .held) {k : CString} (hk : k ∈ m) :
    ∃ T' np' t', (deleteKvRbtree (some k)).run T = .ok (0, T') ∧
      Stores T' np' t' (m.erase k) ∧
      (∀ e' ∈ t'.toList, ∃ e ∈ t.toList, e.data = e'.data) ∧
      T'.nbElements = T.nbElements - 1 ∧ T'.lock = T.lock := by
  obtain ⟨T', np', t', hrun, hst, hdata, hcount, hlock', -⟩ := h.deleteBy rotates_rotate hlock hk
  exact ⟨T', np', t', hrun, hst, hdata, hcount, hlock'⟩

theorem deleteKvRbtree_spec (h : RbtreeSim T m) (k : CString) :
    ∃ T', (deleteKvRbtree (some k)).run T = .ok ((rbtreeRules.delete m k).1, T') ∧
      RbtreeSim T' (rbtreeRules.delete m k).2 ∧ ((rbtreeRules.delete m k).1 ≠ 0 → T' = T) := by
  obtain ⟨np, t, hst, hterm⟩ := h.stores
  by_cases hk : k ∈ m
  · rw [MapRules.delete_stored hk]
    obtain ⟨T', np', t', hrun, hst', hdata, hcount, hlock⟩ := hst.delete h.lock hk
    refine ⟨T', hrun, ⟨⟨np', t', hst', ?_⟩, ?_, ?_⟩, fun hc => absurd rfl hc⟩
    · intro e' he'
      obtain ⟨e, he, hee⟩ := hdata e' he'
      exact (hterm e he).congr hee
    · have hcard := card_erase_stored hk
      rw [hcount, h.count]
      show _ = ((m.erase k).keys.card : Int)
      omega
    · rw [hlock]
      exact h.lock
  · rw [MapRules.delete_absent hk]
    exact ⟨T, hst.delete_absent hk, h, fun _ => rfl⟩

/-- **Every call answers as the map does**, and one that reports no success changes nothing. -/
theorem rbtreeCall_refines (h : RbtreeSim T m) {c : Call} (hc : c.PutFits) :
    ∃ T', (rbtreeCall c).run T = .ok ((rbtreeRules.step m c).1, T') ∧
      RbtreeSim T' (rbtreeRules.step m c).2 ∧ (¬ c.Succeeds (rbtreeRules.step m c).1 → T' = T) := by
  cases c with
  | put k v =>
      obtain ⟨T', hrun, hsim, hsame⟩ := putKvRbtree_spec h hc.1 hc.2
      exact ⟨T', run_map_of _ hrun, hsim, hsame⟩
  | get k =>
      obtain ⟨mem, v, hrun, hreads, hget⟩ := getKvRbtree_spec h k
      refine ⟨T, run_bind_of hrun ((readAnswer_run hreads T).trans ?_), h, fun _ => rfl⟩
      rw [MapRules.step, hget]
  | count =>
      have hrun : countKvRbtree.run T = .ok (T.nbElements, T) := run_bind_of (run_get T) rfl
      rw [h.count] at hrun
      exact ⟨T, run_map_of _ hrun, h, fun _ => rfl⟩
  | exist k => exact ⟨T, run_map_of _ (existKvRbtree_spec h k), h, fun _ => rfl⟩
  | delete k =>
      obtain ⟨T', hrun, hsim, hsame⟩ := deleteKvRbtree_spec h k
      exact ⟨T', run_map_of _ hrun, hsim, hsame⟩

/-- What `init_rbtree` leaves: a sentinel, and nothing else that is new. -/
def freshTree (T₀ : Rbtree) (mu : Mutex) : Rbtree :=
  { T₀ with
    nil := T₀.mem.next, root := T₀.mem.next, nbElements := 0, lock := mu,
    mem := T₀.mem.alloc (nilCell T₀.mem.next 0) }

theorem initRbtree_run (T₀ : Rbtree) (mu : Mutex) :
    (initRbtree true mu).run T₀ = .ok (0, freshTree T₀ mu) := by
  let nil := T₀.mem.next
  have hcell := T₀.mem.alloc_self RbNode.zero
  have hcell₁ := Mem.write_self hcell (RbNode.zero.setColor BLACK)
  have hcell₂ := Mem.write_self hcell₁ ((RbNode.zero.setColor BLACK).setChild .left nil)
  refine run_bind_of (malloc_run T₀ RbNode.zero) (run_bind_of (run_modify ..) ?_)
  refine run_bind_of (assign_run (s := { T₀ with
    nil := nil, mem := T₀.mem.alloc RbNode.zero }) hcell _) ?_
  refine run_bind_of (assign_run hcell₁ _) (run_bind_of (assign_run hcell₂ _) ?_)
  refine run_bind_of (run_modify ..) ?_
  show Except.ok ((0 : Int), ({ T₀ with
    nil := nil, root := nil, nbElements := 0, lock := mu,
    mem := (((T₀.mem.alloc _).write nil _).write nil _).write nil _ } : Rbtree)) = _
  rw [Mem.write_write, Mem.write_write, Mem.alloc_write]
  rfl

theorem freshTree_stores (T₀ : Rbtree) (mu : Mutex) : Stores (freshTree T₀ mu) 0 .nil ∅ :=
  ⟨⟨Mem.alloc_self .., rfl, trivial, by simp⟩, .nil, .nil⟩

/-- A fresh engine stores the empty map. -/
theorem initRbtree_spec (T₀ : Rbtree) {mu : Mutex} (hmu : mu ≠ .held) :
    ∃ T, (initRbtree true mu).run T₀ = .ok (0, T) ∧ RbtreeSim T ∅ ∧ T.lock = mu :=
  ⟨freshTree T₀ mu, initRbtree_run T₀ mu,
    ⟨⟨0, .nil, freshTree_stores T₀ mu, by simp⟩, rfl, hmu⟩, rfl⟩

end Calls

/-- A run of calls whose strings fit returns the map machine's answers. -/
theorem rbtreeRun_spec (T₀ : Rbtree) {mu : Mutex} (hmu : mu ≠ .held) (calls : List Call)
    (hfit : ∀ c ∈ calls, c.Fits) :
    ∃ T₁ T, (initRbtree true mu).run T₀ = .ok (0, T₁) ∧
      (runCalls rbtreeCall calls).run T₁ = .ok ((runMachine rbtreeRules.step ∅ calls).1, T) ∧
      RbtreeSim T (runMachine rbtreeRules.step ∅ calls).2 := by
  have hcall : ∀ T m c, RbtreeSim T m → c.Fits → ∃ T', (rbtreeCall c).run T =
      .ok ((rbtreeRules.step m c).1, T') ∧ RbtreeSim T' (rbtreeRules.step m c).2 :=
    fun _ _ _ hs hc => (rbtreeCall_refines hs hc.putFits).imp fun _ hT => ⟨hT.1, hT.2.1⟩
  obtain ⟨T₁, hinit, hsim, -⟩ := initRbtree_spec T₀ hmu
  obtain ⟨T, hrun, hsim'⟩ := run_refines hcall calls T₁ ∅ hsim hfit
  exact ⟨T₁, T, hinit, hrun, hsim'⟩

end KvStore
