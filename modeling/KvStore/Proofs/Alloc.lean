/-
Puts that run out of memory.

The array, the tree and the second hash test every allocation before they change anything,
and return an error code with the state as it was.  The chained hash does not test whether
it got a node, and neither does the skip list's `insert`, which has raised the level by
then: both dereference the null pointer, unless the key is stored and no node is needed.
-/
import KvStore.Proofs.Accept
import KvStore.Proofs.Agree

namespace KvStore

/-- Which of the allocations of a put succeed, in the order they are made. -/
structure Allocs where
  first : Bool
  second : Bool
  third : Bool

def Allocs.all : Allocs := ⟨true, true, true⟩

/-- The engine's put function. -/
def Store.put (e : Engine) (a : Allocs) (k v : CString) : Prog Store Int :=
  match e with
  | .array => onArray (kvsArraySet a.first a.second (some k) (some v))
  | .rbtree => onTree (putKvRbtree a.first (some k) (some v))
  | .hash => onHash (putKvHashtable a.first (some k) (some v))
  | .dhash => onDhash (putKvDhashtable a.first a.second a.third (some k) (some v))
  | .skiptable => onTable (putKvSkiptable a.first a.second (some k) (some v))

/-- The put returns, and has stored the pair or reports an error and has changed nothing. -/
def PutAtomic (e : Engine) (s : Store) (a : Allocs) (k v : CString) : Prop :=
  ∃ r s', (Store.put e a k v).run s = .ok (r, s') ∧
    ((r = 0 ∧ Gives (Store.call e (.get k)) s' (.str (some v))) ∨ (r ≠ 0 ∧ s' = s))

/--
The put does not need memory that it does not get: it needs none in the chained hash and
the skip list if the key is stored.
-/
def MemoryThere (e : Engine) (s : Store) (a : Allocs) (k : CString) : Prop :=
  match e with
  | .array | .rbtree | .dhash => True
  | .hash => s.hash.lock ≠ .held ∧ (Gives (Store.exist .hash k) s 1 ∨ a.first = true)
  | .skiptable => Gives (Store.exist .skiptable k) s 1 ∨ (a.first = true ∧ a.second = true)

/-- One call of the engine, with the allocations that succeed if it is a put. -/
def Store.allocCall (e : Engine) (p : Allocs × Call) : Prog Store Answer :=
  match p.2 with
  | .put k v => Answer.int <$> Store.put e p.1 k v
  | c => Store.call e c

/-! ### The array and the second hash -/

theorem kvsArraySet_noAlloc {A : ArrayTable} {m : Dict CString CString} (h : ArraySim A m)
    {a b : Bool} (hab : ¬ (a = true ∧ b = true)) (k v : CString) :
    (kvsArraySet a b (some k) (some v)).run A = .ok (-1, A) := by
  have hexist := kvsArrayExist_spec h k
  by_cases hfull : A.count = kvsArrayItemSize - 1
  · exact run_bind_of (run_get A) (run_ite_pos hfull rfl)
  refine run_bind_of (run_get A) (run_ite_neg hfull (run_bind_of hexist ?_))
  by_cases hk : k ∈ m
  · rw [if_pos hk]
    exact run_ite_pos (by decide) rfl
  rw [if_neg hk]
  refine run_ite_neg (by decide) ?_
  cases a with
  | false => exact run_ite_pos rfl rfl
  | true =>
      cases b with
      | false => exact run_ite_neg (by decide) (run_ite_pos rfl rfl)
      | true => exact absurd ⟨rfl, rfl⟩ hab

theorem putKvDhashtable_noAlloc (D : DhashTable) {a b c : Bool}
    (habc : ¬ (a = true ∧ b = true ∧ c = true)) (k v : CString) :
    (putKvDhashtable a b c (some k) (some v)).run D = .ok (-1, D) := by
  refine run_bind_of rfl ?_
  cases a with
  | false => exact run_ite_pos rfl rfl
  | true =>
      refine run_ite_neg (by decide) (run_bind_of rfl (run_ite_pos ?_ rfl))
      cases b with
      | false => exact Or.inl rfl
      | true =>
          cases c with
          | false => exact Or.inr rfl
          | true => exact absurd ⟨rfl, rfl, rfl⟩ habc

/-! ### The chained hash -/

section Hash

variable {H : Hashtable} {m : Dict CString CString} {k : CString}

/-- A put without memory refuses a stored key, and otherwise writes through a null pointer. -/
theorem putKvHashtable_noAlloc (h : HashSim H m) (hs : Hashable k) (v : CString) :
    (putKvHashtable false (some k) (some v)).run H =
      if k ∈ m then .ok (1, H) else .error .nullDeref := by
  by_cases hk : k ∈ m
  · rw [if_pos hk]
    exact putKvHashtable_stored h hs hk false v
  · obtain ⟨t, ht, hc, hh⟩ := h.table
    obtain ⟨i, hi, hidx⟩ := hs
    obtain ⟨mu, hlock, -⟩ := Mutex.lock_unlock h.lock
    rw [if_neg hk, putKvHashtable_start ht hi hidx hlock, putIntoChain]
    rcases findNode_spec k (hc.slot hi) with ⟨A, node, B, hchain, rfl, -⟩ | ⟨-, hfind⟩
    · have hmem : node ∈ t[i] := by rw [hchain]; simp
      exact absurd (Finmap.mem_of_lookup_eq_some (lookup_of_slot hh hi hmem)) hk
    · rw [hfind]
      rfl

/-- With the mutex held a put blocks, if it gets as far. -/
theorem putKvHashtable_held (hheld : H.lock = .held) (alloc : Bool) (k v : CString) :
    ¬ ∃ r H', (putKvHashtable alloc (some k) (some v)).run H = .ok (r, H') := by
  rintro ⟨r, H', hrun⟩
  exact (slot_of_run hrun).1 hheld

end Hash

/-! ### One put -/

section Put

variable {s s' : Store} {e : Engine} {a : Allocs} {k v : CString} {r : Int}

theorem PutAtomic.of_run (hrun : (Store.put e a k v).run s = .ok (r, s'))
    (hzero : r = 0 → Gives (Store.call e (.get k)) s' (.str (some v))) (hfail : r ≠ 0 → s' = s) :
    PutAtomic e s a k v := by
  refine ⟨r, s', hrun, ?_⟩
  by_cases hr : r = 0
  · exact Or.inl ⟨hr, hzero hr⟩
  · exact Or.inr ⟨hr, hfail hr⟩

theorem PutAtomic.not_of_error {f : Fault} (hrun : (Store.put e a k v).run s = .error f) :
    ¬ PutAtomic e s a k v := by
  rintro ⟨r, s', hok, -⟩
  rw [hrun] at hok
  cases hok

theorem array_putAtomic {m : Dict CString CString} (h : ArraySim s.array m) :
    PutAtomic .array s a k v := by
  by_cases ha : a.first = true ∧ a.second = true
  · obtain ⟨A, hrun, hsim, hsame⟩ := kvsArraySet_spec h k v
    have hput : (kvsArraySet a.first a.second (some k) (some v)).run s.array =
        .ok ((arrayRules.put m k v).1, A) := by
      rw [ha.1, ha.2]
      exact hrun
    refine PutAtomic.of_run (zoom_run hput) ?_ (fun hr => by rw [hsame hr])
    intro hr
    rw [MapRules.put_accepted (by decide) hr] at hsim
    have hget := kvsArrayGet_spec hsim k
    rw [MapRules.get_stored (Finmap.lookup_insert m)] at hget
    exact ⟨_, zoom_run (run_map_of _ hget)⟩
  · exact PutAtomic.of_run (zoom_run (kvsArraySet_noAlloc h ha k v)) (fun hr => by cases hr)
      (fun _ => rfl)

theorem dhash_putAtomic {st : Stacks} (h : DhashSim s.dhash st) : PutAtomic .dhash s a k v := by
  by_cases ha : a.first = true ∧ a.second = true ∧ a.third = true
  · obtain ⟨D, hrun, hsim⟩ := putKvDhashtable_spec h k v
    have hput : (putKvDhashtable a.first a.second a.third (some k) (some v)).run s.dhash =
        .ok (0, D) := by
      rw [ha.1, ha.2.1, ha.2.2]
      exact hrun
    refine PutAtomic.of_run (zoom_run hput) ?_ (fun hr => absurd rfl hr)
    intro _
    have hget := getKvDhashtable_spec hsim k
    rw [Stacks.push, Stacks.stack_insert, if_pos rfl] at hget
    exact ⟨_, zoom_run (run_map_of _ hget)⟩
  · exact PutAtomic.of_run (zoom_run (putKvDhashtable_noAlloc s.dhash ha k v))
      (fun hr => by cases hr) (fun _ => rfl)

theorem rbtree_putAtomic {m : Dict CString CString} (h : RbtreeSim s.tree m) (hk : KeyFits k)
    (hv : ValueFits v) : PutAtomic .rbtree s a k v := by
  obtain ⟨np, t, hst, -⟩ := h.stores
  by_cases ha : a.first = true
  · obtain ⟨T, hrun, hsim, hsame⟩ := putKvRbtree_spec h hk hv
    have hput : (putKvRbtree a.first (some k) (some v)).run s.tree =
        .ok ((rbtreeRules.put m k v).1, T) := by
      rw [ha]
      exact hrun
    refine PutAtomic.of_run (zoom_run hput) ?_ (fun hr => by rw [hsame hr])
    intro hr
    rw [MapRules.put_accepted (by decide) hr] at hsim
    obtain ⟨T', hget, -⟩ := rbtreeCall_refines hsim (c := .get k) trivial
    rw [MapRules.step, MapRules.get_stored (Finmap.lookup_insert m)] at hget
    exact ⟨_, zoom_run hget⟩
  · rw [Bool.not_eq_true] at ha
    by_cases hstored : k ∈ m
    · exact PutAtomic.of_run (zoom_run (hst.put_stored hstored a.first v)) (fun hr => by cases hr)
        (fun _ => rfl)
    · have hput : (putKvRbtree a.first (some k) (some v)).run s.tree = .ok (-2, s.tree) := by
        rw [ha]
        exact hst.put_noAlloc hstored v
      exact PutAtomic.of_run (zoom_run hput) (fun hr => by cases hr) (fun _ => rfl)

theorem hash_putAtomic_iff {m : Dict CString CString} (h : HashSim s.hash m) (hk : KeyFits k)
    (hv : ValueFits v) (hs : Hashable k) :
    PutAtomic .hash s a k v ↔ (k ∈ m ∨ a.first = true) := by
  by_cases ha : a.first = true
  · refine iff_of_true ?_ (Or.inr ha)
    obtain ⟨H, hrun, hsim, heff⟩ := putKvHashtable_spec h hk hv hs
    have hput : (putKvHashtable a.first (some k) (some v)).run s.hash =
        .ok ((hashRules.put m k v).1, H) := by
      rw [ha]
      exact hrun
    refine PutAtomic.of_run (zoom_run hput) ?_ ?_
    · intro hr
      rw [MapRules.put_accepted (by decide) hr] at hsim
      obtain ⟨H', hget, -⟩ := hashCall_refines hsim (c := .get k) hs (fun _ hc => by cases hc)
      rw [MapRules.step, MapRules.get_stored (Finmap.lookup_insert m)] at hget
      exact ⟨_, zoom_run hget⟩
    · intro hr
      rcases heff with ⟨-, rfl⟩ | ⟨hzero, -⟩
      · rfl
      · exact absurd (Answer.int.inj hzero) hr
  · have hrun : (putKvHashtable a.first (some k) (some v)).run s.hash =
        if k ∈ m then .ok (1, s.hash) else .error .nullDeref := by
      rw [Bool.not_eq_true _ |>.mp ha]
      exact putKvHashtable_noAlloc h hs v
    by_cases hstored : k ∈ m
    · rw [if_pos hstored] at hrun
      exact iff_of_true (PutAtomic.of_run (zoom_run hrun) (fun hr => by cases hr) (fun _ => rfl))
        (Or.inl hstored)
    · rw [if_neg hstored] at hrun
      exact iff_of_false (PutAtomic.not_of_error (zoom_error hrun)) (fun hc => hc.elim hstored ha)

theorem skiptable_putAtomic_iff {m : Dict CString CString} (h : SkiptableSim s.table m)
    (hk : KeyFits k) (hv : ValueFits v) :
    PutAtomic .skiptable s a k v ↔ (k ∈ m ∨ (a.first = true ∧ a.second = true)) := by
  obtain ⟨S, hrun, hsim, -⟩ := putKvSkiptable_spec h hk hv
  have hatomic : (putKvSkiptable a.first a.second (some k) (some v)).run s.table = .ok (0, S) →
      PutAtomic .skiptable s a k v := by
    intro hput
    refine PutAtomic.of_run (zoom_run hput) ?_ (fun hr => absurd rfl hr)
    intro _
    obtain ⟨S', hget, -⟩ := skiptableCall_refines hsim (c := .get k) trivial (by simp)
    rw [MapRules.step, MapRules.get_stored (Finmap.lookup_insert m)] at hget
    exact ⟨_, zoom_run hget⟩
  by_cases ha : a.first = true ∧ a.second = true
  · refine iff_of_true (hatomic ?_) (Or.inr ha)
    rw [ha.1, ha.2]
    exact hrun
  · obtain ⟨hsame, herr⟩ := putKvSkiptable_noAlloc (k := k) h ha v
    by_cases hstored : k ∈ m
    · exact iff_of_true (hatomic ((hsame hstored).trans hrun)) (Or.inl hstored)
    · exact iff_of_false (PutAtomic.not_of_error (zoom_error (herr hstored)))
        (fun hc => hc.elim hstored ha)

/-- **A put is atomic exactly when it does not need memory that it does not get.** -/
theorem putAtomic_iff (h : StoreKept s) (hfit : (Call.put k v).FitsIn e)
    (hs : e = .hash → Hashable k) : PutAtomic e s a k v ↔ MemoryThere e s a k := by
  obtain ⟨⟨m₀, harray⟩, ⟨m₁, htree⟩, hhash, ⟨st, hdhash⟩, ⟨m₃, htable⟩⟩ := h
  cases e with
  | array => exact iff_of_true (array_putAtomic harray) trivial
  | rbtree => exact iff_of_true (rbtree_putAtomic htree hfit.1 hfit.2) trivial
  | hash =>
      rw [MemoryThere]
      rcases hhash with ⟨m, hsim⟩ | hheld
      · have hexist : Gives (Store.exist .hash k) s 1 ↔ k ∈ m := by
          rw [Store.exist, onHash, Gives.zoom, Gives, existKvHashtable_spec hsim (hs rfl)]
          by_cases hk : k ∈ m
          · simp [hk]
          · simp [hk]
        rw [hash_putAtomic_iff hsim hfit.1 hfit.2 (hs rfl), hexist]
        exact (and_iff_right hsim.lock).symm
      · refine iff_of_false ?_ (fun hc => hc.1 hheld)
        rintro ⟨r, s', hrun, -⟩
        obtain ⟨H, hH, -⟩ := zoom_inv hrun
        exact putKvHashtable_held hheld a.first k v ⟨r, H, hH⟩
  | dhash => exact iff_of_true (dhash_putAtomic hdhash) trivial
  | skiptable =>
      have hexist : Gives (Store.exist .skiptable k) s 1 ↔ k ∈ m₃ := by
        rw [Store.exist, onTable, Gives.zoom, Gives, existKvSkiptable_spec htable]
        by_cases hk : k ∈ m₃
        · simp [hk]
        · simp [hk]
      rw [MemoryThere, skiptable_putAtomic_iff htable hfit.1 hfit.2, hexist]

/-- A put that returns has changed nothing, or done what it does with enough memory. -/
theorem put_run_cases (h : StoreKept s) (hrun : (Store.put e a k v).run s = .ok (r, s')) :
    s' = s ∨ (Store.put e .all k v).run s = .ok (r, s') := by
  obtain ⟨⟨m₀, harray⟩, ⟨m₁, htree⟩, hhash, -, ⟨m₃, htable⟩⟩ := h
  obtain ⟨a₁, a₂, a₃⟩ := a
  cases e with
  | array =>
      by_cases ha : a₁ = true ∧ a₂ = true
      · obtain ⟨rfl, rfl⟩ := ha
        exact Or.inr hrun
      · obtain ⟨A, hA, rfl⟩ := zoom_inv hrun
        rw [kvsArraySet_noAlloc harray ha] at hA
        cases hA
        exact Or.inl rfl
  | rbtree =>
      cases a₁ with
      | true => exact Or.inr hrun
      | false =>
          obtain ⟨T, hT, rfl⟩ := zoom_inv hrun
          obtain ⟨np, t, hst, -⟩ := htree.stores
          by_cases hk : k ∈ m₁
          · rw [hst.put_stored hk] at hT
            cases hT
            exact Or.inl rfl
          · rw [hst.put_noAlloc hk] at hT
            cases hT
            exact Or.inl rfl
  | hash =>
      cases a₁ with
      | true => exact Or.inr hrun
      | false =>
          obtain ⟨H, hH, rfl⟩ := zoom_inv hrun
          obtain ⟨hlock, hs⟩ := slot_of_run hH
          obtain ⟨m, hsim⟩ : ∃ m, HashSim s.hash m := hhash.resolve_right hlock
          rw [putKvHashtable_noAlloc hsim hs] at hH
          by_cases hk : k ∈ m
          · rw [if_pos hk] at hH
            cases hH
            exact Or.inl rfl
          · rw [if_neg hk] at hH
            cases hH
  | dhash =>
      by_cases ha : a₁ = true ∧ a₂ = true ∧ a₃ = true
      · obtain ⟨rfl, rfl, rfl⟩ := ha
        exact Or.inr hrun
      · obtain ⟨D, hD, rfl⟩ := zoom_inv hrun
        rw [putKvDhashtable_noAlloc s.dhash ha] at hD
        cases hD
        exact Or.inl rfl
  | skiptable =>
      by_cases ha : a₁ = true ∧ a₂ = true
      · obtain ⟨rfl, rfl⟩ := ha
        exact Or.inr hrun
      · obtain ⟨S, hS, rfl⟩ := zoom_inv hrun
        obtain ⟨hsame, herr⟩ := putKvSkiptable_noAlloc (k := k) htable ha v
        by_cases hk : k ∈ m₃
        · exact Or.inr (zoom_run ((hsame hk).symm.trans hS))
        · rw [herr hk] at hS
          cases hS

theorem put_all_call (hrun : (Store.put e .all k v).run s = .ok (r, s')) :
    (Store.call e (.put k v)).run s = .ok (.int r, s') := by
  cases e <;> obtain ⟨t, ht, rfl⟩ := zoom_inv hrun <;> exact zoom_run (run_map_of _ ht)

theorem StoreKept.allocCall (h : StoreKept s) {p : Allocs × Call} (hp : p.2.FitsIn e) {r : Answer}
    (hrun : (Store.allocCall e p).run s = .ok (r, s')) : StoreKept s' := by
  obtain ⟨a, c⟩ := p
  cases c with
  | put k v =>
      obtain ⟨i, hput, rfl⟩ := run_map_inv hrun
      rcases put_run_cases h hput with rfl | hall
      · exact h
      · exact h.call hp (put_all_call hall)
  | get | count | exist | delete => exact h.call hp hrun

end Put

/--
**After every run of an engine's calls, some of which ran out of memory, a put is atomic
exactly when it does not need memory that it does not get**: always in the array, the tree
and the second hash, and in the others if the key is stored or all allocations succeed.
-/
theorem put_atomic_iff (rand : Nat → Nat) (mu : Mutex) (hmu : mu ≠ .held) :
    ∃ s₀, (initKvengine (Vector.replicate maxTableSize []) mu).run (Store.static rand) =
        .ok ((), s₀) ∧
      ∀ (e : Engine) (calls : List (Allocs × Call)) (rs : List Answer) (s : Store),
        (∀ p ∈ calls, p.2.FitsIn e) → (runCalls (Store.allocCall e) calls).run s₀ = .ok (rs, s) →
        ∀ (a : Allocs) (k v : CString), (Call.put k v).FitsIn e → (e = .hash → Hashable k) →
          (PutAtomic e s a k v ↔ MemoryThere e s a k) := by
  obtain ⟨s₀, hinit, hfresh⟩ := initKvengine_spec rand mu hmu
  refine ⟨s₀, hinit, ?_⟩
  intro e calls rs s hfit hrun a k v hput hs
  refine putAtomic_iff (runCalls_keeps (P := StoreKept) ?_ (hfresh.kept hmu) hfit hrun) hput hs
  intro s p r s' h hp hcall
  exact h.allocCall hp hcall

/-- A put into the fresh tree whose `malloc` fails. -/
theorem put_atomic_iff_rbtree :
    let k : CString := ⟨[107], by decide⟩
    ∃ s₀, (initKvengine (Vector.replicate maxTableSize []) .free).run (Store.static fun _ => 0) =
        .ok ((), s₀) ∧
      (PutAtomic .rbtree s₀ ⟨false, false, false⟩ k k ↔
        MemoryThere .rbtree s₀ ⟨false, false, false⟩ k) := by
  intro k
  obtain ⟨s₀, hinit, h⟩ := put_atomic_iff (fun _ => 0) .free (by decide)
  have hk : (Call.put k k).PutFits := by decide
  exact ⟨s₀, hinit, h .rbtree [] [] s₀ (by simp) rfl _ k k hk (fun hc => by cases hc)⟩

/-- Without memory, puts into the fresh chained hash and the fresh skip list fault. -/
theorem put_without_memory_faults :
    let k : CString := ⟨[107], by decide⟩
    let a : Allocs := ⟨false, false, false⟩
    ∃ s₀, (initKvengine (Vector.replicate maxTableSize []) .free).run (Store.static fun _ => 0) =
        .ok ((), s₀) ∧
      (Store.put .hash a k k).run s₀ = .error .nullDeref ∧
      (Store.put .skiptable a k k).run s₀ = .error .nullDeref ∧
      ¬ PutAtomic .hash s₀ a k k ∧ ¬ PutAtomic .skiptable s₀ a k k := by
  intro k a
  obtain ⟨s₀, hinit, hfresh⟩ := initKvengine_spec (fun _ => 0) .free (by decide)
  have hsim : HashSim s₀.hash ∅ := by
    rw [hfresh.hash]
    exact HashSim.fresh (by decide)
  have hs : Hashable k := hashable_ascii (by decide) (by decide)
  have hhash := putKvHashtable_noAlloc hsim hs k
  rw [if_neg Finmap.notMem_empty] at hhash
  have htable := (putKvSkiptable_noAlloc (k := k) (a := false) (b := false) hfresh.table
    (by decide) k).2 Finmap.notMem_empty
  have hhash' : (Store.put .hash a k k).run s₀ = .error .nullDeref := zoom_error hhash
  have htable' : (Store.put .skiptable a k k).run s₀ = .error .nullDeref := zoom_error htable
  exact ⟨s₀, hinit, hhash', htable', PutAtomic.not_of_error hhash',
    PutAtomic.not_of_error htable'⟩

end KvStore
