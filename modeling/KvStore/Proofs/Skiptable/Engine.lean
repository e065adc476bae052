/-
The skip list engine is a finite map with overwrite.

`SkiptableSim S m` relates the engine's state to the map it stores.  Every call answers
as the map does, whatever `rand` returns, except `count`: the counter goes up with every
`put`, also with one that overwrites, so `skiptableCall_refines` says by how much a call
changes it instead.
-/
import KvStore.Proofs.Skiptable.Delete
import KvStore.Spec.MapRules

namespace KvStore

/-- The list `L` in memory stores the map `m`. -/
structure ListStores (S : SkipList) (L : List Tower) (m : Dict CString CString) : Prop where
  rep : SkipRep S L
  holds : Holds (L.map fun e => e.pair) m

/-- The engine stores the map `m` and is ready for the next call. -/
structure SkiptableSim (S : SkipList) (m : Dict CString CString) : Prop where
  stores : ∃ L, ListStores S L m ∧ ∀ e ∈ L, e.Terminated
  lock : S.lock ≠ .held

section Calls

variable {S : SkipList} {L A B : List Tower} {e : Tower} {m : Dict CString CString} {k v : CString}

theorem ListStores.lookup (h : ListStores S L m) (he : e ∈ L) : m.lookup e.name = some e.text :=
  (h.holds.lookup e.name e.text).mp (List.mem_map.mpr ⟨e, he, rfl⟩)

theorem ListStores.notMem (h : ListStores S L m) (habs : ∀ e ∈ L, e.name ≠ k) : k ∉ m := by
  rw [h.holds.notMem_iff]
  intro p hp
  obtain ⟨e, he, rfl⟩ := List.mem_map.mp hp
  exact habs e he

/-- What an operation does not look at. -/
theorem SkipRep.congr {S' : SkipList} (h : SkipRep S L) (hheader : S'.header = S.header)
    (hlevel : S'.level = S.level) (hmem : S'.mem = S.mem) : SkipRep S' L := by
  obtain ⟨level, header, count, lock, mem, rand⟩ := S
  obtain ⟨level', header', count', lock', mem', rand'⟩ := S'
  obtain rfl : header' = header := hheader
  obtain rfl : level' = level := hlevel
  obtain rfl : mem' = mem := hmem
  exact ⟨h.header, h.nodes, h.only, h.chains, h.above, h.nodup, h.heights, h.level_pos, h.level_le,
    h.ascending, h.sound⟩

/-- `find` returns the value field of the entry with the key. -/
theorem ListStores.find (h : ListStores S L m) (k : CString) :
    ∃ r, (SkipList.find (some k)).run S = .ok (r, S) ∧
      ((∃ e ∈ L, r = some e.value.val ∧ m.lookup k = some e.text) ∨ (r = none ∧ k ∉ m)) := by
  obtain ⟨r, hrun, hr⟩ := find_spec h.rep k
  refine ⟨r, hrun, ?_⟩
  rcases hr with ⟨e, he, rfl, rfl⟩ | ⟨habs, rfl⟩
  · exact Or.inl ⟨e, he, rfl, h.lookup he⟩
  · exact Or.inr ⟨rfl, h.notMem habs⟩

/-- `find` reads the map. -/
theorem find_reads (h : SkiptableSim S m) (k : CString) :
    ∃ r, (SkipList.find (some k)).run S = .ok (r, S) ∧
      ((∃ mem v, r = some mem ∧ Reads mem v ∧ m.lookup k = some v) ∨ (r = none ∧ k ∉ m)) := by
  obtain ⟨L, hst, hterm⟩ := h.stores
  obtain ⟨r, hrun, hr⟩ := hst.find k
  refine ⟨r, hrun, ?_⟩
  rcases hr with ⟨e, he, rfl, hlook⟩ | habs
  · exact Or.inl ⟨_, e.text, rfl, hterm e he, hlook⟩
  · exact Or.inr habs

theorem ListStores.exist (h : ListStores S L m) (k : CString) :
    (existKvSkiptable (some k)).run S = .ok (if k ∈ m then 1 else 0, S) := by
  obtain ⟨r, hrun, hr⟩ := h.find k
  refine run_bind_of hrun ?_
  rcases hr with ⟨e, -, rfl, hlook⟩ | ⟨rfl, habs⟩
  · rw [if_pos (Finmap.mem_of_lookup_eq_some hlook)]
    rfl
  · rw [if_neg habs]
    rfl

theorem existKvSkiptable_spec (h : SkiptableSim S m) (k : CString) :
    (existKvSkiptable (some k)).run S = .ok (if k ∈ m then 1 else 0, S) := by
  obtain ⟨L, hst, -⟩ := h.stores
  exact hst.exist k

/-- Inserting puts the pair into the map. -/
theorem SkipInserted.stores {S' : SkipList} {L' : List Tower} {p : Ptr} (hi : SkipInserted p k v L L')
    (h : ListStores S L m) (hk : KeyFits k) (hrep : SkipRep S' L') :
    ListStores S' L' (m.insert k (Entry.fieldText v)) := by
  refine ⟨hrep, ?_⟩
  have hh := h.holds
  rcases hi with ⟨A, e, B, rfl, rfl, rfl⟩ | ⟨A, B, height, rfl, habs, rfl⟩
  · rw [List.map_append, List.map_cons] at hh ⊢
    rw [show (e.withValue v).pair = (e.name, Entry.fieldText v) from
      Entry.withValue_pair (h.rep.sound e (by simp)) hk]
    exact Holds.replace (v := e.text) hh (Entry.fieldText v)
  · refine (hh.insert (h.notMem habs) (Entry.fieldText v)).perm ?_
    rw [List.map_append, List.map_append, List.map_cons,
      show (Entry.make p k v).pair = (k, Entry.fieldText v) from Entry.make_pair hk]
    exact List.perm_middle.symm

theorem SkipInserted.terminated {L' : List Tower} {p : Ptr} (hi : SkipInserted p k v L L')
    (h : ∀ e ∈ L, e.Terminated) (hv : ValueFits v) : ∀ e ∈ L', e.Terminated := by
  intro a ha
  rcases hi with ⟨A, e, B, rfl, -, rfl⟩ | ⟨A, B, height, rfl, -, rfl⟩
  · simp only [List.mem_append, List.mem_cons] at ha h
    rcases ha with ha | rfl | ha
    · exact h a (Or.inl ha)
    · exact Entry.withValue_terminated hv
    · exact h a (Or.inr (Or.inr ha))
  · simp only [List.mem_append, List.mem_cons] at ha h
    rcases ha with ha | rfl | ha
    · exact h a (Or.inl ha)
    · exact Entry.make_terminated hv
    · exact h a (Or.inr ha)

theorem skiptable_put (m : Dict CString CString) (k v : CString) :
    skiptableRules.put m k v = (0, m.insert k v) := by
  by_cases hk : k ∈ m
  · exact MapRules.put_replaces rfl hk v
  · exact MapRules.put_new hk (MapRules.hasRoom_of_unbounded rfl) v

/-- A `put` inserts whatever the value, and counts. -/
theorem ListStores.put (h : ListStores S L m) (hlock : S.lock ≠ .held) (hk : KeyFits k)
    (v : CString) :
    ∃ S' L', (putKvSkiptable true true (some k) (some v)).run S = .ok (0, S') ∧
      ListStores S' L' (m.insert k (Entry.fieldText v)) ∧ SkipInserted S.mem.next k v L L' ∧
      S'.nbElements = S.nbElements + 1 ∧ S'.lock = S.lock := by
  obtain ⟨mu, hmu, hunlock⟩ := Mutex.lock_unlock hlock
  have hrep : SkipRep { S with lock := mu } L := h.rep.congr rfl rfl rfl
  obtain ⟨S₁, L', hins, hrep₁, hkeep, hl⟩ := insert_spec hrep hk v
  let S' : SkipList := { S₁ with nbElements := S₁.nbElements + 1, lock := S₁.lock.unlock }
  refine ⟨S', L', ?_, hl.stores h hk (hrep₁.congr rfl rfl rfl), hl, ?_, ?_⟩
  · refine run_bind_of (mutexLock_run hmu) (run_bind_of hins ?_)
    exact run_bind_of (run_modify ..) (run_bind_of (mutexUnlock_run _) rfl)
  · show S₁.nbElements + 1 = _
    rw [hkeep.count]
  · show S₁.lock.unlock = _
    rw [hkeep.lock, hunlock]

/-- A put without memory replaces the value of a stored key, and otherwise faults. -/
theorem ListStores.put_noAlloc (h : ListStores S L m) (hlock : S.lock ≠ .held) {a b : Bool}
    (hab : ¬ (a = true ∧ b = true)) (v : CString) :
    (k ∈ m → (putKvSkiptable a b (some k) (some v)).run S =
        (putKvSkiptable true true (some k) (some v)).run S) ∧
      (k ∉ m → (putKvSkiptable a b (some k) (some v)).run S = .error .nullDeref) := by
  obtain ⟨mu, hmu, -⟩ := Mutex.lock_unlock hlock
  have hrep : SkipRep { S with lock := mu } L := h.rep.congr rfl rfl rfl
  have hrun : ∀ a b, (putKvSkiptable a b (some k) (some v)).run S =
      (do SkipList.insert a b k v
          modify fun S => { S with nbElements := S.nbElements + 1 }
          mutexUnlock
          return 0 : Prog SkipList Int).run { S with lock := mu } := by
    intro a b
    exact run_bind_of (mutexLock_run hmu) rfl
  rw [hrun a b, hrun true true]
  constructor
  · intro hk
    have hin : ∃ e ∈ L, e.name = k := by
      by_contra hc
      push Not at hc
      exact h.notMem hc hk
    rw [StateT.run_bind, StateT.run_bind, insert_stored hrep hin]
  · intro hk
    refine run_bind_error (insert_noAlloc hrep ?_ hab v)
    intro e he hname
    exact hk (Finmap.mem_of_lookup_eq_some (hname ▸ h.lookup he))

theorem putKvSkiptable_noAlloc (h : SkiptableSim S m) {a b : Bool} (hab : ¬ (a = true ∧ b = true))
    (v : CString) :
    (k ∈ m → (putKvSkiptable a b (some k) (some v)).run S =
        (putKvSkiptable true true (some k) (some v)).run S) ∧
      (k ∉ m → (putKvSkiptable a b (some k) (some v)).run S = .error .nullDeref) := by
  obtain ⟨L, hst, -⟩ := h.stores
  exact hst.put_noAlloc h.lock hab v

theorem putKvSkiptable_spec (h : SkiptableSim S m) (hk : KeyFits k) (hv : ValueFits v) :
    ∃ S', (putKvSkiptable true true (some k) (some v)).run S = .ok (0, S') ∧
      SkiptableSim S' (m.insert k v) ∧ S'.nbElements = S.nbElements + 1 := by
  obtain ⟨L, hst, hterm⟩ := h.stores
  obtain ⟨S', L', hrun, hst', hins, hcount, hlock⟩ := hst.put h.lock hk v
  rw [Entry.fieldText_eq hv] at hst'
  exact ⟨S', hrun, ⟨⟨L', hst', hins.terminated hterm hv⟩, by rw [hlock]; exact h.lock⟩, hcount⟩

/-- A `delete` takes the entry out and counts down, or changes nothing. -/
theorem ListStores.delete (h : ListStores S L m) (k : CString) :
    ∃ S' L', (deleteKvSkiptable (some k)).run S = .ok ((skiptableRules.delete m k).1, S') ∧
      ListStores S' L' (skiptableRules.delete m k).2 ∧ (∀ e ∈ L', e ∈ L) ∧
      S'.nbElements = S.nbElements + (if k ∈ m then -1 else 0) ∧ S'.lock = S.lock ∧
      (k ∉ m → S' = S) := by
  obtain ⟨r, hfind, hr⟩ := h.find k
  rcases hr with ⟨_, -, rfl, hlook⟩ | ⟨rfl, habs⟩
  · have hk := Finmap.mem_of_lookup_eq_some hlook
    obtain ⟨S₁, L', hdel, hrep₁, hkeep, hl⟩ := delete_spec h.rep k
    rcases hl with ⟨A, e, B, rfl, rfl, rfl⟩ | ⟨habs, -⟩
    swap
    · exact absurd hk (h.notMem habs)
    have hold : Holds (A.map (fun e => e.pair) ++ (e.name, e.text) :: B.map fun e => e.pair) m := by
      have := h.holds
      rwa [List.map_append, List.map_cons] at this
    rw [MapRules.delete_stored hk, if_pos hk]
    refine ⟨{ S₁ with nbElements := S₁.nbElements - 1 }, A ++ B, ?_,
      ⟨hrep₁.congr rfl rfl rfl, ?_⟩, ?_, ?_, hkeep.lock, fun hc => absurd hk hc⟩
    · exact run_bind_of hfind (run_bind_of hdel (run_bind_of (run_modify ..) rfl))
    · rw [List.map_append]
      exact hold.erase
    · intro a ha
      simp only [List.mem_append, List.mem_cons] at ha ⊢
      tauto
    · show S₁.nbElements - 1 = _
      rw [hkeep.count]
      rfl
  · rw [MapRules.delete_absent habs, if_neg habs]
    exact ⟨S, L, run_bind_of hfind rfl, h, fun _ he => he, by simp, rfl, fun _ => rfl⟩

theorem deleteKvSkiptable_spec (h : SkiptableSim S m) (k : CString) :
    ∃ S', (deleteKvSkiptable (some k)).run S = .ok ((skiptableRules.delete m k).1, S') ∧
      SkiptableSim S' (skiptableRules.delete m k).2 ∧
      S'.nbElements = S.nbElements + (if k ∈ m then -1 else 0) ∧ (k ∉ m → S' = S) := by
  obtain ⟨L, hst, hterm⟩ := h.stores
  obtain ⟨S', L', hrun, hst', hsub, hcount, hlock, hsame⟩ := hst.delete k
  exact ⟨S', hrun, ⟨⟨L', hst', fun e he => hterm e (hsub e he)⟩, by rw [hlock]; exact h.lock⟩,
    hcount, hsame⟩

/--
**Every call but `count` answers as the map does**, and one that reports no success changes
nothing.
-/
theorem skiptableCall_refines (h : SkiptableSim S m) {c : Call} (hc : c.PutFits)
    (hne : c ≠ .count) :
    ∃ S', (skiptableCall c).run S = .ok ((skiptableRules.step m c).1, S') ∧
      SkiptableSim S' (skiptableRules.step m c).2 ∧
      S'.nbElements = S.nbElements + countChange m c ∧
      (¬ c.Succeeds (skiptableRules.step m c).1 → S' = S) := by
  cases c with
  | put k v =>
      obtain ⟨S', hrun, hsim, hcount⟩ := putKvSkiptable_spec h hc.1 hc.2
      rw [MapRules.step, skiptable_put]
      exact ⟨S', run_map_of _ hrun, hsim, hcount, fun hc => absurd rfl hc⟩
  | get k =>
      obtain ⟨r, hrun, hr⟩ := find_reads h k
      refine ⟨S, run_bind_of hrun ?_, h, by simp [countChange], fun _ => rfl⟩
      rcases hr with ⟨mem, v, rfl, hreads, hlook⟩ | ⟨rfl, habs⟩
      · rw [readAnswer_run hreads, MapRules.step, MapRules.get_stored hlook]
      · rw [MapRules.step, MapRules.get_absent habs]
        rfl
  | count => exact absurd rfl hne
  | exist k =>
      exact ⟨S, run_map_of _ (existKvSkiptable_spec h k), h, by simp [countChange], fun _ => rfl⟩
  | delete k =>
      obtain ⟨S', hrun, hsim, hcount, hsame⟩ := deleteKvSkiptable_spec h k
      refine ⟨S', run_map_of _ hrun, hsim, hcount, ?_⟩
      intro hfail
      refine hsame ?_
      intro hk
      rw [MapRules.step, MapRules.delete_stored hk] at hfail
      exact hfail rfl

/-- A fresh engine has a header of full height and no entries. -/
theorem initSkiptable_rep (S₀ : SkipList) (mu : Mutex) :
    ∃ S, (initSkiptable true true mu).run S₀ = .ok (0, S) ∧ SkipRep S [] ∧ S.lock = mu ∧
      S.nbElements = S₀.nbElements := by
  let nd := newNode CString.empty CString.empty maxLevel
  have hcell := S₀.mem.alloc_self nd
  refine ⟨{ S₀ with level := 1, header := S₀.mem.next, lock := mu, mem := S₀.mem.alloc nd }, ?_, ?_,
    rfl, rfl⟩
  · refine run_bind_of (run_modify ..) (run_bind_of (createNode_run ..) ?_)
    exact run_bind_of (run_modify ..) rfl
  · refine ⟨⟨nd.key, nd.value, ?_⟩, by simp, ?_, ?_, by simp, by simp, by simp, le_refl 1,
      Nat.succ_le_succ (Nat.zero_le 5), List.Pairwise.nil, by simp⟩
    · unfold shapeAt
      rw [hcell]
      rfl
    · intro p hp hsome
      have hp' : S₀.mem.next < p := hp
      rw [Mem.alloc_of_ne _ (Nat.ne_of_gt hp'), S₀.mem.fresh p (Nat.le_of_lt hp')] at hsome
      cases hsome
    · intro i hi
      show forwardAt (S₀.mem.alloc nd) i S₀.mem.next = some 0
      unfold forwardAt
      rw [hcell]
      show (List.replicate maxLevel 0)[i]? = some 0
      rw [List.getElem?_replicate, if_pos hi]

theorem initSkiptable_spec (S₀ : SkipList) {mu : Mutex} (hmu : mu ≠ .held) :
    ∃ S, (initSkiptable true true mu).run S₀ = .ok (0, S) ∧ SkiptableSim S ∅ ∧ S.lock = mu ∧
      S.nbElements = S₀.nbElements := by
  obtain ⟨S, hrun, hrep, hlock, hcount⟩ := initSkiptable_rep S₀ mu
  exact ⟨S, hrun, ⟨⟨[], ⟨hrep, Holds.nil⟩, by simp⟩, by rw [hlock]; exact hmu⟩, hlock, hcount⟩

end Calls

/-! ### Over whole runs -/

theorem skiptableRun_spec (S₀ : SkipList) {mu : Mutex} (hmu : mu ≠ .held) (calls : List Call)
    (hfit : ∀ c ∈ calls, c.Fits ∧ c ≠ .count) :
    ∃ S₁ S, (initSkiptable true true mu).run S₀ = .ok (0, S₁) ∧
      (runCalls skiptableCall calls).run S₁ =
        .ok ((runMachine skiptableRules.step ∅ calls).1, S) := by
  have hcall : ∀ S m c, SkiptableSim S m → c.Fits ∧ c ≠ .count → ∃ S', (skiptableCall c).run S =
      .ok ((skiptableRules.step m c).1, S') ∧ SkiptableSim S' (skiptableRules.step m c).2 := by
    intro S m c hs hc
    obtain ⟨S', hrun, hsim, -⟩ := skiptableCall_refines hs hc.1.putFits hc.2
    exact ⟨S', hrun, hsim⟩
  obtain ⟨S₁, hinit, hsim, -⟩ := initSkiptable_spec S₀ hmu
  obtain ⟨S, hrun, -⟩ := run_refines hcall calls S₁ ∅ hsim hfit
  exact ⟨S₁, S, hinit, hrun⟩

/--
**The skip list engine refines a finite map with overwrite, whatever the coin flips**: from
a fresh engine every run of puts, gets, exists and deletes whose strings fit returns, with
the answers of the map machine, and other results of `rand` give the same answers.
-/
theorem skiptable_refines_map (S₀ : SkipList) (mu : Mutex) (hmu : mu ≠ .held) (calls : List Call)
    (hfit : ∀ c ∈ calls, c.Fits ∧ c ≠ .count) :
    ∃ S₁ S, (initSkiptable true true mu).run S₀ = .ok (0, S₁) ∧
      (runCalls skiptableCall calls).run S₁ =
        .ok ((runMachine skiptableRules.step ∅ calls).1, S) ∧
      ∀ rand : Nat → Nat, ∃ S₁' S',
        (initSkiptable true true mu).run { S₀ with rand := rand } = .ok (0, S₁') ∧
        (runCalls skiptableCall calls).run S₁' =
          .ok ((runMachine skiptableRules.step ∅ calls).1, S') := by
  obtain ⟨S₁, S, hinit, hrun⟩ := skiptableRun_spec S₀ hmu calls hfit
  refine ⟨S₁, S, hinit, hrun, ?_⟩
  intro rand
  exact skiptableRun_spec { S₀ with rand := rand } hmu calls hfit

/-- A value is replaced and a deleted key is gone, with towers of any height. -/
theorem skiptable_refines_map_overwrite :
    let k : CString := ⟨[107], by decide⟩
    let v : CString := ⟨[118], by decide⟩
    let calls : List Call := [.put k k, .put k v, .get k, .delete k, .exist k]
    let S₀ := SkipList.static (fun _ => 1)
    ∃ S₁ S, (initSkiptable true true .free).run S₀ = .ok (0, S₁) ∧
      (runCalls skiptableCall calls).run S₁ =
        .ok ([.int 0, .int 0, .str (some v), .int 0, .int 0], S) ∧
      ∀ rand : Nat → Nat, ∃ S₁' S',
        (initSkiptable true true .free).run { S₀ with rand := rand } = .ok (0, S₁') ∧
        (runCalls skiptableCall calls).run S₁' =
          .ok ([.int 0, .int 0, .str (some v), .int 0, .int 0], S') :=
  skiptable_refines_map (SkipList.static fun _ => 1) .free (by decide) _ (by decide)

end KvStore
