/-
A pair that was accepted is there.

The three engines with fixed key and value arrays answer `get` and `exist` out of the map
they store (`Answers`).  A put that answers 0 inserted its pair into this map, so that the
answers for its key are the new ones and those for any other key are the old ones.  This
needs that the strings of all puts so far fit their arrays: `strncpy` leaves a string that
does not without its terminator.

A `delete` of the chained hash can return with the mutex held.  No call but `count` returns
after that, so nothing is left to say about such a run.
-/
import KvStore.Proofs.Locking

namespace KvStore

/-! ### Answers out of a map -/

/-- In the state `s`, `exist` and `get` answer for the keys in `D` as the map `m` does. -/
structure Answers {σ : Type} (R : MapRules) (D : CString → Prop) (call : Call → Prog σ Answer)
    (s : σ) (m : Dict CString CString) : Prop where
  exist : ∀ k r, Gives (call (.exist k)) s r ↔ D k ∧ r = (R.step m (.exist k)).1
  get : ∀ k r, Gives (call (.get k)) s r ↔ D k ∧ r = (R.step m (.get k)).1

/-- The pair is there after the step from `s` to `s'`, and the other keys are as before. -/
structure PairKept {σ : Type} (call : Call → Prog σ Answer) (s s' : σ) (k v : CString) : Prop where
  exist : Gives (call (.exist k)) s' (.int 1)
  get : Gives (call (.get k)) s' (.str (some v))
  others : ∀ k', k' ≠ k → ∀ r,
    (Gives (call (.exist k')) s' r ↔ Gives (call (.exist k')) s r) ∧
    (Gives (call (.get k')) s' r ↔ Gives (call (.get k')) s r)

section Answers

variable {σ : Type} {R : MapRules} {D : CString → Prop} {call : Call → Prog σ Answer} {s s' : σ}
  {m : Dict CString CString} {k v : CString}

/-- Inserting a pair into the map keeps it. -/
theorem Answers.pairKept (h : Answers R D call s m) (h' : Answers R D call s' (m.insert k v))
    (hD : D k) : PairKept call s s' k v := by
  refine ⟨(h'.exist k _).mpr ⟨hD, ?_⟩, (h'.get k _).mpr ⟨hD, ?_⟩, ?_⟩
  · rw [MapRules.step, if_pos (Finmap.mem_insert.mpr (Or.inl rfl))]
  · rw [MapRules.step, MapRules.get_stored (Finmap.lookup_insert m)]
  · intro k' hne r
    have hlook : (m.insert k v).lookup k' = m.lookup k' := Finmap.lookup_insert_of_ne m hne
    have hmem : k' ∈ m.insert k v ↔ k' ∈ m := by
      rw [Finmap.mem_insert]
      exact or_iff_right hne
    rw [h'.exist, h.exist, h'.get, h.get]
    simp only [MapRules.step, MapRules.get, hlook, hmem, and_self]

/-- Answers to calls that always return. -/
theorem Answers.of_run (hcall : ∀ c, (∃ k, c = .exist k ∨ c = .get k) →
    ∃ s', (call c).run s = .ok ((R.step m c).1, s')) : Answers R (fun _ => True) call s m := by
  have hgives : ∀ c, (∃ k, c = .exist k ∨ c = .get k) → ∀ r,
      Gives (call c) s r ↔ True ∧ r = (R.step m c).1 := by
    intro c hc r
    have hrun : Gives (call c) s (R.step m c).1 := hcall c hc
    constructor
    · intro hr
      exact ⟨trivial, hr.unique hrun⟩
    · rintro ⟨-, rfl⟩
      exact hrun
  exact ⟨fun k => hgives _ ⟨k, Or.inl rfl⟩, fun k => hgives _ ⟨k, Or.inr rfl⟩⟩

end Answers

/-! ### The three engines -/

theorem RbtreeSim.answers {T : Rbtree} {m : Dict CString CString} (h : RbtreeSim T m) :
    Answers rbtreeRules (fun _ => True) rbtreeCall T m := by
  refine Answers.of_run ?_
  rintro c ⟨k, rfl | rfl⟩
  · obtain ⟨T', hrun, -⟩ := rbtreeCall_refines h (c := .exist k) trivial
    exact ⟨T', hrun⟩
  · obtain ⟨T', hrun, -⟩ := rbtreeCall_refines h (c := .get k) trivial
    exact ⟨T', hrun⟩

theorem SkiptableSim.answers {S : SkipList} {m : Dict CString CString} (h : SkiptableSim S m) :
    Answers skiptableRules (fun _ => True) skiptableCall S m := by
  refine Answers.of_run ?_
  rintro c ⟨k, rfl | rfl⟩
  · obtain ⟨S', hrun, -⟩ := skiptableCall_refines h (c := .exist k) trivial (by simp)
    exact ⟨S', hrun⟩
  · obtain ⟨S', hrun, -⟩ := skiptableCall_refines h (c := .get k) trivial (by simp)
    exact ⟨S', hrun⟩

section Hash

variable {H H' : Hashtable} {m : Dict CString CString}

theorem HashSim.answers (h : HashSim H m) : Answers hashRules Hashable hashCall H m := by
  have hgives : ∀ c, (∃ k, c = .exist k ∨ c = .get k) → ∀ k, c.Names k → ∀ r,
      Gives (hashCall c) H r ↔ Hashable k ∧ r = (hashRules.step m c).1 := by
    intro c hc k hk r
    have hrun : Hashable k → Gives (hashCall c) H (hashRules.step m c).1 := by
      intro hs
      obtain ⟨H', hrun, -⟩ := hashCall_refines h (c := c)
        (by obtain ⟨k', rfl | rfl⟩ := hc <;> obtain rfl : k' = k := hk <;> exact hs)
        (by obtain ⟨k', rfl | rfl⟩ := hc <;> exact fun _ hd => by cases hd)
      exact ⟨H', hrun⟩
    constructor
    · rintro ⟨H', hr⟩
      rcases hashCall_returns hr with ⟨rfl, -⟩ | ⟨-, hs⟩
      · exact absurd hk id
      · exact ⟨hs k hk, Gives.unique ⟨H', hr⟩ (hrun (hs k hk))⟩
    · rintro ⟨hs, rfl⟩
      exact hrun hs
  exact ⟨fun k => hgives _ ⟨k, Or.inl rfl⟩ k rfl, fun k => hgives _ ⟨k, Or.inr rfl⟩ k rfl⟩

/-- The table stores some map, or its mutex was lost. -/
def HashKept (H : Hashtable) : Prop := (∃ m, HashSim H m) ∨ H.lock = .held

theorem HashKept.call (h : HashKept H) {c : Call} (hc : c.PutFits) {r : Answer}
    (hrun : (hashCall c).run H = .ok (r, H')) : HashKept H' := by
  rcases hashCall_returns hrun with ⟨-, rfl⟩ | ⟨hlock, hs⟩
  · exact h
  obtain ⟨m, hsim⟩ : ∃ m, HashSim H m := h.resolve_right hlock
  by_cases hempty : ∃ k, c = .delete k ∧ SlotEmpty H k
  · obtain ⟨k, rfl, hempty⟩ := hempty
    obtain ⟨mu, hmu, -⟩ := Mutex.lock_unlock hlock
    obtain ⟨i, hdel, -⟩ := run_map_inv hrun
    rw [deleteKvHashtable_empty hmu hempty] at hdel
    cases hdel
    cases hl : H.lock with
    | ignored =>
        rw [hl] at hmu
        cases hmu
        exact Or.inl ⟨m, hsim.table, hsim.count, fun hc => by cases hc⟩
    | free =>
        rw [hl] at hmu
        cases hmu
        exact Or.inr rfl
    | held => exact absurd hl hlock
  · obtain ⟨H₁, hrun₁, hsim₁, -⟩ := hashCall_refines hsim (hc.hashFits hs)
      (fun k hk => Or.inr fun hslot => hempty ⟨k, hk, hslot⟩)
    rw [hrun₁] at hrun
    cases hrun
    exact Or.inl ⟨_, hsim₁⟩

end Hash

/-! ### Over whole runs -/

/-- The engine can hold the strings of the call if it is a put. -/
def Call.FitsIn : Engine → Call → Prop
  | .array, _ | .dhash, _ => True
  | .rbtree, c | .hash, c | .skiptable, c => c.PutFits

/-- What every run of calls whose puts fit keeps of the engines. -/
structure StoreKept (s : Store) : Prop where
  array : ∃ m, ArraySim s.array m
  tree : ∃ m, RbtreeSim s.tree m
  hash : HashKept s.hash
  dhash : ∃ st, DhashSim s.dhash st
  table : ∃ m, SkiptableSim s.table m

theorem FreshStore.kept {s : Store} {mu : Mutex} (h : FreshStore s mu) (hmu : mu ≠ .held) :
    StoreKept s := by
  refine ⟨⟨∅, h.array⟩, ⟨∅, h.tree⟩, Or.inl ⟨∅, ?_⟩, ⟨∅, ?_⟩, ⟨∅, h.table⟩⟩
  · rw [h.hash]
    exact HashSim.fresh hmu
  · rw [h.dhash]
    exact DhashSim.fresh

section Runs

variable {s s' : Store} {e : Engine} {c : Call} {k v : CString}

theorem StoreKept.call (h : StoreKept s) (hc : c.FitsIn e) {r : Answer}
    (hrun : (Store.call e c).run s = .ok (r, s')) : StoreKept s' := by
  obtain ⟨⟨m₀, harray⟩, ⟨m₁, htree⟩, hhash, ⟨st, hdhash⟩, ⟨m₃, htable⟩⟩ := h
  cases e with
  | array =>
      obtain ⟨A, hA, rfl⟩ := zoom_inv hrun
      obtain ⟨A', hA', hsim, -⟩ := arrayCall_refines harray c
      rw [hA] at hA'
      cases hA'
      exact ⟨⟨_, hsim⟩, ⟨m₁, htree⟩, hhash, ⟨st, hdhash⟩, ⟨m₃, htable⟩⟩
  | rbtree =>
      obtain ⟨T, hT, rfl⟩ := zoom_inv hrun
      obtain ⟨T', hT', hsim, -⟩ := rbtreeCall_refines htree hc
      rw [hT] at hT'
      cases hT'
      exact ⟨⟨m₀, harray⟩, ⟨_, hsim⟩, hhash, ⟨st, hdhash⟩, ⟨m₃, htable⟩⟩
  | hash =>
      obtain ⟨H, hH, rfl⟩ := zoom_inv hrun
      exact ⟨⟨m₀, harray⟩, ⟨m₁, htree⟩, hhash.call hc hH, ⟨st, hdhash⟩, ⟨m₃, htable⟩⟩
  | dhash =>
      obtain ⟨D, hD, rfl⟩ := zoom_inv hrun
      obtain ⟨D', hD', hsim, -⟩ := dhashCall_refines hdhash c
      rw [hD] at hD'
      cases hD'
      exact ⟨⟨m₀, harray⟩, ⟨m₁, htree⟩, hhash, ⟨_, hsim⟩, ⟨m₃, htable⟩⟩
  | skiptable =>
      obtain ⟨S, hS, rfl⟩ := zoom_inv hrun
      by_cases hcount : c = .count
      · subst hcount
        cases hS
        exact ⟨⟨m₀, harray⟩, ⟨m₁, htree⟩, hhash, ⟨st, hdhash⟩, ⟨m₃, htable⟩⟩
      · obtain ⟨S', hS', hsim, -⟩ := skiptableCall_refines htable hc hcount
        rw [hS] at hS'
        cases hS'
        exact ⟨⟨m₀, harray⟩, ⟨m₁, htree⟩, hhash, ⟨st, hdhash⟩, ⟨_, hsim⟩⟩

theorem LockedEngine.fitsIn (e : LockedEngine) (h : c.PutFits) : c.FitsIn e.engine := by
  cases e <;> exact h

theorem PairKept.zoom {τ : Type} {view : Store → τ} {update : Store → τ → Store}
    {call : Call → Prog τ Answer} (h : PairKept call (view s) (view s') k v) :
    PairKept (fun c => KvStore.zoom view update (call c)) s s' k v := by
  refine ⟨Gives.zoom.mpr h.exist, Gives.zoom.mpr h.get, ?_⟩
  intro k' hne r
  rw [Gives.zoom, Gives.zoom, Gives.zoom, Gives.zoom]
  exact h.others k' hne r

/-- A put that answers 0 keeps its pair. -/
theorem StoreKept.pairKept (h : StoreKept s) {e : LockedEngine} (hk : KeyFits k) (hv : ValueFits v)
    (hrun : (lockedCall (e, .put k v)).run s = .ok (.int 0, s')) :
    PairKept (fun c => lockedCall (e, c)) s s' k v := by
  obtain ⟨-, ⟨m₁, htree⟩, hhash, -, ⟨m₃, htable⟩⟩ := h
  cases e with
  | rbtree =>
      obtain ⟨T, hT, rfl⟩ := zoom_inv hrun
      obtain ⟨T', hT', hsim, -⟩ := rbtreeCall_refines htree (c := .put k v) ⟨hk, hv⟩
      rw [hT] at hT'
      by_cases hstored : k ∈ m₁
      · rw [MapRules.step, MapRules.put_stored rfl hstored] at hT'
        cases hT'
      · rw [MapRules.step, MapRules.put_new hstored (MapRules.hasRoom_of_unbounded rfl)]
          at hT' hsim
        cases hT'
        exact PairKept.zoom (htree.answers.pairKept hsim.answers trivial)
  | hash =>
      obtain ⟨H, hH, rfl⟩ := zoom_inv hrun
      rcases hashCall_returns hH with ⟨hc, -⟩ | ⟨hlock, hs⟩
      · cases hc
      obtain ⟨m₂, hsim₂⟩ : ∃ m, HashSim s.hash m := hhash.resolve_right hlock
      obtain ⟨H', hH', hsim, -⟩ := hashCall_refines hsim₂ (c := .put k v) ⟨hk, hv, hs k rfl⟩
        (fun _ hc => by cases hc)
      rw [hH] at hH'
      by_cases hstored : k ∈ m₂
      · rw [MapRules.step, MapRules.put_stored rfl hstored] at hH'
        cases hH'
      · rw [MapRules.step, MapRules.put_new hstored (MapRules.hasRoom_of_unbounded rfl)]
          at hH' hsim
        cases hH'
        exact PairKept.zoom (hsim₂.answers.pairKept hsim.answers (hs k rfl))
  | skiptable =>
      obtain ⟨S, hS, rfl⟩ := zoom_inv hrun
      obtain ⟨S', hS', hsim, -⟩ :=
        skiptableCall_refines htable (c := .put k v) ⟨hk, hv⟩ (by simp)
      rw [hS] at hS'
      rw [MapRules.step, skiptable_put] at hS' hsim
      cases hS'
      exact PairKept.zoom (htable.answers.pairKept hsim.answers trivial)

end Runs

/--
**No accepted pair is lost, as long as keys have at most 127 and values at most 511 bytes**:
after every run of calls of the three engines in which the strings of the puts fit, a put of
strings that fit and that answers 0 keeps its pair and leaves the other keys as they were.
-/
theorem accepted_pair_kept (rand : Nat → Nat) (mu : Mutex) (hmu : mu ≠ .held) :
    ∃ s₀, (initKvengine (Vector.replicate maxTableSize []) mu).run (Store.static rand) =
        .ok ((), s₀) ∧
      ∀ (calls : List (LockedEngine × Call)) (rs : List Answer) (s : Store),
        (∀ p ∈ calls, p.2.PutFits) → (runCalls lockedCall calls).run s₀ = .ok (rs, s) →
        ∀ (e : LockedEngine) (k v : CString) (s' : Store), KeyFits k → ValueFits v →
          (lockedCall (e, .put k v)).run s = .ok (.int 0, s') →
          PairKept (fun c => lockedCall (e, c)) s s' k v := by
  obtain ⟨s₀, hinit, hfresh⟩ := initKvengine_spec rand mu hmu
  refine ⟨s₀, hinit, ?_⟩
  intro calls rs s hfit hrun e k v s' hk hv hput
  refine StoreKept.pairKept (runCalls_keeps (P := StoreKept) ?_ (hfresh.kept hmu) hfit hrun)
    hk hv hput
  intro s p r s' h hp hcall
  exact h.call (p.1.fitsIn hp) hcall

/-- A pair is put into the fresh tree. -/
theorem accepted_pair_kept_rbtree :
    let k : CString := ⟨[107], by decide⟩
    ∃ s₀ s',
      (initKvengine (Vector.replicate maxTableSize []) .free).run (Store.static fun _ => 0) =
        .ok ((), s₀) ∧
      (lockedCall (.rbtree, .put k k)).run s₀ = .ok (.int 0, s') ∧
      PairKept (fun c => lockedCall (.rbtree, c)) s₀ s' k k := by
  intro k
  obtain ⟨s₀, hinit, h⟩ := accepted_pair_kept (fun _ => 0) .free (by decide)
  obtain ⟨s₁, hinit₁, hfresh⟩ := initKvengine_spec (fun _ => 0) .free (by decide)
  rw [hinit] at hinit₁
  cases hinit₁
  obtain ⟨T, hT, -⟩ := rbtreeCall_refines hfresh.tree (c := .put k k) (by decide)
  have hput : (lockedCall (.rbtree, .put k k)).run s₀ = .ok (.int 0, { s₀ with tree := T }) :=
    zoom_run hT
  exact ⟨s₀, _, hinit, hput, h [] [] s₀ (by simp) rfl .rbtree k k _ (by decide) (by decide) hput⟩

set_option maxRecDepth 2000 in
/-- A key of 128 bytes is accepted and not found: its copy in the node has no terminator. -/
theorem hash_long_key_lost :
    let k : CString := ⟨List.replicate 128 107, by decide⟩
    let v : CString := ⟨[118], by decide⟩
    ∃ s₀ s',
      (initKvengine (Vector.replicate maxTableSize []) .free).run (Store.static fun _ => 0) =
        .ok ((), s₀) ∧
      (lockedCall (.hash, .put k v)).run s₀ = .ok (.int 0, s') ∧
      (lockedCall (.hash, .exist k)).run s' = .ok (.int 0, s') ∧
      ¬ PairKept (fun c => lockedCall (.hash, c)) s₀ s' k v := by
  intro k v
  obtain ⟨s₀, hinit, hfresh⟩ := initKvengine_spec (fun _ => 0) .free (by decide)
  have hidx : hash (some k) maxTableSize = .ok ((384 : Nat) : Int) := by rfl
  let t : Vector (List HashNode) maxTableSize := Vector.replicate maxTableSize []
  let node : HashNode := ⟨strncpy maxKeyLen k.bytes, strncpy maxValueLen v.bytes⟩
  let H : Hashtable := ⟨some (t.set 384 [node]), maxTableSize, 1, .free⟩
  have hchain : (t.set 384 [node])[384] = [node] := Vector.getElem_set_self (by decide)
  have hput : (putKvHashtable true (some k) (some v)).run s₀.hash = .ok (0, H) := by
    rw [hfresh.hash, putKvHashtable, hidx]
    refine run_bind_of rfl (run_bind_of (mutexLock_run rfl) ?_)
    refine run_bind_of (hashChain_run (H := { Hashtable.fresh .free with lock := .held })
      (t := t) rfl (by decide)) ?_
    rw [show t[384] = [] from Vector.getElem_replicate _]
    refine run_bind_of rfl ?_
    exact (replace_run (H := { Hashtable.fresh .free with lock := .held }) (t := t) rfl
      (by decide) (· + 1) 0).trans rfl
  have hfind : findNode k [node] = .ok none := by rfl
  have hexist : (existKvHashtable (some k)).run H = .ok (0, H) := by
    refine run_bind_of (a := none) ?_ rfl
    rw [getKvHashtable, hidx]
    refine run_bind_of rfl (run_bind_of (mutexLock_run rfl) ?_)
    refine run_bind_of (hashChain_run (H := { H with lock := .held }) (t := t.set 384 [node]) rfl
      (by decide)) ?_
    rw [hchain, hfind]
    rfl
  have hexist' : (lockedCall (.hash, .exist k)).run { s₀ with hash := H } =
      .ok (.int 0, { s₀ with hash := H }) := zoom_run (run_map_of _ hexist)
  refine ⟨s₀, { s₀ with hash := H }, hinit, zoom_run (run_map_of _ hput), hexist', ?_⟩
  intro hkept
  have hone := hkept.exist.unique ⟨_, hexist'⟩
  cases hone

end KvStore
