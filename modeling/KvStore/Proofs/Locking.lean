/-
Who gives the mutex back.

The red-black tree, the chained hash and the skip list each have a mutex of their own.
No code between a lock and its unlock touches it, and every operation unlocks on all its
ways out, but for one: `delete_kv_hashtable` returns from an empty slot with the mutex
locked, and the next call of that engine that locks it blocks for ever.

A mutex is also lost if the operation does not come to its end, which a key without a slot
brings about in the chained hash.  `locks_released_iff` says that there is no third way: every
operation of a run returns with the mutexes free iff the keys of the chained hash have slots
and no `delete` of it finds its slot empty.
-/
import KvStore.Base.Locking
import KvStore.Proofs.Store

namespace KvStore

/-! ### Reading strings never blocks -/

theorem readAnswer_moves {σ : Type} [HasMutex σ] (r : Option (List Byte)) :
    Moves id (readAnswer r : Prog σ Answer) := by
  cases r with
  | none => exact .pure _
  | some m =>
      refine .seq (.liftE ?_) fun _ => .pure _
      unfold cstr
      by_cases h0 : (0 : Byte) ∈ m
      · rw [if_pos h0]
        exact fun h => by cases h
      · rw [if_neg h0]
        exact fun h => by cases h

/-! ### The red-black tree -/

section Rbtree

instance : HeapKeepsMutex Rbtree RbNode := ⟨fun _ _ => rfl⟩

variable (d : Dir) (x y z w p g xp : Ptr)

theorem getChild_moves : Moves id (getChild d p) := .seq (.deref p) fun _ => .pure _

theorem getParent_moves : Moves id (getParent p) := .seq (.deref p) fun _ => .pure _

theorem getColor_moves : Moves id (getColor p) := .seq (.deref p) fun _ => .pure _

theorem compareKey_moves (s : List Byte) : Moves id (compareKey s p) :=
  .seq (.deref p) fun _ => .liftE (strcmp_ne_error (by decide) _ _)

theorem rbtreeRelink_moves : Moves id (rbtreeRelink d xp x y) := by
  refine .seq .get fun _ => .ite (.modify fun _ => rfl) ?_
  exact .seq (getChild_moves d xp) fun _ => .ite (.assign _ _) (.assign _ _)

theorem rbtreeRotate_moves : Moves id (rbtreeRotate d x) := by
  refine .seq .get fun _ => .seq (getChild_moves _ _) fun _ => .seq (getChild_moves _ _) fun _ => ?_
  refine .seq (.assign _ _) fun _ => .seq (.whenever (.assign _ _)) fun _ => ?_
  refine .seq (getParent_moves _) fun _ => .seq (.assign _ _) fun _ => ?_
  refine .seq (rbtreeRelink_moves _ _ _ _) fun _ => ?_
  exact .seq (.assign _ _) fun _ => .assign _ _

theorem rbtreeSearch_moves (key : CString) : Moves id (rbtreeSearch key) := by
  refine .seq .get fun T => .loop (fun node => ?_) _ _
  refine .seq .get fun _ => .ite (.seq (compareKey_moves _ _) fun _ => ?_) (.pure _)
  refine .ite (.seq (getChild_moves _ _) fun _ => .pure _) ?_
  exact .ite (.seq (getChild_moves _ _) fun _ => .pure _) (.pure _)

theorem rbtreeInsertFixupHalf_moves : Moves id (rbtreeInsertFixupHalf d z p g) := by
  refine .seq (getChild_moves _ _) fun _ => .seq (getColor_moves _) fun _ => .ite ?_ ?_
  · refine .seq (.assign _ _) fun _ => .seq (.assign _ _) fun _ => ?_
    exact .seq (.assign _ _) fun _ => .pure _
  · refine .seq (.seq (getChild_moves _ _) fun _ => .ite ?_ (.pure _)) fun _ => ?_
    · exact .seq (rbtreeRotate_moves _ _) fun _ => .pure _
    · refine .seq (getParent_moves _) fun _ => .seq (.assign _ _) fun _ => ?_
      refine .seq (getParent_moves _) fun _ => .seq (.assign _ _) fun _ => ?_
      exact .seq (rbtreeRotate_moves _ _) fun _ => .pure _

theorem rbtreeInsertFixup_moves : Moves id (rbtreeInsertFixup z) := by
  refine .seq .get fun _ => .seq (.loop (fun z => ?_) _ _) fun _ => .seq .get fun _ => .assign _ _
  refine .seq (getParent_moves _) fun _ => .seq (getColor_moves _) fun _ => .ite ?_ (.pure _)
  refine .seq (getParent_moves _) fun _ => .seq (getChild_moves _ _) fun _ => .ite ?_ ?_
  · exact .seq (rbtreeInsertFixupHalf_moves _ _ _ _) fun _ => .pure _
  · exact .seq (rbtreeInsertFixupHalf_moves _ _ _ _) fun _ => .pure _

theorem rbtreeInsertLink_moves : Moves id (rbtreeInsertLink z y) := by
  refine .seq .get fun _ => .ite (.modify fun _ => rfl) ?_
  refine .seq (.deref _) fun _ => .seq (compareKey_moves _ _) fun _ => ?_
  exact .ite (.assign _ _) (.assign _ _)

theorem rbtreeInsert_moves : Moves id (rbtreeInsert z) := by
  refine .seq .get fun T => .seq (.loop (fun yx => ?_) _ _) fun r => ?_
  · refine .seq .get fun _ => .ite ?_ (.pure _)
    refine .seq (.deref _) fun _ => .seq (compareKey_moves _ _) fun _ => ?_
    refine .ite (.seq (getChild_moves _ _) fun _ => .pure _) ?_
    exact .ite (.seq (getChild_moves _ _) fun _ => .pure _) (.pure _)
  · cases r with
    | none => exact .pure _
    | some y =>
        refine .seq (.assign _ _) fun _ => .seq (rbtreeInsertLink_moves _ _) fun _ => ?_
        refine .seq (.assign _ _) fun _ => .seq (.assign _ _) fun _ => ?_
        exact .seq (.assign _ _) fun _ => rbtreeInsertFixup_moves _

theorem rbtreeDeleteFixupHalf_moves : Moves id (rbtreeDeleteFixupHalf d x) := by
  refine .seq (getParent_moves _) fun _ => .seq (getChild_moves _ _) fun _ => ?_
  refine .seq (.seq (getColor_moves _) fun _ => .ite ?_ (.pure _)) fun _ => ?_
  · refine .seq (.assign _ _) fun _ => .seq (.assign _ _) fun _ => ?_
    refine .seq (rbtreeRotate_moves _ _) fun _ => ?_
    exact .seq (getParent_moves _) fun _ => getChild_moves _ _
  refine .seq (.seq (getChild_moves _ _) fun _ => .seq (getColor_moves _) fun _ => .ite ?_
    (.pure _)) fun _ => .ite ?_ ?_
  · exact .seq (getChild_moves _ _) fun _ => .seq (getColor_moves _) fun _ => .pure _
  · exact .seq (.assign _ _) fun _ => getParent_moves _
  refine .seq (.seq (getChild_moves _ _) fun _ => .seq (getColor_moves _) fun _ => .ite ?_
    (.pure _)) fun _ => ?_
  · refine .seq (getChild_moves _ _) fun _ => .seq (.assign _ _) fun _ => ?_
    refine .seq (.assign _ _) fun _ => .seq (rbtreeRotate_moves _ _) fun _ => ?_
    exact .seq (getParent_moves _) fun _ => getChild_moves _ _
  · refine .seq (getParent_moves _) fun _ => .seq (getColor_moves _) fun _ => ?_
    refine .seq (.assign _ _) fun _ => .seq (.assign _ _) fun _ => ?_
    refine .seq (getChild_moves _ _) fun _ => .seq (.assign _ _) fun _ => ?_
    exact .seq (rbtreeRotate_moves _ _) fun _ => .seq .get fun _ => .pure _

theorem rbtreeDeleteFixup_moves : Moves id (rbtreeDeleteFixup x) := by
  refine .seq .get fun _ => .seq (.loop (fun x => ?_) _ _) fun _ => .assign _ _
  refine .seq .get fun _ => .ite (.seq (getColor_moves _) fun _ => .ite ?_ (.pure _)) (.pure _)
  refine .seq (getParent_moves _) fun _ => .seq (getChild_moves _ _) fun _ => .ite ?_ ?_
  · exact .seq (rbtreeDeleteFixupHalf_moves _ _) fun _ => .pure _
  · exact .seq (rbtreeDeleteFixupHalf_moves _ _) fun _ => .pure _

theorem rbtreeSuccessor_moves : Moves id (rbtreeSuccessor x) := by
  refine .seq .get fun _ => .seq (getParent_moves _) fun _ => .seq (getChild_moves _ _) fun _ => ?_
  refine .ite (.seq .get fun _ => .loop (fun x => ?_) _ _) (.loop (fun xy => ?_) _ _)
  · exact .seq .get fun _ => .seq (getChild_moves _ _) fun _ => .ite (.pure _) (.pure _)
  · refine .seq .get fun _ => .ite (.seq (getChild_moves _ _) fun _ => .ite ?_ (.pure _)) (.pure _)
    exact .seq (getParent_moves _) fun _ => .pure _

theorem rbtreeDelete_moves : Moves id (rbtreeDelete z) := by
  refine .seq (.seq .get fun _ => .seq (getChild_moves _ _) fun _ => .ite (.pure _) ?_) fun y => ?_
  · exact .seq (getChild_moves _ _) fun _ => .ite (.pure _) (rbtreeSuccessor_moves _)
  refine .seq (.seq .get fun _ => .seq (getChild_moves _ _) fun _ => .ite (.pure _) ?_) fun x => ?_
  · exact .seq (getChild_moves _ _) fun _ => .ite (.pure _) (.pure _)
  refine .seq (getParent_moves _) fun _ => .seq (.assign _ _) fun _ => ?_
  refine .seq (rbtreeRelink_moves _ _ _ _) fun _ => .seq (.whenever ?_) fun _ => ?_
  · exact .seq (.deref _) fun _ => .seq (.assign _ _) fun _ => .assign _ _
  · refine .seq (getColor_moves _) fun _ => ?_
    exact .seq (.whenever (rbtreeDeleteFixup_moves _)) fun _ => .pure _

theorem putKvRbtree_releases (k v : CString) : Releases (putKvRbtree true (some k) (some v)) := by
  refine .after .get fun _ => .after (rbtreeSearch_moves k) fun _ => .ite (.of_moves (.pure _)) ?_
  refine .after (.malloc _ _) fun _ => .ite (.of_moves (.pure _)) ?_
  refine .after (.assign _ _) fun _ => .after (.assign _ _) fun _ => ?_
  refine .after (.assign _ _) fun _ => ?_
  refine .critical (.seq (rbtreeInsert_moves _) fun _ => .seq (.modify fun _ => rfl) fun _ => ?_)
  exact .unlock (fun _ => .pure _) .mutexUnlock

theorem deleteKvRbtree_releases (k : CString) : Releases (deleteKvRbtree (some k)) := by
  refine .after .get fun _ => .after (rbtreeSearch_moves k) fun _ => .ite (.of_moves (.pure _)) ?_
  refine .critical (.seq (rbtreeDelete_moves _) fun _ => .seq (.modify fun _ => rfl) fun _ => ?_)
  exact .unlock (fun _ => .seq (.free _) fun _ => .pure _) .mutexUnlock

theorem rbtreeCall_releases (c : Call) : Releases (rbtreeCall c) := by
  cases c with
  | put k v => exact .map _ (putKvRbtree_releases k v)
  | get k =>
      refine .of_moves (.seq ?_ fun _ => readAnswer_moves _)
      exact .seq (rbtreeSearch_moves k) fun _ => .seq (.deref _) fun _ => .pure _
  | count => exact .of_moves (.map _ (.seq .get fun _ => .pure _))
  | exist k =>
      refine .of_moves (.map _ ?_)
      exact .seq .get fun _ => .seq (rbtreeSearch_moves k) fun _ => .ite (.pure _) (.pure _)
  | delete k => exact .map _ (deleteKvRbtree_releases k)

end Rbtree

/-! ### The chained hash -/

section Hash

theorem addInt_ne_deadlock (a b : Int) : addInt a b ≠ .error .deadlock := by
  unfold addInt
  by_cases hin : -2147483648 ≤ a + b ∧ a + b ≤ 2147483647
  · rw [if_pos hin]
    exact fun h => by cases h
  · rw [if_neg hin]
    exact fun h => by cases h

theorem hashSum_ne_deadlock (bytes : List Byte) (sum : Int) :
    hashSum bytes sum ≠ .error .deadlock := by
  induction bytes generalizing sum with
  | nil => exact fun h => by cases h
  | cons c rest ih => exact bind_ne_error (addInt_ne_deadlock _ _) ih

theorem hash_ne_deadlock (k : CString) : hash (some k) maxTableSize ≠ .error .deadlock :=
  bind_ne_error (hashSum_ne_deadlock _ _) fun _ h => by cases h

theorem hashChain_moves (idx : Int) : Moves id (hashChain idx) := by
  refine .seq .get fun H => ?_
  cases H.nodes with
  | none => exact .fault (by decide)
  | some t => exact .dite (fun _ => .pure _) (fun _ => .fault (by decide))

theorem setHashChain_moves (idx : Int) (chain : List HashNode) :
    Moves id (setHashChain idx chain) := by
  intro H
  unfold setHashChain
  rw [run_bind_ok (run_get H)]
  cases H.nodes with
  | none => exact fun h => by cases h
  | some t =>
      by_cases hi : 0 ≤ idx ∧ idx.toNat < maxTableSize
      · show Ends _ ((if h : _ then _ else _ : Prog Hashtable Unit).run H)
        rw [dif_pos hi]
        rfl
      · show Ends _ ((if h : _ then _ else _ : Prog Hashtable Unit).run H)
        rw [dif_neg hi]
        exact fun h => by cases h

theorem putIntoChain_moves (idx : Int) (k v : CString) (chain : List HashNode) :
    Moves Mutex.unlock (putIntoChain true idx k v chain) := by
  refine .seq (.liftE (findNode_ne_error k (by decide))) fun r => ?_
  cases r with
  | some _ => exact .unlock (fun _ => .pure _) .mutexUnlock
  | none =>
      refine .seq (setHashChain_moves _ _) fun _ => .seq (.modify fun _ => rfl) fun _ => ?_
      exact .unlock (fun _ => .pure _) .mutexUnlock

theorem putKvHashtable_releases (k v : CString) :
    Releases (putKvHashtable true (some k) (some v)) := by
  refine .after (.liftE (hash_ne_deadlock k)) fun _ => .critical ?_
  exact .seq (hashChain_moves _) fun chain => putIntoChain_moves _ k v chain

theorem getKvHashtable_releases (k : CString) : Releases (getKvHashtable (some k)) := by
  refine .after (.liftE (hash_ne_deadlock k)) fun _ => .critical ?_
  refine .seq (hashChain_moves _) fun chain => ?_
  refine .seq (.liftE (findNode_ne_error k (by decide))) fun r => ?_
  exact .unlock (fun _ => .pure _) .mutexUnlock

theorem deleteEnd_moves (idx : Int) (chain : List HashNode) :
    Moves Mutex.unlock (deleteEnd idx chain) := by
  refine .seq (setHashChain_moves _ _) fun _ => .seq (.modify fun _ => rfl) fun _ => ?_
  exact .unlock (fun _ => .pure _) .mutexUnlock

/-- From a chain that is not empty, the deletion unlocks on every way out. -/
theorem deleteFromChain_moves (idx : Int) (k : CString) (head : HashNode) (next : List HashNode) :
    Moves Mutex.unlock (deleteFromChain idx k (head :: next)) := by
  refine .seq (.liftE (strcmp_ne_error (by decide) _ _)) fun _ => .ite (deleteEnd_moves _ _) ?_
  refine .seq (.liftE (unlinkNode_ne_error k (by decide))) fun r => ?_
  cases r with
  | none => exact .unlock (fun _ => .pure _) .mutexUnlock
  | some next => exact deleteEnd_moves _ _

/-- A chain that was read is the chain of a slot. -/
theorem hashChain_inv {H H' : Hashtable} {idx : Int} {chain : List HashNode}
    (h : (hashChain idx).run H = .ok (chain, H')) :
    H' = H ∧ ∃ t i, ∃ hi : i < maxTableSize, H.nodes = some t ∧ idx = (i : Int) ∧ t[i] = chain := by
  obtain ⟨H₁, H₂, hget, h⟩ := run_bind_inv h
  cases hget
  cases hn : H.nodes with
  | none =>
      rw [hn] at h
      cases h
  | some t =>
      rw [hn] at h
      by_cases hi : 0 ≤ idx ∧ idx.toNat < maxTableSize
      · have h' : (if h : 0 ≤ idx ∧ idx.toNat < maxTableSize then
            pure (t.get ⟨idx.toNat, h.2⟩) else fault .outOfBounds :
            Prog Hashtable (List HashNode)).run H = .ok (chain, H') := h
        rw [dif_pos hi] at h'
        cases h'
        exact ⟨rfl, t, idx.toNat, hi.2, rfl, (Int.toNat_of_nonneg hi.1).symm, rfl⟩
      · have h' : (if h : 0 ≤ idx ∧ idx.toNat < maxTableSize then
            pure (t.get ⟨idx.toNat, h.2⟩) else fault .outOfBounds :
            Prog Hashtable (List HashNode)).run H = .ok (chain, H') := h
        rw [dif_neg hi] at h'
        cases h'

/-- A `delete` whose slot is not empty gives the mutex back. -/
theorem deleteKvHashtable_releases {H : Hashtable} {k : CString} (hlock : H.lock ≠ .held)
    (hslot : ¬ SlotEmpty H k) :
    Ends (fun H' => H'.lock = H.lock) ((deleteKvHashtable (some k)).run H) := by
  obtain ⟨mu, hmu, hunlock⟩ := Mutex.lock_unlock hlock
  refine (Moves.liftE (hash_ne_deadlock k) H).bind ?_
  intro idx H₁ hrun _
  obtain ⟨hidx, rfl⟩ := liftE_inv hrun
  rw [run_bind_ok (mutexLock_run hmu)]
  refine (hashChain_moves idx { H with lock := mu }).bind ?_
  intro chain H₂ hchain _
  obtain ⟨rfl, t, i, hi, ht, rfl, rfl⟩ := hashChain_inv hchain
  cases hc : t[i] with
  | nil => exact absurd ⟨t, i, hi, ht, hidx, hc⟩ hslot
  | cons head next =>
      have hdel := deleteFromChain_moves i k head next { H with lock := mu }
      rwa [show (HasMutex.mutex ({ H with lock := mu } : Hashtable)).unlock = H.lock from hunlock]
        at hdel

/-- Every call of the engine but such a `delete` gives the mutex back. -/
theorem hashCall_releases {H : Hashtable} (hlock : H.lock ≠ .held) (c : Call)
    (hslot : ∀ k, c = .delete k → ¬ SlotEmpty H k) :
    Ends (fun H' => H'.lock = H.lock) ((hashCall c).run H) := by
  cases c with
  | put k v => exact Releases.map _ (putKvHashtable_releases k v) H hlock
  | get k =>
      exact Releases.seq (getKvHashtable_releases k)
        (fun _ => .of_moves (readAnswer_moves _)) H hlock
  | count => exact Moves.map _ (.seq .get fun _ => .pure _) H
  | exist k =>
      exact Releases.map _ (.seq (getKvHashtable_releases k) fun _ => .of_moves (.pure _)) H hlock
  | delete k =>
      have hdel := deleteKvHashtable_releases hlock (hslot k rfl)
      show Ends _ ((Answer.int <$> deleteKvHashtable (some k)).run H)
      rw [StateT.run_map]
      cases hr : (deleteKvHashtable (some k)).run H with
      | error e => rw [hr] at hdel; exact hdel
      | ok p => rw [hr] at hdel; exact hdel

variable {H H' : Hashtable}

/-- The operations of the chained hash that return have found their key's slot. -/
theorem slot_of_run {α : Type} {k : CString} {rest : Int → List HashNode → Prog Hashtable α} {a : α}
    (h : (do let idx ← liftE (hash (some k) maxTableSize)
             mutexLock
             let chain ← hashChain idx
             rest idx chain : Prog Hashtable α).run H = .ok (a, H')) :
    H.lock ≠ .held ∧ Hashable k := by
  obtain ⟨idx, hidx, h⟩ := run_liftE_inv h
  obtain ⟨u, H₁, hlock, h⟩ := run_bind_inv h
  obtain ⟨chain, H₂, hchain, h⟩ := run_bind_inv h
  obtain ⟨-, t, i, hi, -, rfl, -⟩ := hashChain_inv hchain
  refine ⟨?_, i, hi, hidx⟩
  intro hheld
  have hfault : (mutexLock : Prog Hashtable Unit).run H = .error .deadlock := by
    refine run_bind_of (run_get H) ?_
    rw [show HasMutex.mutex H = .held from hheld]
    rfl
  rw [hfault] at hlock
  cases hlock

theorem getKvHashtable_returns {k : CString} {r : Option (List Byte)}
    (h : (getKvHashtable (some k)).run H = .ok (r, H')) : H.lock ≠ .held ∧ Hashable k :=
  slot_of_run h

/-- A call that returns is `count`, or its key has a slot and nobody held the mutex. -/
theorem hashCall_returns {c : Call} {r : Answer} (h : (hashCall c).run H = .ok (r, H')) :
    (c = .count ∧ H' = H) ∨ (H.lock ≠ .held ∧ ∀ k, c.Names k → Hashable k) := by
  cases c with
  | put k v =>
      obtain ⟨i, hput, -⟩ := run_map_inv h
      obtain ⟨hlock, hk⟩ := slot_of_run hput
      exact Or.inr ⟨hlock, by rintro k' rfl; exact hk⟩
  | get k =>
      obtain ⟨p, H₁, hget, -⟩ := run_bind_inv h
      obtain ⟨hlock, hk⟩ := getKvHashtable_returns hget
      exact Or.inr ⟨hlock, by rintro k' rfl; exact hk⟩
  | count =>
      cases h
      exact Or.inl ⟨rfl, rfl⟩
  | exist k =>
      obtain ⟨i, hexist, -⟩ := run_map_inv h
      obtain ⟨p, H₁, hget, -⟩ := run_bind_inv hexist
      obtain ⟨hlock, hk⟩ := getKvHashtable_returns hget
      exact Or.inr ⟨hlock, by rintro k' rfl; exact hk⟩
  | delete k =>
      obtain ⟨i, hdel, -⟩ := run_map_inv h
      obtain ⟨hlock, hk⟩ := slot_of_run hdel
      exact Or.inr ⟨hlock, by rintro k' rfl; exact hk⟩

theorem Call.PutFits.hashFits {c : Call} (h : c.PutFits) (hs : ∀ k, c.Names k → Hashable k) :
    c.HashFits := by
  cases c with
  | put k v => exact ⟨h.1, h.2, hs k rfl⟩
  | get k | exist k | delete k => exact hs k rfl
  | count => trivial

end Hash

/-! ### The skip list -/

section Skiptable

instance : HeapKeepsMutex SkipList SkNode := ⟨fun _ _ => rfl⟩

variable (p : Ptr) (i n : Nat) (key : CString)

theorem getForward_moves : Moves id (getForward p i) := by
  refine .seq (.deref p) fun nd => ?_
  cases nd.forward[i]? with
  | none => exact .fault (by decide)
  | some q => exact .pure q

theorem setForward_moves (q : Ptr) : Moves id (setForward p i q) :=
  .seq (.deref p) fun _ => .ite (.assign _ _) (.fault (by decide))

theorem compareNode_moves : Moves id (compareNode p (some key)) :=
  .seq (.deref p) fun _ => .liftE (strcmp_ne_error (by decide) _ _)

theorem walk_moves : Moves id (walk (some key) i p) := by
  refine .seq .get fun _ => .loop (fun p => ?_) _ _
  refine .seq (getForward_moves p i) fun _ => .ite ?_ (.pure _)
  exact .seq (compareNode_moves _ _) fun _ => .ite (.pure _) (.pure _)

theorem descend_moves {α : Type} {visit : Nat → Ptr → α → Prog SkipList α}
    (hvisit : ∀ i p a, Moves id (visit i p a)) (a : α) :
    Moves id (descend visit (some key) n p a) := by
  induction n generalizing p a with
  | zero => exact .pure _
  | succ i ih => exact .seq (walk_moves p i key) fun _ => .seq (hvisit _ _ _) fun _ => ih _ _

theorem setUpdate_moves (update : Update) : Moves id (setUpdate i p update) :=
  .dite (fun _ => .pure _) (fun _ => .fault (by decide))

theorem getUpdate_moves (update : Update) : Moves id (getUpdate update i) := by
  refine .dite (fun hi => ?_) (fun _ => .fault (by decide))
  cases update[i] with
  | none => exact .fault (by decide)
  | some p => exact .pure p

theorem nextIs_moves : Moves id (nextIs p (some key)) :=
  .seq (getForward_moves _ _) fun _ =>
    .ite (.seq (compareNode_moves _ _) fun _ => .pure _) (.pure _)

theorem raiseUpdate_moves (update : Update) : Moves id (raiseUpdate n i update) := by
  induction n generalizing i update with
  | zero => exact .pure _
  | succ n ih => exact .seq .get fun _ => .seq (setUpdate_moves _ _ _) fun _ => ih _ _

theorem linkNode_moves (node : Ptr) (update : Update) : Moves id (linkNode node update n i) := by
  induction n generalizing i with
  | zero => exact .pure _
  | succ n ih =>
      refine .seq (getUpdate_moves _ _) fun _ => .seq (getForward_moves _ _) fun _ => ?_
      exact .seq (setForward_moves _ _ _) fun _ => .seq (setForward_moves _ _ _) fun _ => ih _

theorem createNode_moves (k v : CString) : Moves id (createNode true true k v n) := by
  refine .seq (.malloc _ _) fun _ => .ite (.pure _) ?_
  exact .ite (.seq (.assign _ _) fun _ => .pure _) (.seq (.free _) fun _ => .pure _)

theorem insert_moves (k v : CString) : Moves id (SkipList.insert true true k v) := by
  refine .seq .get fun _ => ?_
  refine .seq (descend_moves _ _ _ (fun _ _ _ => setUpdate_moves _ _ _) _) fun _ => ?_
  refine .seq (nextIs_moves _ _) fun _ => .ite (.seq (getForward_moves _ _) fun _ => .assign _ _) ?_
  refine .seq (.loop (fun _ => ?_) _ _) fun _ => .seq (createNode_moves _ _ _) fun _ => ?_
  · exact .seq (fun _ => rfl) fun _ => .ite (.pure _) (.pure _)
  · refine .seq (.seq .get fun _ => .ite ?_ (.pure _)) fun _ => linkNode_moves _ _ _ _
    refine .seq (raiseUpdate_moves _ _ _) fun _ => ?_
    exact .seq (.modify fun _ => rfl) fun _ => .pure _

theorem find_moves : Moves id (SkipList.find (some key)) := by
  refine .seq .get fun _ => .seq (descend_moves _ _ _ (fun _ _ _ => .pure _) _) fun _ => ?_
  refine .seq (nextIs_moves _ _) fun _ => .ite ?_ (.pure _)
  exact .seq (getForward_moves _ _) fun _ => .seq (.deref _) fun _ => .pure _

theorem unlinkLevels_moves (node : Ptr) (update : Update) :
    Moves id (unlinkLevels node update n i) := by
  induction n generalizing i with
  | zero => exact .pure _
  | succ n ih =>
      refine .seq ?_ fun _ => ih _
      refine .seq (getUpdate_moves _ _) fun _ => .seq (getForward_moves _ _) fun _ => .whenever ?_
      exact .seq (getForward_moves _ _) fun _ => setForward_moves _ _ _

theorem delete_moves : Moves id (SkipList.delete (some key)) := by
  refine .seq .get fun _ => ?_
  refine .seq (descend_moves _ _ _ (fun _ _ _ => setUpdate_moves _ _ _) _) fun _ => ?_
  refine .seq (nextIs_moves _ _) fun _ => .ite ?_ (.pure _)
  exact .seq (getForward_moves _ _) fun _ => .seq (unlinkLevels_moves _ _ _ _) fun _ => .free _

theorem skiptableCall_releases (c : Call) : Releases (skiptableCall c) := by
  cases c with
  | put k v =>
      refine .map _ (.critical (.seq (insert_moves k v) fun _ => ?_))
      refine .seq (.modify fun _ => rfl) fun _ => ?_
      exact .unlock (fun _ => .pure _) .mutexUnlock
  | get k => exact .of_moves (.seq (find_moves k) fun _ => readAnswer_moves _)
  | count => exact .of_moves (.map _ (.seq .get fun _ => .pure _))
  | exist k =>
      refine .of_moves (.map _ (.seq (find_moves k) fun r => ?_))
      cases r with
      | none => exact .pure _
      | some _ => exact .pure _
  | delete k =>
      refine .of_moves (.map _ (.seq (find_moves k) fun r => ?_))
      cases r with
      | none => exact .pure _
      | some _ =>
          exact .seq (delete_moves k) fun _ => .seq (.modify fun _ => rfl) fun _ => .pure _

end Skiptable

/-! ### The three engines together -/

/-- The engines with a mutex. -/
inductive LockedEngine
  | rbtree
  | hash
  | skiptable
  deriving DecidableEq

def LockedEngine.engine : LockedEngine → Engine
  | .rbtree => .rbtree
  | .hash => .hash
  | .skiptable => .skiptable

/-- One call of one of these engines. -/
def lockedCall (p : LockedEngine × Call) : Prog Store Answer := Store.call p.1.engine p.2

/-- No mutex is held. -/
def MutexesFree (s : Store) : Prop :=
  s.tree.lock = .free ∧ s.hash.lock = .free ∧ s.table.lock = .free

/--
Every operation of the run returns with the mutexes free: after every part of it all calls have
returned, no mutex is held, and no call would block next.
-/
def LocksReleased (s₀ : Store) (calls : List (LockedEngine × Call)) : Prop :=
  ∀ before after, calls = before ++ after →
    ∃ rs s, (runCalls lockedCall before).run s₀ = .ok (rs, s) ∧ MutexesFree s ∧
      ∀ p, (lockedCall p).run s ≠ .error .deadlock

/-- Every key that the run gives to the chained hash has a slot. -/
def KeysHaveSlots (calls : List (LockedEngine × Call)) : Prop :=
  ∀ c k, (.hash, c) ∈ calls → c.Names k → Hashable k

/-- No `delete` of the chained hash in the run finds the slot of its key empty. -/
def DeletesFindNodes (s₀ : Store) (calls : List (LockedEngine × Call)) : Prop :=
  ∀ before k after rs s, calls = before ++ (.hash, .delete k) :: after →
    (runCalls lockedCall before).run s₀ = .ok (rs, s) → ¬ SlotEmpty s.hash k

section Store

variable {s : Store} {calls : List (LockedEngine × Call)}

/-- One call from a state with free mutexes. -/
theorem lockedCall_ends (h : MutexesFree s) (p : LockedEngine × Call)
    (hslot : ∀ k, p = (.hash, .delete k) → ¬ SlotEmpty s.hash k) :
    Ends MutexesFree ((lockedCall p).run s) := by
  obtain ⟨htree, hhash, htable⟩ := h
  obtain ⟨e, c⟩ := p
  cases e with
  | rbtree =>
      refine Ends.zoom (rbtreeCall_releases c s.tree ?_) ?_
      · rw [show HasMutex.mutex s.tree = .free from htree]
        decide
      · intro T hT
        exact ⟨hT.trans htree, hhash, htable⟩
  | hash =>
      refine Ends.zoom (hashCall_releases (by rw [hhash]; decide) c ?_) ?_
      · rintro k rfl
        exact hslot k rfl
      · intro H hH
        exact ⟨htree, hH.trans hhash, htable⟩
  | skiptable =>
      refine Ends.zoom (skiptableCall_releases c s.table ?_) ?_
      · rw [show HasMutex.mutex s.table = .free from htable]
        decide
      · intro S hS
        exact ⟨htree, hhash, hS.trans htable⟩

/-- A `delete` on an empty slot returns, with its mutex held. -/
theorem lockedCall_empty (h : MutexesFree s) {k : CString} (hempty : SlotEmpty s.hash k) :
    (lockedCall (.hash, .delete k)).run s =
      .ok (.int (-1), { s with hash := { s.hash with lock := .held } }) := by
  have hlock : s.hash.lock.lock = .ok .held := by
    rw [h.2.1]
    rfl
  exact zoom_run (run_map_of _ (deleteKvHashtable_empty hlock hempty))

/-- No call blocks where all mutexes are free. -/
theorem lockedCall_ne_deadlock (h : MutexesFree s) (p : LockedEngine × Call) :
    (lockedCall p).run s ≠ .error .deadlock := by
  have hends : ∀ {r : Except Fault (Answer × Store)} {Q : Store → Prop}, Ends Q r →
      r ≠ .error .deadlock := by
    rintro r Q hr rfl
    exact hr rfl
  by_cases hslot : ∀ k, p = (.hash, .delete k) → ¬ SlotEmpty s.hash k
  · exact hends (lockedCall_ends h p hslot)
  · simp only [not_forall, not_not] at hslot
    obtain ⟨k, rfl, hempty⟩ := hslot
    rw [lockedCall_empty h hempty]
    exact fun hc => by cases hc

theorem DeletesFindNodes.head {p : LockedEngine × Call} (h : DeletesFindNodes s (p :: calls)) :
    ∀ k, p = (.hash, .delete k) → ¬ SlotEmpty s.hash k := by
  rintro k rfl
  exact h [] k calls [] s rfl rfl

theorem DeletesFindNodes.tail {p : LockedEngine × Call} {s' : Store} {r : Answer}
    (h : DeletesFindNodes s (p :: calls)) (hrun : (lockedCall p).run s = .ok (r, s')) :
    DeletesFindNodes s' calls := by
  intro before k after rs s'' heq hbefore
  exact h (p :: before) k after (r :: rs) s'' (by rw [heq]; rfl) (runCalls_cons_ok hrun hbefore)

theorem DeletesFindNodes.take {before after : List (LockedEngine × Call)}
    (h : DeletesFindNodes s (before ++ after)) : DeletesFindNodes s before := by
  intro b k a rs s' heq hrun
  exact h b k (a ++ after) rs s' (by rw [heq, List.append_assoc]; rfl) hrun

/-- What one call keeps, a run keeps. -/
theorem lockedRun_ends (h : MutexesFree s) (hd : DeletesFindNodes s calls) :
    Ends MutexesFree ((runCalls lockedCall calls).run s) := by
  induction calls generalizing s with
  | nil => exact h
  | cons p rest ih =>
      refine (lockedCall_ends h p hd.head).bind ?_
      intro r s' hrun hs'
      refine (ih hs' (hd.tail hrun)).bind ?_
      intro rs s'' _ hs''
      exact hs''

/-- Each of the three engines stores some map. -/
structure LockedSim (s : Store) : Prop where
  tree : ∃ m, RbtreeSim s.tree m
  hash : ∃ m, HashSim s.hash m
  table : ∃ m, SkiptableSim s.table m

theorem KeysHaveSlots.tail {p : LockedEngine × Call} (h : KeysHaveSlots (p :: calls)) :
    KeysHaveSlots calls := fun c k hc => h c k (by simp [hc])

/-- A call returns, if the engine can hold the strings and the key has a slot that is not empty. -/
theorem lockedCall_returns (h : LockedSim s) {p : LockedEngine × Call} (hfit : p.2.PutFits)
    (hkeys : KeysHaveSlots (p :: calls)) (hslot : ∀ k, p = (.hash, .delete k) → ¬ SlotEmpty s.hash k) :
    ∃ r s', (lockedCall p).run s = .ok (r, s') ∧ LockedSim s' := by
  obtain ⟨⟨m₁, htree⟩, ⟨m₂, hhash⟩, ⟨m₃, htable⟩⟩ := h
  obtain ⟨e, c⟩ := p
  cases e with
  | rbtree =>
      obtain ⟨T, hrun, hsim, -⟩ := rbtreeCall_refines htree hfit
      exact ⟨_, _, zoom_run hrun, ⟨_, hsim⟩, ⟨m₂, hhash⟩, ⟨m₃, htable⟩⟩
  | hash =>
      obtain ⟨H, hrun, hsim, -⟩ := hashCall_refines hhash
        (hfit.hashFits fun k hk => hkeys c k (by simp) hk)
        (fun k hk => Or.inr (hslot k (congrArg (Prod.mk _) hk)))
      exact ⟨_, _, zoom_run hrun, ⟨m₁, htree⟩, ⟨_, hsim⟩, ⟨m₃, htable⟩⟩
  | skiptable =>
      by_cases hc : c = .count
      · subst hc
        have hrun : (skiptableCall .count).run s.table = .ok (.int s.table.nbElements, s.table) :=
          run_map_of _ (run_bind_of (run_get _) rfl)
        exact ⟨_, _, zoom_run hrun, ⟨m₁, htree⟩, ⟨m₂, hhash⟩, ⟨m₃, htable⟩⟩
      · obtain ⟨S, hrun, hsim, -⟩ := skiptableCall_refines htable hfit hc
        exact ⟨_, _, zoom_run hrun, ⟨m₁, htree⟩, ⟨m₂, hhash⟩, ⟨_, hsim⟩⟩

theorem lockedRun_returns (h : LockedSim s) (hfit : ∀ p ∈ calls, p.2.PutFits)
    (hkeys : KeysHaveSlots calls) (hd : DeletesFindNodes s calls) :
    ∃ rs s', (runCalls lockedCall calls).run s = .ok (rs, s') := by
  induction calls generalizing s with
  | nil => exact ⟨[], s, rfl⟩
  | cons p rest ih =>
      obtain ⟨r, s₁, hrun, hsim⟩ := lockedCall_returns h (hfit p (by simp)) hkeys hd.head
      obtain ⟨rs, s', hrest⟩ :=
        ih hsim (fun q hq => hfit q (by simp [hq])) hkeys.tail (hd.tail hrun)
      exact ⟨r :: rs, s', runCalls_cons_ok hrun hrest⟩

/-- A run of which every part returns has no key without a slot. -/
theorem LocksReleased.keysHaveSlots (h : LocksReleased s calls) : KeysHaveSlots calls := by
  intro c k hc hk
  obtain ⟨before, after, rfl⟩ := List.append_of_mem hc
  obtain ⟨rs, s', hrun, -⟩ := h (before ++ [(.hash, c)]) after (by simp)
  obtain ⟨rs₁, s₁, rs₂, -, hlast⟩ := runCalls_append_inv hrun
  obtain ⟨r, s₂, hcall, -⟩ := run_bind_inv hlast
  obtain ⟨H, hcall, -⟩ := zoom_inv hcall
  rcases hashCall_returns hcall with ⟨rfl, -⟩ | ⟨-, hs⟩
  · exact hk.elim
  · exact hs k hk

/-- Nor has it a `delete` that finds its slot empty: the mutex would be held after it. -/
theorem LocksReleased.deletesFindNodes (h : LocksReleased s calls) : DeletesFindNodes s calls := by
  intro before k after rs s' heq hrun hempty
  obtain ⟨rs₁, s₁, hrun₁, hfree, -⟩ := h before _ heq
  rw [hrun] at hrun₁
  cases hrun₁
  have hdel : (runCalls lockedCall [(.hash, .delete k)]).run s' = _ :=
    runCalls_cons_ok (lockedCall_empty hfree hempty) rfl
  obtain ⟨rs₂, s₂, hrun₂, hfree₂, -⟩ := h (before ++ [(.hash, .delete k)]) after (by simp [heq])
  rw [runCalls_append hrun hdel] at hrun₂
  cases hrun₂
  exact absurd hfree₂.2.1 (by simp)

/-- The operations of a run from a good state release the mutexes exactly on two conditions. -/
theorem locksReleased_iff (h : MutexesFree s) (hsim : LockedSim s)
    (hfit : ∀ p ∈ calls, p.2.PutFits) :
    LocksReleased s calls ↔ KeysHaveSlots calls ∧ DeletesFindNodes s calls := by
  constructor
  · exact fun hreleased => ⟨hreleased.keysHaveSlots, hreleased.deletesFindNodes⟩
  · rintro ⟨hkeys, hd⟩ before after rfl
    obtain ⟨rs, s', hrun⟩ := lockedRun_returns hsim (fun p hp => hfit p (by simp [hp]))
      (fun c k hc => hkeys c k (by simp [hc])) hd.take
    have hfree := lockedRun_ends h hd.take
    rw [hrun] at hfree
    exact ⟨rs, s', hrun, hfree, lockedCall_ne_deadlock hfree⟩

end Store

theorem FreshStore.locked {s : Store} (h : FreshStore s .free) : MutexesFree s ∧ LockedSim s := by
  refine ⟨⟨h.treeLock, by rw [h.hash]; rfl, h.tableLock⟩, ⟨∅, h.tree⟩, ⟨∅, ?_⟩, ⟨∅, h.table⟩⟩
  rw [h.hash]
  exact HashSim.fresh (by decide)

/--
**Every operation of a run returns with all mutexes free exactly if the keys of the chained hash
have slots and no `delete` of it finds its slot empty**, for puts whose strings fit.
-/
theorem locks_released_iff (rand : Nat → Nat) {calls : List (LockedEngine × Call)}
    (hfit : ∀ p ∈ calls, p.2.PutFits) :
    ∃ s₀, (initKvengine (Vector.replicate maxTableSize []) .free).run (Store.static rand) =
        .ok ((), s₀) ∧
      (LocksReleased s₀ calls ↔ KeysHaveSlots calls ∧ DeletesFindNodes s₀ calls) := by
  obtain ⟨s₀, hinit, hfresh⟩ := initKvengine_spec rand .free (by decide)
  exact ⟨s₀, hinit, locksReleased_iff hfresh.locked.1 hfresh.locked.2 hfit⟩

theorem locks_released_iff_put_delete :
    let k : CString := ⟨[107], by decide⟩
    ∃ s₀, (initKvengine (Vector.replicate maxTableSize []) .free).run (Store.static fun _ => 0) =
        .ok ((), s₀) ∧
      (LocksReleased s₀ [(.hash, .put k k), (.hash, .delete k)] ↔
        KeysHaveSlots [(.hash, .put k k), (.hash, .delete k)] ∧
          DeletesFindNodes s₀ [(.hash, .put k k), (.hash, .delete k)]) := by
  intro k
  exact locks_released_iff (fun _ => 0) (by decide)

/-- A `delete` from a fresh table returns with the mutex held, and the next `get` blocks. -/
theorem hash_delete_keeps_lock :
    let k : CString := ⟨[107], by decide⟩
    ∃ s₀ s₁,
      (initKvengine (Vector.replicate maxTableSize []) .free).run (Store.static fun _ => 0) =
        .ok ((), s₀) ∧
      (lockedCall (.hash, .delete k)).run s₀ = .ok (.int (-1), s₁) ∧
      s₁.hash.lock = .held ∧
      (lockedCall (.hash, .get k)).run s₁ = .error .deadlock ∧
      ¬ LocksReleased s₀ [(.hash, .delete k)] := by
  intro k
  obtain ⟨s₀, hinit, hfresh⟩ := initKvengine_spec (fun _ => 0) .free (by decide)
  have hempty : SlotEmpty s₀.hash k := by
    rw [hfresh.hash]
    exact ⟨_, 107, by decide, rfl, rfl, by rw [Vector.getElem_replicate]⟩
  have hdel := lockedCall_empty hfresh.locked.1 hempty
  refine ⟨s₀, _, hinit, hdel, rfl, ?_, ?_⟩
  · rw [hfresh.hash]
    rfl
  · exact fun hreleased => hreleased.deletesFindNodes [] k [] [] s₀ rfl rfl hempty

end KvStore
