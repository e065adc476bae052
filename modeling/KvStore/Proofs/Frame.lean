/-
What a message can change.

Nothing here depends on what the engines store.  The functions behind `GET`, `COUNT` and
`EXIST` only read; those behind `SET` and `DELETE` have changed nothing if they report
failure; and each works on its own engine.  The one exception is a `delete` of the chained
hash that finds its slot empty and keeps the mutex, which does nothing if the mutexes are
ignored.
-/
import KvStore.Base.ReadOnly
import KvStore.Proofs.Accept
import KvStore.Proofs.Contents
import KvStore.Proofs.Protocol

namespace KvStore

theorem readAnswer_readOnly {σ : Type} (r : Option (List Byte)) :
    ReadOnly (readAnswer r : Prog σ Answer) := by
  cases r with
  | none => exact .pure _
  | some m => exact .seq (.liftE _) fun _ => .pure _

/-! ### The array -/

section Array

variable (key value : Option CString)

theorem arrayItem_readOnly (i : Nat) : ReadOnly (arrayItem i) :=
  .seq .get fun _ => .dite (fun _ => .pure _) fun _ => .fault _

theorem kvsArraySearchItem_readOnly : ReadOnly (kvsArraySearchItem key) := by
  cases key with
  | none => exact .pure _
  | some key =>
      refine .seq (.forFirst fun i => .seq (arrayItem_readOnly i) fun item => ?_) fun _ =>
        .ite (.pure _) (.pure _)
      cases item.key with
      | none => exact .pure _
      | some k => exact .seq (.liftE _) fun _ => .pure _

theorem kvsArrayExist_readOnly : ReadOnly (kvsArrayExist key) :=
  .seq (kvsArraySearchItem_readOnly key) fun _ => .pure _

theorem kvsArrayGet_readOnly : ReadOnly (kvsArrayGet key) := by
  refine .seq (kvsArraySearchItem_readOnly key) fun r => ?_
  cases r with
  | none => exact .pure _
  | some i => exact .seq (arrayItem_readOnly i) fun _ => .pure _

theorem kvsArraySet_atomic : Atomic (kvsArraySet true true key value) := by
  cases key with
  | none => exact (ReadOnly.pure _).atomic
  | some key =>
      cases value with
      | none => exact (ReadOnly.pure _).atomic
      | some value =>
          refine .seq .get fun _ => .ite (ReadOnly.pure _).atomic ?_
          refine .seq (kvsArrayExist_readOnly _) fun _ => .ite (ReadOnly.pure _).atomic ?_
          refine .ite (ReadOnly.pure _).atomic (.ite (ReadOnly.pure _).atomic (.of_zero ?_))
          exact .seq fun _ => .seq fun _ => .seq fun _ => .seq fun _ => .pure rfl

theorem kvsArrayDelete_atomic : Atomic (kvsArrayDelete key) := by
  cases key with
  | none => exact (ReadOnly.pure _).atomic
  | some key =>
      refine .seq (kvsArraySearchItem_readOnly _) fun r => ?_
      cases r with
      | none => exact (ReadOnly.pure _).atomic
      | some i =>
          exact .of_zero (.seq fun _ => .seq fun _ => .seq fun _ => .seq fun _ => .pure rfl)

end Array

/-! ### The red-black tree -/

section Rbtree

variable (key value : Option CString)

theorem rbtreeSearch_readOnly (key : CString) : ReadOnly (rbtreeSearch key) := by
  refine .seq .get fun T => .loop (fun node => ?_) _ _
  refine .seq .get fun _ => .ite (.seq (.seq (.deref _) fun _ => .liftE _) fun _ => ?_) (.pure _)
  refine .ite (.seq (getChild_readOnly _ _) fun _ => .pure _) ?_
  exact .ite (.seq (getChild_readOnly _ _) fun _ => .pure _) (.pure _)

theorem getKvRbtree_readOnly : ReadOnly (getKvRbtree key) := by
  cases key with
  | none => exact .pure _
  | some key => exact .seq (rbtreeSearch_readOnly key) fun _ => .seq (.deref _) fun _ => .pure _

theorem existKvRbtree_readOnly : ReadOnly (existKvRbtree key) := by
  cases key with
  | none => exact .pure _
  | some key =>
      exact .seq .get fun _ => .seq (rbtreeSearch_readOnly key) fun _ => .ite (.pure _) (.pure _)

theorem putKvRbtree_atomic : Atomic (putKvRbtree true key value) := by
  cases key with
  | none => exact (ReadOnly.pure _).atomic
  | some key =>
      cases value with
      | none => exact (ReadOnly.pure _).atomic
      | some value =>
          refine .seq .get fun T => .seq (rbtreeSearch_readOnly key) fun _ => ?_
          refine .ite (ReadOnly.pure _).atomic (.of_zero ?_)
          -- The allocation succeeds, so that the new node is not null.
          intro s r s' h
          obtain ⟨node, s₁, hmalloc, h⟩ := run_bind_inv h
          have hne : node ≠ 0 := by
            cases hmalloc
            exact Nat.ne_of_gt s.mem.next_pos
          rw [if_neg hne] at h
          refine Returns.seq (P := (· = 0)) (fun _ => ?_) _ _ _ h
          refine .seq fun _ => .seq fun _ => .seq fun _ => .seq fun _ => ?_
          exact .seq fun _ => .seq fun _ => .pure rfl

theorem deleteKvRbtree_atomic : Atomic (deleteKvRbtree key) := by
  cases key with
  | none => exact (ReadOnly.pure _).atomic
  | some key =>
      refine .seq .get fun T => .seq (rbtreeSearch_readOnly key) fun _ => ?_
      refine .ite (ReadOnly.pure _).atomic (.of_zero ?_)
      exact .seq fun _ => .seq fun _ => .seq fun _ => .seq fun _ => .seq fun _ => .pure rfl

end Rbtree

/-! ### The chained hash -/

section Hash

variable {H H' : Hashtable} {α : Type} {a : α} {r : Int}

theorem mutexLock_ignored (hlock : H.lock = .ignored) : mutexLock.run H = .ok ((), H) := by
  have h : (HasMutex.mutex H).lock = .ok .ignored := by
    rw [show HasMutex.mutex H = .ignored from hlock]
    rfl
  rw [mutexLock_run h, ← hlock]
  rfl

theorem mutexUnlock_ignored (hlock : H.lock = .ignored) : mutexUnlock.run H = .ok ((), H) := by
  rw [mutexUnlock_run, show HasMutex.mutex H = .ignored from hlock]
  show Except.ok ((), ({ H with lock := .ignored } : Hashtable)) = _
  rw [← hlock]

/-- What an operation does before it walks along a chain changes nothing. -/
theorem hash_enter {k : CString} {rest : Int → List HashNode → Prog Hashtable α}
    (hlock : H.lock = .ignored)
    (h : (do let idx ← liftE (hash (some k) maxTableSize)
             mutexLock
             let chain ← hashChain idx
             rest idx chain : Prog Hashtable α).run H = .ok (a, H')) :
    ∃ idx chain, (rest idx chain).run H = .ok (a, H') := by
  obtain ⟨idx, -, h⟩ := run_liftE_inv h
  rw [run_bind_ok (mutexLock_ignored hlock)] at h
  obtain ⟨chain, H₂, hchain, hrest⟩ := run_bind_inv h
  rw [(hashChain_inv hchain).1] at hrest
  exact ⟨idx, chain, hrest⟩

theorem getKvHashtable_same (hlock : H.lock = .ignored) (key : Option CString)
    {r : Option (List Byte)} (h : (getKvHashtable key).run H = .ok (r, H')) : H' = H := by
  cases key with
  | none => exact ReadOnly.pure _ _ _ _ h
  | some key =>
      obtain ⟨idx, chain, h⟩ := hash_enter hlock h
      obtain ⟨found, -, h⟩ := run_liftE_inv h
      rw [run_bind_ok (mutexUnlock_ignored hlock)] at h
      exact ReadOnly.pure _ _ _ _ h

/-- A run kept the mutex ignored, and nothing changed unless it returned 0. -/
structure HashCalm (H H' : Hashtable) (r : Int) : Prop where
  lock : H'.lock = .ignored
  same : r ≠ 0 → H' = H

theorem HashCalm.of_same (hlock : H.lock = .ignored) (h : H' = H) : HashCalm H H' r :=
  ⟨by rw [h]; exact hlock, fun _ => h⟩

/-- The end of a critical section. -/
theorem HashCalm.of_moves {x : Prog Hashtable Int} (hlock : H.lock = .ignored)
    (hx : Moves Mutex.unlock x) (h : x.run H = .ok (r, H')) (hsame : r ≠ 0 → H' = H) :
    HashCalm H H' r := by
  have hend := hx H
  rw [h, show HasMutex.mutex H = .ignored from hlock] at hend
  exact ⟨hend, hsame⟩

theorem putKvHashtable_calm (hlock : H.lock = .ignored) (key value : Option CString)
    (h : (putKvHashtable true key value).run H = .ok (r, H')) : HashCalm H H' r := by
  cases key with
  | none => exact .of_same hlock (ReadOnly.pure _ _ _ _ h)
  | some key =>
      cases value with
      | none => exact .of_same hlock (ReadOnly.pure _ _ _ _ h)
      | some value =>
          obtain ⟨idx, chain, h⟩ := hash_enter hlock h
          refine .of_moves hlock (putIntoChain_moves _ _ _ _) h fun hr => ?_
          obtain ⟨found, -, h⟩ := run_liftE_inv h
          cases found with
          | some node =>
              rw [run_bind_ok (mutexUnlock_ignored hlock)] at h
              exact ReadOnly.pure _ _ _ _ h
          | none =>
              refine absurd (Returns.seq (P := (· = 0)) (fun _ => ?_) _ _ _ h) hr
              exact .seq fun _ => .seq fun _ => .pure rfl

theorem deleteEnd_returns (idx : Int) (chain : List HashNode)
    (h : (deleteEnd idx chain).run H = .ok (r, H')) : r = 0 :=
  Returns.seq (P := (· = 0)) (fun _ => .seq fun _ => .seq fun _ => .pure rfl) _ _ _ h

theorem deleteKvHashtable_calm (hlock : H.lock = .ignored) (key : Option CString)
    (h : (deleteKvHashtable key).run H = .ok (r, H')) : HashCalm H H' r := by
  cases key with
  | none => exact .of_same hlock (ReadOnly.pure _ _ _ _ h)
  | some key =>
      obtain ⟨idx, chain, h⟩ := hash_enter hlock h
      cases chain with
      | nil => exact .of_same hlock (ReadOnly.pure _ _ _ _ h)
      | cons head next =>
          refine .of_moves hlock (deleteFromChain_moves _ _ _ _) h fun hr => ?_
          obtain ⟨c, -, h⟩ := run_liftE_inv h
          by_cases hzero : c = 0
          · rw [if_pos hzero] at h
            exact absurd (deleteEnd_returns _ _ h) hr
          · rw [if_neg hzero] at h
            obtain ⟨found, -, h⟩ := run_liftE_inv h
            cases found with
            | none =>
                rw [run_bind_ok (mutexUnlock_ignored hlock)] at h
                exact ReadOnly.pure _ _ _ _ h
            | some rest => exact absurd (deleteEnd_returns _ _ h) hr

end Hash

/-! ### The second hash -/

section Dhash

variable (key value : Option CString)

theorem derefString_readOnly {σ : Type} (s : Option CString) :
    ReadOnly (derefString s : Prog σ CString) := by
  cases s with
  | none => exact .fault _
  | some s => exact .pure _

theorem dhashChain_readOnly (i : Nat) : ReadOnly (dhashChain i) := by
  refine .seq .get fun D => ?_
  cases D.table with
  | none => exact .fault _
  | some t => exact .dite (fun _ => .pure _) fun _ => .fault _

theorem getKvDhashtable_readOnly : ReadOnly (getKvDhashtable key) :=
  .seq (derefString_readOnly key) fun _ => .seq (dhashChain_readOnly _) fun _ =>
    .seq (.liftE _) fun _ => .pure _

theorem existKvDhashtable_readOnly : ReadOnly (existKvDhashtable key) :=
  .seq (derefString_readOnly key) fun _ => .seq (dhashChain_readOnly _) fun _ =>
    .seq (.liftE _) fun _ => .pure _

theorem countKvDhashtable_readOnly : ReadOnly countKvDhashtable := by
  refine .seq .get fun D => ?_
  cases D.table with
  | none => exact .fault _
  | some t => exact .pure _

theorem putKvDhashtable_atomic : Atomic (putKvDhashtable true true true key value) := by
  refine .seq (derefString_readOnly key) fun _ => .ite (ReadOnly.pure _).atomic ?_
  refine .seq (derefString_readOnly value) fun _ => .ite (ReadOnly.pure _).atomic (.of_zero ?_)
  exact .seq fun _ => .seq fun _ => .pure rfl

theorem deleteKvDhashtable_atomic : Atomic (deleteKvDhashtable key) := by
  refine .seq (derefString_readOnly key) fun _ => .seq (dhashChain_readOnly _) fun _ => ?_
  refine .seq (.liftE _) fun r => ?_
  cases r with
  | none => exact (ReadOnly.pure _).atomic
  | some chain => exact .of_zero (.seq fun _ => .pure rfl)

end Dhash

/-! ### The skip list -/

section Skiptable

variable (key value : Option CString)

theorem getForward_readOnly (p : Ptr) (i : Nat) : ReadOnly (getForward p i) := by
  refine .seq (.deref p) fun nd => ?_
  cases nd.forward[i]? with
  | none => exact .fault _
  | some q => exact .pure _

theorem compareNode_readOnly (p : Ptr) : ReadOnly (compareNode p key) := by
  refine .seq (.deref p) fun nd => ?_
  cases key with
  | none => exact .fault _
  | some key => exact .liftE _

theorem descend_readOnly {α : Type} {visit : Nat → Ptr → α → Prog SkipList α}
    (hvisit : ∀ i p a, ReadOnly (visit i p a)) :
    ∀ (n : Nat) (p : Ptr) (a : α), ReadOnly (descend visit key n p a) := by
  intro n
  induction n with
  | zero => exact fun _ _ => .pure _
  | succ i ih =>
      intro p a
      refine .seq (.seq .get fun _ => .loop (fun q => ?_) _ _) fun _ =>
        .seq (hvisit _ _ _) fun _ => ih _ _
      refine .seq (getForward_readOnly _ _) fun _ => .ite ?_ (.pure _)
      exact .seq (compareNode_readOnly key _) fun _ => .ite (.pure _) (.pure _)

theorem find_readOnly : ReadOnly (SkipList.find key) := by
  refine .seq .get fun _ => .seq (descend_readOnly key (fun _ _ _ => .pure _) _ _ _) fun _ => ?_
  refine .seq (.seq (getForward_readOnly _ _) fun _ => .ite ?_ (.pure _)) fun _ => .ite ?_ (.pure _)
  · exact .seq (compareNode_readOnly key _) fun _ => .pure _
  · exact .seq (getForward_readOnly _ _) fun _ => .seq (.deref _) fun _ => .pure _

theorem getKvSkiptable_readOnly : ReadOnly (getKvSkiptable key) := by
  cases key with
  | none => exact .pure _
  | some key => exact find_readOnly _

theorem existKvSkiptable_readOnly : ReadOnly (existKvSkiptable key) := by
  refine .seq (find_readOnly key) fun r => ?_
  cases r <;> exact .pure _

theorem putKvSkiptable_atomic : Atomic (putKvSkiptable true true key value) := by
  cases key with
  | none => exact (ReadOnly.pure _).atomic
  | some key =>
      cases value with
      | none => exact (ReadOnly.pure _).atomic
      | some value =>
          exact .of_zero (.seq fun _ => .seq fun _ => .seq fun _ => .seq fun _ => .pure rfl)

theorem deleteKvSkiptable_atomic : Atomic (deleteKvSkiptable key) := by
  refine .seq (find_readOnly key) fun r => ?_
  cases r with
  | none => exact (ReadOnly.pure _).atomic
  | some mem => exact .of_zero (.seq fun _ => .seq fun _ => .pure rfl)

end Skiptable

/-! ### The functions of the engines -/

/-- At most the engine `o` is different in `s'`. -/
structure SameBut (o : Option Engine) (s s' : Store) : Prop where
  array : o ≠ some .array → s'.array = s.array
  tree : o ≠ some .rbtree → s'.tree = s.tree
  hash : o ≠ some .hash → s'.hash = s.hash
  dhash : o ≠ some .dhash → s'.dhash = s.dhash
  table : o ≠ some .skiptable → s'.table = s.table

theorem SameBut.refl (o : Option Engine) (s : Store) : SameBut o s s :=
  ⟨fun _ => rfl, fun _ => rfl, fun _ => rfl, fun _ => rfl, fun _ => rfl⟩

section Operations

variable {key value : Option CString} {e : Engine} {v : Verb} {s s' : Store} {r : Answer}

/-- An engine's function works on its engine. -/
theorem op_sameBut (h : (Store.op key value e v).run s = .ok (r, s')) :
    SameBut (some e) s s' := by
  cases e <;> obtain ⟨t, -, rfl⟩ := zoom_inv h <;> constructor <;> intro hc <;>
    first | rfl | exact absurd rfl hc

theorem hashOp_reads {H H' : Hashtable} (hlock : H.lock = .ignored) (hv : ¬ v.Writes)
    (h : (hashOp key value v).run H = .ok (r, H')) : H' = H := by
  cases v with
  | set | delete => exact absurd trivial hv
  | get =>
      obtain ⟨p, H₁, hget, h⟩ := run_bind_inv h
      rw [readAnswer_readOnly _ _ _ _ h]
      exact getKvHashtable_same hlock key hget
  | count =>
      cases h
      rfl
  | exist =>
      obtain ⟨i, h, -⟩ := run_map_inv h
      obtain ⟨p, H₁, hget, h⟩ := run_bind_inv h
      rw [ReadOnly.pure _ _ _ _ h]
      exact getKvHashtable_same hlock key hget

/-- `GET`, `COUNT` and `EXIST` only read. -/
theorem op_reads (hlock : s.hash.lock = .ignored) (hv : ¬ v.Writes)
    (h : (Store.op key value e v).run s = .ok (r, s')) : s' = s := by
  cases e with
  | array =>
      refine ReadOnly.zoom (fun _ => rfl) ?_ _ _ _ h
      cases v with
      | set | delete => exact absurd trivial hv
      | get => exact .map _ (kvsArrayGet_readOnly key)
      | count => exact .map _ (.seq .get fun _ => .pure _)
      | exist => exact .map _ (kvsArrayExist_readOnly key)
  | rbtree =>
      refine ReadOnly.zoom (fun _ => rfl) ?_ _ _ _ h
      cases v with
      | set | delete => exact absurd trivial hv
      | get => exact .seq (getKvRbtree_readOnly key) fun _ => readAnswer_readOnly _
      | count => exact .map _ (.seq .get fun _ => .pure _)
      | exist => exact .map _ (existKvRbtree_readOnly key)
  | hash =>
      obtain ⟨H, hH, rfl⟩ := zoom_inv h
      rw [hashOp_reads hlock hv hH]
  | dhash =>
      refine ReadOnly.zoom (fun _ => rfl) ?_ _ _ _ h
      cases v with
      | set | delete => exact absurd trivial hv
      | get => exact .map _ (getKvDhashtable_readOnly key)
      | count => exact .map _ countKvDhashtable_readOnly
      | exist => exact .map _ (existKvDhashtable_readOnly key)
  | skiptable =>
      refine ReadOnly.zoom (fun _ => rfl) ?_ _ _ _ h
      cases v with
      | set | delete => exact absurd trivial hv
      | get => exact .seq (getKvSkiptable_readOnly key) fun _ => readAnswer_readOnly _
      | count => exact .map _ (.seq .get fun _ => .pure _)
      | exist => exact .map _ (existKvSkiptable_readOnly key)

/-- On one engine, a `SET` or `DELETE` that does not succeed changes nothing. -/
theorem Atomic.onEngine {τ : Type} {view : Store → τ} {update : Store → τ → Store} {x : Prog τ Int}
    (hx : Atomic x) (hupdate : ∀ s, update s (view s) = s)
    (h : (zoom view update (Answer.int <$> x)).run s = .ok (r, s')) :
    ∃ i, r = .int i ∧ (i ≠ 0 → s' = s) := by
  obtain ⟨t, hrun, rfl⟩ := zoom_inv h
  obtain ⟨i, hi, rfl⟩ := run_map_inv hrun
  refine ⟨i, rfl, ?_⟩
  intro hne
  rw [hx _ i t hi hne]
  exact hupdate s

theorem op_fails (hlock : s.hash.lock = .ignored) (hv : v.Writes)
    (h : (Store.op key value e v).run s = .ok (r, s')) : ∃ i, r = .int i ∧ (i ≠ 0 → s' = s) := by
  cases v with
  | get | count | exist => exact absurd hv id
  | set =>
      cases e with
      | array => exact (kvsArraySet_atomic key value).onEngine (fun _ => rfl) h
      | rbtree => exact (putKvRbtree_atomic key value).onEngine (fun _ => rfl) h
      | hash =>
          obtain ⟨H, hH, rfl⟩ := zoom_inv h
          obtain ⟨i, hi, rfl⟩ := run_map_inv hH
          exact ⟨i, rfl, fun hne => by rw [(putKvHashtable_calm hlock key value hi).same hne]⟩
      | dhash => exact (putKvDhashtable_atomic key value).onEngine (fun _ => rfl) h
      | skiptable => exact (putKvSkiptable_atomic key value).onEngine (fun _ => rfl) h
  | delete =>
      cases e with
      | array => exact (kvsArrayDelete_atomic key).onEngine (fun _ => rfl) h
      | rbtree => exact (deleteKvRbtree_atomic key).onEngine (fun _ => rfl) h
      | hash =>
          obtain ⟨H, hH, rfl⟩ := zoom_inv h
          obtain ⟨i, hi, rfl⟩ := run_map_inv hH
          exact ⟨i, rfl, fun hne => by rw [(deleteKvHashtable_calm hlock key hi).same hne]⟩
      | dhash => exact (deleteKvDhashtable_atomic key).onEngine (fun _ => rfl) h
      | skiptable => exact (deleteKvSkiptable_atomic key).onEngine (fun _ => rfl) h

/-- The mutex of the chained hash stays ignored. -/
theorem op_lock (hlock : s.hash.lock = .ignored)
    (h : (Store.op key value e v).run s = .ok (r, s')) : s'.hash.lock = .ignored := by
  by_cases hv : v.Writes
  · cases e with
    | hash =>
        obtain ⟨H, hH, rfl⟩ := zoom_inv h
        cases v with
        | get | count | exist => exact absurd hv id
        | set =>
            obtain ⟨i, hi, rfl⟩ := run_map_inv hH
            exact (putKvHashtable_calm hlock key value hi).lock
        | delete =>
            obtain ⟨i, hi, rfl⟩ := run_map_inv hH
            exact (deleteKvHashtable_calm hlock key hi).lock
    | array | rbtree | dhash | skiptable =>
        rw [(op_sameBut h).hash (by decide)]
        exact hlock
  · rw [op_reads hlock hv h]
    exact hlock

end Operations

/-! ### Messages -/

/-- What a message with this reply may have done. -/
structure MessageEffect (request reply : List Byte) (s s' : Store) : Prop where
  /-- only the engine it asks for is different -/
  others : SameBut ((requestIn request).map Prod.fst) s s'
  /-- it asks for something other than a `SET` or `DELETE`, and nothing is different -/
  reads : (∀ e v, requestIn request = some (e, v) → ¬ v.Writes) → s' = s
  /-- a `SET` or `DELETE` has failed, and nothing is different -/
  failed : (∃ e v, requestIn request = some (e, v) ∧ v.Writes) → reply = literal "FAILED\x0d\n" →
    s' = s

/-- The reply to a `SET` or `DELETE` says whether it failed. -/
theorem resultReply_failed {v : Verb} (hv : v.Writes) {i : Int}
    (h : (replyBuf (v.text (.int i))).take (v.text (.int i)).length = literal "FAILED\x0d\n") :
    i ≠ 0 := by
  rintro rfl
  cases v with
  | get | count | exist => exact absurd hv id
  | set | delete =>
      rw [take_replyBuf (by decide)] at h
      revert h
      decide

section Messages

variable {request : List Byte} {s s' : Store} {ret : Int} {buf : List Byte}

theorem message_effect (hlock : s.hash.lock = .ignored) (hlen : request.length < clinetMsgLength)
    (h : (kvsProtocolOn request).run s = .ok ((ret, buf), s')) :
    s'.hash.lock = .ignored ∧ MessageEffect request (buf.take ret.toNat) s s' := by
  rcases kvsProtocolOn_inv hlen h with ⟨hreq, rfl, -⟩ | ⟨e, v, r, hreq, -, hop, rfl, rfl⟩
  · exact ⟨hlock, .refl _ _, fun _ => rfl, fun _ _ => rfl⟩
  · refine ⟨op_lock hlock hop, ?_, ?_, ?_⟩
    · rw [hreq]
      exact op_sameBut hop
    · intro hreads
      exact op_reads hlock (hreads e v hreq) hop
    · rintro ⟨e', v', hreq', hv⟩ hreply
      rw [hreq] at hreq'
      cases hreq'
      obtain ⟨i, rfl, hsame⟩ := op_fails hlock hv hop
      rw [Int.toNat_natCast] at hreply
      exact hsame (resultReply_failed hv hreply)

/-- The message carries the arguments of its command, and they fit their fields. -/
structure Admissible (request : List Byte) : Prop where
  short : request.length < clinetMsgLength
  room : (tokensOf request).length ≤ maxTokens
  args : ∀ e v, requestIn request = some (e, v) →
    ∃ c, v.call (tokensOf request)[1]? (tokensOf request)[2]? = some c ∧ c.Fits ∧ c.AsciiKey
  set : requestIn request = some (.array, .set) → (tokensOf request).length = 3

theorem Call.Suits.fitsIn {e : Engine} {c : Call} (h : c.Suits e) : c.FitsIn e := by
  cases e with
  | array | dhash | rbtree | skiptable => exact h
  | hash =>
      cases c with
      | put k v => exact ⟨h.1, h.2.1⟩
      | get | count | exist | delete => trivial

theorem Admissible.served (h : Admissible request) : Served request := by
  refine ⟨h.short, h.room, ?_, h.set⟩
  intro e v hreq
  obtain ⟨c, hcall, hfits, hascii⟩ := h.args e v hreq
  exact ⟨c, hcall, hfits.suits hascii e⟩

end Messages

/--
**Messages are isolated, and reading and failing change nothing.**  From initialised engines
every run of admissible messages returns.  After every run of messages that returned,
admissible or not, a further message that returns has changed at most the engine it asks for;
it has changed nothing if it was no `SET` or `DELETE`, or if the reply was `FAILED`.
-/
theorem message_frame (rand : Nat → Nat) :
    ∃ s₀, (initKvengine (Vector.replicate maxTableSize []) .ignored).run (Store.static rand) =
        .ok ((), s₀) ∧
      (∀ requests : List (List Byte), (∀ request ∈ requests, Admissible request) →
        ∃ rs s, (runCalls kvsProtocolOn requests).run s₀ = .ok (rs, s)) ∧
      ∀ (requests : List (List Byte)) (rs : List (Int × List Byte)) (s : Store),
        (∀ request ∈ requests, request.length < clinetMsgLength) →
        (runCalls kvsProtocolOn requests).run s₀ = .ok (rs, s) →
        ∀ (request : List Byte) (ret : Int) (buf : List Byte) (s' : Store),
          request.length < clinetMsgLength →
          (kvsProtocolOn request).run s = .ok ((ret, buf), s') →
          MessageEffect request (buf.take ret.toNat) s s' := by
  obtain ⟨s₀, hinit, hfresh⟩ := initKvengine_spec rand .ignored (by decide)
  refine ⟨s₀, hinit, ?_, ?_⟩
  · intro requests hadm
    obtain ⟨rs, s, hrun, -⟩ := hfresh.holding.run requests fun r hr => (hadm r hr).served
    exact ⟨rs, s, hrun⟩
  · intro requests rs s hshort hrun request ret buf s' hlen h
    have h₀ : s₀.hash.lock = .ignored := by
      rw [hfresh.hash]
      rfl
    have hlock : s.hash.lock = .ignored :=
      runCalls_keeps (P := fun s : Store => s.hash.lock = .ignored)
        (fun s c r s' hs hc hcall => (message_effect hs hc hcall).1) h₀ hshort hrun
    exact (message_effect hlock hlen h).2

theorem message_frame_dset : ∃ (s₀ s' : Store) (ret : Int) (buf : List Byte),
    (kvsProtocolOn (literal "DSET k value")).run s₀ = .ok ((ret, buf), s') ∧
      MessageEffect (literal "DSET k value") (buf.take ret.toNat) s₀ s' := by
  obtain ⟨s₀, -, hreturns, heffect⟩ := message_frame fun _ => 0
  have hadm : Admissible (literal "DSET k value") := by
    refine ⟨by decide, by decide, ?_, by decide⟩
    intro e v hreq
    cases (show requestIn (literal "DSET k value") = some (.dhash, .set) by decide).symm.trans hreq
    exact ⟨.put ⟨literal "k", by decide⟩ ⟨literal "value", by decide⟩, by decide, by decide,
      by decide⟩
  obtain ⟨rs, s, hrun⟩ := hreturns [literal "DSET k value"] (by simpa using hadm)
  obtain ⟨⟨ret, buf⟩, s', hfirst, -⟩ := run_bind_inv hrun
  exact ⟨s₀, s', ret, buf, hfirst, heffect [] [] s₀ (by simp) rfl _ ret buf s' hadm.short hfirst⟩

end KvStore
