/-
The server gives the service.

While a reader has a request answered no other coroutine runs.  So the requests of all clients
are in one order, that of `exchanges`, and the store has answered them one after the other
(`exchanges_run`).  For requests that the server can take these are the replies of the
abstract service, whatever the interleaving was.

The mutexes are real ones here.  `Storing s C lost` is `Holding s C` without the mutex of the
chained hash, which is held exactly if `lost`; a request that locks it is then never answered
(`Storing.blocked`), and any other one is (`Storing.serve`).
-/
import KvStore.Proofs.Complete
import KvStore.Proofs.Delivery
import KvStore.Spec.Service

namespace KvStore

/-- The engines store the contents, and the mutex of the chained hash is lost or free. -/
structure Storing (s : Store) (C : Contents) (lost : Prop) : Prop where
  array : ArraySim s.array C.array
  tree : RbtreeSim s.tree C.tree
  hash : HashSim { s.hash with lock := .free } C.hash
  real : s.hash.lock ≠ .ignored
  held : s.hash.lock = .held ↔ lost
  dhash : DhashSim s.dhash C.dhash
  table : SkiptableSim s.table C.table
  counter : s.table.nbElements = C.counter

theorem FreshStore.storing {s : Store} (h : FreshStore s .free) :
    Storing s Contents.empty (LockLost []) := by
  refine ⟨h.array, h.tree, ?_, ?_, ?_, ?_, h.table, h.count⟩
  · rw [h.hash]
    exact HashSim.fresh (by decide)
  · rw [h.hash]
    simp [Hashtable.fresh]
  · rw [h.hash]
    exact iff_of_false (by simp [Hashtable.fresh]) not_lockLost_nil
  · rw [h.dhash]
    exact DhashSim.fresh

/-! ### One call -/

/-- The slot of a key is empty if no key with this slot is stored. -/
theorem slotEmpty_iff {H : Hashtable} {m : Dict CString CString} {k : CString} (h : HashSim H m)
    (hk : Hashable k) :
    SlotEmpty H k ↔ ∀ k' ∈ m, hash (some k') maxTableSize ≠ hash (some k) maxTableSize := by
  obtain ⟨t, ht, hc, hh⟩ := h.table
  obtain ⟨i, hi, hidx⟩ := hk
  constructor
  · rintro ⟨t', j, hj, ht', hidx', hempty⟩ k' hk' hsame
    cases ht.symm.trans ht'
    exact notMem_of_slot hc hh hj (hsame.trans hidx') (by simp [hempty]) hk'
  · intro hnone
    refine ⟨t, i, hi, ht, hidx, List.eq_nil_iff_forall_not_mem.mpr ?_⟩
    intro node hnode
    refine hnone node.name (Finmap.mem_of_lookup_eq_some (lookup_of_slot hh hi hnode)) ?_
    rw [hidx]
    exact hc.home i hi node hnode

section Calls

variable {s : Store} {C : Contents} {lost : Prop} {e : Engine} {c : Call}

/-- The mutex that is not lost is free. -/
theorem Storing.free (h : Storing s C lost) (hlost : ¬ lost) : s.hash.lock = .free := by
  have hheld := mt h.held.mp hlost
  have hreal := h.real
  cases hlock : s.hash.lock with
  | ignored => exact absurd hlock hreal
  | free => rfl
  | held => exact absurd hlock hheld

theorem Storing.hashSim (h : Storing s C lost) (hlost : ¬ lost) : HashSim s.hash C.hash := by
  have hsim := h.hash
  rwa [← h.free hlost] at hsim

/-- The chained hash answers, and loses its mutex if the slot of a `delete` is empty. -/
theorem Storing.hashCall (h : Storing s C lost) (hc : c.HashFits) (hlost : ¬ lost) :
    ∃ s', (Store.call .hash c).run s = .ok ((C.step .hash c).1, s') ∧
      Storing s' (C.step .hash c).2 (c.LosesLock C) := by
  have hsim := h.hashSim hlost
  have hfree := h.free hlost
  by_cases hempty : ∃ k, c = .delete k ∧ SlotEmpty s.hash k
  · obtain ⟨k, rfl, hempty⟩ := hempty
    have hnone := (slotEmpty_iff hsim hc).mp hempty
    have habs : k ∉ C.hash := fun hk => hnone k hk rfl
    have hlock : s.hash.lock.lock = .ok .held := by
      rw [hfree]
      rfl
    have hstep : C.step .hash (.delete k) = (.int (-1), C) := by
      show (Answer.int (hashRules.delete C.hash k).1,
        ({ C with hash := (hashRules.delete C.hash k).2 } : Contents)) = _
      rw [MapRules.delete_absent habs]
      rfl
    rw [hstep]
    refine ⟨_, zoom_run (run_map_of _ (deleteKvHashtable_empty hlock hempty)), h.array, h.tree,
      h.hash, ?_, iff_of_true rfl hnone, h.dhash, h.table, h.counter⟩
    exact fun hc => by cases hc
  · obtain ⟨H, hrun, hsim', heff⟩ := hashCall_refines hsim hc
      (fun k hk => Or.inr fun hslot => hempty ⟨k, hk, hslot⟩)
    have hfree' : H.lock = .free := heff.lock.trans hfree
    have hkeeps : ¬ c.LosesLock C := by
      intro hloses
      cases c with
      | delete k => exact hempty ⟨k, rfl, (slotEmpty_iff hsim hc).mpr hloses⟩
      | put | get | count | exist => exact hloses
    refine ⟨_, zoom_run hrun, h.array, h.tree, ?_, ?_, ?_, h.dhash, h.table, h.counter⟩
    · show HashSim { H with lock := .free } _
      rw [← hfree']
      exact hsim'
    · show H.lock ≠ .ignored
      rw [hfree']
      exact fun hc => by cases hc
    · show H.lock = .held ↔ _
      rw [hfree']
      exact iff_of_false (fun hc => by cases hc) hkeeps

/-- **A call that does not wait for the lost mutex is answered as the service does.** -/
theorem Storing.call (h : Storing s C lost) (hc : c.Suits e)
    (hfree : e = .hash → c ≠ .count → ¬ lost) :
    ∃ s', (Store.call e c).run s = .ok ((C.step e c).1, s') ∧
      Storing s' (C.step e c).2 (lost ∨ e = .hash ∧ c.LosesLock C) := by
  have hsame : ∀ {p : Prop}, ¬ p → (s.hash.lock = .held ↔ lost ∨ p) := fun hp =>
    h.held.trans (or_iff_left hp).symm
  cases e with
  | array =>
      obtain ⟨A, hA, hsim, -⟩ := arrayCall_refines h.array c
      exact ⟨_, zoom_run hA, hsim, h.tree, h.hash, h.real, hsame (by simp), h.dhash, h.table,
        h.counter⟩
  | rbtree =>
      obtain ⟨T, hT, hsim, -⟩ := rbtreeCall_refines h.tree hc
      exact ⟨_, zoom_run hT, h.array, hsim, h.hash, h.real, hsame (by simp), h.dhash, h.table,
        h.counter⟩
  | hash =>
      by_cases hcount : c = .count
      · subst hcount
        have hcard : s.hash.count = C.hash.keys.card := h.hash.count
        refine ⟨s, ?_, h.array, h.tree, h.hash, h.real, hsame (by simp [Call.LosesLock]), h.dhash,
          h.table, h.counter⟩
        show Except.ok (Answer.int s.hash.count, s) = .ok (Answer.int C.hash.keys.card, s)
        rw [hcard]
      · have hlost := hfree rfl hcount
        obtain ⟨s', hrun, hs'⟩ := h.hashCall hc hlost
        refine ⟨s', hrun, { hs' with held := hs'.held.trans ?_ }⟩
        rw [or_iff_right hlost, eq_self_iff_true, true_and]
  | dhash =>
      obtain ⟨D, hD, hsim, -⟩ := dhashCall_refines h.dhash c
      exact ⟨_, zoom_run hD, h.array, h.tree, h.hash, h.real, hsame (by simp), hsim, h.table,
        h.counter⟩
  | skiptable =>
      by_cases hcount : c = .count
      · subst hcount
        refine ⟨s, ?_, h.array, h.tree, h.hash, h.real, hsame (by simp), h.dhash, h.table, ?_⟩
        · show Except.ok (Answer.int s.table.nbElements, s) = .ok (Answer.int C.counter, s)
          rw [h.counter]
        · show s.table.nbElements = C.counter + 0
          rw [h.counter, Int.add_zero]
      · obtain ⟨S, hS, hsim, hchange, -⟩ := skiptableCall_refines h.table hc hcount
        have hanswer : (C.step .skiptable c).1 = (skiptableRules.step C.table c).1 := if_neg hcount
        rw [hanswer]
        refine ⟨_, zoom_run hS, h.array, h.tree, h.hash, h.real, hsame (by simp), h.dhash, hsim, ?_⟩
        show S.nbElements = C.counter + countChange C.table c
        rw [hchange, h.counter]

/-- A call that waits for the lost mutex never returns. -/
theorem Storing.call_blocks (h : Storing s C lost) (hlost : lost) (hc : c.HashFits)
    (hcount : c ≠ .count) : (Store.call .hash c).run s = .error .deadlock := by
  have hlock : (mutexLock : Prog Hashtable Unit).run s.hash = .error .deadlock := by
    refine run_bind_of (run_get s.hash) ?_
    rw [show HasMutex.mutex s.hash = .held from h.held.mpr hlost]
    rfl
  refine zoom_error ?_
  have hwait : ∀ {α : Type} {k : CString} (rest : Int → Prog Hashtable α), Hashable k →
      (do
        let idx ← liftE (KvStore.hash (some k) maxTableSize)
        mutexLock
        rest idx : Prog Hashtable α).run s.hash = .error .deadlock := by
    rintro α k rest ⟨i, -, hidx⟩
    rw [hidx]
    exact run_bind_of rfl (run_bind_error hlock)
  cases c with
  | put k v => exact run_map_error _ (hwait _ hc.2.2)
  | get k => exact run_bind_error (hwait _ hc)
  | count => exact absurd rfl hcount
  | exist k => exact run_map_error _ (run_bind_error (hwait _ hc))
  | delete k => exact run_map_error _ (hwait _ hc)

end Calls

/-! ### One request -/

section Request

variable {s : Store} {before : List (List Byte)} {request : List Byte}

/-- Only `COUNT` calls `count`. -/
theorem Verb.of_call_count {key value : Option CString} {v : Verb}
    (h : v.call key value = some .count) : v = .count := by
  cases v <;> cases key <;> cases value <;> cases h <;> rfl

/-- Counters that are not beyond an `int`. -/
theorem Storing.intCounters {C : Contents} {lost : Prop} (h : Storing s C lost)
    (hcount : ∀ e, (C.count e).natAbs ≤ 2147483647) : IntCounters s := by
  intro e i hi
  have hsuits : Call.count.Suits e := by cases e <;> trivial
  obtain ⟨s', hrun, -⟩ := h.call hsuits fun _ hc => absurd rfl hc
  rw [C.step_count e] at hrun
  cases hi.unique ⟨s', hrun⟩
  have hle := hcount e
  omega

/-- The contents after one request more. -/
theorem contentsAfter_concat (before : List (List Byte)) (request : List Byte) :
    contentsAfter (before ++ [request]) = (contentsAfter before).message request := by
  rw [contentsAfter, List.foldl_append]
  rfl

/-- What is stored has come as a token. -/
theorem contentsAfter_values {requests : List (List Byte)} {e : Engine} {k v : CString}
    (h : v ∈ (contentsAfter requests).values e k) : IsToken v := by
  induction requests using List.reverseRecOn with
  | nil => cases e <;> exact absurd h (by simp [contentsAfter, Contents.empty, Contents.values,
      Contents.lookup])
  | append_singleton before request ih =>
      rw [contentsAfter_concat] at h
      exact (Contents.values_message h).elim ih isToken_of_mem

/-- **A request that does not wait for the lost mutex is answered as the service answers it.** -/
theorem Storing.serve (h : Storing s (contentsAfter before) (LockLost before))
    (hshort : ShortValues s) (hint : IntCounters s) (hr : Served request)
    (hfree : LocksHash request → ¬ LockLost before) :
    ∃ s', (serveRequest request).run s = .ok ((contentsAfter before).reply request, s') ∧
      Storing s' (contentsAfter (before ++ [request])) (LockLost (before ++ [request])) ∧
      ShortValues s' := by
  have hlost : LockLost (before ++ [request]) ↔
      LockLost before ∨ (contentsAfter before).LosesLock request := lockLost_concat
  rw [contentsAfter_concat]
  cases hreq : requestIn request with
  | none =>
      obtain ⟨msg, hsame, hrun⟩ := kvsProtocolOn_none hr.short hr.room hreq
      have hmessage : (contentsAfter before).message request = contentsAfter before := by
        simp only [Contents.message, hreq]
      have hreply : (contentsAfter before).reply request =
          if tokensOf request = [] then (requestBuf request).take kvsCmdError.toNat else [] := by
        simp only [Contents.reply, hreq]
      have hkeeps : ¬ (contentsAfter before).LosesLock request := by
        rintro ⟨v, c, hv, -⟩
        cases hreq.symm.trans hv
      refine ⟨s, ?_, ?_, hshort⟩
      · rw [hreply]
        refine run_bind_of (hrun s) ?_
        by_cases hnil : tokensOf request = []
        · have hlen : kvsCmdError.toNat ≤ (requestBuf request).length := by
            have h30 : kvsCmdError.toNat = 30 := rfl
            have hmax : clinetMsgLength = 1024 := rfl
            rw [requestBuf, List.length_append, List.length_replicate]
            omega
          rw [if_pos hnil, if_pos hnil, hsame hnil]
          exact run_ite_pos hlen rfl
        · rw [if_neg hnil, if_neg hnil]
          exact run_ite_pos (Nat.zero_le _) rfl
      · rw [hmessage]
        exact { h with held := h.held.trans (hlost.trans (or_iff_left hkeeps)).symm }
  | some p =>
      obtain ⟨e, v⟩ := p
      obtain ⟨c, hcall, hsuits⟩ := hr.args e v hreq
      have hmessage : (contentsAfter before).message request =
          ((contentsAfter before).step e c).2 := by
        simp only [Contents.message, hreq, hcall]
      have hreply : (contentsAfter before).reply request =
          v.text ((contentsAfter before).step e c).1 := by
        simp only [Contents.reply, hreq, hcall]
      have hloses : (contentsAfter before).LosesLock request ↔
          e = .hash ∧ c.LosesLock (contentsAfter before) := by
        constructor
        · rintro ⟨v', c', hreq', hcall', hc'⟩
          cases hreq.symm.trans hreq'
          cases hcall.symm.trans hcall'
          exact ⟨rfl, hc'⟩
        · rintro ⟨rfl, hc⟩
          exact ⟨v, c, hreq, hcall, hc⟩
      obtain ⟨s', hrun, h'⟩ := h.call hsuits fun he hcount => hfree ⟨v, by rw [hreq, he], by
        rintro rfl
        cases hcall
        exact hcount rfl⟩
      have hop := hrun
      rw [← Store.op_call hcall e] at hop
      have hproto : (kvsProtocolOn request).run s =
          .ok ((((v.text ((contentsAfter before).step e c).1).length : Int),
            replyBuf (v.text ((contentsAfter before).step e c).1)), s') := by
        rw [kvsProtocolOn_op hr.short hr.room hreq fun hp => hr.set (by rw [hreq, hp])]
        exact run_bind_of hop rfl
      obtain ⟨hline, hfits⟩ := (op_formats hshort (fun _ => hint) hop).line
      rw [hreply, hmessage]
      refine ⟨s', (Replies.of_run hproto hline hfits).sent, { h' with held := ?_ },
        hshort.step hr.short hproto⟩
      rw [h'.held, hlost, hloses]

/-- **A request that waits for the lost mutex is never answered.** -/
theorem Storing.blocked (h : Storing s (contentsAfter before) (LockLost before))
    (hr : Served request) (hlocks : LocksHash request) (hlost : LockLost before) :
    (serveRequest request).run s = .error .deadlock := by
  obtain ⟨v, hreq, hv⟩ := hlocks
  obtain ⟨c, hcall, hsuits⟩ := hr.args .hash v hreq
  have hcount : c ≠ .count := by
    rintro rfl
    exact hv (Verb.of_call_count hcall)
  have hblocks := h.call_blocks hlost hsuits hcount
  rw [← Store.op_call hcall .hash] at hblocks
  have hproto : (kvsProtocolOn request).run s = .error .deadlock := by
    rw [kvsProtocolOn_op hr.short hr.room hreq fun hp => by cases hp]
    exact run_bind_error hblocks
  exact run_bind_error hproto

end Request

/--
A list of requests that were all answered, as long as no counter is beyond an `int`.  It is not
said that they are: the list goes as far as it does.
-/
theorem Storing.serves {s s' : Store} {before requests replies : List (List Byte)}
    (h : Storing s (contentsAfter before) (LockLost before)) (hshort : ShortValues s)
    (hr : ∀ request ∈ requests, Served request)
    (hcount : before.length + requests.length < 2147483648)
    (hrun : (runCalls serveRequest requests).run s = .ok (replies, s')) :
    replies = (runMachine Contents.serve (contentsAfter before) requests).1 ∧
      Storing s' (contentsAfter (before ++ requests)) (LockLost (before ++ requests)) ∧
      ShortValues s' := by
  induction requests generalizing s before replies with
  | nil =>
      cases hrun
      rw [List.append_nil]
      exact ⟨rfl, h, hshort⟩
  | cons request rest ih =>
      rw [List.length_cons] at hcount
      obtain ⟨reply, s₁, hfirst, hrun⟩ := run_bind_inv hrun
      obtain ⟨replies, s₂, hrest, hrun⟩ := run_bind_inv hrun
      cases hrun
      have hserved := hr request (by simp)
      have hint : IntCounters s := h.intCounters fun e => by
        have hle := contentsAfter_count before e
        omega
      -- It was answered, so it has not waited for the lost mutex.
      have hfree : LocksHash request → ¬ LockLost before := by
        intro hlocks hlost
        rw [h.blocked hserved hlocks hlost] at hfirst
        cases hfirst
      obtain ⟨s₂, hserve, h₁, hshort₁⟩ := h.serve hshort hint hserved hfree
      rw [hserve] at hfirst
      cases hfirst
      obtain ⟨rfl, h', hshort'⟩ := ih h₁ hshort₁ (fun r hmem => hr r (by simp [hmem]))
        (by rw [List.length_append, List.length_singleton]; omega) hrest
      rw [List.append_assoc] at h'
      refine ⟨?_, h', hshort'⟩
      rw [contentsAfter_concat]
      rfl

/-! ### Interleavings -/

/-- The requests of all clients, in the order in which they were answered. -/
def Work.requests (w : Work) : List (List Byte) := w.exchanges.map Exchange.request

/-- The requests so far were such as the server can take, and the counters are `int`s. -/
structure Work.Polite (w : Work) : Prop where
  served : ∀ request ∈ w.requests, Served request
  count : w.requests.length < 2147483648

/-- The replies were those of the service, and the store is as it should be after them. -/
structure Work.InService (w : Work) : Prop where
  replies : w.exchanges.map Exchange.reply = serviceReplies w.requests
  storing : Storing w.store (contentsAfter w.requests) (LockLost w.requests)
  short : ShortValues w.store
  int : IntCounters w.store

/-- In a round the store answers at most one request. -/
theorem Round.run {st : Store} {n : Nat} {fd : Int} {place : ReaderPlace} {r : Outcome}
    (h : Round st n fd place r) : (runCalls serveRequest (r.exchanges.map Exchange.request)).run st =
      .ok (r.exchanges.map Exchange.reply, r.store) := by
  cases h with
  | failed | closed | resumed => rfl
  | served hne hlen hrun hsent => exact runCalls_cons_ok hrun rfl

section Runs

variable {x : Int} {st : Store} {s : Process}

/-- **The store has answered the requests one after the other.** -/
theorem exchanges_run (h : Relation.ReflTransGen Process.Step (Process.start x st) s) :
    (runCalls serveRequest s.work.requests).run st =
      .ok (s.work.exchanges.map Exchange.reply, s.work.store) := by
  refine run_keeps (P := fun s : Process => (runCalls serveRequest s.work.requests).run st =
    .ok (s.work.exchanges.map Exchange.reply, s.work.store)) ?_ rfl h
  intro s s' hs hstep
  cases hstep.transition with
  | report | startServer | startServerWait | startReader | again | accept => exact hs
  | reader fds fd y z place i next w hevents hco hturn =>
      obtain ⟨r, hround, rfl, rfl⟩ := turn_inv hturn
      have hall := runCalls_append hs hround.run
      rw [Work.requests, ← List.map_append, ← List.map_append] at hall
      exact hall

/-- **Whatever the interleaving, the store is in service.** -/
theorem Work.Polite.inService (hs : s.work.Polite) (hst : FreshStore st .free)
    (h : Relation.ReflTransGen Process.Step (Process.start x st) s) : s.work.InService := by
  have hcount := hs.count
  have hinit : Storing st (contentsAfter []) (LockLost []) := hst.storing
  obtain ⟨hreplies, hstoring, hshort⟩ := hinit.serves hst.shortValues hs.served
    (by rw [List.length_nil]; omega) (exchanges_run h)
  rw [List.nil_append] at hstoring
  refine ⟨hreplies, hstoring, hshort, hstoring.intCounters fun e => ?_⟩
  have hle := contentsAfter_count s.work.requests e
  omega

/-- **Nobody waits for the lost mutex and is answered.** -/
theorem Work.Polite.unanswered (hs : s.work.Polite) (hst : FreshStore st .free)
    (h : Relation.ReflTransGen Process.Step (Process.start x st) s)
    {before after : List (List Byte)} {lost : List Byte}
    (hsplit : s.work.requests = before ++ lost :: after)
    (hloses : (contentsAfter before).LosesLock lost) :
    ∀ request ∈ after, ¬ LocksHash request := by
  intro request hmem hlocks
  obtain ⟨between, rest, rfl⟩ := List.append_of_mem hmem
  have hsplit' : s.work.requests = (before ++ lost :: between) ++ request :: rest := by
    rw [hsplit, List.append_assoc, List.cons_append]
  have hserved : ∀ r ∈ before ++ lost :: between, Served r := fun r hr =>
    hs.served r (by rw [hsplit']; exact List.mem_append_left _ hr)
  have hcount : (before ++ lost :: between).length < 2147483648 := by
    have hlen := congrArg List.length hsplit'
    have hall := hs.count
    rw [List.length_append] at hlen
    omega
  have hrun := exchanges_run h
  rw [hsplit'] at hrun
  obtain ⟨replies, s₁, replies', hfirst, hrest⟩ := runCalls_append_inv hrun
  have hinit : Storing st (contentsAfter []) (LockLost []) := hst.storing
  obtain ⟨-, hstoring, -⟩ := hinit.serves hst.shortValues hserved
    (by rw [List.length_nil]; omega) hfirst
  rw [List.nil_append] at hstoring
  have hblocked := hstoring.blocked (hs.served request (by rw [hsplit']; simp)) hlocks
    ⟨before, lost, between, rfl, hloses⟩
  obtain ⟨reply, s₂, hanswered, -⟩ := run_bind_inv hrest
  rw [hblocked] at hanswered
  cases hanswered

end Runs

/-- **Each reply is the one of the service**, after the requests that were answered before. -/
theorem Work.InService.reply {w : Work} (hs : w.InService) {before after : List Exchange}
    {e : Exchange} (hsplit : w.exchanges = before ++ e :: after) :
    e.reply = (contentsAfter (before.map Exchange.request)).reply e.request := by
  have hreplies := hs.replies
  rw [Work.requests, hsplit, List.map_append, List.map_append, List.map_cons,
    List.map_cons] at hreplies
  obtain ⟨replies, replies', hservice, hlen⟩ := serviceReplies_append
    (before.map Exchange.request) e.request (after.map Exchange.request)
  rw [hservice] at hreplies
  rw [List.length_map] at hlen
  obtain ⟨-, hrest⟩ := List.append_inj hreplies (by rw [List.length_map, hlen])
  exact (List.cons.inj hrest).1

end KvStore
