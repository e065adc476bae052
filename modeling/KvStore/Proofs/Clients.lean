/-
What the clients can rely on, whatever the others do.

A run of the server is any interleaving of the coroutines, with anything from outside.  The
clients are told apart (`connections_own`), each one's bytes are its own replies in order
(`replies_delivered`), the replies are those of one store that takes the requests of all
clients in one order (`server_linearizable`), and there are two ways for the process to end
(`server_survives_iff`).  One is a reader for a descriptor that is waited for already, which takes
no more than `accept` to fail twice (`accept_fails_twice`); the other is a request for the chained
hash when its mutex is lost, and that it is for ever (`lost_mutex_unanswered`).

All this is said of an outside that leaves the process alone: every allocation succeeds, and
`send_f` returns, also for a connection that the client has reset.
-/
import KvStore.Proofs.Service

namespace KvStore

open Process

/-! ### A run with one client -/

section Sample

variable {st : Store} {s : Process}

/-- `server` waits on the descriptor 4, and the reader of the only client, on 5, in `recv`. -/
structure OneClient (st : Store) (s : Process) : Prop where
  run : Relation.ReflTransGen (fun s s' => s.Undisturbed ∧ Process.Step s s')
    (Process.start 0 st) s
  accepted : s.accepted = [5]
  ready : s.ready = []
  events : s.events = []
  server : s.waiting.lookup 4 = some ⟨.accept, 5⟩
  client : s.waiting.lookup 5 = some ⟨.reader (.recv 0), 5⟩
  others : ∀ fd ∈ s.waiting, fd = 4 ∨ fd = 5
  short : s.work.short = []
  polite : s.work.Polite

/-- The client connects. -/
theorem OneClient.connects (st : Store) : ∃ s, OneClient st s ∧ s.work = ⟨st, [], [], []⟩ := by
  let w : Work := ⟨st, [], [], []⟩
  let m₁ : Dict Int (Coroutine ReaderPlace) := (∅ : Dict Int _).insert 4 ⟨.accept, 0⟩
  let m₂ : Dict Int (Coroutine ReaderPlace) := m₁.insert 4 ⟨.accept, 5⟩
  have h₁ : (Process.start 0 st).Transition serverReader ⟨0, [], m₁, [], [], [], w⟩ :=
    .startServerWait [] 0 4 rfl rfl (by decide) Finmap.notMem_empty
  have h₂ : Schedule.Transition serverReader ⟨0, [], m₁, [], [], [], w⟩
      ⟨0, [], m₁, [4], [], [], w⟩ :=
    .report [4] rfl rfl (by decide) (show ∀ fd ∈ [4], fd ∈ m₁ by decide)
  have h₃ : Schedule.Transition serverReader ⟨0, [], m₁, [4], [], [], w⟩
      ⟨5, [.serverReader 5], m₂, [], [5], [], w⟩ :=
    .accept [] 4 0 5 rfl (Finmap.lookup_insert _)
  let s : Process := ⟨5, [], m₂.insert 5 ⟨.reader (.recv 0), 5⟩, [], [5], [5], w⟩
  have h₄ : Schedule.Transition serverReader ⟨5, [.serverReader 5], m₂, [], [5], [], w⟩ s :=
    .startReader 5 [] 5 rfl rfl (show (5 : Int) ∉ m₂ by decide)
  refine ⟨s, ⟨?_, rfl, rfl, rfl, rfl, Finmap.lookup_insert _, ?_, rfl, ⟨?_, ?_⟩⟩, rfl⟩
  · exact (((Relation.ReflTransGen.single ⟨Or.inl rfl, h₁.step⟩).tail
      ⟨Or.inl rfl, h₂.step⟩).tail ⟨Or.inr rfl, h₃.step⟩).tail ⟨Or.inl rfl, h₄.step⟩
  · intro fd hfd
    simpa [s, m₂, m₁, Finmap.notMem_empty, or_comm] using hfd
  · exact fun request hmem => absurd hmem List.not_mem_nil
  · show 0 < 2147483648
    omega

/-- Something has come from the client. -/
theorem OneClient.reported (h : OneClient st s) :
    s.Transition serverReader { s with events := [5] } := by
  refine .report [5] h.events h.ready (by decide) fun fd hfd => ?_
  rw [List.mem_singleton.mp hfd]
  exact Finmap.mem_of_lookup_eq_some h.client

/-- The client sends a request, and all of the reply is taken at once. -/
theorem OneClient.asks (h : OneClient st s) (hst : FreshStore st .free) {request : List Byte}
    (hserved : Served request) (hne : request ≠ [])
    (hfree : LocksHash request → ¬ LockLost s.work.requests)
    (hcount : s.work.requests.length < 2147483647)
    (hreply : (contentsAfter s.work.requests).reply request ≠ []) :
    ∃ s', OneClient st s' ∧ s'.work.exchanges = s.work.exchanges ++
      [⟨0, 5, request, (contentsAfter s.work.requests).reply request⟩] := by
  have hs := h.polite.inService hst (run_of_restricted h.run)
  obtain ⟨st', hrun, -, -⟩ := hs.storing.serve hs.short hs.int hserved hfree
  have hturn := Schedule.Transition.reader (R := serverReader) (s := { s with events := [5] })
    [] 5 5 5 _ _ _ _ rfl h.client (turn_serve hne hserved.short.le hrun hreply)
  refine ⟨_, ⟨(h.run.tail ⟨Or.inl h.events, h.reported.step⟩).tail ⟨Or.inr h.ready, hturn.step⟩,
    h.accepted, h.ready, rfl, ?_, Finmap.lookup_insert _, ?_, ?_, ?_⟩, rfl⟩
  · exact (lookup_waitNext_of_ne _ _ _ (by decide)).trans h.server
  · intro fd hfd
    exact (Finmap.mem_insert.mp hfd).elim Or.inr (h.others fd)
  · show s.work.short ++ [] = []
    rw [h.short]
    rfl
  · have hrequests : ∀ e, (s.work.exchanges ++ [e]).map Exchange.request =
        s.work.requests ++ [e.request] := fun _ => List.map_append
    refine ⟨?_, ?_⟩
    · intro r hr
      rw [Work.requests, Work.after, hrequests, List.mem_append, List.mem_singleton] at hr
      rcases hr with hr | rfl
      · exact h.polite.served r hr
      · exact hserved
    · rw [Work.requests, Work.after, hrequests, List.length_append, List.length_singleton]
      omega

/-- A request that makes a call which suits the engine. -/
theorem served_of_call {request : List Byte} {e : Engine} {v : Verb} {c : Call}
    (hshort : request.length < clinetMsgLength) (hroom : (tokensOf request).length ≤ maxTokens)
    (hreq : requestIn request = some (e, v)) (hne : (e, v) ≠ (.array, .set))
    (hcall : v.call (tokensOf request)[1]? (tokensOf request)[2]? = some c) (hc : c.Suits e) :
    Served request := by
  refine ⟨hshort, hroom, ?_, fun hp => absurd (Option.some.inj (hreq.symm.trans hp)) hne⟩
  intro e' v' hreq'
  cases hreq.symm.trans hreq'
  exact ⟨c, hcall, hc⟩

/-- What `main` has initialised. -/
theorem FreshStore.of_startEngines {rand : Nat → Nat}
    (h : (startEngines (Vector.replicate maxTableSize []) .free).run (Store.static rand) =
      .ok ((), st)) : FreshStore st .free := by
  obtain ⟨st', hinit, hfresh⟩ := startEngines_spec rand .free (by decide)
  cases h.symm.trans hinit
  exact hfresh

/-- The client sets a value. -/
theorem OneClient.sets (hst : FreshStore st .free) : ∃ s, OneClient st s ∧ s.work.exchanges =
    [⟨0, 5, literal "DSET k value", literal "SUCCESS\x0d\n"⟩] := by
  obtain ⟨s, h, hwork⟩ := OneClient.connects st
  have hnone : s.work.requests = [] := by rw [hwork]; rfl
  have hreply : (contentsAfter []).reply (literal "DSET k value") = literal "SUCCESS\x0d\n" := by
    decide
  have hserved : Served (literal "DSET k value") :=
    served_of_call (c := .put ⟨literal "k", by decide⟩ ⟨literal "value", by decide⟩)
      (by decide) (by decide) (show _ = some (.dhash, .set) by decide) (by decide) (by decide)
      trivial
  obtain ⟨s', h', hexchanges⟩ := h.asks hst hserved (by decide)
    (fun _ => hnone ▸ not_lockLost_nil) (by rw [hnone]; decide) (by rw [hnone, hreply]; decide)
  refine ⟨s', h', ?_⟩
  rw [hexchanges, hnone, hreply, hwork]
  rfl

/-- It reads the value. -/
theorem OneClient.setsGets (hst : FreshStore st .free) : ∃ s, OneClient st s ∧ s.work.exchanges =
    [⟨0, 5, literal "DSET k value", literal "SUCCESS\x0d\n"⟩,
      ⟨0, 5, literal "DGET k", literal "value\x0d\n"⟩] := by
  obtain ⟨s, h, hexchanges⟩ := OneClient.sets hst
  have hone : s.work.requests = [literal "DSET k value"] := by rw [Work.requests, hexchanges]; rfl
  have hreply : (contentsAfter [literal "DSET k value"]).reply (literal "DGET k") =
      literal "value\x0d\n" := by decide
  have hserved : Served (literal "DGET k") :=
    served_of_call (c := .get ⟨literal "k", by decide⟩) (by decide) (by decide)
      (show _ = some (.dhash, .get) by decide) (by decide) (by decide) trivial
  have hlocks : ¬ LocksHash (literal "DGET k") := by
    rintro ⟨v, hreq, -⟩
    rw [show requestIn (literal "DGET k") = some (.dhash, .get) by decide] at hreq
    cases hreq
  obtain ⟨s', h', hexchanges'⟩ := h.asks hst hserved (by decide)
    (fun hc => absurd hc hlocks) (by rw [hone]; decide) (by rw [hone, hreply]; decide)
  refine ⟨s', h', ?_⟩
  rw [hexchanges', hexchanges, hone, hreply]
  rfl

/-- Every slot is empty at the beginning. -/
theorem losesLock_first {request : List Byte} {v : Verb} {k : CString}
    (hreq : requestIn request = some (.hash, v))
    (hcall : v.call (tokensOf request)[1]? (tokensOf request)[2]? = some (.delete k)) :
    (contentsAfter []).LosesLock request :=
  ⟨v, .delete k, hreq, hcall, fun _ hk' => absurd hk' Finmap.notMem_empty⟩

/-- The client deletes a key that is not there, from a slot of the chained hash that is empty. -/
theorem OneClient.deletes (hst : FreshStore st .free) : ∃ s, OneClient st s ∧ s.work.exchanges =
    [⟨0, 5, literal "HDELETE k", literal "FAILED\x0d\n"⟩] := by
  obtain ⟨s, h, hwork⟩ := OneClient.connects st
  have hnone : s.work.requests = [] := by rw [hwork]; rfl
  have hreply : (contentsAfter []).reply (literal "HDELETE k") = literal "FAILED\x0d\n" := by
    decide
  have hserved : Served (literal "HDELETE k") :=
    served_of_call (c := .delete ⟨literal "k", by decide⟩) (by decide) (by decide)
      (show _ = some (.hash, .delete) by decide) (by decide) (by decide)
      (hashable_ascii (by decide) (by decide))
  obtain ⟨s', h', hexchanges⟩ := h.asks hst hserved (by decide)
    (fun _ => hnone ▸ not_lockLost_nil) (by rw [hnone]; decide) (by rw [hnone, hreply]; decide)
  refine ⟨s', h', ?_⟩
  rw [hexchanges, hnone, hreply, hwork]
  rfl

/-- It asks for the counter, which needs no mutex. -/
theorem OneClient.deletesCounts (hst : FreshStore st .free) : ∃ s, OneClient st s ∧
    s.work.exchanges = [⟨0, 5, literal "HDELETE k", literal "FAILED\x0d\n"⟩,
      ⟨0, 5, literal "HCOUNT", literal "0\x0d\n"⟩] := by
  obtain ⟨s, h, hexchanges⟩ := OneClient.deletes hst
  have hone : s.work.requests = [literal "HDELETE k"] := by rw [Work.requests, hexchanges]; rfl
  have hreply : (contentsAfter [literal "HDELETE k"]).reply (literal "HCOUNT") =
      literal "0\x0d\n" := by decide
  have hserved : Served (literal "HCOUNT") :=
    served_of_call (c := .count) (by decide) (by decide)
      (show _ = some (.hash, .count) by decide) (by decide) (by decide) trivial
  have hlocks : ¬ LocksHash (literal "HCOUNT") := by
    rintro ⟨v, hreq, hv⟩
    rw [show requestIn (literal "HCOUNT") = some (.hash, .count) by decide] at hreq
    cases hreq
    exact hv rfl
  obtain ⟨s', h', hexchanges'⟩ := h.asks hst hserved (by decide)
    (fun hc => absurd hc hlocks) (by rw [hone]; decide) (by rw [hone, hreply]; decide)
  refine ⟨s', h', ?_⟩
  rw [hexchanges', hexchanges, hone, hreply]
  rfl

end Sample

section Results

variable {x : Int} {st : Store} {s : Process}

/-! ### Connections -/

/-- **The whole server refines its scheduler**: it can do nothing that the scheduler cannot. -/
theorem server_refines_scheduler
    (h : Relation.ReflTransGen Process.Step (Process.start x st) s) :
    ∃ t, Relation.ReflTransGen (Schedule.Step anyReader) (Schedule.start x ()) t ∧
      s.Projects t :=
  (Schedule.simulated serverReader).run (Schedule.Projects.start x _) h

theorem server_refines_scheduler_sample : ∃ (s : Process) (t : Schedule Unit Unit),
    s.work.exchanges.length = 1 ∧
    Relation.ReflTransGen (Schedule.Step anyReader) (Schedule.start 0 ()) t ∧ s.Projects t := by
  obtain ⟨st, -, hfresh⟩ := startEngines_spec (fun _ => 0) .free (by decide)
  obtain ⟨s, hs, hexchanges⟩ := OneClient.sets hfresh
  obtain ⟨t, ht, hproj⟩ := server_refines_scheduler (run_of_restricted hs.run)
  exact ⟨s, t, by rw [hexchanges]; rfl, ht, hproj⟩

/--
**The readers keep to their connections** in a run in which nobody comes in between: the n-th
reader receives from the n-th descriptor that `accept` has returned, and sends to no other.
-/
theorem connections_own (h : Relation.ReflTransGen (fun s s' => s.Undisturbed ∧ Process.Step s s')
    (Process.start x st) s) :
    (∀ e ∈ s.work.exchanges, s.accepted[e.reader]? = some e.fd) ∧
      ∀ c ∈ s.work.output, s.accepted[c.reader]? = some c.fd := by
  have hread : s.read <+: s.accepted := ⟨_, (Schedule.InOrder.run h).order⟩
  have hdelivering : Delivering s :=
    run_keeps (fun _ _ hs hstep => hs.step hstep) (.start x st) (run_of_restricted h)
  exact ⟨fun e he => getElem?_of_prefix hread (hdelivering.exchanges e he),
    fun c hc => getElem?_of_prefix hread (hdelivering.output c hc)⟩

theorem connections_own_sample : ∃ s : Process, s.accepted = [5] ∧ s.work.exchanges.length = 1 ∧
    ∀ e ∈ s.work.exchanges, s.accepted[e.reader]? = some e.fd := by
  obtain ⟨st, -, hfresh⟩ := startEngines_spec (fun _ => 0) .free (by decide)
  obtain ⟨s, hs, hexchanges⟩ := OneClient.sets hfresh
  exact ⟨s, hs.accepted, by rw [hexchanges]; rfl, (connections_own hs.run).1⟩

/--
**What goes out for a reader is its own replies, in order, each from its beginning.**  As long as
no `send` has returned early, nothing is missing but what the running `send` has yet to send.
This is so in every run, however the readers are interleaved.
-/
theorem replies_delivered (h : Relation.ReflTransGen Process.Step (Process.start x st) s) (n : Nat) :
    (∃ parts, List.Forall₂ (· <+: ·) parts (s.work.replies n) ∧
        s.work.sentBy n = parts.flatten) ∧
      (n ∉ s.work.short →
        s.work.sentBy n ++ Process.unsent s n = (s.work.replies n).flatten) := by
  have hdelivering : Delivering s :=
    run_keeps (fun _ _ hs hstep => hs.step hstep) (.start x st) h
  have hstream := hdelivering.streams n
  exact ⟨hstream.sends.parts, hstream.whole⟩

theorem replies_delivered_sample : ∃ s : Process,
    s.work.replies 0 = [literal "SUCCESS\x0d\n"] ∧
    s.work.sentBy 0 ++ Process.unsent s 0 = literal "SUCCESS\x0d\n" := by
  obtain ⟨st, -, hfresh⟩ := startEngines_spec (fun _ => 0) .free (by decide)
  obtain ⟨s, hs, hexchanges⟩ := OneClient.sets hfresh
  have hreplies : s.work.replies 0 = [literal "SUCCESS\x0d\n"] := by
    rw [Work.replies, hexchanges]
    rfl
  have hwhole := (replies_delivered (run_of_restricted hs.run) 0).2 (by rw [hs.short]; simp)
  rw [hreplies] at hwhole
  exact ⟨s, hreplies, by simpa using hwhole⟩

/-! ### The store behind them -/

/--
**The clients see one store that takes all their requests in one order.**  Whatever the
interleaving of requests that the server can take, the replies are those that the abstract service
gives to the requests in the order in which they were answered, the engines then hold what these
requests describe, and the mutex of the chained hash is held exactly if one of them has deleted a
key from an empty slot.
-/
theorem server_linearizable (rand : Nat → Nat) (x : Int) :
    ∃ st, (startEngines (Vector.replicate maxTableSize []) .free).run (Store.static rand) =
        .ok ((), st) ∧
      ∀ s, Relation.ReflTransGen Process.Step (Process.start x st) s → s.work.Polite →
        s.work.exchanges.map Exchange.reply = serviceReplies s.work.requests ∧
          Storing s.work.store (contentsAfter s.work.requests) (LockLost s.work.requests) := by
  obtain ⟨st, hinit, hfresh⟩ := startEngines_spec rand .free (by decide)
  refine ⟨st, hinit, ?_⟩
  intro s hrun hpolite
  have hs := hpolite.inService hfresh hrun
  exact ⟨hs.replies, hs.storing⟩

theorem server_linearizable_sample : ∃ s : Process,
    s.work.requests = [literal "DSET k value", literal "DGET k"] ∧
    s.work.exchanges.map Exchange.reply = serviceReplies s.work.requests := by
  obtain ⟨st, hinit, hall⟩ := server_linearizable (fun _ => 0) 0
  obtain ⟨s, hs, hexchanges⟩ := OneClient.setsGets (.of_startEngines hinit)
  exact ⟨s, by rw [Work.requests, hexchanges]; rfl,
    (hall s (run_of_restricted hs.run) hs.polite).1⟩

/--
**An acknowledged put is read**, by whichever client, in a run of requests that the server can
take: if a `SET` was answered with `SUCCESS`, and until a `GET` of the same key no client had the
same engine put or delete it, then the `GET` is answered with the value, whatever the other
clients did meanwhile.
-/
theorem acknowledged_put_is_read (rand : Nat → Nat) (x : Int) :
    ∃ st, (startEngines (Vector.replicate maxTableSize []) .free).run (Store.static rand) =
        .ok ((), st) ∧
      ∀ s, Relation.ReflTransGen Process.Step (Process.start x st) s → s.work.Polite →
        ∀ (before between after : List Exchange) (put get : Exchange) (e : Engine) (k v : CString),
          s.work.exchanges = before ++ put :: (between ++ get :: after) →
          requestIn put.request = some (e, .set) → (tokensOf put.request)[1]? = some k →
          (tokensOf put.request)[2]? = some v → put.reply = literal "SUCCESS\x0d\n" →
          (∀ other ∈ between, ¬ WritesKey e k other.request) →
          requestIn get.request = some (e, .get) → (tokensOf get.request)[1]? = some k →
          get.reply = v.bytes ++ literal "\x0d\n" := by
  obtain ⟨st, hinit, hfresh⟩ := startEngines_spec rand .free (by decide)
  refine ⟨st, hinit, ?_⟩
  intro s hrun hpolite before between after put get e k v hsplit hput hk hv hok hbetween hget hk'
  have hs := hpolite.inService hfresh hrun
  let C := contentsAfter (before.map Exchange.request)
  have hmessage : C.message put.request = (C.step e (.put k v)).2 := by
    simp only [Contents.message, hput, hk, hv, Verb.call]
  -- The put was carried out.
  have hstored : (C.message put.request).lookup e k = some v := by
    have hreply := hs.reply hsplit
    have htext : C.reply put.request = Verb.set.text (C.step e (.put k v)).1 := by
      simp only [Contents.reply, hput, hk, hv, Verb.call]
    rw [hok, htext] at hreply
    rw [hmessage]
    refine C.lookup_put ?_
    have hint : ∃ i, (C.step e (.put k v)).1 = .int i := by cases e <;> exact ⟨_, rfl⟩
    obtain ⟨i, hi⟩ := hint
    rw [hi] at hreply ⊢
    rw [resultText_success hreply.symm]
  -- Nobody has touched the key since.
  have hsplit' : s.work.exchanges = (before ++ put :: between) ++ get :: after := by
    rw [hsplit, List.append_assoc, List.cons_append]
  have hlookup : (contentsAfter ((before ++ put :: between).map Exchange.request)).lookup e k =
      some v := by
    rw [List.map_append, List.map_cons, contentsAfter, List.foldl_append, List.foldl_cons,
      Contents.lookup_messages]
    · exact hstored
    · intro request hmem
      obtain ⟨other, hother, rfl⟩ := List.mem_map.mp hmem
      exact hbetween other hother
  rw [hs.reply hsplit', Contents.reply, hget]
  simp only [hk', Verb.call]
  rw [Contents.step_get hlookup]
  rfl

theorem acknowledged_put_is_read_sample : ∃ (s : Process) (put get : Exchange),
    s.work.exchanges = [put, get] ∧ put.request = literal "DSET k value" ∧
      get.request = literal "DGET k" ∧ get.reply = literal "value" ++ literal "\x0d\n" := by
  obtain ⟨st, hinit, hall⟩ := acknowledged_put_is_read (fun _ => 0) 0
  obtain ⟨s, hs, hexchanges⟩ := OneClient.setsGets (.of_startEngines hinit)
  exact ⟨s, _, _, hexchanges, rfl, rfl, hall s (run_of_restricted hs.run) hs.polite [] [] [] _ _
    .dhash ⟨literal "k", by decide⟩ ⟨literal "value", by decide⟩ hexchanges (by decide) (by decide)
    (by decide) rfl (by simp) (by decide) (by decide)⟩

/--
**The reply to a `GET` can be read**, although a value and a message that there is none look
alike: whatever the clients have sent of what the server can take, a reply is a value only if the
engine has this value for the key, and says that there is none only if it has none.
-/
theorem get_reply_read (rand : Nat → Nat) (x : Int) :
    ∃ st, (startEngines (Vector.replicate maxTableSize []) .free).run (Store.static rand) =
        .ok ((), st) ∧
      ∀ s, Relation.ReflTransGen Process.Step (Process.start x st) s → s.work.Polite →
        ∀ (before after : List Exchange) (get : Exchange) (e : Engine) (k : CString),
          s.work.exchanges = before ++ get :: after → requestIn get.request = some (e, .get) →
          (tokensOf get.request)[1]? = some k →
          readValue get.reply =
            ((contentsAfter (before.map Exchange.request)).lookup e k).map CString.bytes := by
  obtain ⟨st, hinit, hfresh⟩ := startEngines_spec rand .free (by decide)
  refine ⟨st, hinit, ?_⟩
  intro s hrun hpolite before after get e k hsplit hget hk
  have hs := hpolite.inService hfresh hrun
  rw [hs.reply hsplit, Contents.reply, hget]
  simp only [hk, Verb.call]
  cases hlookup : (contentsAfter (before.map Exchange.request)).lookup e k with
  | none =>
      obtain ⟨text, htext, habsent⟩ := Contents.step_get_none hlookup
      rw [htext]
      exact readValue_none habsent
  | some v =>
      rw [Contents.step_get hlookup]
      exact readValue_token (contentsAfter_values (Contents.mem_values hlookup))

theorem get_reply_read_sample : ∃ (s : Process) (put get : Exchange),
    s.work.exchanges = [put, get] ∧ get.request = literal "DGET k" ∧
      readValue get.reply = ((contentsAfter [put.request]).lookup .dhash
        ⟨literal "k", by decide⟩).map CString.bytes := by
  obtain ⟨st, hinit, hall⟩ := get_reply_read (fun _ => 0) 0
  obtain ⟨s, hs, hexchanges⟩ := OneClient.setsGets (.of_startEngines hinit)
  exact ⟨s, _, _, hexchanges, rfl, hall s (run_of_restricted hs.run) hs.polite [_] [] _ .dhash
    ⟨literal "k", by decide⟩ hexchanges (by decide) (by decide)⟩

/--
**A lost mutex is lost for all clients and for ever**: in a run of requests that the server can
take, after a `HDELETE` whose slot was empty has been answered, no client gets an answer from the
chained hash any more, but to `HCOUNT`, however the run goes on.
-/
theorem lost_mutex_unanswered (rand : Nat → Nat) (x : Int) :
    ∃ st, (startEngines (Vector.replicate maxTableSize []) .free).run (Store.static rand) =
        .ok ((), st) ∧
      ∀ s, Relation.ReflTransGen Process.Step (Process.start x st) s → s.work.Polite →
        ∀ (before after : List Exchange) (lost : Exchange),
          s.work.exchanges = before ++ lost :: after →
          (contentsAfter (before.map Exchange.request)).LosesLock lost.request →
          ∀ exchange ∈ after, ¬ LocksHash exchange.request := by
  obtain ⟨st, hinit, hfresh⟩ := startEngines_spec rand .free (by decide)
  refine ⟨st, hinit, ?_⟩
  intro s hrun hpolite before after lost hsplit hloses exchange hmem
  have hrequests : s.work.requests = before.map Exchange.request ++
      lost.request :: after.map Exchange.request := by
    rw [Work.requests, hsplit, List.map_append, List.map_cons]
  exact hpolite.unanswered hfresh hrun hrequests hloses _ (List.mem_map_of_mem hmem)

theorem lost_mutex_unanswered_sample : ∃ (s : Process) (lost count : Exchange),
    s.work.exchanges = [lost, count] ∧ lost.request = literal "HDELETE k" ∧
      ¬ LocksHash count.request := by
  obtain ⟨st, hinit, hall⟩ := lost_mutex_unanswered (fun _ => 0) 0
  obtain ⟨s, hs, hexchanges⟩ := OneClient.deletesCounts (.of_startEngines hinit)
  exact ⟨s, _, _, hexchanges, rfl, hall s (run_of_restricted hs.run) hs.polite [] [_] _ hexchanges
    (losesLock_first (v := .delete) (k := ⟨literal "k", by decide⟩) (by decide) (by decide)) _
    (List.mem_singleton_self _)⟩

/-! ### The end of the process -/

/--
**The scheduler returns only to an idle `main`**: if no coroutine is left at some point of a run,
`server` got no socket in its first step, no connection was accepted, no request was ever received
and the engines are as they were; so `dest_kvengine` never sees what a client has stored.  In a
run in which `server` got a socket it waits in `accept` from the first step on.
-/
theorem server_never_done (h : Relation.ReflTransGen Process.Step (Process.start x st) s) :
    (s.isDone →
      (∃ o s₁, o.socket < 0 ∧ (Process.ntyScheduleRun o).run (Process.start x st) = .ok ((), s₁) ∧
        Relation.ReflTransGen Process.Step s₁ s) ∧
      s.accepted = [] ∧ s.work.exchanges = [] ∧ s.work.store = st) ∧
    (∀ o s₁, 0 ≤ o.socket →
      (Process.ntyScheduleRun o).run (Process.start x st) = .ok ((), s₁) →
      Relation.ReflTransGen Process.Step s₁ s → ¬ s.isDone ∧ s.ServerWaits) ∧
    (s.work.exchanges ≠ [] → s.ServerWaits) := by
  have hfirst : s = Process.start x st ∨ ∃ o s₁,
      (Process.ntyScheduleRun o).run (Process.start x st) = .ok ((), s₁) ∧
        Relation.ReflTransGen Process.Step s₁ s := by
    rcases h.cases_head with rfl | ⟨s₁, ⟨o, ho⟩, hrest⟩
    · exact Or.inl rfl
    · exact Or.inr ⟨o, s₁, ho, hrest⟩
  refine ⟨fun hdone => ?_, fun o s₁ hsocket ho hrest => ?_, fun hne => ?_⟩
  · rcases hfirst with rfl | ⟨o, s₁, ho, hrest⟩
    · exact absurd hdone.2 (by simp [Schedule.start])
    · rcases Schedule.after_first_step ho hrest with ⟨-, hwaits⟩ | ⟨hsocket, hnever⟩
      · exact absurd hdone hwaits.not_isDone
      · have hwork := hnever.work
        exact ⟨⟨o, s₁, hsocket, ho, hrest⟩, hnever.accepted, by rw [hwork], by rw [hwork]⟩
  · rcases Schedule.after_first_step ho hrest with ⟨-, hwaits⟩ | ⟨hneg, -⟩
    · exact ⟨hwaits.not_isDone, hwaits⟩
    · omega
  · rcases hfirst with rfl | ⟨o, s₁, ho, hrest⟩
    · exact absurd rfl hne
    · rcases Schedule.after_first_step ho hrest with ⟨-, hwaits⟩ | ⟨-, hnever⟩
      · exact hwaits
      · exact absurd (by rw [hnever.work]) hne

theorem server_never_done_sample : ∃ s : Process, s.work.exchanges.length = 1 ∧
    s.ServerWaits := by
  obtain ⟨st, -, hfresh⟩ := startEngines_spec (fun _ => 0) .free (by decide)
  obtain ⟨s, hs, hexchanges⟩ := OneClient.sets hfresh
  exact ⟨s, by rw [hexchanges]; rfl,
    (server_never_done (run_of_restricted hs.run)).2.2 (by rw [hexchanges]; simp)⟩

/--
**There are two ways for the process to end**, as long as every allocation succeeds and `send_f`
returns: a `send_f` to a connection that the client has reset raises `SIGPIPE`, which this model
leaves out.  After every run in which the clients have sent what the server can take, and for
whatever comes next of this kind, the next step returns unless a new reader is about to wait for a
descriptor that a coroutine waits for already, or a request for the chained hash comes when its
mutex is lost.  In the first case an assertion fails, whatever comes; in the second the process
waits for ever.
-/
theorem server_survives_iff (rand : Nat → Nat) (x : Int) :
    ∃ st, (startEngines (Vector.replicate maxTableSize []) .free).run (Store.static rand) =
        .ok ((), st) ∧
      ∀ s, Relation.ReflTransGen Process.Step (Process.start x st) s → s.work.Polite →
        ∀ o, (∀ request, Receives s o request → Served request) →
          ((∃ s', (Process.ntyScheduleRun o).run s = .ok ((), s')) ↔ ¬ s.Doubled ∧
            ∀ request, Receives s o request → LocksHash request → ¬ LockLost s.work.requests) ∧
          (s.Doubled → (Process.ntyScheduleRun o).run s = .error .assertFailed) ∧
          ∀ request, Receives s o request → LocksHash request → LockLost s.work.requests →
            (Process.ntyScheduleRun o).run s = .error .deadlock := by
  obtain ⟨st, hinit, hfresh⟩ := startEngines_spec rand .free (by decide)
  refine ⟨st, hinit, ?_⟩
  intro s hrun hpolite o ho
  have hs := hpolite.inService hfresh hrun
  have hblocked : ∀ request, Receives s o request → LocksHash request →
      LockLost s.work.requests → (Process.ntyScheduleRun o).run s = .error .deadlock :=
    fun request hreceives hlocks hlost =>
      hreceives.run (hs.storing.blocked (ho request hreceives) hlocks hlost)
  refine ⟨⟨?_, ?_⟩, fun hd => hd.run serverReader o, hblocked⟩
  · rintro ⟨s', hs'⟩
    constructor
    · intro hd
      rw [hd.run serverReader o] at hs'
      cases hs'
    · intro request hreceives hlocks hlost
      rw [hblocked request hreceives hlocks hlost] at hs'
      cases hs'
  · rintro ⟨hd, hfree⟩
    refine step_returns (Schedule.Sound.run hrun) hd ?_
    intro request hreceives
    obtain ⟨st', hserve, -⟩ := hs.storing.serve hs.short hs.int (ho request hreceives)
      (hfree request hreceives)
    exact ⟨_, hserve⟩

theorem server_survives_iff_sample : ∃ (s : Process) (o : Outside Sockets),
    s.work.requests = [literal "HDELETE k"] ∧ Receives s o (literal "HGET k") ∧
      (Process.ntyScheduleRun o).run s = .error .deadlock := by
  obtain ⟨st, hinit, hall⟩ := server_survives_iff (fun _ => 0) 0
  obtain ⟨s, hs, hexchanges⟩ := OneClient.deletes (.of_startEngines hinit)
  have hone : s.work.requests = [literal "HDELETE k"] := by rw [Work.requests, hexchanges]; rfl
  let s₁ : Process := { s with events := [5] }
  have hstep : Process.Step s s₁ := hs.reported.step
  let o : Outside Sockets := ⟨0, [], none, none, ⟨some (literal "HGET k"), none⟩⟩
  have hreceives : Receives s₁ o (literal "HGET k") :=
    ⟨[], 5, .recv 0, 5, rfl, hs.client, 0, _, rfl, rfl, by decide, by decide⟩
  have hserved : Served (literal "HGET k") :=
    served_of_call (c := .get ⟨literal "k", by decide⟩) (by decide) (by decide)
      (show _ = some (.hash, .get) by decide) (by decide) (by decide)
      (hashable_ascii (by decide) (by decide))
  have honly : ∀ request, Receives s₁ o request → Served request := by
    rintro request ⟨fds, fd, place, x, -, -, n, bytes, -, hrecv, rfl, -⟩
    cases hrecv
    exact hserved
  refine ⟨s₁, o, hone, hreceives, ?_⟩
  refine (hall s₁ ((run_of_restricted hs.run).tail hstep) hs.polite o honly).2.2 _ hreceives
    ⟨.get, by decide, by decide⟩ ?_
  show LockLost s.work.requests
  rw [hone]
  exact ⟨[], _, [], rfl,
    losesLock_first (v := .delete) (k := ⟨literal "k", by decide⟩) (by decide) (by decide)⟩

/-- A failed `accept` whose -1 is waited for. -/
theorem doubled_after_accept {fd y : Int} (hevents : s.events = [fd]) (hready : s.ready = [])
    (hw : s.waiting.lookup fd = some ⟨.accept, y⟩) {cliFd : Int} (hfd : cliFd ∈ s.waiting) :
    ∃ s' : Process, Process.Step s s' ∧ s'.Doubled ∧ s'.accepted = s.accepted ++ [cliFd] := by
  have hlast : s.events = [] ++ [fd] := hevents
  refine ⟨_, (Schedule.Transition.accept [] fd y cliFd hlast hw).step,
    ⟨rfl, ⟨cliFd, [], ?_⟩, ?_⟩, rfl⟩
  · rw [hready]
    rfl
  · exact Finmap.mem_insert.mpr (Or.inr hfd)

/--
**Two failures of `accept` can end the process**, from every state of every run in which `server`
waits and nothing else goes on: the -1 of the first is waited for like any descriptor, and the
assertion fails at the second one.  If -1 is waited for already, one failure is enough.
-/
theorem accept_fails_twice (hrun : Relation.ReflTransGen Process.Step (Process.start x st) s)
    {fd y : Int} (hevents : s.events = []) (hready : s.ready = [])
    (hw : s.waiting.lookup fd = some ⟨.accept, y⟩) :
    ∃ s' : Process, Relation.ReflTransGen Process.Step s s' ∧
      s'.accepted = s.accepted ++ (if (-1 : Int) ∈ s.waiting then [-1] else [-1, -1]) ∧
      ∀ o, (Process.ntyScheduleRun o).run s' = .error .assertFailed := by
  -- The descriptor of the socket is not the -1 of a failure.
  have hsocket : fd ≠ -1 := by
    have hpos := (Schedule.Sound.run hrun).socket fd y hw
    omega
  have hreport : ∀ {s₁ : Process} {co}, s₁.events = [] → s₁.ready = [] →
      s₁.waiting.lookup fd = some co → Process.Step s₁ { s₁ with events := [fd] } := by
    intro s₁ co hnone hnew hco
    refine (Schedule.Transition.report [fd] hnone hnew (List.nodup_singleton fd) ?_).step
    intro fd' hfd'
    rw [List.mem_singleton.mp hfd']
    exact Finmap.mem_of_lookup_eq_some hco
  have h₁ : Process.Step s { s with events := [fd] } := hreport hevents hready hw
  by_cases hone : (-1 : Int) ∈ s.waiting
  · rw [if_pos hone]
    obtain ⟨s', hstep, hd, haccepted⟩ :=
      doubled_after_accept (s := { s with events := [fd] }) rfl hready hw hone
    exact ⟨s', (Relation.ReflTransGen.single h₁).tail hstep, haccepted, hd.run serverReader⟩
  · rw [if_neg hone]
    -- The reader of the first failure waits for -1.
    let s₂ : Process := { s with
      events := []
      stack := -1
      ready := s.ready ++ [.serverReader (-1)]
      accepted := s.accepted ++ [-1]
      waiting := s.waiting.insert fd ⟨.accept, -1⟩ }
    have h₂ : Process.Step { s with events := [fd] } s₂ :=
      (Schedule.Transition.accept (s := { s with events := [fd] }) [] fd y (-1) rfl hw).step
    have hnew : (-1 : Int) ∉ s₂.waiting := by
      intro hc
      rcases Finmap.mem_insert.mp hc with hc | hc
      · exact hsocket hc.symm
      · exact hone hc
    have hready₂ : s₂.ready = [.serverReader (-1)] := by
      show s.ready ++ _ = _
      rw [hready]
      rfl
    let s₃ : Process := { s₂ with
      ready := []
      read := s.read ++ [-1]
      waiting := s₂.waiting.insert (-1) ⟨.reader (.recv s.read.length), -1⟩ }
    have h₃ : Process.Step s₂ s₃ :=
      (Schedule.Transition.startReader (-1) [] (-1) rfl hready₂ hnew).step
    have hw₃ : s₃.waiting.lookup fd = some ⟨.accept, -1⟩ := by
      show (s₂.waiting.insert (-1) _).lookup fd = _
      rw [Finmap.lookup_insert_of_ne _ hsocket]
      exact Finmap.lookup_insert _
    have h₄ : Process.Step s₃ { s₃ with events := [fd] } := hreport rfl rfl hw₃
    obtain ⟨s', hstep, hd, haccepted⟩ :=
      doubled_after_accept (s := { s₃ with events := [fd] }) rfl rfl hw₃
        (show (-1 : Int) ∈ s₃.waiting from Finmap.mem_insert.mpr (Or.inl rfl))
    refine ⟨s', ((((Relation.ReflTransGen.single h₁).tail h₂).tail h₃).tail h₄).tail hstep, ?_,
      hd.run serverReader⟩
    rw [haccepted]
    exact List.append_assoc s.accepted [-1] [-1]

theorem accept_fails_twice_sample : ∃ s s' : Process, s.accepted = [5] ∧
    Relation.ReflTransGen Process.Step s s' ∧ s'.accepted = [5, -1, -1] ∧
      ∀ o, (Process.ntyScheduleRun o).run s' = .error .assertFailed := by
  obtain ⟨st, -, hfresh⟩ := startEngines_spec (fun _ => 0) .free (by decide)
  obtain ⟨s, hs, -⟩ := OneClient.sets hfresh
  obtain ⟨s', hrun, haccepted, hfails⟩ :=
    accept_fails_twice (run_of_restricted hs.run) hs.events hs.ready hs.server
  refine ⟨s, s', hs.accepted, hrun, ?_, hfails⟩
  rw [haccepted, hs.accepted, if_neg fun hc => absurd (hs.others _ hc) (by decide)]
  rfl

end Results

end KvStore
