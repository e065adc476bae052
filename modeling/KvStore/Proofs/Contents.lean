/-
The server stores what the messages say.

`Holding s C` relates the state of the five engines to their contents; the mutex of the
chained hash is one that does nothing.  Every call that an engine can answer is answered as
the abstract server answers it (`Holding.call`), and a run of messages that make such calls
leaves the contents that the messages describe (`Holding.run`).
-/
import KvStore.Proofs.Protocol
import KvStore.Proofs.Store
import KvStore.Spec.Contents

namespace KvStore

/-- The engine can answer the call. -/
def Call.Suits : Engine → Call → Prop
  | .array, _ | .dhash, _ => True
  | .rbtree, c | .skiptable, c => c.PutFits
  | .hash, c => c.HashFits

theorem Call.Fits.suits {c : Call} (h : c.Fits) (ha : c.AsciiKey) (e : Engine) : c.Suits e := by
  cases e with
  | array | dhash => trivial
  | rbtree | skiptable => exact h.putFits
  | hash => exact h.hashFits ha

/-- The engines store the contents. -/
structure Holding (s : Store) (C : Contents) : Prop where
  array : ArraySim s.array C.array
  tree : RbtreeSim s.tree C.tree
  hash : HashSim s.hash C.hash
  lock : s.hash.lock = .ignored
  dhash : DhashSim s.dhash C.dhash
  table : SkiptableSim s.table C.table
  counter : s.table.nbElements = C.counter

theorem FreshStore.holding {s : Store} (h : FreshStore s .ignored) : Holding s Contents.empty := by
  refine ⟨h.array, h.tree, ?_, ?_, ?_, h.table, h.count⟩
  · rw [h.hash]
    exact HashSim.fresh (by decide)
  · rw [h.hash]
    rfl
  · rw [h.dhash]
    exact DhashSim.fresh

section Calls

variable {s : Store} {C : Contents} {e : Engine} {c : Call} {request : List Byte}

/-- **An engine answers a call as the abstract server does.** -/
theorem Holding.call (h : Holding s C) (hc : c.Suits e) :
    ∃ s', (Store.call e c).run s = .ok ((C.step e c).1, s') ∧ Holding s' (C.step e c).2 := by
  cases e with
  | array =>
      obtain ⟨A, hA, hsim, -⟩ := arrayCall_refines h.array c
      exact ⟨_, zoom_run hA, hsim, h.tree, h.hash, h.lock, h.dhash, h.table, h.counter⟩
  | rbtree =>
      obtain ⟨T, hT, hsim, -⟩ := rbtreeCall_refines h.tree hc
      exact ⟨_, zoom_run hT, h.array, hsim, h.hash, h.lock, h.dhash, h.table, h.counter⟩
  | hash =>
      obtain ⟨H, hH, hsim, heff⟩ := hashCall_refines h.hash hc fun _ _ => Or.inl h.lock
      exact ⟨_, zoom_run hH, h.array, h.tree, hsim, heff.lock.trans h.lock, h.dhash, h.table,
        h.counter⟩
  | dhash =>
      obtain ⟨D, hD, hsim, -⟩ := dhashCall_refines h.dhash c
      exact ⟨_, zoom_run hD, h.array, h.tree, h.hash, h.lock, hsim, h.table, h.counter⟩
  | skiptable =>
      by_cases hcount : c = .count
      · subst hcount
        refine ⟨s, ?_, h.array, h.tree, h.hash, h.lock, h.dhash, h.table, ?_⟩
        · show Except.ok (Answer.int s.table.nbElements, s) = .ok (Answer.int C.counter, s)
          rw [h.counter]
        · show s.table.nbElements = C.counter + 0
          rw [h.counter, Int.add_zero]
      · obtain ⟨S, hS, hsim, hchange, -⟩ := skiptableCall_refines h.table hc hcount
        have hanswer : (C.step .skiptable c).1 = (skiptableRules.step C.table c).1 := if_neg hcount
        rw [hanswer]
        refine ⟨_, zoom_run hS, h.array, h.tree, h.hash, h.lock, h.dhash, hsim, ?_⟩
        show S.nbElements = C.counter + countChange C.table c
        rw [hchange, h.counter]

/-- The message is one that the server can take: if it asks for a call, the engine can answer. -/
structure Served (request : List Byte) : Prop where
  short : request.length < clinetMsgLength
  room : (tokensOf request).length ≤ maxTokens
  args : ∀ e v, requestIn request = some (e, v) →
    ∃ c, v.call (tokensOf request)[1]? (tokensOf request)[2]? = some c ∧ c.Suits e
  set : requestIn request = some (.array, .set) → (tokensOf request).length = 3

/-- **A message that makes a call is answered with the text for what the abstract server answers.** -/
theorem Holding.message_call (h : Holding s C) (hr : Served request) {v : Verb}
    (hreq : requestIn request = some (e, v)) :
    ∃ c s', v.call (tokensOf request)[1]? (tokensOf request)[2]? = some c ∧
      (Store.call e c).run s = .ok ((C.step e c).1, s') ∧
      (kvsProtocolOn request).run s = .ok ((((v.text (C.step e c).1).length : Int),
        replyBuf (v.text (C.step e c).1)), s') ∧
      Holding s' (C.message request) := by
  obtain ⟨c, hcall, hsuits⟩ := hr.args e v hreq
  obtain ⟨s', hrun, h'⟩ := h.call hsuits
  have hmessage : C.message request = (C.step e c).2 := by
    simp only [Contents.message, hreq, hcall]
  refine ⟨c, s', hcall, hrun, ?_, ?_⟩
  · rw [kvsProtocolOn_op hr.short hr.room hreq fun hp => hr.set (by rw [hreq, hp]),
      Store.op_call hcall]
    exact run_bind_of hrun rfl
  · rw [hmessage]
    exact h'

theorem Holding.message (h : Holding s C) (hr : Served request) :
    ∃ r s', (kvsProtocolOn request).run s = .ok (r, s') ∧ Holding s' (C.message request) := by
  cases hreq : requestIn request with
  | none =>
      obtain ⟨msg, -, hrun⟩ := kvsProtocolOn_none hr.short hr.room hreq
      refine ⟨_, s, hrun s, ?_⟩
      rw [Contents.message, hreq]
      exact h
  | some p =>
      obtain ⟨c, s', -, -, hrun, h'⟩ := h.message_call hr (e := p.1) (v := p.2) hreq
      exact ⟨_, s', hrun, h'⟩

/-- **A run of messages leaves the contents that they describe.** -/
theorem Holding.run (h : Holding s C) (requests : List (List Byte))
    (hr : ∀ request ∈ requests, Served request) :
    ∃ rs s', (runCalls kvsProtocolOn requests).run s = .ok (rs, s') ∧
      Holding s' (requests.foldl Contents.message C) := by
  induction requests generalizing s C with
  | nil => exact ⟨[], s, rfl, h⟩
  | cons request rest ih =>
      obtain ⟨r, s₁, hrun, h₁⟩ := h.message (hr request (by simp))
      obtain ⟨rs, s', hrest, h'⟩ := ih h₁ fun r hmem => hr r (by simp [hmem])
      exact ⟨r :: rs, s', runCalls_cons_ok hrun hrest, h'⟩

end Calls

end KvStore
