/-
The service that the clients are promised.

It takes one request after the other, and knows nothing of connections, coroutines, buffers and
pointers: `Contents.reply` is what a request is answered, and `Contents.message` what it
changes.  A request for something that there is not gets nothing at all, unless it has no word,
and then it gets the first 30 bytes of the cleared buffer back.

There is one thing that the service has no answer to.  `LockLost` says of the requests so far that
one of them has made the chained hash keep its mutex, and `LocksHash` of a request that it waits
for this mutex.
-/
import KvStore.Spec.Contents

namespace KvStore

/-- What the request is answered. -/
def Contents.reply (C : Contents) (request : List Byte) : List Byte :=
  match requestIn request with
  | none => if tokensOf request = [] then (requestBuf request).take kvsCmdError.toNat else []
  | some (e, v) =>
      match v.call (tokensOf request)[1]? (tokensOf request)[2]? with
      | none => []
      | some c => v.text (C.step e c).1

/-- One request. -/
def Contents.serve (C : Contents) (request : List Byte) : List Byte × Contents :=
  (C.reply request, C.message request)

/-- The replies to a list of requests. -/
def serviceReplies (requests : List (List Byte)) : List (List Byte) :=
  (runMachine Contents.serve Contents.empty requests).1

/-- The reply to a request depends on the requests in front of it. -/
theorem serviceReplies_append (before : List (List Byte)) (request : List Byte)
    (after : List (List Byte)) : ∃ replies replies',
      serviceReplies (before ++ request :: after) =
        replies ++ (contentsAfter before).reply request :: replies' ∧
      replies.length = before.length := by
  have hrun : ∀ C : Contents, ∃ replies replies',
      (runMachine Contents.serve C (before ++ request :: after)).1 =
        replies ++ (before.foldl Contents.message C).reply request :: replies' ∧
      replies.length = before.length := by
    induction before with
    | nil => exact fun C => ⟨[], _, rfl, rfl⟩
    | cons first rest ih =>
        intro C
        obtain ⟨replies, replies', hreplies, hlen⟩ := ih (C.message first)
        refine ⟨C.reply first :: replies, replies', ?_, congrArg Nat.succ hlen⟩
        exact congrArg (C.reply first :: ·) hreplies
  exact hrun Contents.empty

/-! ### The mutex that is lost -/

/-- The call deletes a key from a slot of the chained hash that is empty. -/
def Call.LosesLock (C : Contents) : Call → Prop
  | .delete k => ∀ k' ∈ C.hash, hash (some k') maxTableSize ≠ hash (some k) maxTableSize
  | _ => False

/-- The request has the chained hash make such a call. -/
def Contents.LosesLock (C : Contents) (request : List Byte) : Prop :=
  ∃ v c, requestIn request = some (.hash, v) ∧
    v.call (tokensOf request)[1]? (tokensOf request)[2]? = some c ∧ c.LosesLock C

/-- One of the requests was of this kind. -/
def LockLost (requests : List (List Byte)) : Prop :=
  ∃ before request after, requests = before ++ request :: after ∧
    (contentsAfter before).LosesLock request

/-- The request is for the chained hash, and for something else than its counter. -/
def LocksHash (request : List Byte) : Prop :=
  ∃ v, requestIn request = some (.hash, v) ∧ v ≠ .count

theorem not_lockLost_nil : ¬ LockLost [] := by
  rintro ⟨before, request, after, hsplit, -⟩
  exact absurd hsplit (by simp)

theorem lockLost_concat {before : List (List Byte)} {request : List Byte} :
    LockLost (before ++ [request]) ↔
      LockLost before ∨ (contentsAfter before).LosesLock request := by
  constructor
  · rintro ⟨first, lost, rest, hsplit, hlost⟩
    rcases List.eq_nil_or_concat rest with rfl | ⟨rest, last, rfl⟩
    · obtain ⟨rfl, hlast⟩ := List.append_inj' hsplit rfl
      cases hlast
      exact Or.inr hlost
    · rw [List.concat_eq_append, ← List.cons_append, ← List.append_assoc] at hsplit
      obtain ⟨rfl, -⟩ := List.append_inj' hsplit rfl
      exact Or.inl ⟨first, lost, rest, rfl, hlost⟩
  · rintro (⟨first, lost, rest, rfl, hlost⟩ | hlost)
    · exact ⟨first, lost, rest ++ [request], by rw [List.append_assoc]; rfl, hlost⟩
    · exact ⟨before, request, [], rfl, hlost⟩

/-! ### What a request leaves alone -/

/-- The call is a put or a delete of the key. -/
def Call.WritesKey (k : CString) : Call → Prop
  | .put k' _ | .delete k' => k' = k
  | .get _ | .count | .exist _ => False

/-- The request has the engine put or delete the key. -/
def WritesKey (e : Engine) (k : CString) (request : List Byte) : Prop :=
  ∃ v c, requestIn request = some (e, v) ∧
    v.call (tokensOf request)[1]? (tokensOf request)[2]? = some c ∧ c.WritesKey k

theorem MapRules.step_unwritten (R : MapRules) {m : Dict CString CString} {k : CString} {c : Call}
    (h : ¬ c.WritesKey k) : (R.step m c).2.lookup k = m.lookup k := by
  cases c with
  | get | count | exist => rfl
  | put k' v =>
      have hne : k ≠ k' := fun hc => h hc.symm
      rw [MapRules.step, MapRules.put]
      split_ifs <;> simp [Finmap.lookup_insert_of_ne _ hne]
  | delete k' =>
      have hne : k ≠ k' := fun hc => h hc.symm
      rw [MapRules.step, MapRules.delete]
      split_ifs <;> simp [Finmap.lookup_erase_ne hne]

theorem Stacks.step_unwritten {m : Stacks} {k : CString} {c : Call} (h : ¬ c.WritesKey k) :
    (m.step c).2.stack k = m.stack k := by
  cases c with
  | get | count | exist => rfl
  | put k' v =>
      have hne : k ≠ k' := fun hc => h hc.symm
      rw [Stacks.step, Stacks.push, Stacks.stack_insert, if_neg hne]
  | delete k' =>
      have hne : k ≠ k' := fun hc => h hc.symm
      rw [Stacks.step]
      split_ifs
      · rfl
      · rw [Stacks.pop, Stacks.stack_insert, if_neg hne]

namespace Contents

/-- A call changes the value of no other key, and of no other engine. -/
theorem lookup_step (C : Contents) {e e' : Engine} {k : CString} {c : Call}
    (h : e' = e → ¬ c.WritesKey k) : (C.step e' c).2.lookup e k = C.lookup e k := by
  by_cases he : e' = e
  · subst he
    have hk := h rfl
    cases e' with
    | array => exact arrayRules.step_unwritten hk
    | rbtree => exact rbtreeRules.step_unwritten hk
    | hash => exact hashRules.step_unwritten hk
    | dhash => exact congrArg List.head? (Stacks.step_unwritten hk)
    | skiptable => exact skiptableRules.step_unwritten hk
  · cases e' <;> cases e <;> first | rfl | exact absurd rfl he

theorem lookup_message (C : Contents) {e : Engine} {k : CString} {request : List Byte}
    (h : ¬ WritesKey e k request) : (C.message request).lookup e k = C.lookup e k := by
  unfold message
  split
  · rfl
  · rename_i e' v hreq
    split
    · rfl
    · rename_i c hcall
      refine C.lookup_step fun he hk => h ?_
      subst he
      exact ⟨v, c, hreq, hcall, hk⟩

theorem lookup_messages (C : Contents) {e : Engine} {k : CString} (requests : List (List Byte))
    (h : ∀ request ∈ requests, ¬ WritesKey e k request) :
    (requests.foldl message C).lookup e k = C.lookup e k := by
  induction requests generalizing C with
  | nil => rfl
  | cons request rest ih =>
      rw [List.foldl_cons, ih (C.message request) (fun r hr => h r (by simp [hr])),
        C.lookup_message (h request (by simp))]

/-- **A put that is acknowledged is stored.** -/
theorem lookup_put (C : Contents) {e : Engine} {k v : CString}
    (h : (C.step e (.put k v)).1 = .int 0) : (C.step e (.put k v)).2.lookup e k = some v := by
  have hmap : ∀ (R : MapRules) (m : Dict CString CString), R.putRefused ≠ 0 →
      (R.step m (.put k v)).1 = .int 0 → (R.step m (.put k v)).2.lookup k = some v := by
    intro R m hr h0
    rw [MapRules.step] at h0 ⊢
    rw [MapRules.put_accepted hr (Answer.int.inj h0)]
    exact Finmap.lookup_insert m
  cases e with
  | array => exact hmap arrayRules C.array (by decide) h
  | rbtree => exact hmap rbtreeRules C.tree (by decide) h
  | hash => exact hmap hashRules C.hash (by decide) h
  | dhash =>
      show ((C.dhash.push k v).stack k).head? = some v
      rw [Stacks.push, Stacks.stack_insert, if_pos rfl]
      rfl
  | skiptable =>
      show (skiptableRules.put C.table k v).2.lookup k = some v
      by_cases hk : k ∈ C.table
      · rw [MapRules.put_replaces rfl hk]
        exact Finmap.lookup_insert _
      · rw [MapRules.put_new hk (MapRules.hasRoom_of_unbounded rfl)]
        exact Finmap.lookup_insert _

end Contents

/-! ### What a reply to a `GET` says -/

namespace Contents

/-- All the values that an engine has for the key. -/
def values (C : Contents) : Engine → CString → List CString
  | .dhash, k => C.dhash.stack k
  | e, k => (C.lookup e k).toList

theorem mem_values {C : Contents} {e : Engine} {k v : CString} (h : C.lookup e k = some v) :
    v ∈ C.values e k := by
  cases e with
  | array | rbtree | hash | skiptable => exact Option.mem_toList.mpr h
  | dhash => exact List.mem_of_mem_head? h

/-- A value was there before, or was put by the call. -/
theorem values_step {C : Contents} {e e' : Engine} {k v : CString} {c : Call}
    (h : v ∈ (C.step e' c).2.values e k) : v ∈ C.values e k ∨ c = .put k v := by
  by_cases he : e' = e
  · subst he
    cases e' with
    | array | rbtree | hash | skiptable =>
        exact (MapRules.step_lookup (Option.mem_toList.mp h)).imp_left Option.mem_toList.mpr
    | dhash => exact Stacks.step_stack h
  · left
    cases e' <;> cases e <;> first | exact h | exact absurd rfl he

theorem values_message {C : Contents} {e : Engine} {k v : CString} {request : List Byte}
    (h : v ∈ (C.message request).values e k) : v ∈ C.values e k ∨ v ∈ tokensOf request := by
  unfold message at h
  split at h
  · exact Or.inl h
  · rename_i e' verb hreq
    split at h
    · exact Or.inl h
    · rename_i c hcall
      rcases values_step h with h | rfl
      · exact Or.inl h
      · exact Or.inr (List.mem_of_getElem? (Verb.call_put hcall))

/-- An engine without a value for the key answers with `NULL`, or with no text. -/
theorem step_get_none {C : Contents} {e : Engine} {k : CString} (h : C.lookup e k = none) :
    ∃ s, (C.step e (.get k)).1 = .str s ∧ (s = none ∨ s = some CString.empty) := by
  have hmap : ∀ (R : MapRules) (m : Dict CString CString), m.lookup k = none →
      (R.step m (.get k)).1 = .str R.getAbsent := fun R m hm =>
    congrArg Answer.str (R.get_absent (Finmap.lookup_eq_none.mp hm))
  cases e with
  | array => exact ⟨_, hmap arrayRules _ h, Or.inl rfl⟩
  | rbtree => exact ⟨_, hmap rbtreeRules _ h, Or.inr rfl⟩
  | hash => exact ⟨_, hmap hashRules _ h, Or.inl rfl⟩
  | dhash => exact ⟨_, rfl, Or.inl h⟩
  | skiptable => exact ⟨_, hmap skiptableRules _ h, Or.inl rfl⟩

end Contents

/-- What a client reads off the reply to a `GET`: the value, or that there is none. -/
def readValue (reply : List Byte) : Option (List Byte) :=
  if reply = valueText none ∨ reply = valueText (some CString.empty) then none
  else some (reply.take (reply.length - 2))

theorem readValue_none {s : Option CString} (h : s = none ∨ s = some CString.empty) :
    readValue (valueText s) = none := by
  refine if_pos ?_
  rcases h with rfl | rfl
  · exact Or.inl rfl
  · exact Or.inr rfl

/-- The text for a missing key has a space in it, so it is not the text for a token. -/
theorem readValue_token {v : CString} (hv : IsToken v) :
    readValue (valueText (some v)) = some v.bytes := by
  have htext : valueText (some v) = v.bytes ++ literal "\x0d\n" := rfl
  have hend : ∀ w, valueText (some v) = w ++ literal "\x0d\n" → v.bytes = w := fun w hw =>
    List.append_cancel_right (htext.symm.trans hw)
  unfold readValue
  rw [if_neg]
  · rw [htext, List.length_append, show (literal "\x0d\n").length = 2 from rfl, Nat.add_sub_cancel,
      List.take_left]
  · rintro (hc | hc)
    · refine hv.2 ?_
      rw [hend (literal "FAILED: NO EXIST") hc]
      decide
    · exact hv.1 (hend [] hc)

theorem resultText_success {i : Int} (h : resultText i = literal "SUCCESS\x0d\n") : i = 0 := by
  unfold resultText at h
  by_contra hi
  rw [if_neg hi] at h
  revert h
  decide

end KvStore
