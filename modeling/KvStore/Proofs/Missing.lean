/-
Commands without their arguments.

A token that is not there is a null pointer, and the switch hands it to the engine as it is.
Most functions look at their arguments first and refuse; those of the second hash do not, and
`delete` and `exist` of the skip list compare a null key as soon as there is a node to compare
it with.  `SET` has an assertion of its own, which also rules out a fourth token.

`survives_iff` says that these are all the ways to bring the server down by the number of
tokens: `Enough` is the condition, and a command that lacks an argument and survives changes
nothing.  A command that has its arguments does not come back either if it is for the chained
hash and the mutex has been lost (`MutexThere`).
-/
import KvStore.Proofs.Frame

namespace KvStore

/-! ### The skip list without a key -/

/-- The list has no node: the lowest pointer of the header is null. -/
def SkipList.Empty (S : SkipList) : Prop := forwardAt S.mem 0 S.header = some 0

instance (S : SkipList) : Decidable S.Empty := inferInstanceAs (Decidable (_ = _))

section Skiptable

variable {S : SkipList} {L : List Tower} {i : Nat}

theorem SkipRep.empty_iff (h : SkipRep S L) : S.Empty ↔ L = [] := by
  have hchain := h.chains 0 (by decide)
  rw [lane_zero fun e he => (h.heights e he).1] at hchain
  cases L with
  | nil => exact ⟨fun _ => rfl, fun _ => hchain⟩
  | cons e L =>
      refine ⟨fun hempty => ?_, fun hnil => by cases hnil⟩
      rw [SkipList.Empty, hchain.1] at hempty
      exact absurd (Option.some.inj hempty) hchain.2.1

theorem SkipRep.compareNode_null (h : SkipRep S L) {e : Tower} (he : e ∈ L) :
    (compareNode e.ptr none).run S = .error .nullDeref := by
  obtain ⟨fs, hcell, -⟩ := h.cell he
  exact run_bind_of (deref_run hcell) rfl

/-- The walk on a level stays at the header, or compares a null key. -/
theorem SkipRep.walk_null (h : SkipRep S L) (hi : i < maxLevel) :
    (walk none i S.header).run S =
      if lane i L = [] then .ok (S.header, S) else .error .nullDeref := by
  have hchain := h.chains i hi
  have hnext := getForward_run hchain.first
  unfold walk
  rw [run_bind_ok (run_get S), SkipList.fuel]
  cases hlane : lane i L with
  | nil =>
      rw [hlane] at hnext
      rw [if_pos rfl]
      exact loop_inr (run_bind_of hnext (run_ite_neg (by simp) rfl))
  | cons q Q =>
      rw [hlane] at hnext hchain
      obtain ⟨e, he, -, rfl⟩ := mem_lane.mp (show q ∈ lane i L by rw [hlane]; simp)
      rw [if_neg (by simp), loop]
      refine run_bind_error (run_bind_of hnext (run_ite_pos hchain.2.1 ?_))
      exact run_bind_error (h.compareNode_null he)

theorem SkipRep.descend_null (h : SkipRep S L) {n : Nat} (hn : n ≤ maxLevel) :
    (descend (fun _ _ _ => pure ()) none n S.header ()).run S =
      if ∀ i, i < n → lane i L = [] then .ok ((S.header, ()), S) else .error .nullDeref := by
  induction n with
  | zero => rw [if_pos (by omega), descend, run_pure]
  | succ n ih =>
      have hwalk := h.walk_null (i := n) (by omega)
      unfold descend
      by_cases hlane : lane n L = []
      · rw [if_pos hlane] at hwalk
        rw [run_bind_ok hwalk, run_bind_ok (run_pure () S), ih (by omega)]
        refine if_congr ?_ rfl rfl
        constructor
        · intro hall i hi
          rcases Nat.lt_succ_iff_lt_or_eq.mp hi with hi | rfl
          · exact hall i hi
          · exact hlane
        · intro hall i hi
          exact hall i (by omega)
      · rw [if_neg hlane] at hwalk
        rw [run_bind_error hwalk, if_neg fun hall => hlane (hall n (by omega))]

theorem SkipRep.find_null (h : SkipRep S L) :
    (SkipList.find none).run S = if S.Empty then .ok (none, S) else .error .nullDeref := by
  have hdescend := h.descend_null h.level_le
  unfold SkipList.find
  rw [run_bind_ok (run_get S)]
  by_cases hempty : S.Empty
  · obtain rfl := h.empty_iff.mp hempty
    have hall : ∀ i, i < S.level → lane i [] = [] := fun _ _ => rfl
    rw [if_pos hall] at hdescend
    rw [if_pos hempty, run_bind_ok hdescend]
    have hnext : (nextIs S.header none).run S = .ok (false, S) :=
      run_bind_of (getForward_run hempty) (run_ite_neg (by simp) rfl)
    exact run_bind_of hnext rfl
  · rw [if_neg hempty]
    refine run_bind_error (hdescend.trans (if_neg ?_))
    intro hall
    have hlane := hall 0 h.level_pos
    rw [lane_zero fun e he => (h.heights e he).1, List.map_eq_nil_iff] at hlane
    exact hempty (h.empty_iff.mpr hlane)

end Skiptable

/-! ### The functions without their arguments -/

/-- With `n` tokens, the function of the engine has what it cannot do without. -/
def Engine.Takes (s : Store) (n : Nat) : Engine → Verb → Prop
  | .array, .set => n = 3
  | .dhash, .set => 3 ≤ n
  | .dhash, .get | .dhash, .delete | .dhash, .exist => 2 ≤ n
  | .skiptable, .delete | .skiptable, .exist => 2 ≤ n ∨ s.table.Empty
  | _, _ => True

section Operations

variable {s : Store} {key value : Option CString} {v : Verb} {n : Nat}

theorem Verb.call_eq_none (h : v.call key value = none) :
    (v = .set ∧ (key = none ∨ value = none)) ∨ (v ≠ .set ∧ v ≠ .count ∧ key = none) := by
  cases v <;> cases key <;> cases value <;> first | cases h; done | simp

/-- The array refuses. -/
theorem arrayOp_lacking (hcall : v.call key value = none) (A : ArrayTable) :
    ∃ r, (arrayOp key value v).run A = .ok (r, A) := by
  cases v <;> cases key <;> cases value <;> first | cases hcall; done | exact ⟨_, rfl⟩

/-- The second hash does not. -/
theorem dhashOp_lacking (hcall : v.call key value = none) (D : DhashTable) :
    (dhashOp key value v).run D = .error .nullDeref := by
  cases v <;> cases key <;> cases value <;> first | cases hcall; done | rfl

theorem rbtreeOp_lacking (hcall : v.call key value = none) (T : Rbtree) :
    ∃ r, (rbtreeOp key value v).run T = .ok (r, T) := by
  cases v <;> cases key <;> cases value <;> first | cases hcall; done | exact ⟨_, rfl⟩

theorem hashOp_lacking (hcall : v.call key value = none) (H : Hashtable) :
    ∃ r, (hashOp key value v).run H = .ok (r, H) := by
  cases v <;> cases key <;> cases value <;> first | cases hcall; done | exact ⟨_, rfl⟩

/-- `delete` and `exist` of the skip list, once they have looked for the null key. -/
theorem skiptableOp_null {S : SkipList} {m : Dict CString CString} (h : SkiptableSim S m)
    (hv : v = .delete ∨ v = .exist) (value : Option CString) :
    (S.Empty → ∃ r, (skiptableOp none value v).run S = .ok (r, S)) ∧
      (¬ S.Empty → (skiptableOp none value v).run S = .error .nullDeref) := by
  obtain ⟨L, hst, -⟩ := h.stores
  have hfind := hst.rep.find_null
  constructor
  · intro hempty
    rw [if_pos hempty] at hfind
    rcases hv with rfl | rfl
    · exact ⟨_, run_map_of _ (run_bind_of hfind rfl)⟩
    · exact ⟨_, run_map_of _ (run_bind_of hfind rfl)⟩
  · intro hne
    rw [if_neg hne] at hfind
    have hmap : ∀ f : Option (List Byte) → Prog SkipList Int,
        (Answer.int <$> (SkipList.find none >>= f)).run S = .error .nullDeref := by
      intro f
      rw [StateT.run_map, run_bind_error hfind]
      rfl
    rcases hv with rfl | rfl
    · exact hmap _
    · exact hmap _

/-- Without its arguments, no function of the second hash has what it takes. -/
theorem not_dhash_takes (hkey : key = none ↔ n ≤ 1) (hvalue : value = none ↔ n ≤ 2)
    (hcall : v.call key value = none) : ¬ Engine.dhash.Takes s n v := by
  rcases Verb.call_eq_none hcall with ⟨rfl, hnull⟩ | ⟨hset, hcount, hnull⟩
  · rintro (htakes : 3 ≤ n)
    rcases hnull with hnull | hnull
    · have := hkey.mp hnull
      omega
    · have := hvalue.mp hnull
      omega
  · have hn : ¬ 2 ≤ n := by
      have := hkey.mp hnull
      omega
    cases v with
    | set => exact absurd rfl hset
    | count => exact absurd rfl hcount
    | get | delete | exist => exact hn

/-- **A function that lacks an argument refuses or faults**, by what it takes. -/
theorem op_lacking (h : StoreKept s) (hkey : key = none ↔ n ≤ 1) (hvalue : value = none ↔ n ≤ 2)
    (hcall : v.call key value = none) {e : Engine} (hne : (e, v) ≠ (.array, .set)) :
    (e.Takes s n v → ∃ r, (Store.op key value e v).run s = .ok (r, s)) ∧
      (¬ e.Takes s n v → (Store.op key value e v).run s = .error .nullDeref) := by
  cases e with
  | array =>
      obtain ⟨r, hr⟩ := arrayOp_lacking hcall s.array
      refine ⟨fun _ => ⟨r, zoom_run hr⟩, fun hc => absurd ?_ hc⟩
      cases v <;> first | exact absurd rfl hne | trivial
  | rbtree =>
      obtain ⟨r, hr⟩ := rbtreeOp_lacking hcall s.tree
      exact ⟨fun _ => ⟨r, zoom_run hr⟩, fun hc => absurd (by cases v <;> trivial) hc⟩
  | hash =>
      obtain ⟨r, hr⟩ := hashOp_lacking hcall s.hash
      exact ⟨fun _ => ⟨r, zoom_run hr⟩, fun hc => absurd (by cases v <;> trivial) hc⟩
  | dhash =>
      exact ⟨fun htakes => absurd htakes (not_dhash_takes hkey hvalue hcall),
        fun _ => zoom_error (dhashOp_lacking hcall s.dhash)⟩
  | skiptable =>
      obtain ⟨m, hsim⟩ := h.table
      rcases Verb.call_eq_none hcall with ⟨rfl, hnull⟩ | ⟨hset, hcount, rfl⟩
      · refine ⟨fun _ => ⟨.int (-1), zoom_run ?_⟩, fun hc => absurd trivial hc⟩
        cases key <;> cases value <;> first | rfl | cases hcall
      · have hn := hkey.mp rfl
        have hlooks : v = .delete ∨ v = .exist →
            (2 ≤ n ∨ s.table.Empty → ∃ r, (Store.op none value .skiptable v).run s = .ok (r, s)) ∧
            (¬ (2 ≤ n ∨ s.table.Empty) →
              (Store.op none value .skiptable v).run s = .error .nullDeref) := by
          intro hv
          obtain ⟨hempty, hnull⟩ := skiptableOp_null hsim hv value
          refine ⟨fun htakes => ?_, fun hc => zoom_error (hnull fun he => hc (Or.inr he))⟩
          obtain ⟨r, hr⟩ := hempty (htakes.resolve_left (by omega))
          exact ⟨r, zoom_run hr⟩
        cases v with
        | set => exact absurd rfl hset
        | count => exact absurd rfl hcount
        | get => exact ⟨fun _ => ⟨_, rfl⟩, fun hc => absurd trivial hc⟩
        | delete => exact hlooks (Or.inl rfl)
        | exist => exact hlooks (Or.inr rfl)

end Operations

/-! ### Messages -/

/-- The number of tokens is enough for what the message asks for. -/
def Enough (s : Store) (request : List Byte) : Prop :=
  ∀ e v, requestIn request = some (e, v) → e.Takes s (tokensOf request).length v

/-- The message asks for something that needs more tokens. -/
def Lacks (request : List Byte) : Prop :=
  ∃ e v, requestIn request = some (e, v) ∧
    v.call (tokensOf request)[1]? (tokensOf request)[2]? = none

/-- Nobody holds the mutex of the chained hash, if the message makes a call that locks it. -/
def MutexThere (s : Store) (request : List Byte) : Prop :=
  ∀ v c, requestIn request = some (.hash, v) →
    v.call (tokensOf request)[1]? (tokensOf request)[2]? = some c → c ≠ .count →
      s.hash.lock ≠ .held

/-- `kvs_protocol` returns, and has changed nothing if an argument was lacking. -/
def Survives (s : Store) (request : List Byte) : Prop :=
  ∃ r s', (kvsProtocolOn request).run s = .ok (r, s') ∧ (Lacks request → s' = s)

/-- What arguments the message has, the engine it asks for can take. -/
structure Fitting (request : List Byte) : Prop where
  short : request.length < clinetMsgLength
  args : ∀ e v c, requestIn request = some (e, v) →
    v.call (tokensOf request)[1]? (tokensOf request)[2]? = some c → c.Suits e

section Messages

variable {s s' : Store} {request : List Byte}

/-- With all its arguments a command has enough of them, but for the assertion of `SET`. -/
theorem takes_of_call {e : Engine} {v : Verb} {c : Call} {ws : List CString}
    (hcall : v.call ws[1]? ws[2]? = some c) (hset : (e, v) = (.array, .set) → ws.length = 3) :
    e.Takes s ws.length v := by
  have hlen : ∀ i a, ws[i]? = some a → i < ws.length := by
    intro i a ha
    exact (List.getElem?_eq_some_iff.mp ha).1
  cases h1 : ws[1]? with
  | none =>
      rw [h1] at hcall
      cases v <;> first | cases hcall; done | (cases e <;> trivial)
  | some k =>
      have h1lt := hlen 1 k h1
      cases v with
      | set =>
          cases h2 : ws[2]? with
          | none =>
              rw [h1, h2] at hcall
              cases hcall
          | some a =>
              have h2lt := hlen 2 a h2
              cases e with
              | array => exact hset rfl
              | dhash => exact h2lt
              | rbtree | hash | skiptable => trivial
      | get | count => cases e <;> trivial
      | delete | exist => cases e <;> first | trivial | exact Or.inl h1lt

/-- Three tokens are enough for every verb. -/
theorem call_of_three {ws : List CString} (hlen : ws.length = 3) (v : Verb) :
    v.call ws[1]? ws[2]? ≠ none := by
  rw [List.getElem?_eq_getElem (by omega), List.getElem?_eq_getElem (by omega)]
  cases v <;> exact fun hc => by cases hc

/-- The function that a message asks for, if an argument is lacking. -/
theorem StoreKept.lacking (h : StoreKept s) {e : Engine} {v : Verb} {ws : List CString}
    (hcall : v.call ws[1]? ws[2]? = none) (hset : (e, v) = (.array, .set) → ws.length = 3) :
    (e.Takes s ws.length v → ∃ r, (Store.op ws[1]? ws[2]? e v).run s = .ok (r, s)) ∧
      (¬ e.Takes s ws.length v → (Store.op ws[1]? ws[2]? e v).run s = .error .nullDeref) :=
  op_lacking h List.getElem?_eq_none_iff List.getElem?_eq_none_iff hcall
    fun hp => call_of_three (hset hp) v hcall

/-- The chained hash answers what it can hold, while nobody holds its mutex. -/
theorem HashKept.returns {H : Hashtable} (h : HashKept H) {c : Call} (hc : c.HashFits)
    (hlock : c ≠ .count → H.lock ≠ .held) : ∃ r H', (hashCall c).run H = .ok (r, H') := by
  by_cases hcount : c = .count
  · subst hcount
    exact ⟨_, H, rfl⟩
  · have hfree := hlock hcount
    obtain ⟨m, hsim⟩ := h.resolve_right hfree
    by_cases hempty : ∃ k, c = .delete k ∧ SlotEmpty H k
    · obtain ⟨k, rfl, hempty⟩ := hempty
      obtain ⟨mu, hmu, -⟩ := Mutex.lock_unlock hfree
      exact ⟨_, _, run_map_of _ (deleteKvHashtable_empty hmu hempty)⟩
    · obtain ⟨H', hrun, -⟩ := hashCall_refines hsim hc
        fun k hk => Or.inr fun hslot => hempty ⟨k, hk, hslot⟩
      exact ⟨_, H', hrun⟩

theorem StoreKept.returns (h : StoreKept s) {e : Engine} {c : Call} (hc : c.Suits e)
    (hlock : e = .hash → c ≠ .count → s.hash.lock ≠ .held) :
    ∃ r s', (Store.call e c).run s = .ok (r, s') := by
  obtain ⟨⟨m₀, harray⟩, ⟨m₁, htree⟩, hhash, ⟨st, hdhash⟩, ⟨m₃, htable⟩⟩ := h
  cases e with
  | array =>
      obtain ⟨A, hA, -⟩ := arrayCall_refines harray c
      exact ⟨_, _, zoom_run hA⟩
  | rbtree =>
      obtain ⟨T, hT, -⟩ := rbtreeCall_refines htree hc
      exact ⟨_, _, zoom_run hT⟩
  | hash =>
      obtain ⟨r, H, hH⟩ := hhash.returns hc (hlock rfl)
      exact ⟨_, _, zoom_run hH⟩
  | dhash =>
      obtain ⟨D, hD, -⟩ := dhashCall_refines hdhash c
      exact ⟨_, _, zoom_run hD⟩
  | skiptable =>
      by_cases hcount : c = .count
      · subst hcount
        exact ⟨_, s, rfl⟩
      · obtain ⟨S, hS, -⟩ := skiptableCall_refines htable hc hcount
        exact ⟨_, _, zoom_run hS⟩

/-- A call that has returned has found the mutex there. -/
theorem mutexThere_of_op {e : Engine} {v : Verb} {r : Answer}
    (hreq : requestIn request = some (e, v))
    (hop : (Store.op (tokensOf request)[1]? (tokensOf request)[2]? e v).run s = .ok (r, s')) :
    MutexThere s request := by
  intro v' c hreq' hcall hcount
  cases hreq.symm.trans hreq'
  rw [Store.op_call hcall] at hop
  obtain ⟨H, hH, -⟩ := zoom_inv hop
  rcases hashCall_returns hH with ⟨hc, -⟩ | ⟨hlock, -⟩
  · exact absurd hc hcount
  · exact hlock

/-- **In a state in which all is well, a message is survived iff it has enough tokens.** -/
theorem StoreKept.survives (h : StoreKept s) (hfit : Fitting request)
    (hroom : (tokensOf request).length ≤ maxTokens) :
    Survives s request ↔ Enough s request ∧ MutexThere s request := by
  cases hreq : requestIn request with
  | none =>
      obtain ⟨msg, -, hrun⟩ := kvsProtocolOn_none hfit.short hroom hreq
      refine ⟨fun _ => ⟨fun e v hc => ?_, fun v c hc => ?_⟩, fun _ => ⟨_, s, hrun s, fun _ => rfl⟩⟩
      · cases hreq.symm.trans hc
      · cases hreq.symm.trans hc
  | some p =>
      obtain ⟨e, v⟩ := p
      have henough : Enough s request ↔ e.Takes s (tokensOf request).length v := by
        constructor
        · exact fun hc => hc e v hreq
        · intro htakes e' v' hreq'
          rw [hreq] at hreq'
          cases hreq'
          exact htakes
      rw [henough]
      by_cases hset : (e, v) = (.array, .set) ∧ (tokensOf request).length ≠ 3
      · obtain ⟨hp, hcount⟩ := hset
        cases hp
        refine ⟨fun hsurv => ?_, fun htakes => absurd htakes.1 hcount⟩
        obtain ⟨r, s', hrun, -⟩ := hsurv
        rw [kvsProtocolOn_assert hfit.short hroom hreq hcount] at hrun
        cases hrun
      have hset' : (e, v) = (.array, .set) → (tokensOf request).length = 3 := by
        intro hp
        by_contra hc
        exact hset ⟨hp, hc⟩
      have hop := kvsProtocolOn_op hfit.short hroom hreq hset' s
      cases hcall : v.call (tokensOf request)[1]? (tokensOf request)[2]? with
      | some c =>
          constructor
          · rintro ⟨r, s', hrun, -⟩
            rw [hop] at hrun
            obtain ⟨a, s₁, hrun, -⟩ := run_bind_inv hrun
            exact ⟨takes_of_call hcall hset', mutexThere_of_op hreq hrun⟩
          · rintro ⟨-, hmutex⟩
            obtain ⟨r, s', hrun⟩ := h.returns (hfit.args e v c hreq hcall) fun he hcount =>
              hmutex v c (he ▸ hreq) hcall hcount
            rw [Store.op_call hcall, run_bind_ok hrun] at hop
            refine ⟨_, s', hop, ?_⟩
            rintro ⟨e', v', hreq', hnone⟩
            rw [hreq] at hreq'
            cases hreq'
            rw [hcall] at hnone
            cases hnone
      | none =>
          obtain ⟨htakes, hlacks⟩ := h.lacking hcall hset'
          constructor
          · rintro ⟨r, s', hrun, -⟩
            rw [hop] at hrun
            obtain ⟨a, s₁, hrun, -⟩ := run_bind_inv hrun
            refine ⟨?_, mutexThere_of_op hreq hrun⟩
            by_contra hc
            rw [hlacks hc] at hrun
            cases hrun
          · rintro ⟨ht, -⟩
            obtain ⟨r, hr⟩ := htakes ht
            exact ⟨_, s, hop.trans (run_bind_of hr rfl), fun _ => rfl⟩

/-- A message that returns leaves a state in which all is well. -/
theorem StoreKept.step (h : StoreKept s) (hfit : Fitting request) {r : Int × List Byte}
    (hrun : (kvsProtocolOn request).run s = .ok (r, s')) : StoreKept s' := by
  obtain ⟨ret, buf⟩ := r
  rcases kvsProtocolOn_inv hfit.short hrun with ⟨-, rfl, -⟩ | ⟨e, v, r, hreq, hset, hop, -, -⟩
  · exact h
  · cases hcall : v.call (tokensOf request)[1]? (tokensOf request)[2]? with
    | some c =>
        rw [Store.op_call hcall] at hop
        exact h.call (hfit.args e v c hreq hcall).fitsIn hop
    | none =>
        obtain ⟨htakes, hlacks⟩ := h.lacking hcall hset
        by_cases ht : e.Takes s (tokensOf request).length v
        · obtain ⟨r, hr⟩ := htakes ht
          rw [hr] at hop
          cases hop
          exact h
        · rw [hlacks ht] at hop
          cases hop

end Messages

/--
**A message is survived exactly if it has enough tokens for what it asks for**, `SET` not more
than three, **and does not wait for a mutex that is held**; a command that lacks an argument and
is survived changes nothing.  This is so after every run of messages whose arguments fit.
-/
theorem survives_iff (rand : Nat → Nat) {mu : Mutex} (hmu : mu ≠ .held) :
    ∃ s₀, (initKvengine (Vector.replicate maxTableSize []) mu).run (Store.static rand) =
        .ok ((), s₀) ∧
      ∀ (requests : List (List Byte)) (rs : List (Int × List Byte)) (s : Store),
        (∀ request ∈ requests, Fitting request) →
        (runCalls kvsProtocolOn requests).run s₀ = .ok (rs, s) →
        ∀ request, Fitting request → (tokensOf request).length ≤ maxTokens →
          (Survives s request ↔ Enough s request ∧ MutexThere s request) := by
  obtain ⟨s₀, hinit, hfresh⟩ := initKvengine_spec rand mu hmu
  refine ⟨s₀, hinit, ?_⟩
  intro requests rs s hfit hrun request hreq hroom
  have hkept : StoreKept s :=
    runCalls_keeps (fun s c r s' hs hc hcall => StoreKept.step hs hc hcall) (hfresh.kept hmu)
      hfit hrun
  exact hkept.survives hreq hroom

theorem survives_iff_dget : ∃ s₀,
    (initKvengine (Vector.replicate maxTableSize []) .free).run (Store.static fun _ => 0) =
      .ok ((), s₀) ∧
    (Survives s₀ (literal "DGET") ↔
      Enough s₀ (literal "DGET") ∧ MutexThere s₀ (literal "DGET")) := by
  have hfit : Fitting (literal "DGET") := by
    refine ⟨by decide, ?_⟩
    intro e v c hreq hcall
    cases (show requestIn (literal "DGET") = some (.dhash, .get) by decide).symm.trans hreq
    rw [show (tokensOf (literal "DGET"))[1]? = none by decide] at hcall
    cases hcall
  obtain ⟨s₀, hinit, hall⟩ := survives_iff (fun _ => 0) (show Mutex.free ≠ .held by decide)
  exact ⟨s₀, hinit, hall [] [] s₀ (by simp) rfl _ hfit (by decide)⟩

/-- `DGET` without a key dereferences it, and `SET` without a value fails its assertion. -/
theorem dget_without_key_faults :
    ∃ s₀, (initKvengine (Vector.replicate maxTableSize []) .ignored).run
        (Store.static fun _ => 0) = .ok ((), s₀) ∧
      (kvsProtocolOn (literal "DGET")).run s₀ = .error .nullDeref ∧
      ¬ Survives s₀ (literal "DGET") ∧
      (kvsProtocolOn (literal "SET k")).run s₀ = .error .assertFailed ∧
      ¬ Survives s₀ (literal "SET k") := by
  obtain ⟨s₀, hinit, -⟩ := initKvengine_spec (fun _ => 0) .ignored (by decide)
  have hdget : (kvsProtocolOn (literal "DGET")).run s₀ = .error .nullDeref := by
    rw [kvsProtocolOn_op (e := .dhash) (v := .get) (by decide) (by decide) (by decide) (by decide)]
    rfl
  have hset : (kvsProtocolOn (literal "SET k")).run s₀ = .error .assertFailed :=
    kvsProtocolOn_assert (by decide) (by decide) (by decide) (by decide) s₀
  refine ⟨s₀, hinit, hdget, ?_, hset, ?_⟩
  · rintro ⟨r, s', hrun, -⟩
    rw [hdget] at hrun
    cases hrun
  · rintro ⟨r, s', hrun, -⟩
    rw [hset] at hrun
    cases hrun

end KvStore
