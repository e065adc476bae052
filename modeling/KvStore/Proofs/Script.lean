/-
The five engines behind the protocol.

Each engine refines a machine of its own, and on the calls of a sampled script all these
machines give the answers whose text is the script's reply (`MapRules.step_agreed`,
`Stacks.step_agreed`).  `EngineSim` relates the store to the map the client has in mind;
`storeCall_agreed` is one call, `serveScript_spec` a whole script, and
`engines_interchangeable` follows, because the replies do not mention the engine.
-/
import KvStore.Proofs.Protocol
import KvStore.Proofs.Store

namespace KvStore

/-! ### The machines -/

section Machines

variable {m : Dict CString CString} {st : Stacks} {c : Call} {k v : CString}

/-- A map machine that is no smaller than the array gives the replies of the script. -/
theorem MapRules.step_agreed (R : MapRules) (hcap : ∀ n ∈ R.capacity, 1023 ≤ n)
    (hdel : R.deleteAbsent ≠ 0) (ha : c.Agreed m) :
    answerText c (R.step m c).1 = c.reply m ∧ (R.step m c).2 = c.after m := by
  cases c with
  | put k v =>
      have hroom : R.HasRoom m := fun n hn => Nat.lt_of_lt_of_le ha.2 (hcap n hn)
      rw [MapRules.step, MapRules.put_new ha.1 hroom]
      exact ⟨rfl, rfl⟩
  | get k =>
      obtain ⟨v, hv⟩ := Finmap.mem_iff.mp ha
      refine ⟨?_, rfl⟩
      rw [MapRules.step, MapRules.get_stored hv]
      show valueText (some v) = valueText (m.lookup k)
      rw [hv]
  | count => exact ⟨rfl, rfl⟩
  | exist k => exact ⟨rfl, rfl⟩
  | delete k =>
      by_cases hk : k ∈ m
      · rw [MapRules.step, MapRules.delete_stored hk, Call.reply, if_pos hk]
        exact ⟨rfl, rfl⟩
      · rw [MapRules.step, MapRules.delete_absent hk, Call.reply, if_neg hk, Call.after,
          erase_absent hk]
        refine ⟨?_, rfl⟩
        show resultText R.deleteAbsent = resultText 1
        unfold resultText
        rw [if_neg hdel]
        rfl

/-- The stacks have the values of a map, one on each. -/
def Stacks.Single (st : Stacks) (m : Dict CString CString) : Prop :=
  ∀ k, st.stack k = (m.lookup k).toList

theorem Stacks.Single.stack_nil (h : st.Single m) : st.stack k = [] ↔ k ∉ m := by
  rw [h k, Option.toList_eq_nil_iff, Finmap.lookup_eq_none]

theorem Stacks.Single.total (h : st.Single m) : st.total = m.keys.card := by
  have hflat : st.Flat := by
    intro k
    rw [h k]
    cases m.lookup k <;> simp
  rw [hflat.total]
  congr 1
  ext k
  rw [Finset.mem_filter, Finmap.mem_keys, Finmap.mem_keys, Ne, h.stack_nil, not_not]
  exact ⟨fun hk => hk.2, fun hk => ⟨mem_of_stack (fun hc => h.stack_nil.mp hc hk), hk⟩⟩

theorem Stacks.Single.push (h : st.Single m) (hk : k ∉ m) (v : CString) :
    (st.push k v).Single (m.insert k v) := by
  intro k'
  unfold Stacks.push
  rw [Stacks.stack_insert]
  by_cases hkk : k' = k
  · rw [if_pos hkk, hkk, Finmap.lookup_insert, h.stack_nil.mpr hk]
    rfl
  · rw [if_neg hkk, Finmap.lookup_insert_of_ne _ hkk, h k']

theorem Stacks.Single.pop (h : st.Single m) : (st.pop k).Single (m.erase k) := by
  intro k'
  unfold Stacks.pop
  rw [Stacks.stack_insert]
  by_cases hkk : k' = k
  · rw [if_pos hkk, hkk, Finmap.lookup_erase, h k]
    cases m.lookup k <;> rfl
  · rw [if_neg hkk, Finmap.lookup_erase_ne hkk, h k']

/-- The stack machine gives the replies of the script, and no stack grows above one. -/
theorem Stacks.step_agreed (h : st.Single m) (ha : c.Agreed m) :
    answerText c (st.step c).1 = c.reply m ∧ (st.step c).2.Single (c.after m) := by
  cases c with
  | put k v => exact ⟨rfl, h.push ha.1 v⟩
  | get k =>
      refine ⟨?_, h⟩
      show valueText (st.stack k).head? = valueText (m.lookup k)
      rw [h k]
      cases m.lookup k <;> rfl
  | count =>
      refine ⟨?_, h⟩
      show numberText st.total = numberText m.keys.card
      rw [h.total]
  | exist k =>
      refine ⟨?_, h⟩
      rw [Stacks.step, Call.reply]
      by_cases hk : k ∈ m
      · rw [if_pos hk, if_neg (fun hc => h.stack_nil.mp hc hk)]
        rfl
      · rw [if_neg hk, if_pos (h.stack_nil.mpr hk)]
        rfl
  | delete k =>
      rw [Stacks.step, Call.reply, Call.after]
      by_cases hk : k ∈ m
      · rw [if_pos hk, if_neg (fun hc => h.stack_nil.mp hc hk)]
        exact ⟨rfl, h.pop⟩
      · rw [if_neg hk, if_pos (h.stack_nil.mpr hk), erase_absent hk]
        exact ⟨rfl, h⟩

end Machines

/-! ### One call -/

/-- The engine stores the map. -/
def EngineSim : Engine → Store → Dict CString CString → Prop
  | .array, s, m => ArraySim s.array m
  | .rbtree, s, m => RbtreeSim s.tree m
  | .hash, s, m => HashSim s.hash m ∧ s.hash.lock = .ignored
  | .dhash, s, m => ∃ st, DhashSim s.dhash st ∧ st.Single m
  | .skiptable, s, m => SkiptableSim s.table m ∧ s.table.nbElements = m.keys.card

section Calls

variable {s : Store} {m : Dict CString CString} {c : Call}

/-- The counter of the skip list counts the keys as long as every put adds one. -/
theorem countChange_agreed (ha : c.Agreed m) :
    ((c.after m).keys.card : Int) = m.keys.card + countChange m c := by
  cases c with
  | put k v =>
      unfold Call.after
      rw [card_insert_new ha.1, countChange]
      omega
  | get k => simp [Call.after, countChange]
  | count => simp [Call.after, countChange]
  | exist k => simp [Call.after, countChange]
  | delete k =>
      rw [Call.after, countChange]
      by_cases hk : k ∈ m
      · have hcard := card_erase_stored hk
        rw [if_pos hk]
        omega
      · rw [erase_absent hk, if_neg hk]
        omega

theorem skiptableCall_agreed {S : SkipList} (h : SkiptableSim S m)
    (hcount : S.nbElements = m.keys.card) (hc : c.Plain) (ha : c.Agreed m) :
    ∃ r S', (skiptableCall c).run S = .ok (r, S') ∧ answerText c r = c.reply m ∧
      SkiptableSim S' (c.after m) ∧ S'.nbElements = (c.after m).keys.card := by
  by_cases hcc : c = .count
  · subst hcc
    have hrun : countKvSkiptable.run S = .ok (S.nbElements, S) := run_bind_of (run_get S) rfl
    rw [hcount] at hrun
    exact ⟨_, S, run_map_of _ hrun, rfl, h, hcount⟩
  · obtain ⟨S', hrun, hsim, hchange, -⟩ := skiptableCall_refines h hc.fits.putFits hcc
    obtain ⟨htext, hafter⟩ :=
      skiptableRules.step_agreed (fun n hn => by cases hn) (by decide) ha
    rw [hafter] at hsim
    exact ⟨_, S', hrun, htext, hsim, by rw [hchange, hcount, countChange_agreed ha]⟩

/-- **Every engine gives the script's reply to a call they agree on.** -/
theorem storeCall_agreed {e : Engine} (h : EngineSim e s m) (hc : c.Plain) (ha : c.Agreed m) :
    ∃ r s', (Store.call e c).run s = .ok (r, s') ∧ answerText c r = c.reply m ∧
      EngineSim e s' (c.after m) := by
  cases e with
  | array =>
      obtain ⟨A, hrun, hsim, -⟩ := arrayCall_refines h c
      obtain ⟨htext, hafter⟩ := arrayRules.step_agreed
        (fun n hn => Nat.le_of_eq (Option.some.inj hn)) (by decide) ha
      rw [hafter] at hsim
      exact ⟨_, _, zoom_run hrun, htext, hsim⟩
  | rbtree =>
      obtain ⟨T, hrun, hsim, -⟩ := rbtreeCall_refines h hc.fits.putFits
      obtain ⟨htext, hafter⟩ := rbtreeRules.step_agreed (fun n hn => by cases hn) (by decide) ha
      rw [hafter] at hsim
      exact ⟨_, _, zoom_run hrun, htext, hsim⟩
  | hash =>
      obtain ⟨hsim, hlock⟩ := h
      obtain ⟨H, hrun, hsim, heff⟩ :=
        hashCall_refines hsim (hc.fits.hashFits hc.ascii) fun _ _ => Or.inl hlock
      obtain ⟨htext, hafter⟩ := hashRules.step_agreed (fun n hn => by cases hn) (by decide) ha
      rw [hafter] at hsim
      exact ⟨_, _, zoom_run hrun, htext, hsim, heff.lock.trans hlock⟩
  | dhash =>
      obtain ⟨st, hsim, hsingle⟩ := h
      obtain ⟨D, hrun, hsim, -⟩ := dhashCall_refines hsim c
      obtain ⟨htext, hafter⟩ := Stacks.step_agreed hsingle ha
      exact ⟨_, _, zoom_run hrun, htext, _, hsim, hafter⟩
  | skiptable =>
      obtain ⟨hsim, hcount⟩ := h
      obtain ⟨r, S, hrun, htext, hsim, hcount⟩ := skiptableCall_agreed hsim hcount hc ha
      exact ⟨r, _, zoom_run hrun, htext, hsim, hcount⟩

end Calls

theorem FreshStore.engineSim {s : Store} (h : FreshStore s .ignored) (e : Engine) :
    EngineSim e s ∅ := by
  cases e with
  | array => exact h.array
  | rbtree => exact h.tree
  | hash =>
      rw [EngineSim, h.hash]
      exact ⟨HashSim.fresh (by decide), rfl⟩
  | dhash =>
      refine ⟨∅, ?_, ?_⟩
      · rw [h.dhash]
        exact DhashSim.fresh
      · intro k
        simp
  | skiptable => exact ⟨h.table, h.count⟩

/-! ### Whole scripts -/

/-- What keeps the replies of a script short. -/
structure Bounded (m : Dict CString CString) : Prop where
  card : m.keys.card ≤ 1023
  values : ∀ k v, m.lookup k = some v → ValueFits v

section Scripts

variable {m : Dict CString CString} {c : Call}

theorem Bounded.empty : Bounded ∅ := by
  refine ⟨by simp, ?_⟩
  intro k v hv
  simp at hv

theorem Bounded.after (h : Bounded m) (hc : c.Plain) (ha : c.Agreed m) : Bounded (c.after m) := by
  cases c with
  | put k v =>
      refine ⟨?_, ?_⟩
      · unfold Call.after
        rw [card_insert_new ha.1]
        exact ha.2
      · intro k' v' hv'
        rw [Call.after] at hv'
        by_cases hkk : k' = k
        · rw [hkk, Finmap.lookup_insert] at hv'
          cases hv'
          exact hc.fits.2
        · rw [Finmap.lookup_insert_of_ne _ hkk] at hv'
          exact h.values k' v' hv'
  | get k => exact h
  | count => exact h
  | exist k => exact h
  | delete k =>
      refine ⟨?_, ?_⟩
      · unfold Call.after
        rw [Finmap.keys_erase]
        exact (Finset.card_erase_le).trans h.card
      · intro k' v' hv'
        rw [Call.after] at hv'
        by_cases hkk : k' = k
        · rw [hkk, Finmap.lookup_erase] at hv'
          cases hv'
        · rw [Finmap.lookup_erase_ne hkk] at hv'
          exact h.values k' v' hv'

/-- A reply leaves room for its NUL in the message buffer. -/
theorem Bounded.reply_length (h : Bounded m) (c : Call) : (c.reply m).length < clinetMsgLength := by
  have hmax : clinetMsgLength = 1024 := rfl
  cases c with
  | put k v =>
      have := resultText_length 0
      rw [Call.reply]
      omega
  | get k =>
      rw [Call.reply]
      cases hv : m.lookup k with
      | none => decide
      | some v =>
          have hfits : v.bytes.length < 512 := h.values k v hv
          have hend : (literal "\x0d\n").length = 2 := by decide
          unfold valueText
          rw [List.length_append, hend]
          omega
  | count =>
      have hcard := h.card
      have := numberText_length (i := m.keys.card) (by omega)
      rw [Call.reply]
      omega
  | exist k =>
      rw [Call.reply]
      by_cases hk : k ∈ m
      · rw [if_pos hk]
        decide
      · rw [if_neg hk]
        decide
  | delete k =>
      have := resultText_length (if k ∈ m then 0 else 1)
      rw [Call.reply]
      omega

/-- One request of a script. -/
theorem serveRequest_agreed {e : Engine} {s : Store} {msg : List Byte} (h : EngineSim e s m)
    (hm : Bounded m) (hc : c.Plain) (ha : c.Agreed m) (henc : Encodes e c msg) :
    ∃ s', (serveRequest msg).run s = .ok (c.reply m, s') ∧ EngineSim e s' (c.after m) := by
  obtain ⟨r, s', hcall, htext, hsim⟩ := storeCall_agreed h hc ha
  have hlen := hm.reply_length c
  rw [← htext] at hlen
  refine ⟨s', ?_, hsim⟩
  rw [← htext]
  exact serveRequest_run henc hc.tokens hcall hlen

/-- **An engine serves a sampled script with the replies of the script machine.** -/
theorem serveScript_spec {e : Engine} {script : List Call} :
    ∀ {m : Dict CString CString} {s : Store} {msgs : List (List Byte)}, EngineSim e s m →
      Bounded m → Sampled m script → List.Forall₂ (Encodes e) script msgs →
      ∃ s', (runCalls serveRequest msgs).run s = .ok ((runMachine scriptStep m script).1, s') := by
  induction script with
  | nil =>
      intro m s msgs _ _ _ hmsgs
      cases hmsgs
      exact ⟨s, rfl⟩
  | cons c rest ih =>
      intro m s msgs h hm hs hmsgs
      obtain ⟨hc, ha, hrest⟩ := hs
      cases hmsgs with
      | cons henc hencs =>
          obtain ⟨s₁, hrun, hsim⟩ := serveRequest_agreed h hm hc ha henc
          obtain ⟨s₂, hruns⟩ := ih hsim (hm.after hc ha) hrest hencs
          exact ⟨s₂, runCalls_cons_ok hrun hruns⟩

end Scripts

/-- A session: the engines are initialised and the requests served in turn. -/
def session (msgs : List (List Byte)) : Prog Store (List (List Byte)) := do
  initKvengine (Vector.replicate maxTableSize []) .ignored
  runCalls serveRequest msgs

/--
**The five engines are interchangeable**: a sampled script gets the same replies from each
of them, however it is spaced and whatever `rand` returns.
-/
theorem engines_interchangeable (script : List Call) (h : Sampled ∅ script) :
    ∃ replies, ∀ (e : Engine) (msgs : List (List Byte)) (rand : Nat → Nat),
      List.Forall₂ (Encodes e) script msgs →
      ∃ s, (session msgs).run (Store.static rand) = .ok (replies, s) := by
  refine ⟨(runMachine scriptStep ∅ script).1, ?_⟩
  intro e msgs rand hmsgs
  obtain ⟨s₀, hinit, hfresh⟩ := initKvengine_spec rand .ignored (by decide)
  obtain ⟨s, hrun⟩ := serveScript_spec (hfresh.engineSim e) Bounded.empty h hmsgs
  exact ⟨s, run_bind_of hinit hrun⟩

/-- A key is set, read and deleted in the array and in the skip list. -/
theorem engines_interchangeable_set_get_delete :
    ∃ replies, ∀ rand : Nat → Nat,
      (∃ s, (session [literal "SET k  v", literal "GET k", literal "DELETE   k"]).run
        (Store.static rand) = .ok (replies, s)) ∧
      (∃ s, (session [literal "ZSET k v", literal "ZGET  k", literal "ZDELETE k"]).run
        (Store.static rand) = .ok (replies, s)) := by
  let k : CString := ⟨literal "k", by decide⟩
  let v : CString := ⟨literal "v", by decide⟩
  have hk : ∀ a ∈ [k], IsToken a := by
    unfold IsToken
    decide
  have hkv : ∀ a ∈ [k, v], IsToken a := by
    unfold IsToken
    decide
  have hstored : k ∈ (∅ : Dict CString CString).insert k v :=
    Finmap.mem_insert.mpr (Or.inl rfl)
  have hsampled : Sampled ∅ [.put k v, .get k, .delete k] :=
    ⟨⟨hkv, by decide, by decide⟩, ⟨Finmap.notMem_empty, by decide⟩,
      ⟨hk, by decide, by decide⟩, hstored, ⟨hk, by decide, by decide⟩, trivial, trivial⟩
  obtain ⟨replies, h⟩ := engines_interchangeable _ hsampled
  refine ⟨replies, fun rand => ⟨h .array _ rand ?_, h .skiptable _ rand ?_⟩⟩
  · refine .cons ⟨?_, by decide⟩ (.cons ⟨?_, by decide⟩ (.cons ⟨?_, by decide⟩ .nil))
    · show Spells [literal "" ++ literal "SET", literal "k", literal "v"] _
      exact .more _ 0 (.more _ 1 (.last _))
    · show Spells [literal "" ++ literal "GET", literal "k"] _
      exact .more _ 0 (.last _)
    · show Spells [literal "" ++ literal "DELETE", literal "k"] _
      exact .more _ 2 (.last _)
  · refine .cons ⟨?_, by decide⟩ (.cons ⟨?_, by decide⟩ (.cons ⟨?_, by decide⟩ .nil))
    · show Spells [literal "Z" ++ literal "SET", literal "k", literal "v"] _
      exact .more _ 0 (.more _ 0 (.last _))
    · show Spells [literal "Z" ++ literal "GET", literal "k"] _
      exact .more _ 1 (.last _)
    · show Spells [literal "Z" ++ literal "DELETE", literal "k"] _
      exact .more _ 0 (.last _)

end KvStore
