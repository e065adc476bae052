/-
What else a line end does to a message.

For a message that is not `Harmless` there is a state that messages lead to in which the line
end matters.  If it goes into the command, nothing is answered.  If it goes into a key that is
looked for, the state is the one with this key in the engine, or with the line end itself if
the key was missing.  If it goes into a value that is put, the fresh store will do.  And some
messages take the server down only with the line end.
-/
import KvStore.Proofs.LineEnd.Harmless
import KvStore.Proofs.Script

namespace KvStore

/-! ### States -/

/-- Messages lead from `s₀` to `s`. -/
def Reachable (s₀ s : Store) : Prop :=
  ∃ (requests : List (List Byte)) (rs : List (Int × List Byte)),
    (∀ request ∈ requests, request.length < clinetMsgLength) ∧
      (runCalls kvsProtocolOn requests).run s₀ = .ok (rs, s)

theorem Reachable.refl (s : Store) : Reachable s s := ⟨[], [], by simp, rfl⟩

theorem Reachable.shortValues {s₀ s : Store} (h : Reachable s₀ s) (h₀ : ShortValues s₀) :
    ShortValues s := by
  obtain ⟨requests, rs, hlen, hrun⟩ := h
  exact h₀.run hlen hrun

/-- The key and the value leave room for the line end. -/
structure ShortArgs (m : List Byte) : Prop where
  key : ∀ k, (tokensOf m)[1]? = some k → k.length ≤ 125 ∧ Ascii k
  value : ∀ a, (tokensOf m)[2]? = some a → a.length ≤ 509

section Engines

variable {e : Engine} {s₀ s : Store} {k a : CString} {m : Dict CString CString}

/-- A string that all engines can have as a key. -/
structure PlainKey (k : CString) : Prop where
  token : IsToken k
  fits : KeyFits k
  ascii : Ascii k

theorem IsToken.withLineEnd (h : IsToken k) : IsToken k.withLineEnd :=
  ⟨List.append_ne_nil_of_right_ne_nil _ (by decide), notMem_lineEnd h.2 (by decide)⟩

theorem PlainKey.withLineEnd (h : PlainKey k) (hlen : k.length ≤ 125) :
    PlainKey k.withLineEnd := by
  refine ⟨h.token.withLineEnd, ?_, ?_⟩
  · have hk : k.bytes.length ≤ 125 := hlen
    show k.withLineEnd.bytes.length < 128
    rw [CString.withLineEnd_length]
    omega
  · intro b hb
    rcases List.mem_append.mp hb with hb | hb
    · exact h.ascii b hb
    · rw [lineEnd_eq] at hb
      rcases List.mem_pair.mp hb with rfl | rfl <;> decide

theorem CString.withLineEnd_ne (k : CString) : k.withLineEnd ≠ k := by
  intro hc
  have hlen := k.withLineEnd_length
  rw [hc] at hlen
  omega

/-- The value that the states below hold. -/
def sampleValue : CString := ⟨literal "v", by decide⟩

/-- A message puts a key into a fresh engine. -/
theorem FreshStore.reach_put (h : FreshStore s₀ .ignored) (e : Engine) (hk : PlainKey k) :
    ∃ s, Reachable s₀ s ∧ EngineSim e s ((∅ : Dict CString CString).insert k sampleValue) := by
  let c : Call := .put k sampleValue
  have hplain : c.Plain := by
    refine ⟨?_, ⟨hk.fits, by decide⟩, hk.ascii⟩
    intro w hw
    rcases List.mem_pair.mp hw with rfl | rfl
    · exact hk.token
    · exact ⟨by decide, by decide⟩
  obtain ⟨r, s, hcall, -, hsim⟩ := storeCall_agreed (h.engineSim e) hplain
    ⟨Finmap.notMem_empty, by rw [Finmap.keys_empty, Finset.card_empty]; decide⟩
  let request := commandWord e c ++ List.replicate 1 32 ++
    (k.bytes ++ List.replicate 1 32 ++ sampleValue.bytes)
  have hword : (commandWord e c).length ≤ 4 := by
    show (literal e.letter ++ literal "SET").length ≤ 4
    cases e <;> decide
  have hlen : request.length < clinetMsgLength := by
    have hfits : k.bytes.length < 128 := hk.fits
    have hone : sampleValue.bytes.length = 1 := by decide
    have hmax : clinetMsgLength = 1024 := rfl
    simp only [request, List.length_append, List.length_replicate]
    omega
  have henc : Encodes e c request := ⟨.more _ 0 (.more _ 0 (.last _)), hlen⟩
  refine ⟨s, ⟨[request], _, ?_, runCalls_cons_ok (kvsProtocolOn_call henc hplain.tokens hcall) rfl⟩,
    hsim⟩
  intro q hq
  rw [List.mem_singleton.mp hq]
  exact hlen

theorem PlainKey.call (hk : PlainKey k) {c : Call}
    (hc : c = .get k ∨ c = .exist k ∨ c = .delete k) : c.Plain := by
  rcases hc with rfl | rfl | rfl
  all_goals
    refine ⟨?_, hk.fits, hk.ascii⟩
    intro w hw
    rw [List.mem_singleton.mp hw]
    exact hk.token

namespace Verb

/-- The verb looks for a key. -/
def Looks : Verb → Prop
  | .get | .delete | .exist => True
  | .set | .count => False

/-- The reply for a key that is there, with the value above. -/
def presentText : Verb → List Byte
  | .get => valueText (some sampleValue)
  | .delete => resultText 0
  | _ => numberText 1

/-- The replies for a key that is not there, or is null. -/
def absentTexts : Verb → List (List Byte)
  | .get => [valueText none, valueText (some CString.empty)]
  | .delete => [resultText 1]
  | _ => [numberText 0, numberText (-1)]

theorem presentText_ne (v : Verb) : v.presentText ∉ v.absentTexts := by
  cases v <;> decide

end Verb

/-- The function that a command asks for gives the reply to the call that the command makes. -/
theorem EngineSim.replies (h : EngineSim e s m) {c : Call} (hc : c.Plain) (ha : c.Agreed m)
    {x y : Option CString} (hcall : c.kind.call x y = some c) :
    ∃ r s', (Store.op x y e c.kind).run s = .ok (r, s') ∧ c.kind.text r = c.reply m ∧
      EngineSim e s' (c.after m) := by
  obtain ⟨r, s', hrun, htext, hsim⟩ := storeCall_agreed h hc ha
  rw [Store.op_call hcall]
  exact ⟨r, s', hrun, (c.kind_text r).trans htext, hsim⟩

/-- What the engine says about a key that is there. -/
theorem EngineSim.present (h : EngineSim e s ((∅ : Dict CString CString).insert k sampleValue))
    (hk : PlainKey k) {v : Verb} (hv : v.Looks) (x : Option CString) :
    ∃ r s', (Store.op (some k) x e v).run s = .ok (r, s') ∧ v.text r = v.presentText := by
  have hmem : k ∈ (∅ : Dict CString CString).insert k sampleValue :=
    Finmap.mem_insert.mpr (Or.inl rfl)
  cases v with
  | set | count => exact absurd hv id
  | get =>
      obtain ⟨r, s', hrun, htext, -⟩ :=
        h.replies (hk.call (Or.inl rfl)) hmem (x := some k) (y := x) rfl
      rw [Call.reply, Finmap.lookup_insert] at htext
      exact ⟨r, s', hrun, htext⟩
  | delete =>
      obtain ⟨r, s', hrun, htext, -⟩ :=
        h.replies (hk.call (Or.inr (Or.inr rfl))) trivial (x := some k) (y := x) rfl
      rw [Call.reply, if_pos hmem] at htext
      exact ⟨r, s', hrun, htext⟩
  | exist =>
      obtain ⟨r, s', hrun, htext, -⟩ :=
        h.replies (hk.call (Or.inr (Or.inl rfl))) trivial (x := some k) (y := x) rfl
      rw [Call.reply, if_pos hmem] at htext
      exact ⟨r, s', hrun, htext⟩

/-- What `get` answers for a key that is not there. -/
theorem EngineSim.get_absent (h : EngineSim e s m) (hk : PlainKey k) (habs : k ∉ m) :
    ∃ r s', (Store.call e (.get k)).run s = .ok (.str r, s') ∧
      (r = none ∨ r = some CString.empty) := by
  cases e with
  | array =>
      obtain ⟨A, hrun, -⟩ := arrayCall_refines h (.get k)
      rw [MapRules.step, MapRules.get_absent habs] at hrun
      exact ⟨_, _, zoom_run hrun, Or.inl rfl⟩
  | rbtree =>
      obtain ⟨T, hrun, -⟩ := rbtreeCall_refines h (c := .get k) trivial
      rw [MapRules.step, MapRules.get_absent habs] at hrun
      exact ⟨_, _, zoom_run hrun, Or.inr rfl⟩
  | hash =>
      obtain ⟨H, hrun, -⟩ := hashCall_refines h.1 (c := .get k)
        (Call.Fits.hashFits (c := .get k) hk.fits hk.ascii) (fun _ hc => by cases hc)
      rw [MapRules.step, MapRules.get_absent habs] at hrun
      exact ⟨_, _, zoom_run hrun, Or.inl rfl⟩
  | dhash =>
      obtain ⟨st, hsim, hsingle⟩ := h
      obtain ⟨D, hrun, -⟩ := dhashCall_refines hsim (.get k)
      rw [Stacks.step, hsingle.stack_nil.mpr habs] at hrun
      exact ⟨_, _, zoom_run hrun, Or.inl rfl⟩
  | skiptable =>
      obtain ⟨S, hrun, -⟩ := skiptableCall_refines h.1 (c := .get k) trivial (by simp)
      rw [MapRules.step, MapRules.get_absent habs] at hrun
      exact ⟨_, _, zoom_run hrun, Or.inl rfl⟩

/-- What the engine says about a key that is not there. -/
theorem EngineSim.absent (h : EngineSim e s m) (hk : PlainKey k) (habs : k ∉ m) {v : Verb}
    (hv : v.Looks) (x : Option CString) :
    ∃ r s', (Store.op (some k) x e v).run s = .ok (r, s') ∧ v.text r ∈ v.absentTexts := by
  cases v with
  | set | count => exact absurd hv id
  | get =>
      obtain ⟨r, s', hrun, hr⟩ := h.get_absent hk habs
      rw [Store.op_call (c := .get k) rfl]
      refine ⟨.str r, s', hrun, ?_⟩
      rcases hr with rfl | rfl <;> decide
  | delete =>
      obtain ⟨r, s', hrun, htext, -⟩ :=
        h.replies (hk.call (Or.inr (Or.inr rfl))) trivial (x := some k) (y := x) rfl
      rw [Call.reply, if_neg habs] at htext
      exact ⟨r, s', hrun, List.mem_singleton.mpr htext⟩
  | exist =>
      obtain ⟨r, s', hrun, htext, -⟩ :=
        h.replies (hk.call (Or.inr (Or.inl rfl))) trivial (x := some k) (y := x) rfl
      rw [Call.reply, if_neg habs] at htext
      exact ⟨r, s', hrun, List.mem_cons.mpr (Or.inl htext)⟩

/-- What the engine says about a null key, if it looks at it at all. -/
theorem op_null {v : Verb} (hv : v.Looks) (hdhash : e ≠ .dhash)
    (hskip : e = .skiptable → v = .get) (x : Option CString) (s : Store) :
    ∃ r, (Store.op none x e v).run s = .ok (r, s) ∧ v.text r ∈ v.absentTexts := by
  cases v with
  | set | count => exact absurd hv id
  | get =>
      refine ⟨.str none, ?_, by decide⟩
      cases e <;> first | rfl | exact absurd rfl hdhash
  | delete =>
      cases e with
      | array | rbtree => exact ⟨.int (-1), rfl, by decide⟩
      | hash => exact ⟨.int (-2), rfl, by decide⟩
      | dhash => exact absurd rfl hdhash
      | skiptable => cases hskip rfl
  | exist =>
      cases e with
      | array | hash => exact ⟨.int 0, rfl, by decide⟩
      | rbtree => exact ⟨.int (-1), rfl, by decide⟩
      | dhash => exact absurd rfl hdhash
      | skiptable => cases hskip rfl

/-- With the two pairs of arguments, the function does different things. -/
def Differs (s : Store) (e : Engine) (v : Verb) (key value key' value' : Option CString) : Prop :=
  ∃ r s₁ r' s₂, (Store.op key value e v).run s = .ok (r, s₁) ∧
    (Store.op key' value' e v).run s = .ok (r', s₂) ∧
    (v.text r ≠ v.text r' ∨ ¬ SameContents s₁ s₂)

/-- The line end in the key: the key is there without it. -/
theorem FreshStore.differs_key (h : FreshStore s₀ .ignored) (e : Engine) (hk : PlainKey k)
    (hlen : k.length ≤ 125) {v : Verb} (hv : v.Looks) (x y : Option CString) :
    ∃ s, Reachable s₀ s ∧ Differs s e v (some k) x (some k.withLineEnd) y := by
  obtain ⟨s, hreach, hsim⟩ := h.reach_put e hk
  obtain ⟨r, s₁, hrun, htext⟩ := hsim.present hk hv x
  have habs : k.withLineEnd ∉ (∅ : Dict CString CString).insert k sampleValue := by
    rw [Finmap.mem_insert]
    rintro (hc | hc)
    · exact k.withLineEnd_ne hc
    · exact Finmap.notMem_empty hc
  obtain ⟨r', s₂, hrun', htext'⟩ := hsim.absent (hk.withLineEnd hlen) habs hv y
  refine ⟨s, hreach, r, s₁, r', s₂, hrun, hrun', Or.inl ?_⟩
  intro hsame
  rw [← hsame, htext] at htext'
  exact v.presentText_ne htext'

theorem plainKey_lineEnd : PlainKey CString.empty.withLineEnd :=
  ⟨⟨by decide, by decide⟩, by decide, by decide⟩

/-- The line end instead of a missing key: it is there itself. -/
theorem FreshStore.differs_null (h : FreshStore s₀ .ignored) {v : Verb} (hv : v.Looks)
    (hdhash : e ≠ .dhash) (hskip : e = .skiptable → v = .get) (x y : Option CString) :
    ∃ s, Reachable s₀ s ∧ Differs s e v none x (some CString.empty.withLineEnd) y := by
  obtain ⟨s, hreach, hsim⟩ := h.reach_put e plainKey_lineEnd
  obtain ⟨r', s₂, hrun', htext'⟩ := hsim.present plainKey_lineEnd hv y
  obtain ⟨r, hrun, htext⟩ := op_null hv hdhash hskip x s
  refine ⟨s, hreach, r, s, r', s₂, hrun, hrun', Or.inl ?_⟩
  intro hsame
  rw [hsame, htext'] at htext
  exact v.presentText_ne htext

/-- A put of plain strings into a fresh engine. -/
theorem FreshStore.put (h : FreshStore s₀ .ignored) (e : Engine) (hk : PlainKey k)
    (ha : IsToken a) (hfits : ValueFits a) :
    ∃ r s, (Store.op (some k) (some a) e .set).run s₀ = .ok (r, s) ∧
      Verb.set.text r = resultText 0 ∧ EngineSim e s ((∅ : Dict CString CString).insert k a) := by
  have hplain : (Call.put k a).Plain := by
    refine ⟨?_, ⟨hk.fits, hfits⟩, hk.ascii⟩
    intro w hw
    rcases List.mem_pair.mp hw with rfl | rfl
    · exact hk.token
    · exact ha
  exact (h.engineSim e).replies hplain
    ⟨Finmap.notMem_empty, by rw [Finmap.keys_empty, Finset.card_empty]; decide⟩ rfl

/-- The line end in the value. -/
theorem FreshStore.differs_value (h : FreshStore s₀ .ignored) (e : Engine) (hk : PlainKey k)
    (ha : IsToken a) (hlen : a.length ≤ 509) :
    Differs s₀ e .set (some k) (some a) (some k) (some a.withLineEnd) := by
  have hlen' : a.bytes.length ≤ 509 := hlen
  have hfits : ValueFits a := show a.bytes.length < 512 by omega
  have hfits' : ValueFits a.withLineEnd := by
    show a.withLineEnd.bytes.length < 512
    rw [CString.withLineEnd_length]
    omega
  obtain ⟨r, s₁, hrun, -, hsim⟩ := h.put e hk ha hfits
  obtain ⟨r', s₂, hrun', -, hsim'⟩ := h.put e hk ha.withLineEnd hfits'
  refine ⟨r, s₁, r', s₂, hrun, hrun', Or.inr ?_⟩
  intro hsame
  -- A `get` of the key can tell.
  obtain ⟨q, t, hget, htext, -⟩ := storeCall_agreed hsim (hk.call (Or.inl rfl))
    (Finmap.mem_insert.mpr (Or.inl rfl))
  obtain ⟨q', t', hget', htext', -⟩ := storeCall_agreed hsim' (hk.call (Or.inl rfl))
    (Finmap.mem_insert.mpr (Or.inl rfl))
  cases ((hsame e (.get k) q).mp ⟨t, hget⟩).unique ⟨t', hget'⟩
  rw [htext, Call.reply, Call.reply, Finmap.lookup_insert, Finmap.lookup_insert] at htext'
  have hbytes : a.bytes = a.withLineEnd.bytes := List.append_cancel_right htext'
  exact a.withLineEnd_ne (CString.ext hbytes.symm)

/-- The line end instead of a missing value. -/
theorem FreshStore.differs_no_value (h : FreshStore s₀ .ignored) (hk : PlainKey k)
    (he : e = .rbtree ∨ e = .hash ∨ e = .skiptable) :
    Differs s₀ e .set (some k) none (some k) (some CString.empty.withLineEnd) := by
  obtain ⟨r', s₂, hrun', htext', -⟩ := h.put e hk plainKey_lineEnd.token (by decide)
  have hrun : (Store.op (some k) none e .set).run s₀ = .ok (.int (-1), s₀) := by
    rcases he with rfl | rfl | rfl <;> rfl
  refine ⟨_, s₀, r', s₂, hrun, hrun', Or.inl ?_⟩
  rw [htext']
  decide

end Engines

/-! ### From the functions to the messages -/

section Harmful

variable {m : List Byte} {s₀ s s₁ : Store} {e : Engine} {v : Verb} {ret : Int} {buf : List Byte}
  {R : Store → Store → Prop}

/-- With the line end the message does not return. -/
theorem not_same_error (hrun : (kvsProtocolOn m).run s = .ok ((ret, buf), s₁)) {x : Fault}
    (herror : (kvsProtocolOn (m ++ lineEnd)).run s = .error x) : ¬ SameOutcome R s m := by
  intro hsame
  obtain ⟨ret', buf', s₂, hrun', -, -⟩ := hsame ret buf s₁ hrun
  rw [herror] at hrun'
  cases hrun'

/-- With the line end nothing is sent. -/
theorem not_same_unknown (hrun : (kvsProtocolOn m).run s = .ok ((ret, buf), s₁))
    (hsent : buf.take ret.toNat ≠ []) (hlen : m.length ≤ 1021)
    (hne : tokensOf (m ++ lineEnd) ≠ []) (hreq : requestIn (m ++ lineEnd) = none) :
    ¬ SameOutcome R s m := by
  intro hsame
  obtain ⟨ret', buf', s₂, hrun', htake, -⟩ := hsame ret buf s₁ hrun
  rcases kvsProtocolOn_inv (lineEnd_lt hlen) hrun' with
    ⟨-, -, -, rfl⟩ | ⟨e, v, r, hsome, -⟩
  · rw [if_neg hne] at htake
    exact hsent htake.symm
  · rw [hreq] at hsome
    cases hsome

/-- A message of no token sends itself. -/
theorem kvsProtocolOn_no_token (hlen : m.length < clinetMsgLength) (hnil : tokensOf m = [])
    (s : Store) : (kvsProtocolOn m).run s = .ok ((kvsCmdError, requestBuf m), s) := by
  have hreq : requestIn m = none := by
    unfold requestIn
    rw [hnil]
    rfl
  obtain ⟨buf, hbuf, hrun⟩ := kvsProtocolOn_none hlen (by rw [hnil]; decide) hreq
  rw [hrun, hbuf hnil, if_pos hnil]

/-- It sends the line end with it. -/
theorem not_same_echo (hlen : m.length < 30) (hnil : tokensOf m = [])
    (hnil' : tokensOf (m ++ lineEnd) = []) : ¬ SameOutcome R s m := by
  have hmax : clinetMsgLength = 1024 := rfl
  intro hsame
  obtain ⟨ret', buf', s₂, h, htake, -⟩ := hsame _ _ s (kvsProtocolOn_no_token (by omega) hnil s)
  rw [kvsProtocolOn_no_token (lineEnd_lt (by omega)) hnil'] at h
  cases h
  -- The byte behind the message is the carriage return, and was NUL.
  have hbyte := congrArg (fun l : List Byte => l[m.length]?) htake
  have hthirty : kvsCmdError.toNat = 30 := rfl
  simp only [hthirty, List.getElem?_take_of_lt hlen, requestBuf, List.append_assoc] at hbyte
  rw [List.getElem?_append_right (Nat.le_refl _), List.getElem?_append_right (Nat.le_refl _),
    Nat.sub_self, List.getElem?_replicate_of_lt (by omega)] at hbyte
  revert hbyte
  show lineEnd[0]? = some 0 → False
  decide

/-- The function does different things with the arguments that the line end leaves. -/
theorem Differs.not_same (h : Differs s e v (tokensOf m)[1]? (tokensOf m)[2]?
      (tokensOf (m ++ lineEnd))[1]? (tokensOf (m ++ lineEnd))[2]?)
    (hvalues : ShortValues s) (hv : v ≠ .count) (hlen : m.length ≤ 1021)
    (hroom : (tokensOf m).length ≤ maxTokens)
    (hroom' : (tokensOf (m ++ lineEnd)).length ≤ maxTokens)
    (hreq : requestIn m = some (e, v)) (hreq' : requestIn (m ++ lineEnd) = some (e, v))
    (hset : (e, v) = (.array, .set) →
      (tokensOf m).length = 3 ∧ (tokensOf (m ++ lineEnd)).length = 3) :
    ¬ SameOutcome SameContents s m := by
  have hmax : clinetMsgLength = 1024 := rfl
  obtain ⟨r, s₁, r', s₂, hop, hop', hdiffer⟩ := h
  have hrun := kvsProtocolOn_op (by omega) hroom hreq (fun hp => (hset hp).1) s
  have hrun' := kvsProtocolOn_op (lineEnd_lt hlen) hroom' hreq' (fun hp => (hset hp).2) s
  rw [run_bind_ok hop] at hrun
  rw [run_bind_ok hop'] at hrun'
  intro hsame
  obtain ⟨ret', buf', s₃, h, htake, hcontents⟩ := hsame _ _ s₁ hrun
  rw [hrun'] at h
  cases h
  have hline := (op_formats hvalues (fun hc => absurd hc hv) hop).line.2
  have hline' := (op_formats hvalues (fun hc => absurd hc hv) hop').line.2
  rw [Int.toNat_natCast, Int.toNat_natCast, take_replyBuf hline, take_replyBuf hline'] at htake
  rcases hdiffer with hdiffer | hdiffer
  · exact hdiffer htake.symm
  · exact hdiffer hcontents

/-- The arguments of a message whose arguments are short. -/
theorem ShortArgs.plainKey (h : ShortArgs m) {k : CString} (hk : (tokensOf m)[1]? = some k) :
    PlainKey k := by
  obtain ⟨hlen, hascii⟩ := h.key k hk
  refine ⟨isToken_of_mem (List.mem_of_getElem? hk), ?_, hascii⟩
  have hk' : k.bytes.length ≤ 125 := hlen
  show k.bytes.length < 128
  omega

theorem ShortArgs.fitting (h : ShortArgs m) (hlen : m.length ≤ 1021) : Fitting m := by
  have hmax : clinetMsgLength = 1024 := rfl
  refine ⟨by omega, ?_⟩
  intro e v c hreq hcall
  have hplain : c.Fits ∧ c.AsciiKey := by
    cases hk : (tokensOf m)[1]? with
    | none =>
        rw [hk] at hcall
        cases v <;> cases hcall
        exact ⟨trivial, trivial⟩
    | some k =>
        have hkey := h.plainKey hk
        rw [hk] at hcall
        cases v with
        | count =>
            cases hcall
            exact ⟨trivial, trivial⟩
        | get | delete | exist =>
            cases hcall
            exact ⟨hkey.fits, hkey.ascii⟩
        | set =>
            cases ha : (tokensOf m)[2]? with
            | none =>
                rw [ha] at hcall
                cases hcall
            | some a =>
                have hvalue : a.bytes.length ≤ 509 := h.value a ha
                rw [ha] at hcall
                cases hcall
                exact ⟨⟨hkey.fits, show a.bytes.length < 512 by omega⟩, hkey.ascii⟩
  exact hplain.1.suits hplain.2 e

/-- In a fresh store, a message returns unless it never does. -/
theorem FreshStore.returns (h : FreshStore s₀ .ignored) (hargs : ShortArgs m)
    (hlen : m.length ≤ 1021) (hroom : (tokensOf m).length ≤ maxTokens)
    (hreq : requestIn m = some (e, v)) (hnever : ¬ e.Never (tokensOf m).length v) :
    ∃ ret buf s₁, (kvsProtocolOn m).run s₀ = .ok ((ret, buf), s₁) := by
  have hempty : s₀.table.Empty := by
    obtain ⟨L, hst, -⟩ := h.table.stores
    rw [hst.rep.empty_iff]
    have hcard := hst.holds.card
    rw [List.length_map, Finmap.keys_empty, Finset.card_empty] at hcard
    exact List.length_eq_zero_iff.mp hcard.symm
  have henough : Enough s₀ m := by
    intro e' v' hreq'
    rw [hreq] at hreq'
    cases hreq'
    cases e with
    | array => cases v <;> first | trivial | exact Classical.not_not.mp hnever
    | rbtree | hash => cases v <;> trivial
    | dhash => cases v <;> first | trivial | exact Nat.le_of_not_lt hnever
    | skiptable => cases v <;> first | trivial | exact Or.inr hempty
  have hmutex : MutexThere s₀ m := by
    intro _ _ _ _ _
    rw [h.hash]
    exact fun hc => by cases hc
  obtain ⟨⟨ret, buf⟩, s₁, hrun, -⟩ :=
    ((h.kept (by decide)).survives (hargs.fitting hlen) hroom).mpr ⟨henough, hmutex⟩
  exact ⟨ret, buf, s₁, hrun⟩

/-- The key that a verb looks for has changed, and it matters in some state. -/
theorem FreshStore.differs_looks (h : FreshStore s₀ .ignored) (hargs : ShortArgs m)
    (h0 : (0 : Byte) ∉ m) (hne : tokensOf m ≠ []) (hj : lineEndToken m = 1) (hv : v.Looks)
    (hskip : e = .skiptable → (tokensOf m).length = 1 → v = .get)
    (hdhash : e = .dhash → 2 ≤ (tokensOf m).length) :
    ∃ s, Reachable s₀ s ∧ Differs s e v (tokensOf m)[1]? (tokensOf m)[2]?
      (tokensOf (m ++ lineEnd))[1]? (tokensOf (m ++ lineEnd))[2]? := by
  obtain ⟨-, -, w, hw, hwhat⟩ := tokens_lineEnd h0 hne
  rw [hj] at hw hwhat
  rw [hw]
  rcases hwhat with ⟨hone, rfl⟩ | hk
  · rw [List.getElem?_eq_none (by omega : (tokensOf m).length ≤ 1)]
    refine h.differs_null hv ?_ (fun he => hskip he hone) _ _
    intro he
    have htwo := hdhash he
    omega
  · rw [hk]
    exact h.differs_key e (hargs.plainKey hk) (hargs.key w hk).1 hv _ _

/-- The value of a put has changed, and it matters in the fresh store. -/
theorem FreshStore.differs_put (h : FreshStore s₀ .ignored) (hargs : ShortArgs m)
    (h0 : (0 : Byte) ∉ m) (hne : tokensOf m ≠ []) (hj : lineEndToken m = 2)
    (hnever : ¬ e.Never (tokensOf m).length .set) :
    Differs s₀ e .set (tokensOf m)[1]? (tokensOf m)[2]?
      (tokensOf (m ++ lineEnd))[1]? (tokensOf (m ++ lineEnd))[2]? := by
  obtain ⟨-, hfront, w, hw, hwhat⟩ := tokens_lineEnd h0 hne
  obtain ⟨hle, -⟩ := lineEndToken_le hne
  rw [hj] at hfront hw hwhat hle
  obtain ⟨k, hk⟩ : ∃ k, (tokensOf m)[1]? = some k := ⟨_, List.getElem?_eq_getElem (by omega)⟩
  rw [hw, hfront 1 (by omega), hk]
  rcases hwhat with ⟨htwo, rfl⟩ | ha
  · rw [List.getElem?_eq_none (by omega : (tokensOf m).length ≤ 2)]
    refine h.differs_no_value (hargs.plainKey hk) ?_
    cases e with
    | array => exact absurd (fun hc : _ = 3 => by omega) hnever
    | dhash => exact absurd (show (tokensOf m).length < 3 by omega) hnever
    | rbtree | hash | skiptable => simp
  · rw [ha]
    exact h.differs_value e (hargs.plainKey hk) (isToken_of_mem (List.mem_of_getElem? ha))
      (hargs.value w ha)

/-- What the line end has changed is looked at, and it matters in some state. -/
theorem FreshStore.differs (h : FreshStore s₀ .ignored) (hargs : ShortArgs m)
    (h0 : (0 : Byte) ∉ m) (hne : tokensOf m ≠ []) (hj : 1 ≤ lineEndToken m)
    (hnever : ¬ e.Never (tokensOf m).length v)
    (hunread : ¬ e.Unread (tokensOf m).length (lineEndToken m) v)
    (hset : (e, v) = (.array, .set) → lineEndToken m ≠ 3) :
    v ≠ .count ∧ ∃ s, Reachable s₀ s ∧ Differs s e v (tokensOf m)[1]? (tokensOf m)[2]?
      (tokensOf (m ++ lineEnd))[1]? (tokensOf (m ++ lineEnd))[2]? := by
  obtain ⟨hle, hge⟩ := lineEndToken_le hne
  cases v with
  | count => cases e <;> exact absurd hj hunread
  | get =>
      have hj1 : lineEndToken m = 1 := by
        cases e <;> exact Nat.le_antisymm (Nat.le_of_lt_succ (Nat.lt_of_not_le hunread)) hj
      refine ⟨by decide, h.differs_looks hargs h0 hne hj1 trivial (fun _ _ => rfl) ?_⟩
      rintro rfl
      exact Nat.le_of_not_lt hnever
  | delete | exist =>
      have hj1 : lineEndToken m = 1 := by
        refine Nat.le_antisymm (Nat.le_of_lt_succ (Nat.lt_of_not_le fun hc => hunread ?_)) hj
        cases e <;> first | exact hc | exact Or.inl hc
      refine ⟨by decide, h.differs_looks hargs h0 hne hj1 trivial ?_ ?_⟩
      · rintro rfl hone
        exact absurd (Or.inr ⟨hone, hj1⟩) hunread
      · rintro rfl
        exact Nat.le_of_not_lt hnever
  | set =>
      have hj2 : lineEndToken m = 2 := by
        cases e with
        | array =>
            have hthree : (tokensOf m).length = 3 := Classical.not_not.mp hnever
            have hj3 := hset rfl
            omega
        | dhash =>
            have hthree : ¬ (tokensOf m).length < 3 := hnever
            have hj3 : ¬ 3 ≤ lineEndToken m := hunread
            omega
        | rbtree | hash | skiptable =>
            obtain ⟨hj3, hj1⟩ := not_or.mp hunread
            omega
      exact ⟨by decide, s₀, .refl s₀, h.differs_put hargs h0 hne hj2 hnever⟩

/-- Of a message without a token the line end makes the only one, and no command. -/
theorem not_same_alone (h0 : (0 : Byte) ∉ m) (hnil : tokensOf m = []) (hlen : m.length ≤ 1021)
    (s : Store) : ¬ SameOutcome R s m := by
  have hmax : clinetMsgLength = 1024 := rfl
  have htokens : tokensOf (m ++ lineEnd) = [CString.empty.withLineEnd] := by
    rcases tokensOf_lineEnd h0 with ⟨htokens, -⟩ | ⟨A, w, hA, -, -⟩
    · rw [htokens, hnil]
      rfl
    · rw [hA] at hnil
      exact absurd hnil (List.append_ne_nil_of_right_ne_nil _ (by simp))
  refine not_same_unknown (kvsProtocolOn_no_token (by omega) hnil s) ?_ hlen
    (by rw [htokens]; simp) ?_
  · have hthirty : kvsCmdError.toNat = 30 := rfl
    refine List.ne_nil_of_length_pos ?_
    rw [List.length_take, hthirty, requestBuf, List.length_append, List.length_replicate]
    omega
  · unfold requestIn
    rw [htokens]
    exact requestOf_withLineEnd CString.empty

/-- **A line end that is not harmless does harm** in a state that messages lead to. -/
theorem FreshStore.harmful (h : FreshStore s₀ .ignored) (hargs : ShortArgs m)
    (hlen : m.length ≤ 1021) (hharm : ¬ Harmless m) :
    ∃ s, Reachable s₀ s ∧ ¬ SameOutcome SameContents s m := by
  have hmax : clinetMsgLength = 1024 := rfl
  unfold Harmless at hharm
  by_cases h0 : (0 : Byte) ∈ m
  · rw [if_pos h0] at hharm
    obtain ⟨hnil, hshort⟩ := not_or.mp hharm
    have hnil := Classical.not_not.mp hnil
    refine ⟨s₀, .refl s₀, not_same_echo (by omega) hnil ?_⟩
    rw [tokensOf_hidden h0, hnil]
  rw [if_neg h0] at hharm
  by_cases hnil : tokensOf m = []
  · exact ⟨s₀, .refl s₀, not_same_alone h0 hnil hlen s₀⟩
  have hharm := fun hc => hharm ⟨hnil, hc⟩
  obtain ⟨hroom, hharm⟩ := not_or.mp hharm
  have hroom := Nat.le_of_not_lt hroom
  obtain ⟨hcount, -, -⟩ := tokens_lineEnd h0 hnil
  have hreq' := requestIn_lineEnd h0 hnil
  cases hreq : requestIn m with
  | none =>
      rw [hreq] at hharm
      obtain ⟨buf, -, hrun⟩ := kvsProtocolOn_none (by omega) hroom hreq
      exact ⟨s₀, .refl s₀, not_same_error (hrun s₀)
        (kvsProtocolOn_overflow (lineEnd_lt hlen) (by omega) s₀)⟩
  | some p =>
      obtain ⟨e, v⟩ := p
      rw [hreq] at hharm hreq'
      obtain ⟨hnever, hunread⟩ := not_or.mp hharm
      obtain ⟨ret, buf, s₁, hrun⟩ := h.returns hargs hlen hroom hreq hnever
      by_cases hmore : maxTokens ≤ lineEndToken m
      · exact ⟨s₀, .refl s₀, not_same_error hrun
          (kvsProtocolOn_overflow (lineEnd_lt hlen) (by omega) s₀)⟩
      have hunread := fun hc => hunread ⟨Nat.lt_of_not_le hmore, hc⟩
      by_cases hj : lineEndToken m = 0
      · rw [if_pos hj] at hreq'
        refine ⟨s₀, .refl s₀, not_same_unknown hrun ?_ hlen ?_ hreq'⟩
        · have hanswered := (h.shortValues.answered h.intCounters (by omega) hrun).mpr
            (by rw [hreq]; simp)
          exact List.ne_nil_of_length_pos hanswered.line.length
        · exact List.ne_nil_of_length_pos (by omega)
      rw [if_neg hj] at hreq'
      by_cases hset : (e, v) = (.array, .set) ∧ lineEndToken m = 3
      · obtain ⟨hp, hthree⟩ := hset
        cases hp
        exact ⟨s₀, .refl s₀, not_same_error hrun
          (kvsProtocolOn_assert (lineEnd_lt hlen) (by omega) hreq' (by omega) s₀)⟩
      · obtain ⟨hv, s, hreach, hdiffers⟩ := h.differs hargs h0 hnil (Nat.pos_of_ne_zero hj) hnever
          hunread (fun hp hthree => hset ⟨hp, hthree⟩)
        refine ⟨s, hreach, hdiffers.not_same (hreach.shortValues h.shortValues) hv hlen hroom
          (by omega) hreq hreq' ?_⟩
        intro hp
        cases hp
        have hthree : (tokensOf m).length = 3 := Classical.not_not.mp hnever
        obtain ⟨hle, hge⟩ := lineEndToken_le hnil
        have hnot : lineEndToken m ≠ 3 := fun hc => hset ⟨rfl, hc⟩
        exact ⟨hthree, by omega⟩

end Harmful

/--
**The line end of a telnet client changes nothing exactly if the message is harmless**: it has
a NUL in front of the line end, or the line end goes where the function behind the command does
not look.  A harmless message does the same with the line end as without it in every state
whatever.  For a message that is not there is a state, reached by messages, in which another
reply is sent, another thing is stored, or the server goes down.
-/
theorem line_end_harmless_iff (rand : Nat → Nat) :
    ∃ s₀, (initKvengine (Vector.replicate maxTableSize []) .ignored).run (Store.static rand) =
        .ok ((), s₀) ∧
      ∀ m : List Byte, m.length ≤ 1021 →
        (Harmless m → ∀ s, SameOutcome Eq s m) ∧
        (ShortArgs m → ((∀ s, Reachable s₀ s → SameOutcome SameContents s m) ↔ Harmless m)) := by
  obtain ⟨s₀, hinit, hfresh⟩ := initKvengine_spec rand .ignored (by decide)
  refine ⟨s₀, hinit, ?_⟩
  intro m hlen
  refine ⟨fun h s => h.same hlen s, fun hargs => ⟨fun hsame => ?_, fun h s _ => ?_⟩⟩
  · by_contra hharm
    obtain ⟨s, hreach, hdiffers⟩ := hfresh.harmful hargs hlen hharm
    exact hdiffers (hsame s hreach)
  · intro ret buf s₁ hrun
    obtain ⟨ret', buf', s₂, hrun', htake, rfl⟩ := h.same hlen s ret buf s₁ hrun
    exact ⟨ret', buf', s₁, hrun', htake, fun _ _ _ => Iff.rfl⟩

/-- `COUNT` of a fresh store is answered by 0, and with the line end by nothing at all. -/
theorem telnet_count_unanswered :
    let m := literal "COUNT"
    (0 < m.length ∧ m.length ≤ 1021 ∧ (13 : Byte) ∉ m ∧ (10 : Byte) ∉ m) ∧
    ∃ s₀ buf,
      (initKvengine (Vector.replicate maxTableSize []) .ignored).run (Store.static fun _ => 0) =
        .ok ((), s₀) ∧
      (kvsProtocolOn m).run s₀ = .ok ((3, replyBuf (literal "0\x0d\n")), s₀) ∧
      (kvsProtocolOn (m ++ lineEnd)).run s₀ = .ok ((0, buf), s₀) ∧
      ¬ SameOutcome SameContents s₀ m := by
  intro m
  obtain ⟨s₀, hinit, hfresh⟩ := initKvengine_spec (fun _ => 0) .ignored (by decide)
  have hcount : (Store.op none none .array .count).run s₀ = .ok (.int 0, s₀) := by
    show Except.ok (Answer.int s₀.array.count, s₀) = _
    rw [hfresh.array.count]
    rfl
  have hreply : (kvsProtocolOn m).run s₀ = .ok ((3, replyBuf (literal "0\x0d\n")), s₀) := by
    rw [kvsProtocolOn_op (e := .array) (v := .count) (by decide) (by decide) (by decide)
      (by decide)]
    exact run_bind_of hcount rfl
  have hlen : (m ++ lineEnd).length < clinetMsgLength := by decide
  obtain ⟨buf, -, hnone⟩ := kvsProtocolOn_none hlen (by decide) (by decide)
  refine ⟨by decide, s₀, buf, hinit, hreply, hnone s₀, ?_⟩
  exact not_same_unknown hreply (by decide) (by decide) (by decide) (by decide)

end KvStore
