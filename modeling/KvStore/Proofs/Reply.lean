/-
Which messages are answered.

`kvs_protocol` returns the length of the text it has formatted into the buffer, and
`server_reader` sends that many bytes.  A case of the switch formats a line, and every line
leaves room for its NUL: the values of the array and of the second hash came out of a message
that also held a command and a key, and those of the other engines are read out of a field of
512 bytes.  But 0 and `KVS_CMD_ERROR` are returned the same way, as lengths of a text that
was never written.
-/
import KvStore.Proofs.Missing

namespace KvStore

/-! ### The texts -/

/-- The text ends a line. -/
def EndsLine (text : List Byte) : Prop := literal "\x0d\n" <:+ text

instance (text : List Byte) : Decidable (EndsLine text) := inferInstanceAs (Decidable (_ <:+ _))

/-- What an engine's function may return for the verb: a C `int`, or a short string. -/
def Verb.Formats : Verb → Answer → Prop
  | .set, .int _ | .delete, .int _ => True
  | .count, .int i | .exist, .int i => -2147483648 ≤ i ∧ i ≤ 2147483647
  | .get, .str (some w) => w.length ≤ 1019
  | .get, .str none => True
  | _, _ => False

/-- The text for it is a line that fits into the buffer. -/
theorem Verb.Formats.line {v : Verb} {r : Answer} (h : v.Formats r) :
    EndsLine (v.text r) ∧ (v.text r).length < clinetMsgLength := by
  have hmax : clinetMsgLength = 1024 := rfl
  cases r with
  | int i =>
      cases v with
      | get => exact absurd h id
      | set | delete =>
          have hlen := resultText_length i
          refine ⟨?_, show (resultText i).length < _ by omega⟩
          show EndsLine (resultText i)
          unfold resultText
          by_cases hi : i = 0
          · rw [if_pos hi]
            decide
          · rw [if_neg hi]
            decide
      | count | exist =>
          obtain ⟨hlow, hhigh⟩ := h
          have hlen := numberText_length (i := i) (by omega)
          exact ⟨⟨decimal i, rfl⟩, show (numberText i).length < _ by omega⟩
  | str w =>
      cases v with
      | set | delete | count | exist => exact absurd h id
      | get =>
          cases w with
          | none => decide
          | some w =>
              refine ⟨⟨w.bytes, rfl⟩, ?_⟩
              have hlen : w.bytes.length ≤ 1019 := h
              have hend : (literal "\x0d\n").length = 2 := by decide
              show (w.bytes ++ literal "\x0d\n").length < _
              rw [List.length_append, hend]
              omega

/-! ### What the engines return -/

section Values

variable {key value : Option CString}

theorem cstr_inv {m : List Byte} {w : CString} (h : cstr m = .ok w) : Reads m w := by
  unfold cstr at h
  by_cases h0 : (0 : Byte) ∈ m
  · rw [if_pos h0] at h
    cases h
    exact CString.reads_ofBytes h0
  · rw [if_neg h0] at h
    cases h

/-- A string in a field is shorter than the field. -/
theorem readAnswer_short {σ : Type} {p : Option (List Byte)} {s s' : σ} {r : Answer}
    (h : (readAnswer p).run s = .ok (r, s')) (hp : ∀ m ∈ p, m.length ≤ 1019) :
    Verb.get.Formats r := by
  cases p with
  | none =>
      cases h
      trivial
  | some m =>
      obtain ⟨w, hw, h⟩ := run_liftE_inv h
      cases h
      obtain ⟨rest, hm⟩ := cstr_inv hw
      have hlen := hp m rfl
      rw [hm, List.length_append] at hlen
      show w.bytes.length ≤ 1019
      omega

theorem getKvRbtree_short : Returns (fun p => ∀ m ∈ p, m.length ≤ 1019) (getKvRbtree key) := by
  cases key with
  | none => exact .pure (by simp)
  | some key =>
      refine .seq fun node => .seq fun nd => .pure ?_
      rintro m ⟨⟩
      have hlen := nd.value.property
      have hmax : maxValueLen = 512 := rfl
      show nd.value.val.length ≤ 1019
      omega

theorem getKvHashtable_short :
    Returns (fun p => ∀ m ∈ p, m.length ≤ 1019) (getKvHashtable key) := by
  cases key with
  | none => exact .pure (by simp)
  | some key =>
      refine .seq fun _ => .seq fun _ => .seq fun _ => .seq fun found => .seq fun _ => .pure ?_
      cases found with
      | none => simp
      | some p =>
          obtain ⟨node, next⟩ := p
          rintro m ⟨⟩
          have hlen := node.value.property
          have hmax : maxValueLen = 512 := rfl
          have hnext : (nextMem next).length ≤ 8 := by
            unfold nextMem
            split_ifs <;> simp
          show (node.value.val ++ nextMem next).length ≤ 1019
          rw [List.length_append]
          omega

theorem getKvSkiptable_short :
    Returns (fun p => ∀ m ∈ p, m.length ≤ 1019) (getKvSkiptable key) := by
  cases key with
  | none => exact .pure (by simp)
  | some key =>
      refine .seq fun _ => .seq fun p => .seq fun _ => .ite ?_ (.pure (by simp))
      refine .seq fun _ => .seq fun nd => .pure ?_
      rintro m ⟨⟩
      have hlen := nd.value.property
      have hmax : maxValueLen = 512 := rfl
      show nd.value.val.length ≤ 1019
      omega

/-- What `exist` may return. -/
def IsFlag (i : Int) : Prop := -1 ≤ i ∧ i ≤ 1

instance (i : Int) : Decidable (IsFlag i) := inferInstanceAs (Decidable (_ ∧ _))

theorem isFlag_ite {c : Prop} [Decidable c] : IsFlag (if c then 1 else 0) := by
  unfold IsFlag
  split_ifs <;> omega

theorem kvsArrayExist_flag : Returns IsFlag (kvsArrayExist key) := .seq fun _ => .pure isFlag_ite

theorem existKvRbtree_flag : Returns IsFlag (existKvRbtree key) := by
  cases key with
  | none => exact .pure (by decide)
  | some key => exact .seq fun _ => .seq fun _ => .ite (.pure (by decide)) (.pure (by decide))

theorem existKvHashtable_flag : Returns IsFlag (existKvHashtable key) :=
  .seq fun _ => .pure isFlag_ite

theorem existKvDhashtable_flag : Returns IsFlag (existKvDhashtable key) :=
  .seq fun _ => .seq fun _ => .seq fun _ => .pure isFlag_ite

theorem existKvSkiptable_flag : Returns IsFlag (existKvSkiptable key) := by
  refine .seq fun r => ?_
  cases r <;> exact .pure (by decide)

end Values

/-- The values that were stored as they came were parts of messages. -/
structure ShortValues (s : Store) : Prop where
  array : ∃ m, ArraySim s.array m ∧ ∀ k v, m.lookup k = some v → v.length ≤ 1019
  dhash : ∃ st, DhashSim s.dhash st ∧ ∀ k, ∀ v ∈ st.stack k, v.length ≤ 1019

/-- The engines count in C `int`s. -/
def IntCounters (s : Store) : Prop :=
  ∀ e i, Gives (Store.call e .count) s (.int i) → -2147483648 ≤ i ∧ i ≤ 2147483647

section Operations

variable {key value : Option CString} {e : Engine} {s s' : Store} {r : Answer}

/-- A function that returns an `int`. -/
theorem int_of_run {τ : Type} {view : Store → τ} {update : Store → τ → Store} {x : Prog τ Int}
    {P : Int → Prop} (hx : Returns P x)
    (h : (zoom view update (Answer.int <$> x)).run s = .ok (r, s')) : ∃ i, r = .int i ∧ P i := by
  obtain ⟨t, hrun, -⟩ := zoom_inv h
  obtain ⟨i, hi, rfl⟩ := run_map_inv hrun
  exact ⟨i, rfl, hx _ i t hi⟩

/-- A function that returns a pointer. -/
theorem get_of_run {τ : Type} {view : Store → τ} {update : Store → τ → Store}
    {x : Prog τ (Option (List Byte))} (hx : Returns (fun p => ∀ m ∈ p, m.length ≤ 1019) x)
    (h : (zoom view update (x >>= readAnswer)).run s = .ok (r, s')) : Verb.get.Formats r := by
  obtain ⟨t, hrun, -⟩ := zoom_inv h
  obtain ⟨p, t', hp, hrun⟩ := run_bind_inv hrun
  exact readAnswer_short hrun (hx _ p t' hp)

theorem arrayGet_formats (h : ShortValues s)
    (hrun : (Store.op key value .array .get).run s = .ok (r, s')) : Verb.get.Formats r := by
  obtain ⟨m, hsim, hshort⟩ := h.array
  cases key with
  | none =>
      cases hrun
      trivial
  | some k =>
      obtain ⟨A, hA, -⟩ := arrayCall_refines hsim (.get k)
      have hop : (Store.op (some k) value .array .get).run s = _ := zoom_run hA
      rw [hop] at hrun
      cases hrun
      show Verb.get.Formats (.str (arrayRules.get m k))
      cases hv : m.lookup k with
      | none =>
          rw [MapRules.get_absent (Finmap.lookup_eq_none.mp hv)]
          trivial
      | some v =>
          rw [MapRules.get_stored hv]
          exact hshort k v hv

theorem dhashGet_formats (h : ShortValues s)
    (hrun : (Store.op key value .dhash .get).run s = .ok (r, s')) : Verb.get.Formats r := by
  obtain ⟨st, hsim, hshort⟩ := h.dhash
  cases key with
  | none => cases hrun
  | some k =>
      obtain ⟨D, hD, -⟩ := dhashCall_refines hsim (.get k)
      have hop : (Store.op (some k) value .dhash .get).run s = _ := zoom_run hD
      rw [hop] at hrun
      cases hrun
      show Verb.get.Formats (.str (st.stack k).head?)
      cases hst : st.stack k with
      | nil => trivial
      | cons v rest => exact hshort k v (by rw [hst]; simp)

/-- **What the engine's function returned is formatted to a line that fits.** -/
theorem op_formats (h : ShortValues s) {v : Verb} (hint : v = .count → IntCounters s)
    (hrun : (Store.op key value e v).run s = .ok (r, s')) : v.Formats r := by
  cases v with
  | set | delete =>
      have hany : ∀ {τ : Type} (x : Prog τ Int), Returns (fun _ => True) x :=
        fun _ _ _ _ _ => trivial
      cases e <;> obtain ⟨i, rfl, -⟩ := int_of_run (hany _) hrun <;> trivial
  | count =>
      have hany : ∀ {τ : Type} (x : Prog τ Int), Returns (fun _ => True) x :=
        fun _ _ _ _ _ => trivial
      obtain ⟨i, rfl, -⟩ : ∃ i, r = .int i ∧ True := by
        unfold Store.op at hrun
        cases e with
        | array => exact int_of_run (hany kvsArrayCount) hrun
        | rbtree => exact int_of_run (hany countKvRbtree) hrun
        | hash => exact int_of_run (hany countKvHashtable) hrun
        | dhash => exact int_of_run (hany countKvDhashtable) hrun
        | skiptable => exact int_of_run (hany countKvSkiptable) hrun
      rw [Store.op_call (c := .count) rfl e] at hrun
      exact hint rfl e i ⟨s', hrun⟩
  | exist =>
      obtain ⟨i, rfl, hflag⟩ : ∃ i, r = .int i ∧ IsFlag i := by
        cases e with
        | array => exact int_of_run kvsArrayExist_flag hrun
        | rbtree => exact int_of_run existKvRbtree_flag hrun
        | hash => exact int_of_run existKvHashtable_flag hrun
        | dhash => exact int_of_run existKvDhashtable_flag hrun
        | skiptable => exact int_of_run existKvSkiptable_flag hrun
      unfold IsFlag at hflag
      exact ⟨by omega, by omega⟩
  | get =>
      cases e with
      | array => exact arrayGet_formats h hrun
      | rbtree => exact get_of_run getKvRbtree_short hrun
      | hash => exact get_of_run getKvHashtable_short hrun
      | dhash => exact dhashGet_formats h hrun
      | skiptable => exact get_of_run getKvSkiptable_short hrun

end Operations

/-! ### Messages -/

section Messages

variable {request : List Byte} {s s' : Store} {ret : Int} {buf : List Byte}

/-- A value comes behind a command and a key. -/
theorem value_short (hlen : request.length < clinetMsgLength) {a : CString}
    (ha : (tokensOf request)[2]? = some a) : a.length ≤ 1019 := by
  have hmax : clinetMsgLength = 1024 := rfl
  have htext : (CString.ofBytes request).bytes.length ≤ request.length :=
    (List.takeWhile_sublist _).length_le
  have hwords := length_words 32 (CString.ofBytes request).bytes
  have hne : ∀ w ∈ tokensOf request, 0 < w.bytes.length :=
    fun w hw => List.length_pos_of_ne_nil (isToken_of_mem hw).1
  rw [← tokensOf_bytes] at hwords
  generalize tokensOf request = ws at ha hwords hne
  rcases ws with _ | ⟨w, _ | ⟨k, _ | ⟨a', rest⟩⟩⟩
  · cases ha
  · cases ha
  · cases ha
  · cases ha
    have hw := hne w (by simp)
    have hk := hne k (by simp)
    simp only [List.map_cons, List.flatten_cons, List.length_cons, List.length_append,
      List.length_map] at hwords
    show a.bytes.length ≤ 1019
    omega

/-- A message keeps the values short. -/
theorem ShortValues.step (h : ShortValues s) (hlen : request.length < clinetMsgLength)
    (hrun : (kvsProtocolOn request).run s = .ok ((ret, buf), s')) : ShortValues s' := by
  rcases kvsProtocolOn_inv hlen hrun with ⟨-, rfl, -⟩ | ⟨e, v, r, -, -, hop, -, -⟩
  · exact h
  have hsame := op_sameBut hop
  obtain ⟨⟨m, harray, hm⟩, ⟨st, hdhash, hst⟩⟩ := h
  -- A pair the message has put has the third token as its value.
  have hput : ∀ c k a, v.call (tokensOf request)[1]? (tokensOf request)[2]? = some c →
      c = .put k a → a.length ≤ 1019 := by
    rintro c k a hcall rfl
    exact value_short hlen (Verb.call_put hcall)
  refine ⟨?_, ?_⟩
  · by_cases he : e = .array
    · subst he
      cases hcall : v.call (tokensOf request)[1]? (tokensOf request)[2]? with
      | none =>
          obtain ⟨A, hA, rfl⟩ := zoom_inv hop
          obtain ⟨r', hr'⟩ := arrayOp_lacking hcall s.array
          rw [hr'] at hA
          cases hA
          exact ⟨m, harray, hm⟩
      | some c =>
          rw [Store.op_call hcall] at hop
          obtain ⟨A, hA, rfl⟩ := zoom_inv hop
          obtain ⟨A', hA', hsim, -⟩ := arrayCall_refines harray c
          rw [hA] at hA'
          cases hA'
          refine ⟨_, hsim, ?_⟩
          intro k a ha
          rcases MapRules.step_lookup ha with ha | hc
          · exact hm k a ha
          · exact hput c k a hcall hc
    · rw [hsame.array (by simpa using he)]
      exact ⟨m, harray, hm⟩
  · by_cases he : e = .dhash
    · subst he
      cases hcall : v.call (tokensOf request)[1]? (tokensOf request)[2]? with
      | none =>
          obtain ⟨D, hD, -⟩ := zoom_inv hop
          rw [dhashOp_lacking hcall s.dhash] at hD
          cases hD
      | some c =>
          rw [Store.op_call hcall] at hop
          obtain ⟨D, hD, rfl⟩ := zoom_inv hop
          obtain ⟨D', hD', hsim, -⟩ := dhashCall_refines hdhash c
          rw [hD] at hD'
          cases hD'
          refine ⟨_, hsim, ?_⟩
          intro k a ha
          rcases Stacks.step_stack ha with ha | hc
          · exact hst k a ha
          · exact hput c k a hcall hc
    · rw [hsame.dhash (by simpa using he)]
      exact ⟨st, hdhash, hst⟩

theorem ShortValues.run (h : ShortValues s) {requests : List (List Byte)}
    {rs : List (Int × List Byte)} (hlen : ∀ request ∈ requests, request.length < clinetMsgLength)
    (hrun : (runCalls kvsProtocolOn requests).run s = .ok (rs, s')) : ShortValues s' :=
  runCalls_keeps (fun _ _ _ _ hs hc hcall => ShortValues.step hs hc hcall) h hlen hrun

/-- The text that the case of the message's command formats. -/
def ReplyText (s : Store) (request text : List Byte) : Prop :=
  ∃ e v r s', requestIn request = some (e, v) ∧
    (Store.op (tokensOf request)[1]? (tokensOf request)[2]? e v).run s = .ok (r, s') ∧
    text = v.text r

/-- What `send` takes from the buffer is the reply, a line. -/
structure Answered (s : Store) (request : List Byte) (ret : Int) (buf : List Byte) : Prop where
  positive : 0 < ret
  inside : ret ≤ buf.length
  text : ReplyText s request (buf.take ret.toNat)
  line : EndsLine (buf.take ret.toNat)

theorem EndsLine.length {text : List Byte} (h : EndsLine text) : 0 < text.length := by
  have hle := h.length_le
  have hend : (literal "\x0d\n").length = 2 := by decide
  omega

/-- **A message is answered iff it asks for something that there is.** -/
theorem ShortValues.answered (h : ShortValues s) (hint : IntCounters s)
    (hlen : request.length < clinetMsgLength)
    (hrun : (kvsProtocolOn request).run s = .ok ((ret, buf), s')) :
    Answered s request ret buf ↔ requestIn request ≠ none := by
  rcases kvsProtocolOn_inv hlen hrun with ⟨hreq, -, -⟩ | ⟨e, v, r, hreq, -, hop, rfl, rfl⟩
  · refine ⟨fun ha => ?_, fun hc => absurd hreq hc⟩
    obtain ⟨e, v, r, s₁, hsome, -⟩ := ha.text
    rw [hsome]
    simp
  · refine ⟨fun _ => by rw [hreq]; simp, fun _ => ?_⟩
    obtain ⟨hline, hfits⟩ := (op_formats h (fun _ => hint) hop).line
    have htake : (replyBuf (v.text r)).take ((v.text r).length : Int).toNat = v.text r := by
      rw [Int.toNat_natCast]
      exact take_replyBuf hfits
    refine ⟨by have := hline.length; omega, ?_, ?_, ?_⟩
    · rw [length_replyBuf]
      omega
    · rw [htake]
      exact ⟨e, v, r, s', hreq, hop, rfl⟩
    · rw [htake]
      exact hline

end Messages

theorem FreshStore.shortValues {s : Store} {mu : Mutex} (h : FreshStore s mu) : ShortValues s := by
  refine ⟨⟨∅, h.array, by simp⟩, ⟨∅, ?_, by simp⟩⟩
  rw [h.dhash]
  exact DhashSim.fresh

/--
**A message is answered by a line exactly if its first token is one of the 25 commands that
are implemented.**  Any other first token makes the server send nothing, and a message
without a token makes it send the first 30 bytes of the buffer with the message.  This is so
after every run of messages, whatever they were.
-/
theorem answered_iff (rand : Nat → Nat) (slots : Vector (List HashNode) maxTableSize) (mu : Mutex)
    (hmu : mu ≠ .held) :
    ∃ s₀, (initKvengine slots mu).run (Store.static rand) = .ok ((), s₀) ∧
      ∀ (requests : List (List Byte)) (rs : List (Int × List Byte)) (s : Store),
        (∀ request ∈ requests, request.length < clinetMsgLength) →
        (runCalls kvsProtocolOn requests).run s₀ = .ok (rs, s) → IntCounters s →
        ∀ (request : List Byte) (ret : Int) (buf : List Byte) (s' : Store),
          request.length < clinetMsgLength →
          (kvsProtocolOn request).run s = .ok ((ret, buf), s') →
          (Answered s request ret buf ↔ requestIn request ≠ none) ∧
          (requestIn request = none →
            if tokensOf request = [] then ret = 30 ∧ buf = requestBuf request else ret = 0) := by
  obtain ⟨s₀, hinit, -, hfresh⟩ := initKvengine_run rand slots hmu
  have h₀ : ShortValues s₀ := ⟨hfresh.shortValues.array, hfresh.shortValues.dhash⟩
  refine ⟨s₀, hinit, ?_⟩
  intro requests rs s hshort hrun hint request ret buf s' hlen h
  have hvalues : ShortValues s := h₀.run hshort hrun
  refine ⟨hvalues.answered hint hlen h, ?_⟩
  intro hreq
  rcases kvsProtocolOn_inv hlen h with ⟨-, -, hsame, rfl⟩ | ⟨e, v, r, hsome, -⟩
  · by_cases hnil : tokensOf request = []
    · rw [if_pos hnil, if_pos hnil]
      exact ⟨rfl, hsame hnil⟩
    · rw [if_neg hnil, if_neg hnil]
  · rw [hreq] at hsome
    cases hsome

/-- The counters of fresh engines are 0. -/
theorem FreshStore.intCounters {s : Store} {mu : Mutex} (h : FreshStore s mu) : IntCounters s := by
  have hzero : ∀ e, Gives (Store.call e .count) s (.int 0) := by
    intro e
    refine ⟨s, ?_⟩
    cases e with
    | array =>
        show Except.ok (Answer.int s.array.count, s) = _
        rw [h.array.count]
        rfl
    | rbtree =>
        show Except.ok (Answer.int s.tree.nbElements, s) = _
        rw [h.tree.count]
        rfl
    | hash =>
        show Except.ok (Answer.int s.hash.count, s) = _
        rw [h.hash]
        rfl
    | dhash =>
        have hrun : countKvDhashtable.run s.dhash = .ok (0, s.dhash) := by
          rw [h.dhash]
          exact countKvDhashtable_spec DhashSim.fresh
        exact zoom_run (run_map_of Answer.int hrun)
    | skiptable =>
        show Except.ok (Answer.int s.table.nbElements, s) = _
        rw [h.count]
  intro e i hi
  cases hi.unique (hzero e)
  decide

/-- `RCOUNT` is answered. -/
theorem answered_iff_rcount :
    ∃ s₀ ret buf s',
      (initKvengine (Vector.replicate maxTableSize []) .free).run (Store.static fun _ => 0) =
        .ok ((), s₀) ∧
      (kvsProtocolOn (literal "RCOUNT")).run s₀ = .ok ((ret, buf), s') ∧
      Answered s₀ (literal "RCOUNT") ret buf := by
  obtain ⟨s₀, hinit, h⟩ :=
    answered_iff (fun _ => 0) (Vector.replicate maxTableSize []) .free (by decide)
  obtain ⟨s₁, hinit₁, hfresh⟩ := initKvengine_spec (fun _ => 0) .free (by decide)
  rw [hinit] at hinit₁
  cases hinit₁
  have hrun : (kvsProtocolOn (literal "RCOUNT")).run s₀ =
      .ok (((numberText s₀.tree.nbElements).length, replyBuf (numberText s₀.tree.nbElements)),
        s₀) := by
    rw [kvsProtocolOn_op (e := .rbtree) (v := .count) (by decide) (by decide) (by decide)
      (by decide)]
    rfl
  refine ⟨s₀, _, _, s₀, hinit, hrun, ?_⟩
  exact (h [] [] s₀ (by simp) rfl hfresh.intCounters _ _ _ s₀ (by decide) hrun).1.mpr (by decide)

/-- A word that is no command gets no reply, and a space gets bytes of the request. -/
theorem unknown_command_unanswered :
    ∃ s₀ buf,
      (initKvengine (Vector.replicate maxTableSize []) .free).run (Store.static fun _ => 0) =
        .ok ((), s₀) ∧
      (kvsProtocolOn (literal "PING")).run s₀ = .ok ((0, buf), s₀) ∧
      ¬ Answered s₀ (literal "PING") 0 buf ∧
      (kvsProtocolOn (literal " ")).run s₀ = .ok ((30, requestBuf (literal " ")), s₀) ∧
      ¬ Answered s₀ (literal " ") 30 (requestBuf (literal " ")) := by
  obtain ⟨s₀, hinit, -⟩ := initKvengine_spec (fun _ => 0) .free (by decide)
  have hlen : (literal "PING").length < clinetMsgLength := by decide
  obtain ⟨buf, -, hping⟩ := kvsProtocolOn_none hlen (by decide) (by decide)
  have hlen' : (literal " ").length < clinetMsgLength := by decide
  obtain ⟨buf', hsame, hspace⟩ := kvsProtocolOn_none hlen' (by decide) (by decide)
  rw [hsame (by decide)] at hspace
  refine ⟨s₀, buf, hinit, hping s₀, ?_, hspace s₀, ?_⟩
  · intro h
    exact absurd h.positive (by decide)
  · rintro ⟨-, -, ⟨e, v, r, s', hreq, -⟩, -⟩
    have hnone : requestIn (literal " ") = none := by decide
    rw [hnone] at hreq
    cases hreq

end KvStore
