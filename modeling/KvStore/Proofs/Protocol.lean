/-
The protocol asks the engine what the message asks for.

`kvs_split_tokens` finds the words of the message (`kvsSplitTokens_spec`), the table of
commands maps the first one to the command of an engine and a verb (`commandOf_request`), and
each case of the switch formats what the engine's function returned (`runCommand_run`).
Together: `kvs_protocol` is `dispatch` on the tokens (`kvsProtocolOn_run`), whatever the
message; and if the engine answers a call, then serving a message that encodes the call sends
the text for this answer (`serveRequest_run`).
-/
import KvStore.Spec.Message

namespace KvStore

/-! ### Splitting the message -/

/-- The token `i` is the string `w` in the message that was cut up. -/
def TokenIs (msg : List Byte) (tokens : Tokens) (i : Nat) (w : List Byte) : Prop :=
  ∃ offset rest, tokens[i]? = some (some offset) ∧ msg.drop offset = w ++ 0 :: rest

/--
The loop stores the words of the string `s` that is left behind the tokens it has found,
and changes nothing in front of `s`.
-/
theorem splitTokens_spec (fuel : Nat) (tail : List Byte) :
    ∀ (tokens : Tokens) (count : Nat) (front s : List Byte), (0 : Byte) ∉ s → s.length < fuel →
      count + (words 32 s).length ≤ maxTokens →
      ∃ tokens' rest, splitTokens fuel tokens count (front ++ (s ++ 0 :: tail)) front.length =
          .ok (count + (words 32 s).length, tokens', front ++ rest) ∧
        rest.length = s.length + 1 + tail.length ∧ (words 32 s = [] → rest = s ++ 0 :: tail) ∧
        (∀ i, i < count ∨ count + (words 32 s).length ≤ i → tokens'[i]? = tokens[i]?) ∧
        ∀ i w, (words 32 s)[i]? = some w → TokenIs (front ++ rest) tokens' (count + i) w := by
  induction fuel with
  | zero => intro tokens count front s _ hfuel; omega
  | succ fuel ih =>
      intro tokens count front s h0 hfuel hroom
      unfold splitTokens
      rcases strtok_spec (by decide : (32 : Byte) ≠ 0) front s tail h0 with
        ⟨hnil, hrun⟩ | ⟨start, w, more, s', hwords, hlt, h0', hrun, hlen, hstart, hcut⟩
      · rw [hrun, hnil]
        refine ⟨tokens, s ++ 0 :: tail, rfl, ?_, fun _ => rfl, fun _ _ => rfl, ?_⟩
        · rw [List.length_append, List.length_cons]
          omega
        · intro i w hw
          simp at hw
      · rw [hwords, List.length_cons] at hroom
        have hcount : count < maxTokens := by omega
        obtain ⟨tokens', rest, hsplit, hrest, hend, hold, hnew⟩ :=
          ih (tokens.set count (some start)) (count + 1) (front ++ more) s' h0'
            (by omega) (by omega)
        have hsum : count + 1 + (words 32 s').length = count + ((words 32 s').length + 1) := by
          omega
        rw [hrun, hwords, List.length_cons]
        refine ⟨tokens', more ++ rest, ?_, ?_, ?_, ?_, ?_⟩
        · show (if h : count < maxTokens then _ else _) = _
          rw [dif_pos hcount, hsplit, hsum, List.append_assoc]
        · rw [List.length_append]
          omega
        · intro hc
          cases hc
        · intro i hi
          rw [hold i (by omega), Vector.getElem?_set_ne hcount (by omega)]
        · intro i v hv
          rw [← List.append_assoc]
          cases i with
          | zero =>
              obtain rfl : w = v := by simpa using hv
              -- The word ends at the NUL the call wrote, or at the one behind the message.
              refine ⟨start, ?_⟩
              rw [Nat.add_zero, hold count (by omega), Vector.getElem?_set_self hcount,
                List.drop_append_of_le_length hstart]
              rcases hcut with hcut | ⟨rfl, hcut⟩
              · exact ⟨rest, rfl, by rw [hcut, List.append_assoc]; rfl⟩
              · exact ⟨tail, rfl, by rw [hcut, hend words_nil]; rfl⟩
          | succ i =>
              have h := hnew i v (by simpa using hv)
              rwa [Nat.add_right_comm] at h

/-- The tokens are the strings `ws`, and the entries behind them are null. -/
def TokensRead (msg : List Byte) (tokens : Tokens) (ws : List CString) : Prop :=
  ∀ i (hi : i < maxTokens),
    (ws[i]? = none ∧ tokens[i] = none) ∨
      ∃ w offset, ws[i]? = some w ∧ tokens[i] = some offset ∧ Reads (msg.drop offset) w

theorem TokensRead.string {msg : List Byte} {tokens : Tokens} {ws : List CString}
    (h : TokensRead msg tokens ws) {i : Nat} (hi : i < maxTokens) :
    tokenString msg tokens[i] = .ok ws[i]? := by
  rcases h i hi with ⟨hw, ht⟩ | ⟨w, offset, hw, ht, hreads⟩
  · rw [hw, ht]
    rfl
  · rw [hw, ht, tokenString, cstr_of_reads hreads]
    rfl

/-- A string with more words than there are entries makes the loop write behind the array. -/
theorem splitTokens_overflow (fuel : Nat) (tail : List Byte) :
    ∀ (tokens : Tokens) (count : Nat) (front s : List Byte), (0 : Byte) ∉ s → s.length < fuel →
      count ≤ maxTokens → maxTokens < count + (words 32 s).length →
      splitTokens fuel tokens count (front ++ (s ++ 0 :: tail)) front.length =
        .error .outOfBounds := by
  induction fuel with
  | zero => intro tokens count front s _ hfuel; omega
  | succ fuel ih =>
      intro tokens count front s h0 hfuel hcount hmore
      unfold splitTokens
      rcases strtok_spec (by decide : (32 : Byte) ≠ 0) front s tail h0 with
        ⟨hnil, -⟩ | ⟨start, w, more, s', hwords, hlt, h0', hrun, -⟩
      · rw [hnil, List.length_nil] at hmore
        omega
      · rw [hrun]
        show (if h : count < maxTokens then _ else _) = _
        by_cases hc : count < maxTokens
        · rw [hwords, List.length_cons] at hmore
          rw [dif_pos hc]
          exact ih _ (count + 1) (front ++ more) s' h0' (by omega) (by omega) (by omega)
        · rw [dif_neg hc]

section Request

variable {request : List Byte}

theorem CString.ofBytes_of_nonzero {m : List Byte} (h : (0 : Byte) ∉ m) :
    (CString.ofBytes m).bytes = m := by
  refine List.takeWhile_eq_self_iff.mpr ?_
  intro b hb
  rw [decide_eq_true_eq]
  rintro rfl
  exact h hb

theorem CString.reads_ofBytes {m : List Byte} (h : (0 : Byte) ∈ m) :
    Reads m (CString.ofBytes m) := by
  induction m with
  | nil => cases h
  | cons b m ih =>
      by_cases hb : b = 0
      · exact ⟨m, by simp [CString.ofBytes, hb]⟩
      · obtain ⟨rest, hm⟩ := ih ((List.mem_cons.mp h).resolve_left fun hc => hb hc.symm)
        refine ⟨rest, ?_⟩
        unfold CString.ofBytes
        simp only
        rw [List.takeWhile_cons_of_pos (by simpa using hb), List.cons_append]
        exact congrArg (b :: ·) hm

/-- There is a NUL in the buffer: among the received bytes or behind them. -/
def Terminated (request : List Byte) : Prop :=
  request.length < clinetMsgLength ∨ (0 : Byte) ∈ request

instance : DecidablePred Terminated := fun _ => inferInstanceAs (Decidable (_ ∨ _))

/-- The buffer is the text of the request, a NUL, and whatever. -/
theorem requestBuf_reads (hend : Terminated request) :
    Reads (requestBuf request) (CString.ofBytes request) := by
  by_cases h0 : (0 : Byte) ∈ request
  · exact (CString.reads_ofBytes h0).append _
  · have hlen := hend.resolve_right h0
    obtain ⟨n, hn⟩ : ∃ n, clinetMsgLength - request.length = n + 1 :=
      ⟨clinetMsgLength - request.length - 1, by omega⟩
    refine ⟨List.replicate n 0, ?_⟩
    unfold requestBuf
    rw [CString.ofBytes_of_nonzero h0, hn, List.replicate_succ]

/-- The tokens are the words of the text. -/
theorem tokensOf_bytes (request : List Byte) :
    (tokensOf request).map CString.bytes = words 32 (CString.ofBytes request).bytes := by
  unfold tokensOf
  rw [List.map_map]
  refine (List.map_congr_left ?_).trans (List.map_id _)
  intro w hw
  exact CString.ofBytes_of_nonzero fun hc => (CString.ofBytes request).nonzero (mem_of_words hw hc)

theorem isToken_of_mem {w : CString} (hw : w ∈ tokensOf request) : IsToken w := by
  have hmem : w.bytes ∈ (tokensOf request).map CString.bytes := List.mem_map_of_mem hw
  rw [tokensOf_bytes] at hmem
  exact word_of_words hmem

theorem tokensOf_eq {ws : List CString} (h0 : (0 : Byte) ∉ request)
    (hws : words 32 request = ws.map CString.bytes) : tokensOf request = ws := by
  refine List.map_injective_iff.mpr (fun a b => CString.ext) ?_
  rw [tokensOf_bytes, CString.ofBytes_of_nonzero h0, hws]

/--
**`kvs_split_tokens` finds the tokens of a request**, in a buffer it leaves as long as it was;
without a token it leaves the buffer as it was.
-/
theorem kvsSplitTokens_spec (hlen : request.length ≤ clinetMsgLength) (hend : Terminated request)
    (hroom : (tokensOf request).length ≤ maxTokens) :
    ∃ tokens msg, kvsSplitTokens Tokens.null (requestBuf request) =
        .ok ((tokensOf request).length, tokens, msg) ∧
      msg.length = clinetMsgLength ∧ (tokensOf request = [] → msg = requestBuf request) ∧
      TokensRead msg tokens (tokensOf request) := by
  obtain ⟨tail, htail⟩ := requestBuf_reads hend
  have hwords := tokensOf_bytes request
  have hcount : (words 32 (CString.ofBytes request).bytes).length = (tokensOf request).length := by
    rw [← hwords, List.length_map]
  have hbuf : (requestBuf request).length = clinetMsgLength := by
    unfold requestBuf
    rw [List.length_append, List.length_replicate]
    omega
  rw [htail] at hbuf ⊢
  obtain ⟨tokens, msg, hsplit, hmsg, hsame, hold, hnew⟩ :=
    splitTokens_spec (((CString.ofBytes request).bytes ++ 0 :: tail).length + 1) tail Tokens.null 0
      [] (CString.ofBytes request).bytes (CString.ofBytes request).nonzero
      (by rw [List.length_append]; omega) (by omega)
  rw [Nat.zero_add, hcount, List.nil_append] at hsplit
  refine ⟨tokens, msg, hsplit, ?_, ?_, ?_⟩
  · rw [hmsg, ← hbuf, List.length_append, List.length_cons]
    omega
  · intro hnil
    exact hsame (by rw [← hwords, hnil]; rfl)
  · intro i hi
    by_cases hlt : i < (tokensOf request).length
    · obtain ⟨offset, rest, htok, hdrop⟩ :=
        hnew i (tokensOf request)[i].bytes (by simp [← hwords, hlt])
      rw [Nat.zero_add, Vector.getElem?_eq_getElem hi] at htok
      exact Or.inr ⟨_, offset, List.getElem?_eq_getElem hlt, Option.some.inj htok, rest, hdrop⟩
    · have htok := hold i (by omega)
      rw [Vector.getElem?_eq_getElem hi, Vector.getElem?_eq_getElem hi] at htok
      refine Or.inl ⟨List.getElem?_eq_none (by omega), (Option.some.inj htok).trans ?_⟩
      unfold Tokens.null
      exact Vector.getElem_replicate hi

theorem kvsSplitTokens_overflow (hend : Terminated request)
    (hmore : maxTokens < (tokensOf request).length) :
    kvsSplitTokens Tokens.null (requestBuf request) = .error .outOfBounds := by
  obtain ⟨tail, htail⟩ := requestBuf_reads hend
  rw [htail]
  refine splitTokens_overflow _ tail Tokens.null 0 [] (CString.ofBytes request).bytes
    (CString.ofBytes request).nonzero ?_ (Nat.zero_le _) ?_
  · rw [List.length_append]
    omega
  · rw [← tokensOf_bytes, List.length_map, Nat.zero_add]
    exact hmore

end Request

/-! ### Finding the command -/

/-- The first command of this name. -/
def commandOf (table : List (String × KvsCmd)) (w : List Byte) : Option KvsCmd :=
  (table.find? fun p => literal p.1 = w).map Prod.snd

theorem findCommand_spec {mem : List Byte} {w : CString} (h : Reads mem w)
    (table : List (String × KvsCmd)) (h0 : ∀ p ∈ table, (0 : Byte) ∉ literal p.1) :
    findCommand mem table = .ok (commandOf table w.bytes) := by
  induction table with
  | nil => rfl
  | cons p table ih =>
      obtain ⟨name, cmd⟩ := p
      have hname : Reads (literal name ++ [0]) ⟨literal name, h0 (name, cmd) (by simp)⟩ := ⟨[], rfl⟩
      obtain ⟨r, hr, -, heq⟩ := strcmp_spec h hname
      have hiff : r = 0 ↔ literal name = w.bytes := by
        rw [heq, CString.ext_iff, eq_comm]
      unfold findCommand commandOf
      rw [hr]
      show (if r = 0 then _ else _) = _
      by_cases hw : literal name = w.bytes
      · rw [if_pos (hiff.mpr hw), List.find?_cons_of_pos (by simpa using hw)]
        rfl
      · rw [if_neg (fun hc => hw (hiff.mp hc)), List.find?_cons_of_neg (by simpa using hw)]
        exact ih fun p hp => h0 p (List.mem_cons_of_mem _ hp)

/-- The command of the engine with the verb. -/
def Engine.command : Engine → Verb → KvsCmd
  | .array, .set => .set
  | .array, .get => .get
  | .array, .count => .count
  | .array, .delete => .delete
  | .array, .exist => .exist
  | .rbtree, .set => .rset
  | .rbtree, .get => .rget
  | .rbtree, .count => .rcount
  | .rbtree, .delete => .rdelete
  | .rbtree, .exist => .rexist
  | .hash, .set => .hset
  | .hash, .get => .hget
  | .hash, .count => .hcount
  | .hash, .delete => .hdelete
  | .hash, .exist => .hexist
  | .dhash, .set => .dset
  | .dhash, .get => .dget
  | .dhash, .count => .dcount
  | .dhash, .delete => .ddelete
  | .dhash, .exist => .dexist
  | .skiptable, .set => .zset
  | .skiptable, .get => .zget
  | .skiptable, .count => .zcount
  | .skiptable, .delete => .zdelete
  | .skiptable, .exist => .zexist

/-- A command without an implementation. -/
def KvsCmd.IsBtree (cmd : KvsCmd) : Prop :=
  cmd ∈ [KvsCmd.bset, .bget, .bcount, .bdelete, .bexist]

instance (cmd : KvsCmd) : Decidable cmd.IsBtree := inferInstanceAs (Decidable (_ ∈ _))

/-- The table of commands and the enumeration of their cases are aligned. -/
theorem commandOf_request (w : CString) :
    (∃ e v, requestOf w = some (e, v) ∧ commandOf commands w.bytes = some (e.command v)) ∨
      (requestOf w = none ∧ ∀ cmd, commandOf commands w.bytes = some cmd → cmd.IsBtree) := by
  cases hreq : requestOf w with
  | some p =>
      obtain ⟨e, v⟩ := p
      refine Or.inl ⟨e, v, rfl, ?_⟩
      rw [requestOf_eq_some.mp hreq]
      cases e <;> cases v <;> decide
  | none =>
      refine Or.inr ⟨rfl, ?_⟩
      intro cmd hcmd
      obtain ⟨p, hp, rfl⟩ := Option.map_eq_some_iff.mp hcmd
      have hw : literal p.1 = w.bytes := by simpa using List.find?_some hp
      have htable : ∀ p ∈ commands, p.2.IsBtree ∨
          ∃ q ∈ Engine.all.product Verb.all, requestWord q = literal p.1 := by decide
      rcases htable p (List.mem_of_find?_eq_some hp) with hb | ⟨q, hq, hqw⟩
      · exact hb
      · have hnone := List.find?_eq_none.mp hreq q hq
        rw [decide_eq_true_eq] at hnone
        exact absurd (hqw.trans hw) hnone

/-! ### The switch -/

section Cases

variable {τ : Type} {view : Store → τ} {update : Store → τ → Store} {msg : List Byte}

/-- A case that formats an `int`. -/
theorem intReply_run {k : Int → Prog Store (Int × List Byte)} {text : Answer → List Byte}
    (hk : ∀ i, k i = writeReply msg (text (.int i))) (x : Prog τ Int) (s : Store) :
    (zoom view update x >>= k).run s =
      (zoom view update (Answer.int <$> x) >>= fun r => writeReply msg (text r)).run s := by
  cases hx : x.run (view s) with
  | error e =>
      have hmap : (Answer.int <$> x).run (view s) = .error e := by
        rw [StateT.run_map, hx]
        rfl
      rw [run_bind_error (zoom_error hx), run_bind_error (zoom_error hmap)]
  | ok p =>
      rw [run_bind_ok (zoom_run hx), run_bind_ok (zoom_run (run_map_of Answer.int hx)), hk]

theorem resultReply_run {text : Answer → List Byte} (htext : ∀ i, text (.int i) = resultText i)
    (x : Prog τ Int) (s : Store) :
    (resultReply msg (zoom view update x)).run s =
      (zoom view update (Answer.int <$> x) >>= fun r => writeReply msg (text r)).run s := by
  refine intReply_run (fun i => ?_) x s
  rw [htext, resultText]
  by_cases hi : i = 0
  · rw [if_pos hi, if_pos hi]
  · rw [if_neg hi, if_neg hi]

theorem numberReply_run {text : Answer → List Byte} (htext : ∀ i, text (.int i) = numberText i)
    (x : Prog τ Int) (s : Store) :
    (numberReply msg (zoom view update x)).run s =
      (zoom view update (Answer.int <$> x) >>= fun r => writeReply msg (text r)).run s :=
  intReply_run (fun i => by rw [htext, numberText]) x s

/-- A case that formats the string behind a pointer, which may be null. -/
theorem valueReply_run (x : Prog τ (Option (List Byte))) (s : Store) :
    (valueReply msg (zoom view update x)).run s =
      (zoom view update (x >>= readAnswer) >>= fun r => writeReply msg (Verb.get.text r)).run s := by
  unfold valueReply
  cases hx : x.run (view s) with
  | error e =>
      have hread : (x >>= readAnswer).run (view s) = .error e := run_bind_error hx
      rw [run_bind_error (zoom_error hx), run_bind_error (zoom_error hread)]
  | ok p =>
      obtain ⟨r, t⟩ := p
      rw [run_bind_ok (zoom_run hx)]
      cases r with
      | none =>
          have hread : (x >>= readAnswer).run (view s) = .ok (.str none, t) := run_bind_of hx rfl
          rw [run_bind_ok (zoom_run hread)]
          rfl
      | some mem =>
          have hread : (x >>= readAnswer).run (view s) = (readAnswer (some mem)).run t :=
            run_bind_of hx rfl
          show (liftE (cstr mem) >>= _).run _ = _
          cases hmem : cstr mem with
          | error e =>
              rw [readAnswer, hmem] at hread
              rw [run_bind_error (zoom_error (e := e) hread)]
              rfl
          | ok w =>
              rw [readAnswer, hmem] at hread
              rw [run_bind_ok (zoom_run (a := Answer.str (some w)) (t := t) hread)]
              rfl

/-- The same for the engines that return a string of their own. -/
theorem valueReply_str_run (x : Prog τ (Option CString)) (s : Store) :
    (valueReply msg (Option.map CString.mem <$> zoom view update x)).run s =
      (zoom view update (Answer.str <$> x) >>= fun r => writeReply msg (Verb.get.text r)).run s := by
  unfold valueReply
  cases hx : x.run (view s) with
  | error e =>
      have hmap : (Answer.str <$> x).run (view s) = .error e := by
        rw [StateT.run_map, hx]
        rfl
      have hmem : (Option.map CString.mem <$> zoom view update x).run s = .error e := by
        rw [StateT.run_map, zoom_error hx]
        rfl
      rw [run_bind_error hmem, run_bind_error (zoom_error hmap)]
  | ok p =>
      obtain ⟨r, t⟩ := p
      rw [run_bind_ok (run_map_of _ (zoom_run hx)), run_bind_ok (zoom_run (run_map_of Answer.str hx))]
      cases r with
      | none => rfl
      | some w =>
          show (liftE (cstr w.mem) >>= _).run _ = _
          rw [cstr_of_reads w.reads_mem]
          rfl

end Cases

/-- **Every case of the switch formats what the engine's function returns.** -/
theorem runCommand_run (msg : List Byte) (count : Nat) (key value : Option CString) (e : Engine)
    (v : Verb) (hcount : (e, v) = (.array, .set) → count = 3) (s : Store) :
    (runCommand msg count key value (e.command v)).run s =
      (Store.op key value e v >>= fun r => writeReply msg (v.text r)).run s := by
  cases v with
  | set =>
      cases e
      -- The assertion of `SET`: the message has three tokens.
      case array =>
        unfold Engine.command runCommand
        rw [if_pos (hcount rfl)]
        exact resultReply_run (fun _ => rfl) _ s
      all_goals exact resultReply_run (fun _ => rfl) _ s
  | get =>
      cases e
      case array | dhash => exact valueReply_str_run _ s
      all_goals exact valueReply_run _ s
  | count => cases e <;> exact numberReply_run (fun _ => rfl) _ s
  | delete => cases e <;> exact resultReply_run (fun _ => rfl) _ s
  | exist => cases e <;> exact numberReply_run (fun _ => rfl) _ s

/-! ### Any message -/

theorem kvsParserProtocol_run {msg : List Byte} {tokens : Tokens} {ws : List CString}
    (h : TokensRead msg tokens ws) (s : Store) :
    (kvsParserProtocol msg tokens ws.length).run s = (dispatch msg ws).run s := by
  unfold kvsParserProtocol
  cases ws with
  | nil =>
      obtain ⟨-, hfirst⟩ := (h 0 (by decide)).resolve_right (by simp)
      rw [hfirst]
      rfl
  | cons w args =>
      obtain ⟨w', first, hw, hfirst, hreads⟩ := (h 0 (by decide)).resolve_left (by simp)
      obtain rfl : w = w' := by simpa using hw
      rw [hfirst]
      refine run_ite_neg (by simp) ?_
      rw [findCommand_spec hreads commands (by decide), dispatch]
      refine run_bind_of (run_liftE_ok _ s) ?_
      have hargs : ∀ cmd, (do
          let key ← liftE (tokenString msg tokens[1])
          let value ← liftE (tokenString msg tokens[2])
          runCommand msg (args.length + 1) key value cmd).run s =
            (runCommand msg (args.length + 1) args[0]? args[1]? cmd).run s := by
        intro cmd
        rw [h.string (by decide), h.string (by decide)]
        exact run_bind_of (run_liftE_ok _ s) (run_bind_of (run_liftE_ok _ s) rfl)
      rcases commandOf_request w with ⟨e, v, hreq, hcmd⟩ | ⟨hreq, hbtree⟩
      · rw [hreq, hcmd]
        refine (hargs _).trans ?_
        by_cases hassert : (e, v) = (.array, .set) ∧ args.length ≠ 2
        · obtain ⟨rfl, rfl⟩ := Prod.mk.inj hassert.1
          refine (run_ite_neg ?_ rfl).trans (run_ite_pos hassert rfl).symm
          omega
        · refine (runCommand_run _ _ _ _ e v ?_ s).trans (run_ite_neg hassert rfl).symm
          intro hset
          by_contra hc
          exact hassert ⟨hset, by omega⟩
      · rw [hreq]
        cases hcmd : commandOf commands w.bytes with
        | none => rfl
        | some cmd =>
            refine (hargs _).trans ?_
            have hb := hbtree cmd hcmd
            cases cmd <;> first | rfl | exact absurd hb (by decide)

/-- **`kvs_protocol` dispatches the tokens of the message**, if there are no more than 32. -/
theorem kvsProtocolOn_run {request : List Byte} (hlen : request.length < clinetMsgLength)
    (hroom : (tokensOf request).length ≤ maxTokens) :
    ∃ msg, msg.length = clinetMsgLength ∧ (tokensOf request = [] → msg = requestBuf request) ∧
      ∀ s, (kvsProtocolOn request).run s = (dispatch msg (tokensOf request)).run s := by
  obtain ⟨tokens, msg, hsplit, hmsg, hsame, hread⟩ :=
    kvsSplitTokens_spec (Nat.le_of_lt hlen) (Or.inl hlen) hroom
  refine ⟨msg, hmsg, hsame, ?_⟩
  intro s
  unfold kvsProtocolOn kvsProtocol
  rw [hsplit]
  exact run_bind_of (run_liftE_ok _ s) (kvsParserProtocol_run hread s)

/-- More tokens than the array has entries are written behind it. -/
theorem kvsProtocolOn_overflow {request : List Byte} (hlen : request.length < clinetMsgLength)
    (hmore : maxTokens < (tokensOf request).length) (s : Store) :
    (kvsProtocolOn request).run s = .error .outOfBounds := by
  unfold kvsProtocolOn kvsProtocol
  rw [kvsSplitTokens_overflow (Or.inl hlen) hmore]
  rfl

/-! ### What a message does -/

/-- The buffer with as much of the text as leaves room for a NUL. -/
def replyBuf (text : List Byte) : List Byte :=
  text.take (clinetMsgLength - 1) ++
    List.replicate (clinetMsgLength - (text.take (clinetMsgLength - 1)).length) 0

theorem length_replyBuf (text : List Byte) : (replyBuf text).length = clinetMsgLength := by
  unfold replyBuf
  rw [List.length_append, List.length_replicate, List.length_take]
  omega

theorem take_replyBuf {text : List Byte} (h : text.length < clinetMsgLength) :
    (replyBuf text).take text.length = text := by
  have hfits : text.take (clinetMsgLength - 1) = text := List.take_of_length_le (by omega)
  unfold replyBuf
  rw [hfits, List.take_left]

theorem writeReply_run {msg : List Byte} (s : Store) (hmsg : msg.length = clinetMsgLength)
    (text : List Byte) : (writeReply msg text).run s = .ok ((text.length, replyBuf text), s) := by
  unfold writeReply
  simp only
  rw [if_pos (Nat.le_of_eq hmsg.symm), ← hmsg, List.drop_length, List.append_nil, hmsg]
  rfl

/-- The text for an `int`. -/
theorem numberText_length {i : Int} (h : i.natAbs ≤ 2147483648) : (numberText i).length ≤ 13 := by
  have hdigits : (Nat.toDigits 10 i.natAbs).length ≤ 10 :=
    (Nat.length_toDigits_le_iff (by decide) (by decide)).mpr (by omega)
  have hsign : (if i < 0 then literal "-" else []).length ≤ 1 := by
    by_cases hi : i < 0
    · rw [if_pos hi]
      decide
    · rw [if_neg hi]
      decide
  have hend : (literal "\x0d\n").length = 2 := by decide
  unfold numberText decimal
  rw [List.length_append, List.length_append, List.length_map, hend]
  omega

theorem resultText_length (i : Int) : (resultText i).length ≤ 9 := by
  unfold resultText
  by_cases hi : i = 0
  · rw [if_pos hi]
    decide
  · rw [if_neg hi]
    decide

section Messages

variable {request : List Byte} {s s' : Store} {e : Engine} {v : Verb}

theorem requestIn_eq_some (h : requestIn request = some (e, v)) :
    ∃ w args, tokensOf request = w :: args ∧ requestOf w = some (e, v) := by
  unfold requestIn at h
  cases hws : tokensOf request with
  | nil =>
      rw [hws] at h
      cases h
  | cons w args =>
      rw [hws] at h
      exact ⟨w, args, rfl, h⟩

/-- A message that asks for nothing that there is. -/
theorem kvsProtocolOn_none (hlen : request.length < clinetMsgLength)
    (hroom : (tokensOf request).length ≤ maxTokens) (hreq : requestIn request = none) :
    ∃ msg, (tokensOf request = [] → msg = requestBuf request) ∧ ∀ s, (kvsProtocolOn request).run s =
      .ok ((if tokensOf request = [] then kvsCmdError else 0, msg), s) := by
  obtain ⟨msg, -, hsame, hrun⟩ := kvsProtocolOn_run hlen hroom
  refine ⟨msg, hsame, ?_⟩
  intro s
  rw [hrun]
  unfold requestIn at hreq
  cases hws : tokensOf request with
  | nil =>
      rw [if_pos rfl]
      rfl
  | cons w args =>
      rw [hws] at hreq
      rw [if_neg (by simp), dispatch, show requestOf w = none from hreq]
      rfl

/-- A message that asks for a function of an engine. -/
theorem kvsProtocolOn_op (hlen : request.length < clinetMsgLength)
    (hroom : (tokensOf request).length ≤ maxTokens) (hreq : requestIn request = some (e, v))
    (hset : (e, v) = (.array, .set) → (tokensOf request).length = 3) (s : Store) :
    (kvsProtocolOn request).run s = (do
      let r ← Store.op (tokensOf request)[1]? (tokensOf request)[2]? e v
      return (((v.text r).length : Int), replyBuf (v.text r))).run s := by
  obtain ⟨msg, hmsg, -, hrun⟩ := kvsProtocolOn_run hlen hroom
  obtain ⟨w, args, hws, hw⟩ := requestIn_eq_some hreq
  rw [hws, List.length_cons] at hset
  rw [hrun, hws, dispatch, hw]
  refine run_ite_neg ?_ ?_
  · rintro ⟨hp, hargs⟩
    exact hargs (Nat.succ.inj (hset hp))
  · rw [List.getElem?_cons_succ, List.getElem?_cons_succ]
    cases hop : (Store.op args[0]? args[1]? e v).run s with
    | error f => rw [run_bind_error hop, run_bind_error hop]
    | ok p => rw [run_bind_ok hop, run_bind_ok hop, writeReply_run p.2 hmsg, run_pure]

/-- The assertion of `SET`. -/
theorem kvsProtocolOn_assert (hlen : request.length < clinetMsgLength)
    (hroom : (tokensOf request).length ≤ maxTokens) (hreq : requestIn request = some (.array, .set))
    (hcount : (tokensOf request).length ≠ 3) (s : Store) :
    (kvsProtocolOn request).run s = .error .assertFailed := by
  obtain ⟨msg, -, -, hrun⟩ := kvsProtocolOn_run hlen hroom
  obtain ⟨w, args, hws, hw⟩ := requestIn_eq_some hreq
  rw [hws, List.length_cons] at hcount
  rw [hrun, hws, dispatch, hw]
  exact run_ite_pos ⟨rfl, fun hc => hcount (congrArg Nat.succ hc)⟩ rfl

/-- A message that returns has no more tokens than there is room for. -/
theorem tokens_le_of_run (hlen : request.length < clinetMsgLength) {r : Int × List Byte}
    (h : (kvsProtocolOn request).run s = .ok (r, s')) : (tokensOf request).length ≤ maxTokens := by
  by_contra hc
  rw [kvsProtocolOn_overflow hlen (Nat.lt_of_not_le hc)] at h
  cases h

/-- **What `kvs_protocol` has done when it returns.** -/
theorem kvsProtocolOn_inv (hlen : request.length < clinetMsgLength) {ret : Int} {buf : List Byte}
    (h : (kvsProtocolOn request).run s = .ok ((ret, buf), s')) :
    (requestIn request = none ∧ s' = s ∧ (tokensOf request = [] → buf = requestBuf request) ∧
      ret = if tokensOf request = [] then kvsCmdError else 0) ∨
    ∃ e v r, requestIn request = some (e, v) ∧
      ((e, v) = (.array, .set) → (tokensOf request).length = 3) ∧
      (Store.op (tokensOf request)[1]? (tokensOf request)[2]? e v).run s = .ok (r, s') ∧
      ret = (v.text r).length ∧ buf = replyBuf (v.text r) := by
  have hroom := tokens_le_of_run hlen h
  cases hreq : requestIn request with
  | none =>
      obtain ⟨msg, hsame, hrun⟩ := kvsProtocolOn_none hlen hroom hreq
      rw [hrun] at h
      cases h
      exact Or.inl ⟨rfl, rfl, hsame, rfl⟩
  | some p =>
      obtain ⟨e, v⟩ := p
      have hset : (e, v) = (.array, .set) → (tokensOf request).length = 3 := by
        intro hp
        rw [hp] at hreq
        by_contra hc
        rw [kvsProtocolOn_assert hlen hroom hreq hc] at h
        cases h
      rw [kvsProtocolOn_op hlen hroom hreq hset] at h
      obtain ⟨r, s₁, hop, h⟩ := run_bind_inv h
      cases h
      exact Or.inr ⟨e, v, r, rfl, hset, hop, rfl, rfl⟩

end Messages

/-! ### A request -/

theorem words_spells {ws : List (List Byte)} {msg : List Byte} (h : Spells ws msg)
    (hws : ∀ w ∈ ws, w ≠ [] ∧ (32 : Byte) ∉ w) : words 32 msg = ws := by
  induction h with
  | last w =>
      obtain ⟨hne, hsp⟩ := hws w (by simp)
      exact words_single hne hsp
  | more w n h ih =>
      obtain ⟨hne, hsp⟩ := hws w (by simp)
      rw [List.append_assoc, List.replicate_succ, List.cons_append, words_append hne hsp,
        words_replicate, ih fun w' hw' => hws w' (List.mem_cons_of_mem _ hw')]

theorem nonzero_spells {ws : List (List Byte)} {msg : List Byte} (h : Spells ws msg)
    (hws : ∀ w ∈ ws, (0 : Byte) ∉ w) : (0 : Byte) ∉ msg := by
  induction h with
  | last w => exact hws w (by simp)
  | more w n h ih =>
      have hw := hws w (by simp)
      have hrest := ih fun w' hw' => hws w' (List.mem_cons_of_mem _ hw')
      simp [hw, hrest]

theorem commandWord_token (e : Engine) (c : Call) :
    commandWord e c ≠ [] ∧ (32 : Byte) ∉ commandWord e c ∧ (0 : Byte) ∉ commandWord e c := by
  unfold commandWord
  cases e <;> cases c <;> simp only [Engine.letter, Call.verb] <;> decide

/-- The tokens of a request. -/
def requestTokens (e : Engine) (c : Call) : List CString :=
  ⟨commandWord e c, (commandWord_token e c).2.2⟩ :: c.args

theorem requestTokens_length (e : Engine) (c : Call) : (requestTokens e c).length ≤ maxTokens := by
  unfold requestTokens maxTokens
  cases c <;> simp [Call.args]

section Calls

variable {e : Engine} {c : Call} {s s' : Store} {r : Answer} {msg text : List Byte}

theorem Encodes.words (h : Encodes e c msg) (hargs : ∀ a ∈ c.args, IsToken a) :
    words 32 msg = (requestTokens e c).map CString.bytes := by
  refine words_spells h.1 ?_
  intro w hw
  rcases List.mem_cons.mp hw with rfl | hw
  · exact ⟨(commandWord_token e c).1, (commandWord_token e c).2.1⟩
  · obtain ⟨a, ha, rfl⟩ := List.mem_map.mp hw
    exact hargs a ha

theorem Encodes.nonzero (h : Encodes e c msg) : (0 : Byte) ∉ msg := by
  refine nonzero_spells h.1 ?_
  intro w hw
  rcases List.mem_cons.mp hw with rfl | hw
  · exact (commandWord_token e c).2.2
  · obtain ⟨a, -, rfl⟩ := List.mem_map.mp hw
    exact a.nonzero

theorem Encodes.tokens (h : Encodes e c msg) (hargs : ∀ a ∈ c.args, IsToken a) :
    tokensOf msg = requestTokens e c := tokensOf_eq h.nonzero (h.words hargs)

/-- The tokens of a call that the engine answers. -/
theorem dispatch_call (hcall : (Store.call e c).run s = .ok (r, s')) (buf : List Byte) :
    (dispatch buf (requestTokens e c)).run s = (writeReply buf (answerText c r)).run s' := by
  have hreq : requestOf ⟨commandWord e c, (commandWord_token e c).2.2⟩ = some (e, c.kind) :=
    requestOf_eq_some.mpr (by cases c <;> rfl)
  rw [requestTokens, dispatch, hreq]
  refine run_ite_neg ?_ ?_
  · rintro ⟨hset, hcount⟩
    cases c <;> first | exact hcount rfl | cases hset
  · rw [Store.op_call c.kind_call e]
    refine run_bind_of hcall ?_
    rw [c.kind_text]

/-- A message that encodes a call makes it. -/
theorem kvsProtocolOn_call (henc : Encodes e c msg) (hargs : ∀ a ∈ c.args, IsToken a)
    (hcall : (Store.call e c).run s = .ok (r, s')) :
    (kvsProtocolOn msg).run s =
      .ok (((answerText c r).length, replyBuf (answerText c r)), s') := by
  have hlen : msg.length < clinetMsgLength := henc.2
  obtain ⟨buf, hbuf, -, hrun⟩ := kvsProtocolOn_run hlen
    (by rw [henc.tokens hargs]; exact requestTokens_length e c)
  rw [hrun, henc.tokens hargs, dispatch_call hcall]
  exact writeReply_run s' hbuf _

/--
**Serving a message makes the call it encodes**, and sends the text for what the engine
answers.
-/
theorem serveRequest_run (henc : Encodes e c msg) (hargs : ∀ a ∈ c.args, IsToken a)
    (hcall : (Store.call e c).run s = .ok (r, s'))
    (htext : (answerText c r).length < clinetMsgLength) :
    (serveRequest msg).run s = .ok (answerText c r, s') := by
  unfold serveRequest
  refine run_bind_of (kvsProtocolOn_call henc hargs hcall) (run_ite_pos ?_ ?_)
  · rw [Int.toNat_natCast, length_replyBuf]
    exact Nat.le_of_lt htext
  · rw [Int.toNat_natCast, take_replyBuf htext]
    rfl

end Calls

end KvStore
