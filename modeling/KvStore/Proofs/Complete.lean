/-
Replies are complete.

`snprintf` returns the length the text has, whether it was cut off or not, and `server_reader`
sends that many bytes.  So no reply may be longer than the buffer, and for the engines that
keep strings of any length this is a matter of what earlier messages could carry: a value came
behind a command and a key.  With the contents that the messages have built up, the reply to
a `GET` is known in full.

A counter is a C `int`, and its text is short.  The model's counters are unbounded, so for
`COUNT` this is said for the states in which they are `int`s; every run of fewer than 2^31
messages leads to such a state.
-/
import KvStore.Proofs.Reply

namespace KvStore

/-- The arguments fit the fields of the engine; the array and the second hash have none. -/
def Call.FitsFields : Engine → Call → Prop
  | .array, _ | .dhash, _ => True
  | .rbtree, c | .hash, c | .skiptable, c => c.Fits ∧ c.AsciiKey

/-- The message carries the arguments of its command, and they fit the engine. -/
structure Carries (request : List Byte) : Prop where
  short : request.length < clinetMsgLength
  room : (tokensOf request).length ≤ maxTokens
  args : ∀ e v, requestIn request = some (e, v) →
    ∃ c, v.call (tokensOf request)[1]? (tokensOf request)[2]? = some c ∧ c.FitsFields e
  set : requestIn request = some (.array, .set) → (tokensOf request).length = 3

theorem Carries.served {request : List Byte} (h : Carries request) : Served request := by
  refine ⟨h.short, h.room, ?_, h.set⟩
  intro e v hreq
  obtain ⟨c, hcall, hfits⟩ := h.args e v hreq
  refine ⟨c, hcall, ?_⟩
  cases e with
  | array | dhash => trivial
  | rbtree | hash | skiptable => exact hfits.1.suits hfits.2 _

/--
`kvs_protocol` returns the length of `text`, which is all in the buffer and not empty, and
`send` takes it from there.
-/
structure Replies (s : Store) (request text : List Byte) (s' : Store) : Prop where
  returns : ∃ buf, (kvsProtocolOn request).run s = .ok (((text.length : Int), buf), s') ∧
    buf.length = clinetMsgLength ∧ buf.take text.length = text
  positive : 0 < text.length
  fits : text.length ≤ clinetMsgLength - 1
  sent : (serveRequest request).run s = .ok (text, s')

theorem Replies.of_run {s s' : Store} {request text : List Byte}
    (hrun : (kvsProtocolOn request).run s = .ok (((text.length : Int), replyBuf text), s'))
    (hline : EndsLine text) (hfits : text.length < clinetMsgLength) :
    Replies s request text s' := by
  refine ⟨⟨replyBuf text, hrun, length_replyBuf text, take_replyBuf hfits⟩, hline.length,
    Nat.le_sub_one_of_lt hfits, ?_⟩
  refine run_bind_of hrun (run_ite_pos ?_ ?_)
  · rw [Int.toNat_natCast, length_replyBuf]
    exact Nat.le_of_lt hfits
  · rw [Int.toNat_natCast, take_replyBuf hfits]
    rfl

/-- Counters that are not beyond an `int`. -/
theorem Holding.intCounters {s : Store} {C : Contents} (h : Holding s C)
    (hcount : ∀ e, (C.count e).natAbs ≤ 2147483647) : IntCounters s := by
  intro e i hi
  have hsuits : Call.count.Suits e := by cases e <;> trivial
  obtain ⟨s', hrun, -⟩ := h.call hsuits
  rw [C.step_count e] at hrun
  cases hi.unique ⟨s', hrun⟩
  have hle := hcount e
  omega

/--
**No reply is cut off, and `send` reads no further than the reply.**  After every run of
messages from fresh engines, a further message that asks an engine for something is answered
by the text its case formats, of which every byte is in the buffer; and if the engine stores a
value for the key of a `GET`, then the text is this value, complete, and the end of the line.
-/
theorem replies_complete (rand : Nat → Nat) :
    ∃ s₀, (initKvengine (Vector.replicate maxTableSize []) .ignored).run (Store.static rand) =
        .ok ((), s₀) ∧
      ∀ requests : List (List Byte), (∀ request ∈ requests, Carries request) →
        ∃ rs s, (runCalls kvsProtocolOn requests).run s₀ = .ok (rs, s) ∧
          (requests.length < 2147483648 → IntCounters s) ∧
          ∀ request e v, Carries request → requestIn request = some (e, v) →
            (v = .count → IntCounters s) →
            ∃ text s', Replies s request text s' ∧ ReplyText s request text ∧
              ∀ k w, v = .get → (tokensOf request)[1]? = some k →
                (contentsAfter requests).lookup e k = some w →
                text = w.bytes ++ literal "\x0d\n" := by
  obtain ⟨s₀, hinit, hfresh⟩ := initKvengine_spec rand .ignored (by decide)
  refine ⟨s₀, hinit, ?_⟩
  intro requests hr
  obtain ⟨rs, s, hrun, hs⟩ := hfresh.holding.run requests fun r hmem => (hr r hmem).served
  change Holding s (contentsAfter requests) at hs
  have hshort : ShortValues s :=
    hfresh.shortValues.run (fun r hmem => (hr r hmem).short) hrun
  refine ⟨rs, s, hrun, ?_, ?_⟩
  · intro hlen
    refine hs.intCounters fun e => ?_
    have hle := contentsAfter_count requests e
    omega
  · intro request e v hcarries hreq hint
    obtain ⟨c, s', hcall, hop, hproto, -⟩ := hs.message_call hcarries.served hreq
    have hop' := hop
    rw [← Store.op_call hcall e] at hop'
    obtain ⟨hline, hfits⟩ := (op_formats hshort hint hop').line
    refine ⟨_, s', .of_run hproto hline hfits, ⟨e, v, _, s', hreq, hop', rfl⟩, ?_⟩
    rintro k w rfl hk hw
    rw [hk] at hcall
    cases hcall
    rw [Contents.step_get hw]
    rfl

/-- A value is set, and the `GET` that follows is answered with all of it. -/
theorem replies_complete_get :
    ∃ s₀ rs s s',
      (initKvengine (Vector.replicate maxTableSize []) .ignored).run (Store.static fun _ => 0) =
        .ok ((), s₀) ∧
      (runCalls kvsProtocolOn [literal "DSET k value"]).run s₀ = .ok (rs, s) ∧
      Replies s (literal "DGET k") (literal "value\x0d\n") s' := by
  have hset : requestIn (literal "DSET k value") = some (.dhash, .set) := by decide
  have hget : requestIn (literal "DGET k") = some (.dhash, .get) := by decide
  have hset' : Carries (literal "DSET k value") := by
    refine ⟨by decide, by decide, ?_, by decide⟩
    intro e v hreq
    rw [hset] at hreq
    cases hreq
    exact ⟨.put ⟨literal "k", by decide⟩ ⟨literal "value", by decide⟩, by decide, trivial⟩
  have hget' : Carries (literal "DGET k") := by
    refine ⟨by decide, by decide, ?_, by decide⟩
    intro e v hreq
    rw [hget] at hreq
    cases hreq
    exact ⟨.get ⟨literal "k", by decide⟩, by decide, trivial⟩
  obtain ⟨s₀, hinit, h⟩ := replies_complete fun _ => 0
  obtain ⟨rs, s, hrun, -, hreply⟩ := h [literal "DSET k value"] (by simpa using hset')
  obtain ⟨text, s', hreplies, -, htext⟩ := hreply _ _ _ hget' hget (fun hc => by cases hc)
  rw [htext ⟨literal "k", by decide⟩ ⟨literal "value", by decide⟩ rfl (by decide) (by decide)]
    at hreplies
  exact ⟨s₀, rs, s, s', hinit, hrun, hreplies⟩

end KvStore
