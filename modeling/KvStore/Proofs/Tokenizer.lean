/-
Which messages the tokenizer can take.

`recv` may fill all 1024 bytes of the buffer, and then nothing ends the text but a NUL the
client sent.  Without one, `strtok` goes from word to word and in the end reads behind the
buffer; it returns null only at a NUL, so the loop of `kvs_split_tokens` is not left before.
And nothing bounds the number of words by the 32 entries there are for them.  In all other
cases the tokens are the words of the text.
-/
import KvStore.Proofs.Protocol

namespace KvStore

/--
`kvs_split_tokens` stays inside the buffer and inside the array, and what it returns are the
maximal runs of bytes other than a space, in front of the first NUL and in order.
-/
def TokenizerExact (request : List Byte) : Prop :=
  ∃ tokens msg, kvsSplitTokens Tokens.null (requestBuf request) =
      .ok ((tokensOf request).length, tokens, msg) ∧
    TokensRead msg tokens (tokensOf request)

/-- The loop is not left where the string has no end. -/
theorem splitTokens_unterminated (fuel : Nat) :
    ∀ (tokens : Tokens) (count : Nat) (front s : List Byte), (0 : Byte) ∉ s →
      ∃ e, splitTokens fuel tokens count (front ++ s) front.length = .error e := by
  induction fuel with
  | zero => exact fun _ _ _ _ _ => ⟨_, rfl⟩
  | succ fuel ih =>
      intro tokens count front s h0
      unfold splitTokens
      rcases strtok_unterminated (by decide : (32 : Byte) ≠ 0) front s h0 with
        hrun | ⟨start, more, s', h0', hrun⟩
      · rw [hrun]
        exact ⟨_, rfl⟩
      · rw [hrun]
        by_cases hc : count < maxTokens
        · obtain ⟨e, he⟩ := ih (tokens.set count (some start)) (count + 1) (front ++ more) s' h0'
          refine ⟨e, ?_⟩
          show (if h : count < maxTokens then _ else _) = _
          rw [dif_pos hc]
          exact he
        · refine ⟨.outOfBounds, ?_⟩
          show (if h : count < maxTokens then _ else _) = _
          rw [dif_neg hc]

section Request

variable {request : List Byte}

theorem not_exact_of_error {e : Fault}
    (h : kvsSplitTokens Tokens.null (requestBuf request) = .error e) : ¬ TokenizerExact request := by
  rintro ⟨tokens, msg, hrun, -⟩
  rw [h] at hrun
  cases hrun

/-- A full buffer without a NUL is read past its end. -/
theorem not_exact_of_unterminated (hend : ¬ Terminated request) : ¬ TokenizerExact request := by
  rw [Terminated, not_or, not_lt] at hend
  have hbuf : requestBuf request = [] ++ request := by
    rw [requestBuf, Nat.sub_eq_zero_of_le hend.1, List.replicate_zero, List.append_nil,
      List.nil_append]
  obtain ⟨e, he⟩ := splitTokens_unterminated ((requestBuf request).length + 1) Tokens.null 0 []
    request hend.2
  refine not_exact_of_error (e := e) ?_
  rw [← hbuf] at he
  exact he

/-- More than 32 words do not fit the array. -/
theorem not_exact_of_many (hend : Terminated request)
    (hmore : maxTokens < (tokensOf request).length) : ¬ TokenizerExact request :=
  not_exact_of_error (kvsSplitTokens_overflow hend hmore)

end Request

/--
**The tokenizer is exact and stays within its arrays exactly when the received bytes leave a
NUL in the buffer and hold at most 32 words**, among all that `recv` can deliver.
-/
theorem tokenizer_exact_iff (request : List Byte) (hlen : request.length ≤ clinetMsgLength) :
    TokenizerExact request ↔
      (request.length < clinetMsgLength ∨ (0 : Byte) ∈ request) ∧
        (tokensOf request).length ≤ maxTokens := by
  constructor
  · intro hexact
    have hend : Terminated request := by
      by_contra hc
      exact not_exact_of_unterminated hc hexact
    refine ⟨hend, ?_⟩
    by_contra hc
    exact not_exact_of_many hend (not_le.mp hc) hexact
  · rintro ⟨hend, hroom⟩
    obtain ⟨tokens, msg, hsplit, -, -, hread⟩ := kvsSplitTokens_spec hlen hend hroom
    exact ⟨tokens, msg, hsplit, hread⟩

/-- Words between several spaces, and a NUL with bytes behind it. -/
theorem tokenizer_exact_iff_gaps :
    let request : List Byte := literal " SET  k v " ++ [0, 97]
    TokenizerExact request ∧ (tokensOf request).length = 3 := by
  intro request
  have hwords : (tokensOf request).length = 3 := by decide
  refine ⟨(tokenizer_exact_iff request (by decide)).mpr ⟨Or.inl (by decide), ?_⟩, hwords⟩
  rw [hwords]
  decide

/-- A message that fills the buffer, and a short one with 33 words. -/
theorem tokenizer_fails_at_limits :
    ¬ TokenizerExact (List.replicate 1024 97) ∧
      ¬ TokenizerExact (List.replicate 33 [97, 32]).flatten := by
  refine ⟨not_exact_of_unterminated ?_, not_exact_of_many (Or.inl (by decide)) (by decide)⟩
  rw [Terminated, List.length_replicate]
  rintro (hc | hc)
  · exact absurd hc (by decide)
  · exact absurd (List.eq_of_mem_replicate hc) (by decide)

end KvStore
