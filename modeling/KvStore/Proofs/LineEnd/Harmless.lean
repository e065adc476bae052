/-
What a line end does to a message.

A telnet client ends every line by CR and LF, and neither is a delimiter of
`kvs_split_tokens`: the two bytes become part of the last token, or a token of their own if
the line ends in a space.  So the message with the line end means the same if the function
behind the command does not look at that token.  `Harmless` spells this out, and
`Harmless.same` says that it is enough.
-/
import KvStore.Proofs.Reply

namespace KvStore

/-- What telnet sends at the end of a line. -/
def lineEnd : List Byte := literal "\x0d\n"

theorem lineEnd_eq : lineEnd = [13, 10] := by decide

@[simp] theorem lineEnd_length : lineEnd.length = 2 := by decide

theorem notMem_lineEnd {b : Byte} {m : List Byte} (h : b ∉ m) (hb : b ∉ lineEnd) :
    b ∉ m ++ lineEnd := by
  rw [List.mem_append]
  exact not_or.mpr ⟨h, hb⟩

/-- The string with the line end behind it. -/
def CString.withLineEnd (w : CString) : CString :=
  ⟨w.bytes ++ lineEnd, notMem_lineEnd w.nonzero (by decide)⟩

theorem CString.withLineEnd_length (w : CString) :
    w.withLineEnd.bytes.length = w.bytes.length + 2 := by
  show (w.bytes ++ lineEnd).length = _
  rw [List.length_append, lineEnd_length]

/--
If the message returns, then the message with the line end sends the same, and the states it
leaves the engines in are the same in the sense of `R`.
-/
def SameOutcome (R : Store → Store → Prop) (s : Store) (m : List Byte) : Prop :=
  ∀ ret buf s₁, (kvsProtocolOn m).run s = .ok ((ret, buf), s₁) →
    ∃ ret' buf' s₂, (kvsProtocolOn (m ++ lineEnd)).run s = .ok ((ret', buf'), s₂) ∧
      buf'.take ret'.toNat = buf.take ret.toNat ∧ R s₁ s₂

/-- The engines have the same contents, as far as a call can tell. -/
def SameContents (s₁ s₂ : Store) : Prop :=
  ∀ e c r, Gives (Store.call e c) s₁ r ↔ Gives (Store.call e c) s₂ r

/-! ### Where the line end goes -/

/-- The index of the token that the line end becomes part of. -/
def lineEndToken (m : List Byte) : Nat :=
  if m.getLast? = some 32 then (tokensOf m).length else (tokensOf m).length - 1

section Tokens

variable {m : List Byte}

/-- A NUL hides the line end. -/
theorem tokensOf_hidden (h0 : (0 : Byte) ∈ m) : tokensOf (m ++ lineEnd) = tokensOf m := by
  have htext : CString.ofBytes (m ++ lineEnd) = CString.ofBytes m :=
    Reads.unique (CString.reads_ofBytes (List.mem_append_left _ h0))
      ((CString.reads_ofBytes h0).append _)
  unfold tokensOf
  rw [htext]

theorem tokensOf_lineEnd (h0 : (0 : Byte) ∉ m) :
    (tokensOf (m ++ lineEnd) = tokensOf m ++ [CString.empty.withLineEnd] ∧
      (m = [] ∨ m.getLast? = some 32)) ∨
    ∃ A w, tokensOf m = A ++ [w] ∧ tokensOf (m ++ lineEnd) = A ++ [w.withLineEnd] ∧
      m.getLast? ≠ some 32 := by
  have h0' : (0 : Byte) ∉ m ++ lineEnd := notMem_lineEnd h0 (by decide)
  have hwords := tokensOf_bytes m
  rw [CString.ofBytes_of_nonzero h0] at hwords
  rcases words_append_word (d := 32) (t := lineEnd) (by decide) (by decide) m with
    ⟨h, hlast⟩ | ⟨A, w, hA, h, hlast⟩
  · refine Or.inl ⟨tokensOf_eq h0' ?_, hlast⟩
    rw [h, ← hwords, List.map_append]
    rfl
  · rw [hA] at hwords
    obtain ⟨B, C, hB, hBA, hCw⟩ := List.map_eq_append_iff.mp hwords
    obtain ⟨w', hw', rfl⟩ : ∃ w', C = [w'] ∧ w'.bytes = w := by
      match C, hCw with
      | [w'], hCw => exact ⟨w', rfl, (List.cons.inj hCw).1⟩
    refine Or.inr ⟨B, w', by rw [hB, hw'], tokensOf_eq h0' ?_, hlast⟩
    rw [h, ← hBA, List.map_append]
    rfl

/-- The tokens in front of the line end are the same, and it comes behind what there was. -/
theorem tokens_lineEnd (h0 : (0 : Byte) ∉ m) (hne : tokensOf m ≠ []) :
    (tokensOf (m ++ lineEnd)).length = lineEndToken m + 1 ∧
      (∀ i, i < lineEndToken m → (tokensOf (m ++ lineEnd))[i]? = (tokensOf m)[i]?) ∧
      ∃ w : CString, (tokensOf (m ++ lineEnd))[lineEndToken m]? = some w.withLineEnd ∧
        ((tokensOf m).length = lineEndToken m ∧ w = CString.empty ∨
          (tokensOf m)[lineEndToken m]? = some w) := by
  rcases tokensOf_lineEnd h0 with ⟨h, hlast⟩ | ⟨A, w, hA, h, hlast⟩
  · have hj : lineEndToken m = (tokensOf m).length := by
      unfold lineEndToken
      rw [if_pos (hlast.resolve_left ?_)]
      rintro rfl
      exact hne rfl
    rw [hj, h]
    refine ⟨by simp, ?_, CString.empty, by simp, Or.inl ⟨rfl, rfl⟩⟩
    intro i hi
    rw [List.getElem?_append_left hi]
  · have hj : lineEndToken m = A.length := by
      unfold lineEndToken
      rw [if_neg hlast, hA, List.length_append]
      rfl
    rw [hj, h, hA]
    refine ⟨by simp, ?_, w, by simp, Or.inr (by simp)⟩
    intro i hi
    rw [List.getElem?_append_left hi, List.getElem?_append_left hi]

/-- No command has a line end in its name. -/
theorem requestOf_withLineEnd (w : CString) : requestOf w.withLineEnd = none := by
  cases hreq : requestOf w.withLineEnd with
  | none => rfl
  | some p =>
      obtain ⟨e, v⟩ := p
      have hw : (13 : Byte) ∈ requestWord (e, v) := by
        rw [← requestOf_eq_some.mp hreq]
        exact List.mem_append_right _ (by decide)
      cases e <;> cases v <;> revert hw <;> decide

end Tokens

/-! ### A null key that nobody looks at -/

section Skiptable

variable {S S' : SkipList} {i : Nat} {p : Ptr}

/-- A null key cannot be compared. -/
theorem compareNode_null {r : Int} (h : (compareNode p none).run S = .ok (r, S')) : False := by
  obtain ⟨nd, S₁, -, h⟩ := run_bind_inv h
  cases h

theorem walkStep_null {r : (Ptr ⊕ Ptr) × SkipList} (h : (walkStep none i p).run S = .ok r)
    (key : Option CString) : (walkStep key i p).run S = .ok r := by
  obtain ⟨x, S'⟩ := r
  obtain ⟨q, S₁, hq, hrest⟩ := run_bind_inv h
  refine run_bind_of hq ?_
  by_cases hnull : q ≠ 0
  · rw [if_pos hnull] at hrest
    obtain ⟨c, S₂, hc, -⟩ := run_bind_inv hrest
    exact absurd hc fun hc => compareNode_null hc
  · rw [if_neg hnull] at hrest
    exact run_ite_neg hnull hrest

theorem descend_null {α : Type} {visit : Nat → Ptr → α → Prog SkipList α} (key : Option CString) :
    ∀ (n : Nat) (p : Ptr) (a : α) (S : SkipList) (r : (Ptr × α) × SkipList),
      (descend visit none n p a).run S = .ok r → (descend visit key n p a).run S = .ok r := by
  intro n
  induction n with
  | zero => exact fun _ _ _ _ h => h
  | succ n ih =>
      intro p a S r h
      obtain ⟨p', S₁, hwalk, hrest⟩ := run_bind_inv h
      obtain ⟨a', S₂, hvisit, hrest⟩ := run_bind_inv hrest
      have hwalk' : (walk key n p).run S = .ok (p', S₁) :=
        loop_mono (fun _ _ _ hx => walkStep_null hx key) _ _ _ _ hwalk
      exact run_bind_of hwalk' (run_bind_of hvisit (ih p' a' S₂ r hrest))

/-- If a search for a null key returns, then there is nothing to find. -/
theorem find_null {r : Option (List Byte)} (h : (SkipList.find none).run S = .ok (r, S'))
    (key : Option CString) : r = none ∧ (SkipList.find key).run S = .ok (none, S') := by
  obtain ⟨S₁, S₂, hget, h⟩ := run_bind_inv h
  cases hget
  obtain ⟨⟨p, u⟩, S₁, hdescend, h⟩ := run_bind_inv h
  obtain ⟨b, S₂, hnext, h⟩ := run_bind_inv h
  obtain ⟨q, S₃, hq, hnext⟩ := run_bind_inv hnext
  have hnull : ¬ q ≠ 0 := by
    intro hc
    rw [if_pos hc] at hnext
    obtain ⟨c, S₄, hcompare, -⟩ := run_bind_inv hnext
    exact compareNode_null hcompare
  rw [if_neg hnull] at hnext
  cases hnext
  cases h
  refine ⟨rfl, run_bind_of (run_get S) (run_bind_of (descend_null key _ _ _ _ _ hdescend) ?_)⟩
  exact run_bind_of (run_bind_of hq (run_ite_neg hnull rfl)) rfl

/-- So `delete` and `exist` do the same with any other key. -/
theorem skiptableOp_null_any {v : Verb} (hv : v = .delete ∨ v = .exist) {r : Answer}
    {value : Option CString} (h : (skiptableOp none value v).run S = .ok (r, S'))
    (key value' : Option CString) : (skiptableOp key value' v).run S = .ok (r, S') := by
  rcases hv with rfl | rfl
  · obtain ⟨i, hdelete, rfl⟩ := run_map_inv h
    obtain ⟨found, S₁, hfound, hrest⟩ := run_bind_inv hdelete
    obtain ⟨rfl, hfind⟩ := find_null hfound key
    cases hrest
    exact run_map_of _ (run_bind_of hfind rfl)
  · obtain ⟨i, hexist, rfl⟩ := run_map_inv h
    obtain ⟨found, S₁, hfound, hrest⟩ := run_bind_inv hexist
    obtain ⟨rfl, hfind⟩ := find_null hfound key
    cases hrest
    exact run_map_of _ (run_bind_of hfind rfl)

end Skiptable

/-! ### Harmless line ends -/

/-- With `n` tokens the function of the engine never returns. -/
def Engine.Never (n : Nat) : Engine → Verb → Prop
  | .array, .set => n ≠ 3
  | .dhash, .set => n < 3
  | .dhash, .get | .dhash, .delete | .dhash, .exist => n < 2
  | _, _ => False

/-- To the function of the engine it makes no difference that the token `j` has changed. -/
def Engine.Unread (n j : Nat) : Engine → Verb → Prop
  | .array, .set => False
  | .dhash, .set => 3 ≤ j
  | .rbtree, .set | .hash, .set | .skiptable, .set => 3 ≤ j ∨ j = 1
  | _, .count => 1 ≤ j
  | .skiptable, .delete | .skiptable, .exist => 2 ≤ j ∨ (n = 1 ∧ j = 1)
  | _, .get | _, .delete | _, .exist => 2 ≤ j

/-- The line end does not change the meaning of the message, or the message never returns. -/
def Harmless (m : List Byte) : Prop :=
  if (0 : Byte) ∈ m then tokensOf m ≠ [] ∨ 30 ≤ m.length
  else tokensOf m ≠ [] ∧
    (maxTokens < (tokensOf m).length ∨
      match requestIn m with
      | none => lineEndToken m < maxTokens
      | some (e, v) => e.Never (tokensOf m).length v ∨
          (lineEndToken m < maxTokens ∧ e.Unread (tokensOf m).length (lineEndToken m) v))

section Harmless

variable {m : List Byte} {s s' : Store} {e : Engine} {v : Verb} {r : Answer}

/-- A function never returns if it never has what it takes. -/
theorem op_never {key value : Option CString} {n : Nat} (hkey : n ≤ 1 → key = none)
    (hvalue : n ≤ 2 → value = none) (hnever : e.Never n v)
    (h : (Store.op key value e v).run s = .ok (r, s')) : (e, v) = (.array, .set) ∧ n ≠ 3 := by
  cases e with
  | array => cases v <;> first | exact ⟨rfl, hnever⟩ | exact absurd hnever id
  | rbtree | hash | skiptable => cases v <;> exact absurd hnever id
  | dhash =>
      obtain ⟨D, hD, -⟩ := zoom_inv h
      have hcall : v.call key value = none := by
        cases v with
        | count => exact absurd hnever id
        | set =>
            have hn : n < 3 := hnever
            rw [hvalue (by omega)]
            cases key <;> rfl
        | get | delete | exist =>
            have hn : n < 2 := hnever
            rw [hkey (by omega)]
            rfl
      rw [dhashOp_lacking hcall] at hD
      cases hD

/-- What the line end leaves of the arguments is what the function looks at. -/
theorem op_unread {ws ws' : List CString} {j : Nat} (hlen : ws'.length = j + 1)
    (hfront : ∀ i, i < j → ws'[i]? = ws[i]?) (hn : ws.length ≤ j + 1)
    (hunread : e.Unread ws.length j v)
    (h : (Store.op ws[1]? ws[2]? e v).run s = .ok (r, s')) :
    (Store.op ws'[1]? ws'[2]? e v).run s = .ok (r, s') := by
  cases v with
  | count => cases e <;> exact h
  | get =>
      have hj : 2 ≤ j := by cases e <;> exact hunread
      rw [hfront 1 (by omega)]
      cases e <;> exact h
  | delete | exist =>
      by_cases hj : 2 ≤ j
      · rw [hfront 1 (by omega)]
        cases e <;> exact h
      · -- Only the skip list is left, and its key was null.
        cases e with
        | array | rbtree | hash | dhash => exact absurd hunread hj
        | skiptable =>
            obtain ⟨hone, -⟩ := hunread.resolve_left hj
            rw [List.getElem?_eq_none (by omega : ws.length ≤ 1)] at h
            obtain ⟨S, hS, rfl⟩ := zoom_inv h
            exact zoom_run (skiptableOp_null_any (by simp) hS _ _)
  | set =>
      by_cases hj : 3 ≤ j
      · rw [hfront 1 (by omega), hfront 2 (by omega)]
        exact h
      · have hj1 : j = 1 := by
          cases e with
          | array => exact absurd hunread id
          | dhash => exact absurd hunread hj
          | rbtree | hash | skiptable => exact hunread.resolve_left hj
        rw [List.getElem?_eq_none (by omega : ws.length ≤ 2)] at h
        rw [List.getElem?_eq_none (by omega : ws'.length ≤ 2)]
        have hrefuse : ∀ key : Option CString,
            (Store.op key none e .set).run s = .ok (.int (-1), s) := by
          intro key
          cases e with
          | array => exact absurd hunread id
          | dhash => exact absurd hunread hj
          | rbtree | hash | skiptable => cases key <;> rfl
        rw [hrefuse] at h ⊢
        exact h

theorem lineEndToken_le (hne : tokensOf m ≠ []) :
    lineEndToken m ≤ (tokensOf m).length ∧ (tokensOf m).length ≤ lineEndToken m + 1 := by
  have hpos := List.length_pos_of_ne_nil hne
  unfold lineEndToken
  split_ifs <;> omega

/-- Unless it is the command that the line end has changed, the message asks for the same. -/
theorem requestIn_lineEnd (h0 : (0 : Byte) ∉ m) (hne : tokensOf m ≠ []) :
    requestIn (m ++ lineEnd) = if lineEndToken m = 0 then none else requestIn m := by
  obtain ⟨-, hfront, w, hw, -⟩ := tokens_lineEnd h0 hne
  unfold requestIn
  rw [List.head?_eq_getElem?, List.head?_eq_getElem?]
  by_cases hj : lineEndToken m = 0
  · rw [hj] at hw
    rw [if_pos hj, hw]
    exact requestOf_withLineEnd w
  · rw [if_neg hj, hfront 0 (Nat.pos_of_ne_zero hj)]

theorem lineEnd_lt (hlen : m.length ≤ 1021) : (m ++ lineEnd).length < clinetMsgLength := by
  have hmax : clinetMsgLength = 1024 := rfl
  rw [List.length_append, lineEnd_length]
  omega

/-- Behind a NUL the line end is not even seen, unless the message itself is sent back. -/
theorem same_hidden (hlen : m.length ≤ 1021) (h0 : (0 : Byte) ∈ m)
    (h : tokensOf m ≠ [] ∨ 30 ≤ m.length) (s : Store) : SameOutcome Eq s m := by
  have hmax : clinetMsgLength = 1024 := rfl
  have hlen' := lineEnd_lt hlen
  have htokens := tokensOf_hidden h0
  have hreq' : requestIn (m ++ lineEnd) = requestIn m := by
    unfold requestIn
    rw [htokens]
  intro ret buf s' hrun
  have hroom := tokens_le_of_run (by omega) hrun
  rcases kvsProtocolOn_inv (by omega) hrun with
    ⟨hreq, rfl, hbuf, rfl⟩ | ⟨e, v, r, hreq, hset, hop, rfl, rfl⟩
  · obtain ⟨buf', hbuf', hrun'⟩ :=
      kvsProtocolOn_none hlen' (by rw [htokens]; exact hroom) (by rw [hreq', hreq])
    refine ⟨_, buf', s', hrun' s', ?_, rfl⟩
    rw [htokens]
    by_cases hnil : tokensOf m = []
    · rw [if_pos hnil, hbuf hnil, hbuf' (by rw [htokens, hnil])]
      have hthirty : 30 ≤ m.length := h.resolve_left (fun hc => hc hnil)
      show (m ++ lineEnd ++ _).take 30 = (m ++ _).take 30
      rw [List.append_assoc, List.take_append_of_le_length hthirty,
        List.take_append_of_le_length hthirty]
    · rw [if_neg hnil]
      rfl
  · refine ⟨_, _, s', ?_, rfl, rfl⟩
    rw [kvsProtocolOn_op hlen' (by rw [htokens]; exact hroom) (by rw [hreq', hreq])
      (by rw [htokens]; exact hset), htokens]
    exact run_bind_of hop rfl

/-- A word that is no command stays one. -/
theorem same_unknown (hlen : m.length ≤ 1021) (h0 : (0 : Byte) ∉ m) (hne : tokensOf m ≠ [])
    (hreq : requestIn m = none) (hj : lineEndToken m < maxTokens) (s : Store) :
    SameOutcome Eq s m := by
  have hmax : clinetMsgLength = 1024 := rfl
  obtain ⟨hcount, -, -⟩ := tokens_lineEnd h0 hne
  have hreq' := requestIn_lineEnd h0 hne
  rw [hreq, ite_self] at hreq'
  have hne' : tokensOf (m ++ lineEnd) ≠ [] := List.ne_nil_of_length_eq_add_one hcount
  intro ret buf s' hrun
  rcases kvsProtocolOn_inv (by omega) hrun with ⟨-, rfl, -, rfl⟩ | ⟨e, v, r, hsome, -⟩
  · obtain ⟨buf', -, hrun'⟩ := kvsProtocolOn_none (lineEnd_lt hlen) (by rw [hcount]; exact hj) hreq'
    refine ⟨_, buf', s', hrun' s', ?_, rfl⟩
    rw [if_neg hne, if_neg hne']
    rfl
  · rw [hreq] at hsome
    cases hsome

/-- A command whose function does not look at the line end does the same. -/
theorem same_unread (hlen : m.length ≤ 1021) (h0 : (0 : Byte) ∉ m) (hne : tokensOf m ≠ [])
    (hreq : requestIn m = some (e, v)) (hj : lineEndToken m < maxTokens)
    (hunread : e.Unread (tokensOf m).length (lineEndToken m) v) (s : Store) :
    SameOutcome Eq s m := by
  have hmax : clinetMsgLength = 1024 := rfl
  obtain ⟨hcount, hfront, -⟩ := tokens_lineEnd h0 hne
  obtain ⟨-, hnj⟩ := lineEndToken_le hne
  have hj0 : lineEndToken m ≠ 0 := by
    intro hc
    rw [hc] at hunread
    cases e <;> cases v <;> revert hunread <;> simp [Engine.Unread]
  have hreq' := requestIn_lineEnd h0 hne
  rw [if_neg hj0, hreq] at hreq'
  intro ret buf s' hrun
  rcases kvsProtocolOn_inv (by omega) hrun with ⟨hnone, -⟩ | ⟨e', v', r, hsome, -, hop, rfl, rfl⟩
  · rw [hreq] at hnone
    cases hnone
  · rw [hreq] at hsome
    cases hsome
    refine ⟨_, _, s', ?_, rfl, rfl⟩
    rw [kvsProtocolOn_op (lineEnd_lt hlen) (by rw [hcount]; exact hj) hreq' ?_]
    · exact run_bind_of (op_unread hcount hfront hnj hunread hop) rfl
    · intro hp
      cases hp
      exact absurd hunread id

/-- **A harmless line end changes nothing**, in any state. -/
theorem Harmless.same (hlen : m.length ≤ 1021) (h : Harmless m) (s : Store) :
    SameOutcome Eq s m := by
  have hmax : clinetMsgLength = 1024 := rfl
  unfold Harmless at h
  by_cases h0 : (0 : Byte) ∈ m
  · rw [if_pos h0] at h
    exact same_hidden hlen h0 h s
  rw [if_neg h0] at h
  obtain ⟨hne, h⟩ := h
  intro ret buf s' hrun
  have h := h.resolve_left (Nat.not_lt_of_le (tokens_le_of_run (by omega) hrun))
  cases hreq : requestIn m with
  | none =>
      rw [hreq] at h
      exact same_unknown hlen h0 hne hreq h s ret buf s' hrun
  | some p =>
      obtain ⟨e, v⟩ := p
      rw [hreq] at h
      rcases h with hnever | ⟨hj, hunread⟩
      · rcases kvsProtocolOn_inv (by omega) hrun with
          ⟨hnone, -⟩ | ⟨e', v', r, hsome, hset, hop, -, -⟩
        · rw [hreq] at hnone
          cases hnone
        · rw [hreq] at hsome
          cases hsome
          obtain ⟨hp, hthree⟩ := op_never (fun hn => List.getElem?_eq_none hn)
            (fun hn => List.getElem?_eq_none hn) hnever hop
          exact absurd (hset hp) hthree
      · exact same_unread hlen h0 hne hreq hj hunread s ret buf s' hrun

end Harmless

end KvStore
