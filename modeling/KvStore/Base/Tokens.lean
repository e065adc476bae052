/-
Tokenizing a string in place.

`strtok` cuts a string up where it lies: a delimiter behind a token is overwritten by a
NUL, and the search goes on behind it.  The buffer is a list of bytes and a pointer into
it is an offset; `strtok d buf pos` is a call that continues at `pos`, and it returns the
offset of the token, the changed buffer and where the next call continues.

What the calls find are the words of the string, the maximal runs of bytes other than the
delimiter.  `strtok_spec` is the step from one word to the next.
-/
import KvStore.Base.CString

namespace KvStore

/-- The maximal runs of bytes other than `d`. -/
def words (d : Byte) (s : List Byte) : List (List Byte) := (s.splitOn d).filter (· ≠ [])

section Words

variable {d : Byte} {w s : List Byte}

@[simp] theorem words_nil : words d [] = [] := by
  unfold words
  rw [List.splitOn_nil]
  rfl

theorem ne_delimiter (hd : d ∉ w) : ∀ b ∈ w, (b == d) = false := by
  intro b hb
  rw [beq_eq_false_iff_ne]
  rintro rfl
  exact hd hb

theorem words_append (hw : w ≠ []) (hd : d ∉ w) (s : List Byte) :
    words d (w ++ d :: s) = w :: words d s := by
  unfold words List.splitOn
  rw [List.splitOnP_append_cons_of_forall_mem (ne_delimiter hd) d (beq_self_eq_true d),
    List.filter_cons, if_pos (by simpa using hw)]

theorem words_single (hw : w ≠ []) (hd : d ∉ w) : words d w = [w] := by
  unfold words List.splitOn
  rw [List.splitOnP_eq_singleton (ne_delimiter hd), List.filter_cons, if_pos (by simpa using hw)]
  rfl

theorem words_cons (d : Byte) (s : List Byte) : words d (d :: s) = words d s := by
  unfold words List.splitOn
  have hne : ∀ b ∈ ([] : List Byte), (b == d) = false := by simp
  have h := List.splitOnP_append_cons_of_forall_mem hne d (beq_self_eq_true d) s
  rw [List.nil_append] at h
  rw [h, List.filter_cons, if_neg (by simp)]

theorem words_replicate (d : Byte) (n : Nat) (s : List Byte) :
    words d (List.replicate n d ++ s) = words d s := by
  induction n with
  | zero => rfl
  | succ n ih => rw [List.replicate_succ, List.cons_append, words_cons, ih]

/-- A string is delimiters and then nothing or something else. -/
theorem split_gap (d : Byte) (s : List Byte) :
    ∃ n s', s = List.replicate n d ++ s' ∧ ∀ r, s' ≠ d :: r := by
  induction s with
  | nil => exact ⟨0, [], rfl, fun r h => by cases h⟩
  | cons b s ih =>
      by_cases hb : b = d
      · obtain ⟨n, s', rfl, hs'⟩ := ih
        exact ⟨n + 1, s', by rw [hb]; rfl, hs'⟩
      · refine ⟨0, b :: s, rfl, ?_⟩
        intro r h
        exact hb (List.cons.inj h).1

/-- A string is a word and then nothing or a delimiter. -/
theorem split_word (d : Byte) (s : List Byte) :
    ∃ w, d ∉ w ∧ (s = w ∨ ∃ s', s = w ++ d :: s') := by
  induction s with
  | nil => exact ⟨[], by simp, Or.inl rfl⟩
  | cons b s ih =>
      by_cases hb : b = d
      · exact ⟨[], by simp, Or.inr ⟨s, by rw [hb]; rfl⟩⟩
      · obtain ⟨w, hw, hs⟩ := ih
        refine ⟨b :: w, ?_, ?_⟩
        · intro hc
          rcases List.mem_cons.mp hc with hc | hc
          · exact hb hc.symm
          · exact hw hc
        · rcases hs with rfl | ⟨s', rfl⟩
          · exact Or.inl rfl
          · exact Or.inr ⟨s', rfl⟩

/-- Induction from one word to the next. -/
theorem words_induction (d : Byte) {P : List Byte → Prop} (gap : ∀ n, P (List.replicate n d))
    (last : ∀ n w, w ≠ [] → d ∉ w → P (List.replicate n d ++ w))
    (more : ∀ n w s, w ≠ [] → d ∉ w → P s → P (List.replicate n d ++ (w ++ d :: s))) :
    ∀ s, P s := by
  intro s
  induction hlen : s.length using Nat.strong_induction_on generalizing s with
  | _ len ih =>
      obtain ⟨n, s₁, rfl, hs₁⟩ := split_gap d s
      obtain ⟨w, hw, hs⟩ := split_word d s₁
      by_cases hnil : w = []
      · subst hnil
        rcases hs with rfl | ⟨s', rfl⟩
        · rw [List.append_nil]
          exact gap n
        · exact absurd rfl (hs₁ s')
      · rcases hs with rfl | ⟨s', rfl⟩
        · exact last n s₁ hnil hw
        · refine more n w s' hnil hw (ih s'.length ?_ s' rfl)
          simp only [List.length_append, List.length_cons] at hlen
          omega

theorem words_gap (n : Nat) : words d (List.replicate n d) = [] := by
  have h := words_replicate d n []
  rwa [List.append_nil, words_nil] at h

/-- The words are made of bytes of the string. -/
theorem mem_of_words {b : Byte} (hw : w ∈ words d s) (hb : b ∈ w) : b ∈ s := by
  induction s using words_induction (d := d) with
  | gap n =>
      rw [words_gap] at hw
      cases hw
  | last n v hne hd =>
      rw [words_replicate, words_single hne hd] at hw
      rw [List.mem_singleton.mp hw] at hb
      exact List.mem_append_right _ hb
  | more n v s hne hd ih =>
      rw [words_replicate, words_append hne hd] at hw
      rcases List.mem_cons.mp hw with rfl | hw
      · simp [hb]
      · simp [ih hw]

/-- The words and the delimiters between them fit into the string. -/
theorem length_words (d : Byte) (s : List Byte) :
    (words d s).flatten.length + (words d s).length ≤ s.length + 1 := by
  induction s using words_induction (d := d) with
  | gap n => simp [words_gap]
  | last n w hne hd =>
      rw [words_replicate, words_single hne hd]
      simp only [List.flatten_cons, List.flatten_nil, List.length_cons, List.length_nil,
        List.length_append, List.length_replicate]
      omega
  | more n w s hne hd ih =>
      rw [words_replicate, words_append hne hd]
      simp only [List.flatten_cons, List.length_cons, List.length_append, List.length_replicate]
      omega

/--
Bytes without a delimiter at the end of a string are a word of their own behind a delimiter,
and else part of the last word.
-/
theorem words_append_word {t : List Byte} (ht : t ≠ []) (hd : d ∉ t) (s : List Byte) :
    (words d (s ++ t) = words d s ++ [t] ∧ (s = [] ∨ s.getLast? = some d)) ∨
      ∃ A w, words d s = A ++ [w] ∧ words d (s ++ t) = A ++ [w ++ t] ∧ s.getLast? ≠ some d := by
  induction s using words_induction (d := d) with
  | gap n =>
      refine Or.inl ⟨?_, ?_⟩
      · rw [words_replicate, words_single ht hd, words_gap]
        rfl
      · cases n with
        | zero => exact Or.inl rfl
        | succ n => exact Or.inr (by rw [List.getLast?_replicate, if_neg (Nat.succ_ne_zero n)])
  | last n w hne hw =>
      refine Or.inr ⟨[], w, ?_, ?_, ?_⟩
      · rw [words_replicate, words_single hne hw]
        rfl
      · rw [List.append_assoc, words_replicate, words_single (by simp [hne])]
        · rfl
        · rw [List.mem_append]
          rintro (hc | hc)
          · exact hw hc
          · exact hd hc
      · rw [List.getLast?_append_of_ne_nil _ hne]
        intro hc
        exact hw (List.mem_of_getLast? hc)
  | more n w s hne hw ih =>
      have hlast : (List.replicate n d ++ (w ++ d :: s)).getLast? =
          if s = [] then some d else s.getLast? := by
        by_cases hs : s = []
        · subst hs
          simp
        · rw [if_neg hs, List.getLast?_append_of_ne_nil _ (by simp),
            List.getLast?_append_of_ne_nil _ (by simp), List.getLast?_cons_of_ne_nil hs]
      have hwords : words d (List.replicate n d ++ (w ++ d :: s)) = w :: words d s := by
        rw [words_replicate, words_append hne hw]
      have hwords' : words d (List.replicate n d ++ (w ++ d :: s) ++ t) = w :: words d (s ++ t) := by
        rw [List.append_assoc, words_replicate, List.append_assoc, List.cons_append,
          words_append hne hw]
      rw [hlast, hwords, hwords']
      rcases ih with ⟨ih, hs⟩ | ⟨A, v, hA, ih, hs⟩
      · refine Or.inl ⟨by rw [ih]; rfl, Or.inr ?_⟩
        rcases hs with rfl | hs
        · rw [if_pos rfl]
        · rw [if_neg (by rintro rfl; cases hs)]
          exact hs
      · refine Or.inr ⟨w :: A, v, by rw [hA]; rfl, by rw [ih]; rfl, ?_⟩
        have hne' : s ≠ [] := by
          rintro rfl
          rw [words_nil] at hA
          exact List.append_ne_nil_of_right_ne_nil A (List.cons_ne_nil v []) hA.symm
        rw [if_neg hne']
        exact hs

/-- A word is not empty and has no delimiter in it. -/
theorem word_of_words (hw : w ∈ words d s) : w ≠ [] ∧ d ∉ w := by
  induction s using words_induction (d := d) with
  | gap n =>
      rw [words_gap] at hw
      cases hw
  | last n v hne hd =>
      rw [words_replicate, words_single hne hd] at hw
      rw [List.mem_singleton.mp hw]
      exact ⟨hne, hd⟩
  | more n v s hne hd ih =>
      rw [words_replicate, words_append hne hd] at hw
      rcases List.mem_cons.mp hw with rfl | hw
      · exact ⟨hne, hd⟩
      · exact ih hw

end Words

/-! ### The calls -/

/-- The number of delimiters in front. -/
def strtokSkip (d : Byte) : List Byte → Except Fault Nat
  | [] => .error .overrun
  | b :: rest => if b = d then (· + 1) <$> strtokSkip d rest else .ok 0

/-- The number of bytes in front of a delimiter or the NUL. -/
def strtokSpan (d : Byte) : List Byte → Except Fault Nat
  | [] => .error .overrun
  | b :: rest => if b = d ∨ b = 0 then .ok 0 else (· + 1) <$> strtokSpan d rest

/-- `strtok` with the one delimiter `d`, continuing at `pos`; `none` is `NULL`. -/
def strtok (d : Byte) (buf : List Byte) (pos : Nat) :
    Except Fault (Option (Nat × List Byte × Nat)) := do
  let skip ← strtokSkip d (buf.drop pos)
  let start := pos + skip
  if buf[start]? = some 0 then return none
  else
    let span ← strtokSpan d (buf.drop start)
    let stop := start + span
    if buf[stop]? = some 0 then return some (start, buf, stop)
    else return some (start, buf.set stop 0, stop + 1)

section Strtok

variable {d b : Byte} {w s tail : List Byte}

theorem strtokSkip_run (d : Byte) (n : Nat) (hb : b ≠ d) (s : List Byte) :
    strtokSkip d (List.replicate n d ++ b :: s) = .ok n := by
  induction n with
  | zero =>
      show strtokSkip d (b :: s) = .ok 0
      unfold strtokSkip
      rw [if_neg hb]
  | succ n ih =>
      rw [List.replicate_succ, List.cons_append, strtokSkip, if_pos rfl, ih]
      rfl

/-- A byte that is neither a delimiter nor the NUL belongs to the word. -/
theorem strtokSpan_cons {x : Byte} (hd : d ∉ x :: w) (h0 : (0 : Byte) ∉ x :: w) (s : List Byte) :
    strtokSpan d (x :: s) = (· + 1) <$> strtokSpan d s := by
  have hx : ¬ (x = d ∨ x = 0) := by
    rintro (rfl | rfl)
    · exact hd (by simp)
    · exact h0 (by simp)
  rw [strtokSpan, if_neg hx]

theorem strtokSpan_run (hd : d ∉ w) (h0 : (0 : Byte) ∉ w) (hb : b = d ∨ b = 0) (s : List Byte) :
    strtokSpan d (w ++ b :: s) = .ok w.length := by
  induction w with
  | nil =>
      show strtokSpan d (b :: s) = .ok 0
      unfold strtokSpan
      rw [if_pos hb]
  | cons x w ih =>
      rw [List.cons_append, strtokSpan_cons hd h0,
        ih (fun hc => hd (by simp [hc])) (fun hc => h0 (by simp [hc]))]
      rfl

theorem getElem?_append_length (A : List Byte) (b : Byte) (s : List Byte) :
    (A ++ b :: s)[A.length]? = some b := by
  simp

/-- Where no word is left, the call returns `NULL`. -/
theorem strtok_none (hd : d ≠ 0) (front tail : List Byte) (n : Nat) :
    strtok d (front ++ (List.replicate n d ++ 0 :: tail)) front.length = .ok none := by
  have hget : (front ++ (List.replicate n d ++ 0 :: tail))[front.length + n]? = some 0 := by
    have h := getElem?_append_length (front ++ List.replicate n d) 0 tail
    rwa [List.length_append, List.length_replicate, List.append_assoc] at h
  unfold strtok
  rw [List.drop_left, strtokSkip_run d n (Ne.symm hd)]
  show (if _ then _ else _) = _
  rw [if_pos hget]
  rfl

/-- A word is cut off at the delimiter or the NUL behind it. -/
theorem strtok_word (front tail : List Byte) (n : Nat) (hw : w ≠ []) (hd : d ∉ w)
    (h0 : (0 : Byte) ∉ w) (hb : b = d ∨ b = 0) :
    strtok d (front ++ (List.replicate n d ++ (w ++ b :: tail))) front.length =
      .ok (some (front.length + n, front ++ (List.replicate n d ++ (w ++ 0 :: tail)),
        front.length + n + w.length + if b = 0 then 0 else 1)) := by
  obtain ⟨x, w', hxw⟩ := List.exists_cons_of_ne_nil hw
  have hx : x ≠ d ∧ x ≠ 0 := by
    constructor
    · rintro rfl
      exact hd (by simp [hxw])
    · rintro rfl
      exact h0 (by simp [hxw])
  have hlen : (front ++ List.replicate n d).length = front.length + n := by simp
  have hbuf : ∀ c, front ++ (List.replicate n d ++ (w ++ c :: tail)) =
      (front ++ List.replicate n d) ++ (w ++ c :: tail) := fun c => (List.append_assoc _ _ _).symm
  -- What the call reads at the start of the word and behind it.
  have hstart : ((front ++ List.replicate n d) ++
      (w ++ b :: tail))[front.length + n]? = some x := by
    rw [← hlen, hxw]
    exact getElem?_append_length _ _ _
  have hstop : ((front ++ List.replicate n d) ++
      (w ++ b :: tail))[front.length + n + w.length]? = some b := by
    rw [← hlen, ← List.append_assoc, ← List.length_append]
    exact getElem?_append_length _ _ _
  have hset : ((front ++ List.replicate n d) ++ (w ++ b :: tail)).set
      (front.length + n + w.length) 0 = (front ++ List.replicate n d) ++ (w ++ 0 :: tail) := by
    rw [← hlen, ← List.append_assoc, ← List.length_append,
      List.set_append_right _ _ (Nat.le_refl _), Nat.sub_self, List.set_cons_zero, List.append_assoc]
  have hskip : strtokSkip d ((front ++ List.replicate n d ++ (w ++ b :: tail)).drop front.length) =
      .ok n := by
    rw [List.append_assoc, List.drop_left, hxw]
    exact strtokSkip_run d n hx.1 _
  have hspan : strtokSpan d ((front ++ List.replicate n d ++ (w ++ b :: tail)).drop
      (front.length + n)) = .ok w.length := by
    rw [← hlen, List.drop_left]
    exact strtokSpan_run hd h0 hb tail
  rw [hbuf, hbuf]
  unfold strtok
  rw [hskip]
  show (if (front ++ List.replicate n d ++ (w ++ b :: tail))[front.length + n]? = some 0
    then _ else _) = _
  rw [hstart, if_neg (by simpa using hx.2)]
  rw [hspan]
  show (if (front ++ List.replicate n d ++ (w ++ b :: tail))[front.length + n + w.length]? = some 0
    then _ else _) = _
  rw [hstop]
  by_cases hb0 : b = 0
  · rw [if_pos (congrArg some hb0), if_pos hb0, hb0]
    rfl
  · rw [if_neg (fun hc => hb0 (Option.some.inj hc)), if_neg hb0, hset]
    rfl

/--
**One call finds the next word**: the string `s` that is left holds no word and the call
returns `NULL`, or the call returns the first word `w` of `s` and leaves `s'`, with `w`
terminated in the part of the buffer that is done with, or by the NUL in front of `tail`.
-/
theorem strtok_spec (hd : d ≠ 0) (front s tail : List Byte) (h0 : (0 : Byte) ∉ s) :
    (words d s = [] ∧ strtok d (front ++ (s ++ 0 :: tail)) front.length = .ok none) ∨
      (∃ start w more s', words d s = w :: words d s' ∧ s'.length < s.length ∧ (0 : Byte) ∉ s' ∧
        strtok d (front ++ (s ++ 0 :: tail)) front.length =
          .ok (some (start, front ++ more ++ (s' ++ 0 :: tail), (front ++ more).length)) ∧
        more.length + s'.length = s.length ∧ start ≤ (front ++ more).length ∧
        ((front ++ more).drop start = w ++ [0] ∨ (s' = [] ∧ (front ++ more).drop start = w))) := by
  obtain ⟨n, s₁, rfl, hs₁⟩ := split_gap d s
  obtain ⟨w, hw, hs⟩ := split_word d s₁
  have h0₁ : (0 : Byte) ∉ s₁ := fun hc => h0 (List.mem_append_right _ hc)
  have hlen : (front ++ List.replicate n d).length = front.length + n := by simp
  rw [words_replicate, List.append_assoc]
  by_cases hnil : w = []
  · subst hnil
    rcases hs with rfl | ⟨s', rfl⟩
    · exact Or.inl ⟨words_nil, strtok_none hd front tail n⟩
    · exact absurd rfl (hs₁ s')
  have hpos := List.length_pos_of_ne_nil hnil
  refine Or.inr ?_
  rcases hs with rfl | ⟨s', rfl⟩
  · refine ⟨front.length + n, s₁, List.replicate n d ++ s₁, [], ?_, ?_, by simp, ?_, by simp,
      by simp, Or.inr ⟨rfl, ?_⟩⟩
    · rw [words_single hnil hw, words_nil]
    · simp only [List.length_nil, List.length_append]
      omega
    · rw [strtok_word front tail n hnil hw h0₁ (Or.inr rfl), if_pos rfl]
      simp [Nat.add_assoc]
    · rw [← hlen, ← List.append_assoc, List.drop_left]
  · have h0w : (0 : Byte) ∉ w := fun hc => h0₁ (List.mem_append_left _ hc)
    refine ⟨front.length + n, w, List.replicate n d ++ (w ++ [0]), s', words_append hnil hw s',
      ?_, ?_, ?_, ?_, by simp, Or.inl ?_⟩
    · simp only [List.length_append, List.length_cons]
      omega
    · exact fun hc => h0₁ (List.mem_append_right _ (List.mem_cons_of_mem _ hc))
    · rw [List.append_assoc, List.cons_append, strtok_word front _ n hnil hw h0w (Or.inl rfl),
        if_neg hd]
      simp [Nat.add_assoc]
    · simp only [List.length_append, List.length_replicate, List.length_cons, List.length_nil]
      omega
    · rw [← hlen, ← List.append_assoc, List.drop_left]

/-! ### A string without a NUL -/

theorem strtokSkip_end (d : Byte) (n : Nat) :
    strtokSkip d (List.replicate n d) = .error .overrun := by
  induction n with
  | zero => rfl
  | succ n ih =>
      rw [List.replicate_succ, strtokSkip, if_pos rfl, ih]
      rfl

theorem strtokSpan_end (hd : d ∉ w) (h0 : (0 : Byte) ∉ w) :
    strtokSpan d w = .error .overrun := by
  induction w with
  | nil => rfl
  | cons x w ih =>
      rw [strtokSpan_cons hd h0, ih (fun hc => hd (by simp [hc])) (fun hc => h0 (by simp [hc]))]
      rfl

/--
Where the buffer ends without a NUL, a call reads past the end, or finds a word with a
delimiter behind it and leaves a rest without a NUL.
-/
theorem strtok_unterminated (hd : d ≠ 0) (front s : List Byte) (h0 : (0 : Byte) ∉ s) :
    strtok d (front ++ s) front.length = .error .overrun ∨
      ∃ start more s', (0 : Byte) ∉ s' ∧ strtok d (front ++ s) front.length =
        .ok (some (start, front ++ more ++ s', (front ++ more).length)) := by
  obtain ⟨n, s₁, rfl, hs₁⟩ := split_gap d s
  obtain ⟨w, hw, hs⟩ := split_word d s₁
  have h0₁ : (0 : Byte) ∉ s₁ := fun hc => h0 (List.mem_append_right _ hc)
  by_cases hnil : w = []
  · subst hnil
    rcases hs with rfl | ⟨s', rfl⟩
    · refine Or.inl ?_
      unfold strtok
      rw [List.append_nil, List.drop_left, strtokSkip_end]
      rfl
    · exact absurd rfl (hs₁ s')
  rcases hs with rfl | ⟨s', rfl⟩
  · obtain ⟨x, w', rfl⟩ := List.exists_cons_of_ne_nil hnil
    have hx : x ≠ d := fun hc => hw (by simp [hc])
    have hx0 : x ≠ 0 := fun hc => h0₁ (by simp [hc])
    have hlen : (front ++ List.replicate n d).length = front.length + n := by simp
    have hstart : ((front ++ List.replicate n d) ++ x :: w')[front.length + n]? = some x := by
      rw [← hlen]
      exact getElem?_append_length _ _ _
    refine Or.inl ?_
    unfold strtok
    rw [List.drop_left, strtokSkip_run d n hx, ← List.append_assoc]
    show (if (front ++ List.replicate n d ++ x :: w')[front.length + n]? = some 0
      then _ else _) = _
    rw [hstart, if_neg (by simpa using hx0), ← hlen, List.drop_left, strtokSpan_end hw h0₁]
    rfl
  · have h0w : (0 : Byte) ∉ w := fun hc => h0₁ (List.mem_append_left _ hc)
    refine Or.inr ⟨front.length + n, List.replicate n d ++ (w ++ [0]), s', ?_, ?_⟩
    · exact fun hc => h0₁ (List.mem_append_right _ (List.mem_cons_of_mem _ hc))
    · rw [strtok_word front s' n hnil hw h0w (Or.inl rfl), if_neg hd]
      simp [Nat.add_assoc]

end Strtok

end KvStore
