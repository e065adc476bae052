/-
The descent through the lanes.

`insert`, `find` and `delete` share one search: on every level, from the highest in use
down, walk on while the next key is below the wanted one.  Where the list is cut into
the entries below the key and the rest, the walk on a level ends at that level's last
node of the first part, whatever node above it started from.

All the search needs of a key is that comparing the nodes with it orders them
(`Compares`), so that the lemmas hold for a key that lies in one of the nodes as well.
-/
import KvStore.Proofs.Skiptable.Repr

namespace KvStore

/-- The list is cut in two where `key` belongs. -/
structure Cut (L A B : List Tower) (key : CString) : Prop where
  list : L = A ++ B
  below : ∀ e ∈ A, e.name < key
  rest : ∀ e ∈ B, key ≤ e.name

theorem exists_cut {L : List Tower} (hasc : L.Pairwise fun a b => a.name < b.name) (key : CString) :
    ∃ A B, Cut L A B key := by
  induction L with
  | nil => exact ⟨[], [], rfl, by simp, by simp⟩
  | cons e L ih =>
      obtain ⟨hhead, htail⟩ := List.pairwise_cons.mp hasc
      by_cases he : e.name < key
      · obtain ⟨A, B, hlist, hbelow, hrest⟩ := ih htail
        refine ⟨e :: A, B, by rw [hlist]; rfl, ?_, hrest⟩
        intro a ha
        rcases List.mem_cons.mp ha with rfl | ha
        · exact he
        · exact hbelow a ha
      · refine ⟨[], e :: L, rfl, by simp, ?_⟩
        intro b hb
        rcases List.mem_cons.mp hb with rfl | hb
        · exact not_lt.mp he
        · exact (not_lt.mp he).trans (le_of_lt (hhead b hb))

/-- The last node on level `i` among the entries `A` of the front part. -/
def predOn (S : SkipList) (i : Nat) (A : List Tower) : Ptr := (lane i A).getLastD S.header

section Descent

variable {S : SkipList} {L A B : List Tower} {key : CString} {i : Nat} {p q : Ptr} {e : Tower}
  {compare : Ptr → Prog SkipList Int}

theorem getForward_run (h : forwardAt S.mem i p = some q) : (getForward p i).run S = .ok (q, S) := by
  obtain ⟨nd, hcell, hq⟩ := Option.bind_eq_some_iff.mp h
  refine run_bind_of (deref_run hcell) ?_
  rw [hq]
  rfl

theorem SkipRep.compareNode_run (h : SkipRep S L) (he : e ∈ L) (key : CString) :
    ∃ r, (compareNode e.ptr (some key)).run S = .ok (r, S) ∧
      (r < 0 ↔ e.name < key) ∧ (r = 0 ↔ e.name = key) := by
  obtain ⟨fs, hcell, -⟩ := h.cell he
  obtain ⟨r, hr, hlt, heq⟩ := strcmp_spec (h.sound e he).reads key.reads_mem
  refine ⟨r, run_bind_of (deref_run hcell) ?_, hlt, heq⟩
  show (liftE (strcmp (e.key.val ++ e.value.val) key.mem)).run S = _
  rw [hr]
  rfl

/-- Comparing a node of the list by `compare` is comparing its key with `key`. -/
def Compares (S : SkipList) (L : List Tower) (compare : Ptr → Prog SkipList Int) (key : CString) :
    Prop :=
  ∀ e ∈ L, ∃ r, (compare e.ptr).run S = .ok (r, S) ∧ (r < 0 ↔ e.name < key) ∧ (r = 0 ↔ e.name = key)

theorem SkipRep.compares (h : SkipRep S L) (key : CString) :
    Compares S L (fun q => compareNode q (some key)) key := by
  intro e he
  exact h.compareNode_run he key

/-- What is behind the last node of the front part on a level. -/
theorem SkipRep.behind (h : SkipRep S (A ++ B)) (hi : i < maxLevel) :
    ChainFrom (forwardAt S.mem i) (predOn S i A) (lane i B) := by
  have hchain := h.chains i hi
  rw [lane_append] at hchain
  exact hchain.drop

/-- The walk on level `i` stands at the last of the nodes `P`; `n` nodes below the key remain. -/
def WalkInv (S : SkipList) (A : List Tower) (i n : Nat) (p : Ptr) (S' : SkipList) : Prop :=
  ∃ P Q, lane i A = P ++ Q ∧ p = P.getLastD S.header ∧ n = Q.length ∧ S' = S

theorem walk_step (h : SkipRep S L) (hcmp : Compares S L compare key) (hcut : Cut L A B key)
    (hi : i < maxLevel) :
    ∀ n p S', WalkInv S A i n p S' →
      (∃ r S'', (walkStepBy compare i p).run S' = .ok (.inr r, S'') ∧
        r = predOn S i A ∧ S'' = S) ∨
      (∃ r S'' m, (walkStepBy compare i p).run S' = .ok (.inl r, S'') ∧ m < n ∧
        WalkInv S A i m r S'') := by
  rintro n p S' ⟨P, Q, hlane, rfl, rfl, rfl⟩
  obtain ⟨rfl, hbelow, hrest⟩ := hcut
  have hchain := h.chains i hi
  rw [lane_append, hlane, List.append_assoc] at hchain
  have hnext := getForward_run hchain.drop.first
  cases Q with
  | cons q Q =>
      obtain ⟨e, he, -, rfl⟩ := mem_lane.mp (show q ∈ lane i A by rw [hlane]; simp)
      obtain ⟨r, hrun, hlt, -⟩ := hcmp e (List.mem_append_left B he)
      have hne : e.ptr ≠ 0 := hchain.drop.2.1
      refine Or.inr ⟨e.ptr, S', Q.length, ?_, by simp, P ++ [e.ptr], Q, ?_, by simp, rfl, rfl⟩
      · refine run_bind_of hnext (run_ite_pos hne (run_bind_of hrun ?_))
        exact run_ite_pos (hlt.mpr (hbelow e he)) rfl
      · rw [hlane, List.append_assoc]
        rfl
  | nil =>
      rw [List.append_nil] at hlane
      refine Or.inl ⟨P.getLastD S'.header, S', ?_, by rw [predOn, hlane], rfl⟩
      rw [List.nil_append] at hnext
      refine run_bind_of hnext ?_
      cases hB : lane i B with
      | nil => exact run_ite_neg (by simp) rfl
      | cons q Q =>
          obtain ⟨e, he, -, rfl⟩ := mem_lane.mp (show q ∈ lane i B by rw [hB]; simp)
          obtain ⟨r, hrun, hlt, -⟩ := hcmp e (List.mem_append_right A he)
          have hdrop := hchain.drop
          rw [hB] at hdrop
          refine run_ite_pos hdrop.2.1 (run_bind_of hrun (run_ite_neg ?_ rfl))
          exact fun hr => absurd (hlt.mp hr) (not_lt.mpr (hrest e he))

/-- **The walk on a level ends at the last node below the key.** -/
theorem walk_spec (h : SkipRep S L) (hcmp : Compares S L compare key) (hcut : Cut L A B key)
    (hi : i < maxLevel) (hp : p ∈ S.header :: lane i A) :
    (walkBy compare i p).run S = .ok (predOn S i A, S) := by
  have hstart : ∃ P Q, lane i A = P ++ Q ∧ p = P.getLastD S.header := by
    rcases List.mem_cons.mp hp with rfl | hp
    · exact ⟨[], lane i A, rfl, rfl⟩
    · obtain ⟨P, Q, hPQ⟩ := List.append_of_mem hp
      exact ⟨P ++ [p], Q, by rw [hPQ, List.append_assoc]; rfl, by simp⟩
  obtain ⟨P, Q, hPQ, hpP⟩ := hstart
  have hlen : Q.length ≤ L.length := by
    have hlane : (lane i A).length ≤ L.length := by
      have := (lane_sublist (i := i) (L := A)).length_le
      rw [hcut.list, List.length_append]
      rw [List.length_map] at this
      omega
    rw [hPQ, List.length_append] at hlane
    omega
  obtain ⟨r, S', hrun, rfl, rfl⟩ := loop_total (walk_step h hcmp hcut hi) S.fuel Q.length p S
    ⟨P, Q, hPQ, hpP, rfl, rfl⟩ (by have := h.length_le; rw [SkipList.fuel]; omega)
  exact run_bind_of (run_get S') hrun

/--
**The descent visits the last node below the key on every level.**  `Q i` is what the
visits have established once the levels from `i` up are done.
-/
theorem descend_spec {α : Type} {f : Nat → Ptr → α → Prog SkipList α} {Q : Nat → α → Prop}
    (h : SkipRep S L) (hcmp : Compares S L compare key) (hcut : Cut L A B key) {n : Nat}
    (hn : n ≤ maxLevel)
    (hvisit : ∀ i a, i < n → Q (i + 1) a →
      ∃ a', (f i (predOn S i A) a).run S = .ok (a', S) ∧ Q i a')
    (hp : p ∈ S.header :: lane n A) {a : α} (ha : Q n a) :
    ∃ p' a', (descendBy compare f n p a).run S = .ok ((p', a'), S) ∧ Q 0 a' ∧
      (0 < n → p' = predOn S 0 A) := by
  induction n generalizing p a with
  | zero => exact ⟨p, a, rfl, ha, fun hc => absurd hc (Nat.lt_irrefl 0)⟩
  | succ i ih =>
      have hsub : S.header :: lane (i + 1) A ⊆ S.header :: lane i A :=
        (lane_succ_sublist.cons_cons _).subset
      have hwalk := walk_spec h hcmp hcut (by omega) (hsub hp)
      obtain ⟨a₁, hrun₁, ha₁⟩ := hvisit i a (by omega) ha
      obtain ⟨p', a', hrun, ha', hp'⟩ := ih (by omega) (fun j b hj => hvisit j b (by omega))
        (ChainFrom.getLastD_mem S.header (lane i A)) ha₁
      refine ⟨p', a', run_bind_of hwalk (run_bind_of hrun₁ hrun), ha', fun _ => ?_⟩
      cases i with
      | zero => exact congrArg (·.1) (congrArg Prod.fst (Except.ok.inj hrun)).symm
      | succ i => exact hp' (by omega)

theorem setUpdate_run (update : Update) (hi : i < maxLevel) (p : Ptr) :
    (setUpdate i p update).run S = .ok (update.set i (some p), S) := by
  unfold setUpdate
  rw [dif_pos hi]
  rfl

/-- The descent of `insert` and `delete` records these nodes in `update`. -/
theorem descendBy_update (h : SkipRep S L) (hcmp : Compares S L compare key)
    (hcut : Cut L A B key) :
    ∃ update : Update, (descendBy compare setUpdate S.level S.header Update.blank).run S =
        .ok ((predOn S 0 A, update), S) ∧
      ∀ j, ∀ hj : j < maxLevel, j < S.level → update[j] = some (predOn S j A) := by
  have hle := h.level_le
  obtain ⟨p, update, hrun, hupdate, hp⟩ := descend_spec
    (Q := fun i (u : Update) => ∀ j, ∀ hj : j < maxLevel, i ≤ j → j < S.level →
      u[j] = some (predOn S j A))
    h hcmp hcut hle (f := setUpdate) (p := S.header) (a := Update.blank)
    (by
      intro i u hi hu
      refine ⟨_, setUpdate_run u (by omega) _, ?_⟩
      intro j hj hij hlt
      rw [Vector.getElem_set]
      by_cases hc : i = j
      · rw [if_pos hc, hc]
      · rw [if_neg hc]
        exact hu j hj (by omega) hlt)
    (List.mem_cons_self ..) (by intro j hj hlevel hlt; omega)
  rw [hp h.level_pos] at hrun
  exact ⟨update, hrun, fun j hj hlt => hupdate j hj (Nat.zero_le j) hlt⟩

theorem descend_update (h : SkipRep S L) (hcut : Cut L A B key) :
    ∃ update : Update, (descend setUpdate (some key) S.level S.header Update.blank).run S =
        .ok ((predOn S 0 A, update), S) ∧
      ∀ j, ∀ hj : j < maxLevel, j < S.level → update[j] = some (predOn S j A) := by
  rw [descend_eq]
  exact descendBy_update h (h.compares key) hcut

/-- Whether the first entry of the rest has the key. -/
theorem nextIsBy_run (h : SkipRep S L) (hcmp : Compares S L compare key) (hcut : Cut L A B key) :
    (∃ e B', B = e :: B' ∧ e.name = key ∧
        (nextIsBy compare (predOn S 0 A)).run S = .ok (true, S) ∧
        (getForward (predOn S 0 A) 0).run S = .ok (e.ptr, S)) ∨
      ((∀ e ∈ L, e.name ≠ key) ∧ (nextIsBy compare (predOn S 0 A)).run S = .ok (false, S)) := by
  obtain ⟨rfl, hbelow, hrest⟩ := hcut
  have hbehind := h.behind (i := 0) (by decide)
  rw [lane_zero (fun e he => (h.heights e (List.mem_append_right A he)).1)] at hbehind
  have hnext := getForward_run hbehind.first
  have hA : ∀ e ∈ A, e.name ≠ key := fun e he => ne_of_lt (hbelow e he)
  cases B with
  | nil =>
      refine Or.inr ⟨by simpa using hA, run_bind_of hnext (run_ite_neg (by simp) rfl)⟩
  | cons e B =>
      obtain ⟨r, hrun, -, heq⟩ := hcmp e (by simp)
      have hne : e.ptr ≠ 0 := hbehind.2.1
      by_cases hk : e.name = key
      · refine Or.inl ⟨e, B, rfl, hk, ?_, hnext⟩
        refine run_bind_of hnext (run_ite_pos hne (run_bind_of hrun ?_))
        rw [heq.mpr hk]
        rfl
      · refine Or.inr ⟨?_, ?_⟩
        · intro b hb
          rcases List.mem_append.mp hb with hb | hb
          · exact hA b hb
          rcases List.mem_cons.mp hb with rfl | hb
          · exact hk
          · have hasc := (List.pairwise_append.mp h.ascending).2.1
            have hlt := (List.pairwise_cons.mp hasc).1 b hb
            exact ne_of_gt (lt_of_le_of_lt (hrest e (by simp)) hlt)
        · refine run_bind_of hnext (run_ite_pos hne (run_bind_of hrun ?_))
          show Except.ok (decide (r = 0), S) = _
          rw [decide_eq_false (fun hr => hk (heq.mp hr))]

theorem nextIs_run (h : SkipRep S L) (hcut : Cut L A B key) :
    (∃ e B', B = e :: B' ∧ e.name = key ∧
        (nextIs (predOn S 0 A) (some key)).run S = .ok (true, S) ∧
        (getForward (predOn S 0 A) 0).run S = .ok (e.ptr, S)) ∨
      ((∀ e ∈ L, e.name ≠ key) ∧ (nextIs (predOn S 0 A) (some key)).run S = .ok (false, S)) :=
  nextIsBy_run h (h.compares key) hcut

/-- **`find` finds the value of a stored key.** -/
theorem find_spec (h : SkipRep S L) (key : CString) :
    ∃ r, (SkipList.find (some key)).run S = .ok (r, S) ∧
      ((∃ e ∈ L, e.name = key ∧ r = some e.value.val) ∨
        ((∀ e ∈ L, e.name ≠ key) ∧ r = none)) := by
  obtain ⟨A, B, hcut⟩ := exists_cut h.ascending key
  obtain ⟨p, _, hdesc, -, hp⟩ := descend_spec (f := fun _ _ _ => pure ())
    (Q := fun _ _ => True) h (h.compares key) hcut h.level_le
    (fun _ _ _ _ => ⟨(), rfl, trivial⟩) (List.mem_cons_self ..) (a := ()) trivial
  rw [← descend_eq] at hdesc
  obtain rfl := hp h.level_pos
  rcases nextIs_run h hcut with ⟨e, B', rfl, hk, hnext, hget⟩ | ⟨habs, hnext⟩
  · have he : e ∈ L := by rw [hcut.list]; simp
    obtain ⟨fs, hcell, -⟩ := h.cell he
    refine ⟨some e.value.val, ?_, Or.inl ⟨e, he, hk, rfl⟩⟩
    refine run_bind_of (run_get S) (run_bind_of hdesc (run_bind_of hnext (run_ite_pos rfl ?_)))
    exact run_bind_of hget (run_bind_of (deref_run hcell) rfl)
  · refine ⟨none, ?_, Or.inr ⟨habs, rfl⟩⟩
    refine run_bind_of (run_get S) (run_bind_of hdesc (run_bind_of hnext ?_))
    exact run_ite_neg (by simp) rfl

end Descent

end KvStore
