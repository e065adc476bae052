/-
The skip list invariant, over the pointers in memory.

Everything here is said about the state of the engine alone: the chains one reads off by
following the pointers of a level from the header, and the nodes that are allocated.  A
node's tower is the array of pointers `createNode` gave it.  `skiplist_invariant_run`
says what holds after any run of `insert` and `delete`, and where a node that existed at
one point of a run is found at a later one.
-/
import KvStore.Proofs.Skiptable.Engine

namespace KvStore

/-! ### The invariant -/

/-- A call of `insert` or `delete`. -/
inductive SkipOp
  | insert (key value : CString)
  | delete (key : CString)
  deriving DecidableEq

/-- Run one such call, with every allocation succeeding. -/
def skipOp : SkipOp → Prog SkipList Unit
  | .insert k v => SkipList.insert true true k v
  | .delete k => SkipList.delete (some k)

/-- The strings fit the node's fields with their terminators. -/
def SkipOp.Fits : SkipOp → Prop
  | .insert k v => KeyFits k ∧ ValueFits v
  | .delete k => KeyFits k

instance : DecidablePred SkipOp.Fits
  | .insert _ _ => inferInstanceAs (Decidable (_ ∧ _))
  | .delete k => inferInstanceAs (Decidable (KeyFits k))

/-- The key at `p` compares below the key at `q`. -/
def KeyBelow (m : Mem SkNode) (p q : Ptr) : Prop :=
  ∃ nd nd' r, m.cells p = some nd ∧ m.cells q = some nd' ∧
    strcmp nd.keyMem nd'.keyMem = .ok r ∧ r < 0

/-- The pointers of level `i` lead from the header to `p`. -/
def OnLevel (S : SkipList) (i : Nat) (p : Ptr) : Prop :=
  ∃ qs, ChainFrom (forwardAt S.mem i) S.header qs ∧ p ∈ qs

structure SkipInvariant (S : SkipList) : Prop where
  level : 1 ≤ S.level ∧ S.level ≤ maxLevel
  /-- every level's chain is finite, ends in null and is strictly ascending -/
  chains : ∀ i, i < maxLevel →
    ∃ qs, ChainFrom (forwardAt S.mem i) S.header qs ∧ qs.Pairwise (KeyBelow S.mem)
  /-- on a level are exactly the nodes whose towers reach it -/
  towers : ∀ i p, OnLevel S i p ↔
    ∃ nd, S.header < p ∧ S.mem.cells p = some nd ∧ i < nd.forward.length
  /-- a level's chain is a subsequence of the chain below it -/
  nested : ∀ i qs qs', ChainFrom (forwardAt S.mem i) S.header qs →
    ChainFrom (forwardAt S.mem (i + 1)) S.header qs' → qs'.Sublist qs
  /-- the header's pointers on unused levels are null -/
  unused : ∀ i, S.level ≤ i → i < maxLevel → forwardAt S.mem i S.header = some 0

/-! ### What the representation says about it -/

section Read

variable {S : SkipList} {L : List Tower} {i : Nat} {p : Ptr}

/-- The header has pointers on six levels only. -/
theorem SkipRep.lt_maxLevel (h : SkipRep S L) {qs : List Ptr}
    (hqs : ChainFrom (forwardAt S.mem i) S.header qs) : i < maxLevel := by
  obtain ⟨key, value, hshape⟩ := h.header
  obtain ⟨nd, hcell, hnd⟩ := Option.map_eq_some_iff.mp hshape
  simp only [SkNode.shape, Prod.mk.injEq] at hnd
  have hfirst := hqs.first
  rw [forwardAt, hcell, Option.bind_some] at hfirst
  rw [← hnd.2.2]
  exact (List.getElem?_eq_some_iff.mp hfirst).1

theorem SkipRep.onLevel (h : SkipRep S L) : OnLevel S i p ↔ ∃ e ∈ L, i < e.height ∧ e.ptr = p := by
  constructor
  · rintro ⟨qs, hqs, hp⟩
    rw [hqs.unique (h.chains i (h.lt_maxLevel hqs))] at hp
    exact mem_lane.mp hp
  · rintro ⟨e, he, hi, rfl⟩
    have hmax : i < maxLevel := hi.trans_le ((h.heights e he).2.trans h.level_le)
    exact ⟨lane i L, h.chains i hmax, mem_lane.mpr ⟨e, he, hi, rfl⟩⟩

/-- The allocated nodes are those of the entries. -/
theorem SkipRep.node_iff (h : SkipRep S L) {nd : SkNode} :
    (S.header < p ∧ S.mem.cells p = some nd) ↔
      ∃ e ∈ L, e.ptr = p ∧ ∃ fs, nd = ⟨e.key, e.value, fs⟩ ∧ S.mem.cells p = some nd ∧
        fs.length = e.height := by
  constructor
  · rintro ⟨hp, hcell⟩
    obtain ⟨e, he, rfl⟩ := List.mem_map.mp (h.only p hp (by rw [hcell]; rfl))
    obtain ⟨fs, hcell', hlen⟩ := h.cell he
    rw [hcell'] at hcell
    exact ⟨e, he, rfl, fs, (Option.some.inj hcell).symm, by rw [hcell', hcell], hlen⟩
  · rintro ⟨e, he, rfl, fs, rfl, hcell, -⟩
    exact ⟨h.above e he, hcell⟩

/-- **A state that represents a list satisfies the invariant.** -/
theorem SkipRep.invariant (h : SkipRep S L) : SkipInvariant S := by
  refine ⟨⟨h.level_pos, h.level_le⟩, ?_, ?_, ?_, ?_⟩
  · intro i hi
    refine ⟨lane i L, h.chains i hi, ?_⟩
    unfold lane
    rw [List.pairwise_map]
    refine (h.ascending.sublist List.filter_sublist).imp_of_mem ?_
    intro a b ha hb hlt
    have haL := (List.mem_filter.mp ha).1
    have hbL := (List.mem_filter.mp hb).1
    obtain ⟨fs, hcella, -⟩ := h.cell haL
    obtain ⟨fs', hcellb, -⟩ := h.cell hbL
    obtain ⟨r, hr, hltr, -⟩ := strcmp_spec (h.sound a haL).reads (h.sound b hbL).reads
    exact ⟨_, _, r, hcella, hcellb, hr, hltr.mpr hlt⟩
  · intro i p
    rw [h.onLevel]
    constructor
    · rintro ⟨e, he, hi, rfl⟩
      obtain ⟨fs, hcell, hlen⟩ := h.cell he
      exact ⟨_, h.above e he, hcell, by rw [← hlen] at hi; exact hi⟩
    · rintro ⟨nd, hp, hcell, hi⟩
      obtain ⟨e, he, hptr, fs, rfl, -, hlen⟩ := h.node_iff.mp ⟨hp, hcell⟩
      exact ⟨e, he, by rw [← hlen]; exact hi, hptr⟩
  · intro i qs qs' hqs hqs'
    have hi := h.lt_maxLevel hqs'
    rw [hqs.unique (h.chains i (by omega)), hqs'.unique (h.chains (i + 1) hi)]
    exact lane_succ_sublist
  · intro i hlevel hi
    have hchain := h.chains i hi
    rw [lane_eq_nil (fun e he => (h.heights e he).2.trans hlevel)] at hchain
    exact hchain

end Read

/-! ### A node along a run -/

/--
The node `p` with key `k` and a tower of height `n`: it is there as long as it is alive,
and its address is never used again.
-/
def Tracked (p : Ptr) (k : CString) (n : Nat) (alive : Prop) (S : SkipList) (L : List Tower) : Prop :=
  p < S.mem.next ∧ (alive → ∃ e ∈ L, e.ptr = p ∧ e.name = k ∧ e.height = n) ∧
    (¬ alive → p ∉ L.map fun e => e.ptr)

section Track

variable {S S' : SkipList} {L L' : List Tower} {p : Ptr} {k key value : CString} {n : Nat}
  {alive : Prop}

theorem Tracked.insert (ht : Tracked p k n alive S L) (h : SkipRep S L) (hk : KeyFits key)
    (hkeep : SkipKeeps S S') (hi : SkipInserted S.mem.next key value L L') :
    Tracked p k n alive S' L' := by
  obtain ⟨hlt, hlive, hdead⟩ := ht
  refine ⟨Nat.lt_of_lt_of_le hlt hkeep.next, ?_, ?_⟩
  · intro ha
    obtain ⟨e, he, hptr, hname, hheight⟩ := hlive ha
    rcases hi with ⟨A, e', B, rfl, rfl, rfl⟩ | ⟨A, B, height, rfl, -, rfl⟩
    · rcases List.mem_append.mp he with hin | hin
      · exact ⟨e, by simp [hin], hptr, hname, hheight⟩
      rcases List.mem_cons.mp hin with rfl | hin
      · have hsame : (e.withValue value).name = e.name :=
          Entry.withValue_name (h.sound e (by simp)) hk
        exact ⟨e.withValue value, by simp, hptr, hsame.trans hname, hheight⟩
      · exact ⟨e, by simp [hin], hptr, hname, hheight⟩
    · refine ⟨e, ?_, hptr, hname, hheight⟩
      simp only [List.mem_append, List.mem_cons] at he ⊢
      tauto
  · intro ha
    have hp := hdead ha
    rcases hi with ⟨A, e', B, rfl, rfl, rfl⟩ | ⟨A, B, height, rfl, -, rfl⟩
    · have hptrs : (A ++ e'.withValue value :: B).map (fun e => e.ptr) =
          (A ++ e' :: B).map fun e => e.ptr := by simp [Tower.withValue, Entry.withValue]
      rw [hptrs]
      exact hp
    · rw [List.map_append, List.map_cons, List.mem_append, List.mem_cons]
      rw [List.map_append, List.mem_append] at hp
      have hne : p ≠ S.mem.next := Nat.ne_of_lt hlt
      rintro (hc | hc | hc)
      · exact hp (Or.inl hc)
      · exact hne hc
      · exact hp (Or.inr hc)

theorem Tracked.delete (ht : Tracked p k n alive S L) (h : SkipRep S L) (hkeep : SkipKeeps S S')
    (hd : SkipDeleted key L L') : Tracked p k n (alive ∧ k ≠ key) S' L' := by
  obtain ⟨hlt, hlive, hdead⟩ := ht
  refine ⟨Nat.lt_of_lt_of_le hlt hkeep.next, ?_, ?_⟩
  · rintro ⟨ha, hne⟩
    obtain ⟨e, he, hptr, hname, hheight⟩ := hlive ha
    refine ⟨e, ?_, hptr, hname, hheight⟩
    rcases hd with ⟨A, e', B, rfl, rfl, rfl⟩ | ⟨-, rfl⟩
    · have hee : e ≠ e' := by
        rintro rfl
        exact hne hname.symm
      simp only [List.mem_append, List.mem_cons] at he ⊢
      tauto
    · exact he
  · intro hgone
    by_cases ha : alive
    · -- The entry with the key that was deleted is the tracked one.
      obtain rfl : k = key := by
        by_contra hc
        exact hgone ⟨ha, hc⟩
      obtain ⟨e, he, rfl, hname, -⟩ := hlive ha
      rcases hd with ⟨A, e', B, rfl, hname', rfl⟩ | ⟨habs, -⟩
      · have hee : e = e' := by
          have hasc := h.ascending
          rw [List.pairwise_append, List.pairwise_cons] at hasc
          obtain ⟨-, ⟨hB, -⟩, hA⟩ := hasc
          rcases List.mem_append.mp he with hin | hin
          · exact absurd (hname.trans hname'.symm) (ne_of_lt (hA e hin e' (by simp)))
          rcases List.mem_cons.mp hin with hin | hin
          · exact hin
          · exact absurd (hname'.trans hname.symm) (ne_of_lt (hB e hin))
        subst hee
        have hnd := h.nodup
        rw [List.map_append, List.map_cons, List.nodup_middle, List.nodup_cons,
          ← List.map_append] at hnd
        exact hnd.1
      · exact absurd hname (habs e he)
    · have hp := hdead ha
      rcases hd with ⟨A, e', B, rfl, -, rfl⟩ | ⟨-, rfl⟩
      · intro hc
        refine hp ?_
        rw [List.map_append, List.mem_append] at hc
        rw [List.map_append, List.map_cons, List.mem_append, List.mem_cons]
        tauto
      · exact hp

/-- One call keeps the representation, and a node with it unless it is deleted. -/
theorem skipOp_spec (h : SkipRep S L) {op : SkipOp} (hfit : op.Fits) :
    ∃ S' L', (skipOp op).run S = .ok ((), S') ∧ SkipRep S' L' ∧
      ∀ p k n alive, Tracked p k n alive S L → Tracked p k n (alive ∧ op ≠ .delete k) S' L' := by
  cases op with
  | insert key value =>
      obtain ⟨S', L', hrun, hrep, hkeep, hi⟩ := insert_spec h hfit.1 _
      refine ⟨S', L', hrun, hrep, ?_⟩
      intro p k n alive ht
      have hsame : (alive ∧ SkipOp.insert key value ≠ .delete k) = alive := by simp
      rw [hsame]
      exact ht.insert h hfit.1 hkeep hi
  | delete key =>
      obtain ⟨S', L', hrun, hrep, hkeep, hd⟩ := delete_spec h key
      refine ⟨S', L', hrun, hrep, ?_⟩
      intro p k n alive ht
      have hsame : (alive ∧ SkipOp.delete key ≠ .delete k) = (alive ∧ k ≠ key) := by
        simp [eq_comm]
      rw [hsame]
      exact ht.delete h hkeep hd

/-- What one call keeps, a run keeps. -/
theorem skipRun_spec (h : SkipRep S L) (ops : List SkipOp) (hfit : ∀ op ∈ ops, op.Fits) :
    ∃ rs S' L', (runCalls skipOp ops).run S = .ok (rs, S') ∧ SkipRep S' L' ∧
      ∀ p k n alive, Tracked p k n alive S L → Tracked p k n (alive ∧ .delete k ∉ ops) S' L' := by
  induction ops generalizing S L with
  | nil =>
      refine ⟨[], S, L, rfl, h, ?_⟩
      intro p k n alive ht
      simpa using ht
  | cons op ops ih =>
      obtain ⟨S₁, L₁, hrun₁, hrep₁, htrack₁⟩ := skipOp_spec h (hfit op (by simp))
      obtain ⟨rs, S', L', hrun, hrep, htrack⟩ := ih hrep₁ (fun o ho => hfit o (by simp [ho]))
      refine ⟨() :: rs, S', L', runCalls_cons_ok hrun₁ hrun, hrep, ?_⟩
      intro p k n alive ht
      have hall : (alive ∧ .delete k ∉ op :: ops) =
          ((alive ∧ op ≠ .delete k) ∧ .delete k ∉ ops) := by
        simp [and_assoc, eq_comm]
      rw [hall]
      exact htrack p k n _ (htrack₁ p k n alive ht)

end Track

/-! ### Over whole runs -/

/--
**The skip list invariant holds after every run** of `insert` and `delete` from a fresh
list, and a node that exists at some point of a run is, at any later point, on exactly
the levels of its tower if its key was not deleted in between, and otherwise on none.
-/
theorem skiplist_invariant_run (S₀ : SkipList) (mu : Mutex) (before after : List SkipOp)
    (hbefore : ∀ op ∈ before, op.Fits) (hafter : ∀ op ∈ after, op.Fits) :
    ∃ S₁ rs S rs' S', (initSkiptable true true mu).run S₀ = .ok (0, S₁) ∧
      (runCalls skipOp before).run S₁ = .ok (rs, S) ∧
      (runCalls skipOp after).run S = .ok (rs', S') ∧
      SkipInvariant S ∧ SkipInvariant S' ∧
      ∀ p nd k, S.header < p → S.mem.cells p = some nd → Reads nd.keyMem k →
        ∀ i, OnLevel S' i p ↔ i < nd.forward.length ∧ .delete k ∉ after := by
  obtain ⟨S₁, hinit, hrep₁, -⟩ := initSkiptable_rep S₀ mu
  obtain ⟨rs, S, L, hrun, hrep, -⟩ := skipRun_spec hrep₁ before hbefore
  obtain ⟨rs', S', L', hrun', hrep', htrack⟩ := skipRun_spec hrep after hafter
  refine ⟨S₁, rs, S, rs', S', hinit, hrun, hrun', hrep.invariant, hrep'.invariant, ?_⟩
  intro p nd k hp hcell hreads i
  obtain ⟨e, he, rfl, fs, rfl, -, hlen⟩ := hrep.node_iff.mp ⟨hp, hcell⟩
  have hname : e.name = k := (hrep.sound e he).reads.unique hreads
  obtain ⟨-, hlive, hdead⟩ := htrack e.ptr k e.height True
    ⟨Mem.lt_next_of_some hcell, fun _ => ⟨e, he, rfl, hname, rfl⟩, fun hc => absurd trivial hc⟩
  rw [hrep'.onLevel]
  show _ ↔ i < fs.length ∧ _
  rw [hlen]
  constructor
  · rintro ⟨e', he', hi, hptr⟩
    have halive : .delete k ∉ after := by
      by_contra hc
      refine hdead (fun hboth => hboth.2 (by simpa using hc)) ?_
      exact List.mem_map.mpr ⟨e', he', hptr⟩
    obtain ⟨e'', he'', hptr'', -, hheight⟩ := hlive ⟨trivial, halive⟩
    have hsame : e' = e'' :=
      List.inj_on_of_nodup_map hrep'.nodup he' he'' (hptr.trans hptr''.symm)
    rw [hsame, hheight] at hi
    exact ⟨hi, halive⟩
  · rintro ⟨hi, halive⟩
    obtain ⟨e', he', hptr, -, hheight⟩ := hlive ⟨trivial, halive⟩
    exact ⟨e', he', by rw [hheight]; exact hi, hptr⟩

/-- Of two nodes inserted first, the one whose key is deleted later is on no level then. -/
theorem skiplist_invariant_run_delete :
    let k : CString := ⟨[107], by decide⟩
    let k' : CString := ⟨[108], by decide⟩
    let before : List SkipOp := [.insert k k, .insert k' k]
    let after : List SkipOp := [.insert k k', .delete k']
    ∃ S₁ rs S rs' S',
      (initSkiptable true true .free).run (SkipList.static fun n => n) = .ok (0, S₁) ∧
      (runCalls skipOp before).run S₁ = .ok (rs, S) ∧
      (runCalls skipOp after).run S = .ok (rs', S') ∧
      SkipInvariant S ∧ SkipInvariant S' ∧
      ∀ p nd k, S.header < p → S.mem.cells p = some nd → Reads nd.keyMem k →
        ∀ i, OnLevel S' i p ↔ i < nd.forward.length ∧ .delete k ∉ after :=
  skiplist_invariant_run (SkipList.static fun n => n) .free _ _ (by decide) (by decide)

end KvStore
