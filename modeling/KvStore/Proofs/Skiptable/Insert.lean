/-
Insertion.

A key that is stored gets its value field overwritten; nothing else changes.  For a new
key the tower's height comes from `rand`, between 1 and 6 whatever it returns.  If the
tower is higher than the list, `update` is completed with the header, which is the last
node below the key on a level that was not in use.
-/
import KvStore.Proofs.Skiptable.Splice

namespace KvStore

section Insert

variable {S : SkipList} {L A B : List Tower} {k v : CString} {i n : Nat}

/-- Whatever `rand` returns, a tower has between one and six levels. -/
theorem randomLevel_run (S : SkipList) :
    ∃ height rand, randomLevel.run S = .ok (height, { S with rand := rand }) ∧
      1 ≤ height ∧ height ≤ maxLevel := by
  have hstep : ∀ m level S', (m = maxLevel - level ∧ 1 ≤ level ∧ level ≤ maxLevel ∧
        ∃ rand, S' = { S with rand := rand }) →
      (∃ level' S'', (randomLevelStep level).run S' = .ok (.inr level', S'') ∧
        ((∃ rand, S'' = { S with rand := rand }) ∧ 1 ≤ level' ∧ level' ≤ maxLevel)) ∨
      (∃ level' S'' m', (randomLevelStep level).run S' = .ok (.inl level', S'') ∧ m' < m ∧
        (m' = maxLevel - level' ∧ 1 ≤ level' ∧ level' ≤ maxLevel ∧
          ∃ rand, S'' = { S with rand := rand })) := by
    rintro m level S' ⟨rfl, hpos, hle, rand, rfl⟩
    by_cases hc : rand 0 % 2 ≠ 0 ∧ level < maxLevel
    · refine Or.inr ⟨level + 1, { S with rand := fun n => rand (n + 1) }, maxLevel - (level + 1),
        ?_, by omega, rfl, by omega, by omega, _, rfl⟩
      exact run_bind_of rfl (run_ite_pos hc rfl)
    · refine Or.inl ⟨level, { S with rand := fun n => rand (n + 1) }, ?_, ⟨_, rfl⟩, hpos, hle⟩
      exact run_bind_of rfl (run_ite_neg hc rfl)
  obtain ⟨height, S', hrun, ⟨rand, rfl⟩, hpos, hle⟩ :=
    loop_total hstep (maxLevel + 1) (maxLevel - 1) 1 S
      ⟨rfl, by omega, by decide, S.rand, rfl⟩ (by decide)
  exact ⟨height, rand, hrun, hpos, hle⟩

/-- The node `createNode` allocates. -/
def newNode (k v : CString) (height : Nat) : SkNode :=
  ⟨strncpy maxKeyLen k.bytes, strncpy maxValueLen v.bytes, List.replicate height 0⟩

theorem createNode_run (S : SkipList) (k v : CString) (height : Nat) :
    (createNode true true k v height).run S =
      .ok (S.mem.next, { S with mem := S.mem.alloc (newNode k v height) }) := by
  have hcell := S.mem.alloc_self ⟨strncpy maxKeyLen k.bytes, strncpy maxValueLen v.bytes, []⟩
  refine run_bind_of (malloc_run S _) (run_ite_neg (Nat.ne_of_gt S.mem.next_pos) ?_)
  refine run_ite_pos rfl (run_bind_of (assign_run (s := { S with mem := _ }) hcell _) ?_)
  show Except.ok (S.mem.next, ({ S with mem := (S.mem.alloc _).write _ _ } : SkipList)) = _
  rw [Mem.alloc_write]
  rfl

theorem raiseUpdate_run (update : Update) (hn : i + n ≤ maxLevel) :
    ∃ update' : Update, (raiseUpdate n i update).run S = .ok (update', S) ∧
      ∀ j, ∀ hj : j < maxLevel,
        update'[j] = if i ≤ j ∧ j < i + n then some S.header else update[j] := by
  induction n generalizing i update with
  | zero =>
      refine ⟨update, rfl, ?_⟩
      intro j hj
      rw [if_neg (by omega)]
  | succ n ih =>
      obtain ⟨update', hrun, hget⟩ := ih (update.set i (some S.header)) (i := i + 1) (by omega)
      refine ⟨update', ?_, ?_⟩
      · exact run_bind_of (run_get S) (run_bind_of (setUpdate_run update (by omega) _) hrun)
      · intro j hj
        rw [hget j hj, Vector.getElem_set]
        by_cases hij : i = j
        · rw [if_neg (by omega), if_pos hij, if_pos (by omega)]
        · by_cases hin : i + 1 ≤ j ∧ j < i + 1 + n
          · rw [if_pos hin, if_pos (by omega)]
          · rw [if_neg hin, if_neg hij, if_neg (by omega)]

/-- Completing `update`, and with it the level, for a tower of a given height. -/
theorem raiseLevel_run {update : Update} {height : Nat} (hheight : height ≤ maxLevel)
    (hA : ∀ e ∈ A, e.height ≤ S.level)
    (hupdate : ∀ j, ∀ hj : j < maxLevel, j < S.level → update[j] = some (predOn S j A)) :
    ∃ update' : Update, (raiseLevel height update).run S =
        .ok (update', { S with level := max S.level height }) ∧
      ∀ j, ∀ hj : j < maxLevel, j < height → update'[j] = some (predOn S j A) := by
  by_cases hc : height > S.level
  · obtain ⟨update', hrun, hget⟩ := raiseUpdate_run (S := S) (i := S.level)
      (n := height - S.level) update (by omega)
    refine ⟨update', ?_, ?_⟩
    · rw [Nat.max_eq_right (Nat.le_of_lt hc)]
      exact run_bind_of (run_get S) (run_ite_pos hc (run_bind_of hrun rfl))
    · intro j hj hlt
      rw [hget j hj]
      by_cases hj' : j < S.level
      · rw [if_neg (by omega), hupdate j hj hj']
      · rw [if_pos (by omega), predOn, lane_eq_nil]
        · rfl
        · intro e he
          exact (hA e he).trans (Nat.le_of_not_lt hj')
  · refine ⟨update, ?_, fun j hj hlt => hupdate j hj (by omega)⟩
    rw [Nat.max_eq_left (Nat.le_of_not_lt hc)]
    exact run_bind_of (run_get S) (run_ite_neg hc rfl)

theorem shapeAt_alloc {m : Mem SkNode} {p : Ptr} (hp : p ≠ m.next) (nd : SkNode) :
    shapeAt (m.alloc nd) p = shapeAt m p := by
  rw [shapeAt, Mem.alloc_of_ne m hp, shapeAt]

theorem forwardAt_alloc {m : Mem SkNode} {p : Ptr} (hp : p ≠ m.next) (nd : SkNode) (i : Nat) :
    forwardAt (m.alloc nd) i p = forwardAt m i p := by
  rw [forwardAt, Mem.alloc_of_ne m hp, forwardAt]

/-- What neither `insert` nor `delete` works on; addresses are only ever used up. -/
structure SkipKeeps (S S' : SkipList) : Prop where
  header : S'.header = S.header
  lock : S'.lock = S.lock
  count : S'.nbElements = S.nbElements
  next : S.mem.next ≤ S'.mem.next

theorem SkipRep.lt_next (h : SkipRep S L) :
    ∀ p ∈ S.header :: L.map fun e => e.ptr, p < S.mem.next := by
  intro p hp
  rcases List.mem_cons.mp hp with rfl | hp
  · obtain ⟨key, value, hshape⟩ := h.header
    obtain ⟨nd, hcell, -⟩ := Option.map_eq_some_iff.mp hshape
    exact Mem.lt_next_of_some hcell
  · obtain ⟨e, he, rfl⟩ := List.mem_map.mp hp
    obtain ⟨fs, hcell, -⟩ := h.cell he
    exact Mem.lt_next_of_some hcell

/-- The strict order around a key that is not stored. -/
theorem Cut.ascending_insert (hcut : Cut L A B k) (hasc : L.Pairwise fun a b => a.name < b.name)
    (habs : ∀ e ∈ L, e.name ≠ k) {e : Tower} (he : e.name = k) :
    (A ++ e :: B).Pairwise fun a b => a.name < b.name := by
  obtain ⟨rfl, hbelow, hrest⟩ := hcut
  obtain ⟨hA, hB, hAB⟩ := List.pairwise_append.mp hasc
  refine List.pairwise_append.mpr ⟨hA, List.pairwise_cons.mpr ⟨?_, hB⟩, ?_⟩
  · intro b hb
    rw [he]
    exact lt_of_le_of_ne (hrest b hb) (Ne.symm (habs b (List.mem_append_right A hb)))
  · intro a ha b hb
    rcases List.mem_cons.mp hb with rfl | hb
    · rw [he]
      exact hbelow a ha
    · exact hAB a ha b hb

/-- The representation with one more entry, at the next address. -/
theorem SkipRep.add {S' : SkipList} {e : Tower} (h : SkipRep S (A ++ B))
    (hheader : S'.header = S.header) (hlevel : S'.level = max S.level e.height)
    (hheight : 1 ≤ e.height ∧ e.height ≤ maxLevel) (hptr : e.ptr = S.mem.next)
    (hshape : ∀ p, shapeAt S'.mem p = if p = e.ptr then some e.shape else shapeAt S.mem p)
    (hdone : Spliced S' A B (e :: B) e.height)
    (hasc : (A ++ e :: B).Pairwise fun a b => a.name < b.name) (hsound : e.Sound) :
    SkipRep S' (A ++ e :: B) := by
  have hold : ∀ p ∈ S.header :: (A ++ B).map fun e => e.ptr, p ≠ e.ptr := by
    intro p hp
    rw [hptr]
    exact Nat.ne_of_lt (h.lt_next p hp)
  have hmem : ∀ a ∈ A ++ e :: B, a = e ∨ a ∈ A ++ B := by
    intro a ha
    simp only [List.mem_append, List.mem_cons] at ha ⊢
    tauto
  refine ⟨?_, ?_, ?_, ?_, ?_, ?_, ?_, ?_, ?_, hasc, ?_⟩
  · obtain ⟨key, value, hcell⟩ := h.header
    refine ⟨key, value, ?_⟩
    rw [hheader, hshape, if_neg (hold _ (List.mem_cons_self ..)), hcell]
  · intro a ha
    rcases hmem a ha with rfl | ha
    · rw [hshape, if_pos rfl]
    · rw [hshape, if_neg (hold _ (List.mem_cons_of_mem _ (List.mem_map_of_mem ha))), h.nodes a ha]
  · intro p hp hsome
    rw [List.map_append, List.map_cons, List.mem_append, List.mem_cons]
    by_cases hc : p = e.ptr
    · exact Or.inr (Or.inl hc)
    · have hin := h.only p (hheader ▸ hp) (by
        rwa [isSome_of_shape (m := S.mem) (by rw [hshape, if_neg hc])] at hsome)
      rw [List.map_append, List.mem_append] at hin
      tauto
  · intro j hj
    have hchain := hdone j hj
    rw [lane_append]
    by_cases hjh : j < e.height
    · rwa [if_pos hjh] at hchain
    · rw [if_neg hjh] at hchain
      rwa [lane_cons_neg hjh]
  · intro a ha
    rw [hheader]
    rcases hmem a ha with rfl | ha
    · rw [hptr]
      exact h.lt_next S.header (List.mem_cons_self ..)
    · exact h.above a ha
  · rw [List.map_append, List.map_cons, List.nodup_middle, List.nodup_cons, ← List.map_append]
    exact ⟨fun hc => hold _ (List.mem_cons_of_mem _ hc) rfl, h.nodup⟩
  · intro a ha
    rw [hlevel]
    rcases hmem a ha with rfl | ha
    · exact ⟨hheight.1, le_max_right _ _⟩
    · exact ⟨(h.heights a ha).1, (h.heights a ha).2.trans (le_max_left _ _)⟩
  · rw [hlevel]
    exact h.level_pos.trans (le_max_left _ _)
  · rw [hlevel]
    exact max_le h.level_le hheight.2
  · intro a ha
    rcases hmem a ha with rfl | ha
    · exact hsound
    · exact h.sound a ha

/-- **A new node is linked on all levels of its tower.** -/
theorem insertNew_spec (h : SkipRep S (A ++ B)) (hcut : Cut (A ++ B) A B k)
    (habs : ∀ e ∈ A ++ B, e.name ≠ k) (hk : KeyFits k) {update : Update}
    (hupdate : ∀ j, ∀ hj : j < maxLevel, j < S.level → update[j] = some (predOn S j A)) :
    ∃ S' height, (insertNew true true k v update).run S = .ok ((), S') ∧
      SkipRep S' (A ++ ⟨Entry.make S.mem.next k v, height⟩ :: B) ∧ SkipKeeps S S' := by
  obtain ⟨height, rand, hrand, hpos, hmax⟩ := randomLevel_run S
  let e : Tower := ⟨Entry.make S.mem.next k v, height⟩
  let m₁ := S.mem.alloc (newNode k v height)
  let S₂ : SkipList := { S with rand := rand, mem := m₁, level := max S.level height }
  obtain ⟨update', hraise, hupdate'⟩ := raiseLevel_run (S := { S with rand := rand, mem := m₁ })
    hmax (fun a ha => (h.heights a (List.mem_append_left B ha)).2) hupdate
  have hold : ∀ p ∈ S.header :: (A ++ B).map fun e => e.ptr, p ≠ S.mem.next :=
    fun p hp => Nat.ne_of_lt (h.lt_next p hp)
  have hnew : shapeAt m₁ S.mem.next = some e.shape := by
    unfold shapeAt
    rw [show m₁.cells S.mem.next = _ from Mem.alloc_self ..]
    simp [SkNode.shape, newNode, Tower.shape, e, Entry.make]
  have hunl : Unlinked S₂ A B e :=
    ⟨h.nodup_header, fun hc => hold _ hc rfl, hnew, hmax⟩
  have hstart : Spliced S₂ A B (e :: B) 0 := by
    intro j hj
    rw [if_neg (Nat.not_lt_zero j), ← lane_append]
    refine (h.chains j hj).congr (fun q hq => forwardAt_alloc (hold q ?_) _ j)
    exact mem_ptrs_of_lane hq (fun _ ha => ha)
  obtain ⟨S', hlink, hr, hdone⟩ := linkNode_spec (n := height) hstart hunl (Nat.zero_add height)
    hupdate'
  obtain ⟨⟨m', rfl⟩, hnext, hsame⟩ := hr
  refine ⟨_, height, run_bind_of hrand (run_bind_of (createNode_run ..) (run_bind_of hraise hlink)),
    h.add (e := e) rfl rfl ⟨hpos, hmax⟩ rfl ?_ hdone ?_ (Entry.make_sound hk), rfl, rfl, rfl, ?_⟩
  · intro p
    refine (hsame p).trans ?_
    by_cases hp : p = e.ptr
    · rw [if_pos hp, hp]
      exact hnew
    · rw [if_neg hp]
      exact shapeAt_alloc hp _
  · exact hcut.ascending_insert h.ascending habs (Entry.make_name hk)
  · show S.mem.next ≤ m'.next
    rw [show m'.next = m₁.next from hnext]
    exact Nat.le_succ _

/-- The entry with its value field overwritten. -/
def Tower.withValue (e : Tower) (v : CString) : Tower := ⟨e.toEntry.withValue v, e.height⟩

theorem lane_withValue (i : Nat) (A B : List Tower) (e : Tower) (v : CString) :
    lane i (A ++ e.withValue v :: B) = lane i (A ++ e :: B) := by
  rw [lane_append, lane_append]
  by_cases hie : i < e.height
  · rw [lane_cons_pos hie, lane_cons_pos (e := e.withValue v) hie]
    rfl
  · rw [lane_cons_neg hie, lane_cons_neg (e := e.withValue v) hie]

/-- The entries after an overwrite are the changed one and others with other addresses. -/
theorem SkipRep.mem_withValue {e a : Tower} (h : SkipRep S (A ++ e :: B))
    (ha : a ∈ A ++ e.withValue v :: B) :
    a = e.withValue v ∨ (a ∈ A ++ e :: B ∧ a.ptr ≠ e.ptr) := by
  have hnd := h.nodup
  rw [List.map_append, List.map_cons, List.nodup_middle, List.nodup_cons,
    ← List.map_append] at hnd
  simp only [List.mem_append, List.mem_cons] at ha ⊢
  have hne : a ∈ A ∨ a ∈ B → a.ptr ≠ e.ptr := by
    intro hin hc
    exact hnd.1 (List.mem_map.mpr ⟨a, List.mem_append.mpr hin, hc⟩)
  tauto

/-- Overwriting a value leaves all pointers alone. -/
theorem SkipRep.overwrite {e : Tower} (h : SkipRep S (A ++ e :: B)) (hk : KeyFits e.name)
    (v : CString) :
    ∃ S', (assign e.ptr fun nd : SkNode => { nd with value := strncpy maxValueLen v.bytes }).run S =
        .ok ((), S') ∧ SkipRep S' (A ++ e.withValue v :: B) ∧ SkipKeeps S S' := by
  have he : e ∈ A ++ e :: B := by simp
  obtain ⟨fs, hcell, hlen⟩ := h.cell he
  let nd : SkNode := ⟨e.key, strncpy maxValueLen v.bytes, fs⟩
  have hself : (S.mem.write e.ptr nd).cells e.ptr = some nd := Mem.write_self hcell nd
  have hname : (e.withValue v).name = e.name :=
    Entry.withValue_name (h.sound e he) hk
  have hptrs : (A ++ e.withValue v :: B).map (fun e => e.ptr) =
      (A ++ e :: B).map fun e => e.ptr := by
    simp [Tower.withValue, Entry.withValue]
  have hnames : (A ++ e.withValue v :: B).map (fun e => e.name) =
      (A ++ e :: B).map fun e => e.name := by
    rw [List.map_append, List.map_append, List.map_cons, List.map_cons, hname]
  have hforward : ∀ i p, forwardAt (S.mem.write e.ptr nd) i p = forwardAt S.mem i p := by
    intro i p
    by_cases hp : p = e.ptr
    · rw [hp, forwardAt, forwardAt, hself, hcell]
      rfl
    · rw [forwardAt, Mem.write_of_ne _ hp, forwardAt]
  have hshape : ∀ p, p ≠ e.ptr → shapeAt (S.mem.write e.ptr nd) p = shapeAt S.mem p := by
    intro p hp
    rw [shapeAt, Mem.write_of_ne _ hp, shapeAt]
  refine ⟨{ S with mem := S.mem.write e.ptr nd }, assign_run (s := S) hcell _, ?_,
    rfl, rfl, rfl, le_refl _⟩
  refine ⟨?_, ?_, ?_, ?_, ?_, hptrs ▸ h.nodup, ?_, h.level_pos, h.level_le, ?_, ?_⟩
  · obtain ⟨key, value, hheader⟩ := h.header
    exact ⟨key, value, (hshape _ (Nat.ne_of_lt (h.above e he))).trans hheader⟩
  · intro a ha
    rcases h.mem_withValue ha with rfl | ⟨ha, hne⟩
    · unfold shapeAt
      rw [show ((S.mem.write e.ptr nd).cells (e.withValue v).ptr) = some nd from hself]
      simp [SkNode.shape, nd, hlen, Tower.shape, Tower.withValue, Entry.withValue]
    · exact (hshape _ hne).trans (h.nodes a ha)
  · intro p hp hsome
    rw [hptrs]
    exact h.only p hp (by rwa [Mem.write_isSome] at hsome)
  · intro i hi
    rw [lane_withValue]
    exact (h.chains i hi).congr (fun q _ => hforward i q)
  · intro a ha
    rcases h.mem_withValue ha with rfl | ⟨ha, -⟩
    · exact h.above e he
    · exact h.above a ha
  · intro a ha
    rcases h.mem_withValue ha with rfl | ⟨ha, -⟩
    · exact h.heights e he
    · exact h.heights a ha
  · have hasc := h.ascending
    rw [← List.pairwise_map (R := (· < ·))] at hasc ⊢
    rw [hnames]
    exact hasc
  · intro a ha
    rcases h.mem_withValue ha with rfl | ⟨ha, -⟩
    · exact Entry.withValue_sound (h.sound e he) hk
    · exact h.sound a ha

/-- What `insert` does to the list of entries. -/
def SkipInserted (p : Ptr) (k v : CString) (L L' : List Tower) : Prop :=
  (∃ A e B, L = A ++ e :: B ∧ e.name = k ∧ L' = A ++ e.withValue v :: B) ∨
    (∃ A B height, L = A ++ B ∧ (∀ e ∈ L, e.name ≠ k) ∧
      L' = A ++ ⟨Entry.make p k v, height⟩ :: B)

/-- **`insert` overwrites the value of a stored key, and otherwise adds an entry.** -/
theorem insert_spec (h : SkipRep S L) (hk : KeyFits k) (v : CString) :
    ∃ S' L', (SkipList.insert true true k v).run S = .ok ((), S') ∧ SkipRep S' L' ∧
      SkipKeeps S S' ∧ SkipInserted S.mem.next k v L L' := by
  obtain ⟨A, B, hcut⟩ := exists_cut h.ascending k
  obtain ⟨update, hdesc, hupdate⟩ := descend_update h hcut
  rcases nextIs_run h hcut with ⟨e, B', rfl, rfl, hnext, hget⟩ | ⟨habs, hnext⟩
  · obtain rfl := hcut.list
    obtain ⟨S', hrun, hrep, hkeep⟩ := h.overwrite hk v
    refine ⟨S', _, ?_, hrep, hkeep, Or.inl ⟨A, e, B', rfl, rfl, rfl⟩⟩
    refine run_bind_of (run_get S) (run_bind_of hdesc (run_bind_of hnext (run_ite_pos rfl ?_)))
    exact run_bind_of hget hrun
  · obtain rfl := hcut.list
    obtain ⟨S', height, hrun, hrep, hkeep⟩ := insertNew_spec (v := v) h hcut habs hk hupdate
    refine ⟨S', _, ?_, hrep, hkeep, Or.inr ⟨A, B, height, rfl, habs, rfl⟩⟩
    refine run_bind_of (run_get S) (run_bind_of hdesc (run_bind_of hnext ?_))
    exact run_ite_neg (by simp) hrun

/-! ### Without memory -/

/-- Overwriting needs no memory. -/
theorem insert_stored (h : SkipRep S L) (hk : ∃ e ∈ L, e.name = k) (a b : Bool) (v : CString) :
    (SkipList.insert a b k v).run S = (SkipList.insert true true k v).run S := by
  obtain ⟨A, B, hcut⟩ := exists_cut h.ascending k
  obtain ⟨update, hdesc, -⟩ := descend_update h hcut
  rcases nextIs_run h hcut with ⟨e, B', rfl, rfl, hnext, hget⟩ | ⟨habs, -⟩
  · have hrun : ∀ a b, (SkipList.insert a b e.name v).run S =
        (assign e.ptr fun nd : SkNode => { nd with value := strncpy maxValueLen v.bytes }).run S := by
      intro a b
      refine run_bind_of (run_get S) (run_bind_of hdesc (run_bind_of hnext (run_ite_pos rfl ?_)))
      exact run_bind_of hget rfl
    rw [hrun a b, hrun true true]
  · obtain ⟨e, he, hname⟩ := hk
    exact absurd hname (habs e he)

/-- Without memory `createNode` returns null, and does not change what is allocated. -/
theorem createNode_noAlloc {a b : Bool} (hab : ¬ (a = true ∧ b = true)) (S : SkipList)
    (k v : CString) (height : Nat) :
    ∃ mem : Mem SkNode, (createNode a b k v height).run S = .ok (0, { S with mem := mem }) ∧
      ∀ p, p < S.mem.next → mem.cells p = S.mem.cells p := by
  cases a with
  | false => exact ⟨S.mem, run_bind_of rfl (run_ite_pos rfl rfl), fun _ _ => rfl⟩
  | true =>
      cases b with
      | true => exact absurd ⟨rfl, rfl⟩ hab
      | false =>
          let nd : SkNode := ⟨strncpy maxKeyLen k.bytes, strncpy maxValueLen v.bytes, []⟩
          have hcell := S.mem.alloc_self nd
          refine ⟨(S.mem.alloc nd).release S.mem.next, ?_, ?_⟩
          · refine run_bind_of (malloc_run S nd) (run_ite_neg (Nat.ne_of_gt S.mem.next_pos) ?_)
            refine run_ite_neg (by decide) ?_
            exact run_bind_of (free_run (s := { S with mem := S.mem.alloc nd }) hcell) rfl
          · intro p hp
            rw [Mem.release_of_ne _ (Nat.ne_of_lt hp), Mem.alloc_of_ne _ (Nat.ne_of_lt hp)]

/-- A new key without memory for its node is linked through a null pointer. -/
theorem insert_noAlloc (h : SkipRep S L) (hk : ∀ e ∈ L, e.name ≠ k) {a b : Bool}
    (hab : ¬ (a = true ∧ b = true)) (v : CString) :
    (SkipList.insert a b k v).run S = .error .nullDeref := by
  obtain ⟨A, B, hcut⟩ := exists_cut h.ascending k
  obtain ⟨update, hdesc, hupdate⟩ := descend_update h hcut
  rcases nextIs_run h hcut with ⟨e, B', rfl, hname, -, -⟩ | ⟨-, hnext⟩
  · exact absurd hname (hk e (by rw [hcut.list]; simp))
  obtain rfl := hcut.list
  obtain ⟨height, rand, hrand, hpos, hmax⟩ := randomLevel_run S
  obtain ⟨mem, hcreate, hmem⟩ := createNode_noAlloc hab { S with rand := rand } k v height
  obtain ⟨update', hraise, hupdate'⟩ := raiseLevel_run (S := { S with rand := rand, mem := mem })
    hmax (fun a ha => (h.heights a (List.mem_append_left B ha)).2) hupdate
  -- The first level: the predecessor is there, the node to link is not.
  obtain ⟨n, rfl⟩ : ∃ n, height = n + 1 := ⟨height - 1, by omega⟩
  have hpred : predOn S 0 A < S.mem.next := h.lt_next _ (predOn_mem (B := B))
  have hfirst : forwardAt mem 0 (predOn S 0 A) = some ((lane 0 B).headD 0) := by
    rw [← (h.behind (by decide)).first, forwardAt, hmem _ hpred, forwardAt]
  refine run_bind_of (run_get S) (run_bind_of hdesc (run_bind_of hnext (run_ite_neg (by simp) ?_)))
  refine run_bind_of hrand (run_bind_of hcreate (run_bind_of hraise ?_))
  refine run_bind_of (getUpdate_run (by decide) (hupdate' 0 (by decide) hpos)) ?_
  refine run_bind_of (getForward_run hfirst) ?_
  exact run_bind_error rfl

end Insert

end KvStore
