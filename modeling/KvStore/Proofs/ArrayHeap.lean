/-
The pointers of the array engine.

`table` reads off what the slots have, and `Owned` says whose the strings are: every pointer of
the table is to a string of its own, and there are no other strings.  `Change` is all that a call
can do to the heap.  From it follow both that the strings stay owned, and how long a pointer that
`kvs_array_get` has returned can be used.
-/
import KvStore.Base.Bucket
import KvStore.Engine.ArrayHeap
import KvStore.Proofs.Array

namespace KvStore

/-- The strings that the slot owns. -/
def ArrayCell.strings (c : ArrayCell) : List Ptr := [c.key, c.value].filter (· ≠ 0)

namespace ArrayHeap

/-- The table with the strings in place of the pointers to them. -/
def table (H : ArrayHeap) : ArrayTable :=
  ⟨H.items.map fun c => ⟨H.strings.cells c.key, H.strings.cells c.value⟩, H.count⟩

/-- The pointers of the table. -/
def ptrs (H : ArrayHeap) : List Ptr := H.items.toList.flatMap ArrayCell.strings

/-- Each pointer of the table is to a string of its own, and there are no other strings. -/
structure Owned (H : ArrayHeap) : Prop where
  nodup : H.ptrs.Nodup
  all : ∀ p, H.strings.cells p ≠ none ↔ p ∈ H.ptrs
  length : (H.ptrs.length : Int) = 2 * H.count

/-- What a call can do to the heap. -/
inductive Change (H : ArrayHeap) : ArrayOp → ArrayHeap → Prop
  | same (o : ArrayOp) (hstored : ∀ key, o = .delete key → ∀ i, ∀ hi : i < kvsArrayItemSize,
      H.strings.cells H.items[i].key ≠ some key) : Change H o H
  | undone (key value : CString) : Change H (.put true false key value)
      { H with strings := (H.strings.alloc key).release H.strings.next }
  | set (key value : CString) (i : Nat) (hi : i < kvsArrayItemSize) (hfree : H.items[i] = ⟨0, 0⟩) :
      Change H (.put true true key value)
        ⟨H.items.set i ⟨H.strings.next, H.strings.next + 1⟩, H.count + 1,
          (H.strings.alloc key).alloc value⟩
  | delete (key : CString) (i : Nat) (hi : i < kvsArrayItemSize)
      (hkey : H.strings.cells H.items[i].key = some key) (hvalue : H.items[i].value ≠ 0) :
      Change H (.delete key)
        ⟨H.items.set i ⟨0, 0⟩, H.count - 1,
          (H.strings.release H.items[i].key).release H.items[i].value⟩

/-! ### Slots -/

section Slots

variable {H H' : ArrayHeap} {i j : Nat} {p : Ptr}

theorem table_item (H : ArrayHeap) (hi : i < kvsArrayItemSize) :
    H.table.items[i] = ⟨H.strings.cells H.items[i].key, H.strings.cells H.items[i].value⟩ :=
  Vector.getElem_map _ hi

/-- A slot is changed, and the strings of the others stay. -/
theorem table_set (hi : i < kvsArrayItemSize) (c : ArrayCell) (count : Int) {m : Mem CString}
    (hother : ∀ j, ∀ hj : j < kvsArrayItemSize, i ≠ j →
      m.cells H.items[j].key = H.strings.cells H.items[j].key ∧
        m.cells H.items[j].value = H.strings.cells H.items[j].value) :
    (⟨H.items.set i c, count, m⟩ : ArrayHeap).table =
      ⟨H.table.items.set i ⟨m.cells c.key, m.cells c.value⟩, count⟩ := by
  refine congrArg (ArrayTable.mk · count) (Vector.ext fun j hj => ?_)
  rw [Vector.getElem_map]
  by_cases hij : i = j
  · subst hij
    rw [Vector.getElem_set_self, Vector.getElem_set_self]
  · obtain ⟨hkey, hvalue⟩ := hother j hj hij
    rw [Vector.getElem_set_ne hi hj hij, Vector.getElem_set_ne hi hj hij, table_item, hkey, hvalue]

/-- The strings are the same at every address. -/
theorem table_congr {m : Mem CString} (hcells : ∀ p, m.cells p = H.strings.cells p) :
    ({ H with strings := m } : ArrayHeap).table = H.table := by
  unfold table
  simp only [hcells]

/-- Around a slot, the pointers of the table are those of the other slots. -/
theorem ptrs_split (H : ArrayHeap) (hi : i < kvsArrayItemSize) :
    ∃ L R, H.ptrs = L ++ H.items[i].strings ++ R ∧
      ∀ c count m, (⟨H.items.set i c, count, m⟩ : ArrayHeap).ptrs = L ++ c.strings ++ R := by
  obtain ⟨P, S, hlist, hset, -⟩ := vector_split H.items hi
  refine ⟨P.flatMap ArrayCell.strings, S.flatMap ArrayCell.strings, ?_, ?_⟩
  · rw [ptrs, hlist, List.flatMap_append, List.flatMap_cons, List.append_assoc]
  · intro c count m
    rw [ptrs, hset, List.flatMap_append, List.flatMap_cons, List.append_assoc]

theorem mem_ptrs (hi : i < kvsArrayItemSize) (hp : p ∈ H.items[i].strings) : p ∈ H.ptrs :=
  List.mem_flatMap.mpr ⟨H.items[i], Vector.mem_toList_iff.mpr (Vector.getElem_mem hi), hp⟩

theorem mem_strings {c : ArrayCell} : p ∈ c.strings ↔ (p = c.key ∨ p = c.value) ∧ p ≠ 0 := by
  simp [ArrayCell.strings]

/-- A pointer of a slot is null, or there is a string. -/
theorem Owned.cells_none (h : Owned H) (hi : i < kvsArrayItemSize)
    (hp : p = H.items[i].key ∨ p = H.items[i].value) : H.strings.cells p = none ↔ p = 0 := by
  constructor
  · intro hnone
    by_contra h0
    exact (h.all p).mpr (mem_ptrs hi (mem_strings.mpr ⟨hp, h0⟩)) hnone
  · rintro rfl
    exact H.strings.null

/-- Two slots share no pointer. -/
theorem Owned.apart (h : Owned H) (hi : i < kvsArrayItemSize) (hj : j < kvsArrayItemSize)
    (hij : i ≠ j) : ∀ p ∈ H.items[i].strings, p ∉ H.items[j].strings := by
  obtain ⟨-, hpairs⟩ := List.nodup_flatMap.mp h.nodup
  rw [List.pairwise_iff_getElem] at hpairs
  have hlt : ∀ {a b : Nat} (ha : a < kvsArrayItemSize) (hb : b < kvsArrayItemSize), a < b →
      List.Disjoint H.items[a].strings H.items[b].strings := by
    intro a b ha hb hab
    have hdisj := hpairs a b (by simpa using ha) (by simpa using hb) hab
    rwa [Function.onFun, Vector.getElem_toList, Vector.getElem_toList] at hdisj
  intro p hp hp'
  rcases Nat.lt_or_gt_of_ne hij with hlt' | hlt'
  · exact hlt hi hj hlt' hp hp'
  · exact hlt hj hi hlt' hp' hp

/-- A pointer of another slot is not one of this slot, unless it is null. -/
theorem Owned.ne_of_slot (h : Owned H) (hi : i < kvsArrayItemSize) (hj : j < kvsArrayItemSize)
    (hij : i ≠ j) {q : Ptr} (hp : p = H.items[i].key ∨ p = H.items[i].value) (hp0 : p ≠ 0)
    (hq : q = H.items[j].key ∨ q = H.items[j].value) : q ≠ p := by
  rintro rfl
  exact h.apart hi hj hij q (mem_strings.mpr ⟨hp, hp0⟩) (mem_strings.mpr ⟨hq, hp0⟩)

/-- The two pointers of a slot are different, unless one is null. -/
theorem Owned.value_ne_key (h : Owned H) (hi : i < kvsArrayItemSize) (hkey : H.items[i].key ≠ 0)
    (hvalue : H.items[i].value ≠ 0) : H.items[i].value ≠ H.items[i].key := by
  have hnodup := (List.nodup_flatMap.mp h.nodup).1 H.items[i]
    (Vector.mem_toList_iff.mpr (Vector.getElem_mem hi))
  have hboth : H.items[i].strings = [H.items[i].key, H.items[i].value] := by
    simp [ArrayCell.strings, hkey, hvalue]
  rw [hboth, List.nodup_cons, List.mem_singleton] at hnodup
  exact Ne.symm hnodup.1

theorem Owned.lt_next (h : Owned H) (hi : i < kvsArrayItemSize)
    (hp : p = H.items[i].key ∨ p = H.items[i].value) : p < H.strings.next := by
  by_cases h0 : p = 0
  · rw [h0]
    exact H.strings.next_pos
  · have hsome := mt (h.cells_none hi hp).mp h0
    obtain ⟨s, hs⟩ := Option.ne_none_iff_exists'.mp hsome
    exact Mem.lt_next_of_some hs

end Slots

/-! ### The strings stay owned -/

section Change

variable {H H' : ArrayHeap} {o : ArrayOp} {i : Nat}

/-- Two strings are new. -/
theorem cells_alloc_alloc (m : Mem CString) (key value : CString) :
    ((m.alloc key).alloc value).cells m.next = some key ∧
      ((m.alloc key).alloc value).cells (m.next + 1) = some value ∧
      ∀ p, p ≠ m.next → p ≠ m.next + 1 → ((m.alloc key).alloc value).cells p = m.cells p := by
  refine ⟨?_, Mem.alloc_self (m.alloc key) value, ?_⟩
  · exact (Mem.alloc_of_ne (m.alloc key) (Nat.ne_of_lt (Nat.lt_succ_self _)) value).trans
      (Mem.alloc_self m key)
  · intro p hp hp'
    exact (Mem.alloc_of_ne (m.alloc key) hp' value).trans (Mem.alloc_of_ne m hp key)

/-- Two strings are given back. -/
theorem cells_release_release (m : Mem CString) {p q r : Ptr} :
    ((m.release p).release q).cells r = if r = p ∨ r = q then none else m.cells r := by
  by_cases hq : r = q
  · rw [if_pos (Or.inr hq), hq, Mem.release_self]
  · rw [Mem.release_of_ne _ hq]
    by_cases hp : r = p
    · rw [if_pos (Or.inl hp), hp, Mem.release_self]
    · rw [if_neg (not_or.mpr ⟨hp, hq⟩), Mem.release_of_ne _ hp]

theorem Owned.set (h : Owned H) (hi : i < kvsArrayItemSize) (hfree : H.items[i] = ⟨0, 0⟩)
    (key value : CString) :
    Owned ⟨H.items.set i ⟨H.strings.next, H.strings.next + 1⟩, H.count + 1,
      (H.strings.alloc key).alloc value⟩ := by
  obtain ⟨L, R, hptrs, hset⟩ := ptrs_split H hi
  have hnone : H.items[i].strings = [] := by rw [hfree]; rfl
  have htwo : (⟨H.strings.next, H.strings.next + 1⟩ : ArrayCell).strings =
      [H.strings.next, H.strings.next + 1] := by
    simp [ArrayCell.strings, Nat.ne_of_gt H.strings.next_pos]
  rw [hnone, List.append_nil] at hptrs
  have hperm : (L ++ [H.strings.next, H.strings.next + 1] ++ R).Perm
      (H.strings.next :: (H.strings.next + 1) :: H.ptrs) := by
    rw [hptrs, List.append_assoc]
    exact List.perm_middle.trans (List.perm_middle.cons _)
  have hold : ∀ p ∈ H.ptrs, p < H.strings.next := by
    intro p hp
    obtain ⟨s, hs⟩ := Option.ne_none_iff_exists'.mp ((h.all p).mpr hp)
    exact Mem.lt_next_of_some hs
  obtain ⟨hkey, hvalue, hother⟩ := cells_alloc_alloc H.strings key value
  refine ⟨?_, ?_, ?_⟩
  · rw [hset, htwo, hperm.nodup_iff, List.nodup_cons, List.nodup_cons, List.mem_cons, not_or]
    exact ⟨⟨Nat.ne_of_lt (Nat.lt_succ_self _), fun hc => absurd (hold _ hc) (Nat.lt_irrefl _)⟩,
      fun hc => absurd (hold _ hc) (Nat.not_lt.mpr (Nat.le_succ _)), h.nodup⟩
  · intro p
    rw [hset, htwo, hperm.mem_iff, List.mem_cons, List.mem_cons]
    by_cases hp : p = H.strings.next
    · exact iff_of_true (by rw [hp, hkey]; simp) (Or.inl hp)
    by_cases hp' : p = H.strings.next + 1
    · exact iff_of_true (by rw [hp', hvalue]; simp) (Or.inr (Or.inl hp'))
    · rw [hother p hp hp', h.all, or_iff_right hp, or_iff_right hp']
  · rw [hset, htwo, hperm.length_eq, List.length_cons, List.length_cons]
    have hlength := h.length
    push_cast
    omega

theorem Owned.delete (h : Owned H) (hi : i < kvsArrayItemSize) (hkey : H.items[i].key ≠ 0)
    (hvalue : H.items[i].value ≠ 0) :
    Owned ⟨H.items.set i ⟨0, 0⟩, H.count - 1,
      (H.strings.release H.items[i].key).release H.items[i].value⟩ := by
  obtain ⟨L, R, hptrs, hset⟩ := ptrs_split H hi
  have hnone : (⟨0, 0⟩ : ArrayCell).strings = [] := rfl
  have htwo : H.items[i].strings = [H.items[i].key, H.items[i].value] := by
    simp [ArrayCell.strings, hkey, hvalue]
  have hperm : H.ptrs.Perm (H.items[i].key :: H.items[i].value :: (L ++ R)) := by
    rw [hptrs, htwo, List.append_assoc]
    exact List.perm_middle.trans (List.perm_middle.cons _)
  have hnodup := hperm.nodup_iff.mp h.nodup
  rw [List.nodup_cons, List.nodup_cons, List.mem_cons, not_or] at hnodup
  obtain ⟨⟨hne, hkey'⟩, hvalue', hrest⟩ := hnodup
  refine ⟨?_, ?_, ?_⟩
  · rw [hset, hnone, List.append_nil]
    exact hrest
  · intro p
    rw [hset, hnone, List.append_nil, cells_release_release]
    by_cases hp : p = H.items[i].key ∨ p = H.items[i].value
    · rw [if_pos hp]
      refine iff_of_false (fun hc => hc rfl) ?_
      rcases hp with rfl | rfl
      · exact hkey'
      · exact hvalue'
    · rw [if_neg hp, h.all, hperm.mem_iff, List.mem_cons, List.mem_cons]
      obtain ⟨hp₁, hp₂⟩ := not_or.mp hp
      rw [or_iff_right hp₁, or_iff_right hp₂]
  · have hlength := h.length
    rw [hperm.length_eq, List.length_cons, List.length_cons] at hlength
    rw [hset, hnone, List.append_nil]
    push_cast at hlength
    show ((L ++ R).length : Int) = 2 * (H.count - 1)
    omega

/-- **Every change keeps the strings owned.** -/
theorem Owned.change (h : Owned H) (hc : Change H o H') : Owned H' := by
  cases hc with
  | same => exact h
  | undone key value =>
      refine ⟨h.nodup, fun p => ?_, h.length⟩
      rw [Mem.alloc_release]
      exact h.all p
  | set key value i hi hfree => exact h.set hi hfree key value
  | delete key i hi hkey hvalue => exact h.delete hi (Mem.ne_zero_of_some hkey) hvalue

theorem Owned.static : Owned ArrayHeap.static := by
  have hptrs : ArrayHeap.static.ptrs = [] := by
    rw [ptrs, List.flatMap_eq_nil_iff]
    intro c hc
    obtain ⟨i, hi, rfl⟩ := exists_slot hc
    rw [show ArrayHeap.static.items[i] = ⟨0, 0⟩ from Vector.getElem_replicate hi]
    rfl
  refine ⟨?_, ?_, ?_⟩
  · rw [hptrs]
    exact List.nodup_nil
  · intro p
    rw [hptrs]
    exact iff_of_false (fun hc => hc rfl) (by simp)
  · rw [hptrs]
    rfl

end Change

/-! ### The calls -/

section Calls

variable {H H' : ArrayHeap} {m : Dict CString CString} {i : Nat}

theorem item_run (hi : i < kvsArrayItemSize) : (item i).run H = .ok (H.items[i], H) := by
  refine run_bind_of (run_get H) ?_
  rw [dif_pos hi]
  rfl

theorem assignItem_run (hi : i < kvsArrayItemSize) (f : ArrayCell → ArrayCell) :
    (assignItem i f).run H = .ok ((), { H with items := H.items.set i (f H.items[i]) }) := by
  refine run_bind_of (run_get H) ?_
  rw [dif_pos hi]
  rfl

/-- Two assignments to one slot are one. -/
theorem assignItem_twice_run {rest : Prog ArrayHeap Int} (hi : i < kvsArrayItemSize)
    (f g : ArrayCell → ArrayCell) :
    (do assignItem i f
        assignItem i g
        rest : Prog ArrayHeap Int).run H =
      rest.run { H with items := H.items.set i (g (f H.items[i])) } := by
  rw [run_bind_ok (assignItem_run hi f), run_bind_ok (assignItem_run hi g)]
  simp

theorem keyIs_run (h : Owned H) (hi : i < kvsArrayItemSize) (key : CString) :
    (keyIs key i).run H = .ok (decide (H.table.items[i].key = some key), H) := by
  refine run_bind_of (item_run hi) ?_
  have hkey : H.table.items[i].key = H.strings.cells H.items[i].key := by rw [table_item]
  rw [hkey]
  by_cases h0 : H.items[i].key = 0
  · refine run_ite_pos h0 ?_
    rw [h0, H.strings.null]
    rfl
  · obtain ⟨k, hk⟩ := Option.ne_none_iff_exists'.mp (mt (h.cells_none hi (Or.inl rfl)).mp h0)
    obtain ⟨r, hr, -, heq⟩ := strcmp_spec k.reads_mem key.reads_mem
    refine run_ite_neg h0 (run_bind_of (deref_run hk) ?_)
    rw [hr, hk]
    simp [heq]

theorem isFree_run (hi : i < kvsArrayItemSize) :
    (isFree i).run H = .ok (H.items[i].key = 0 && H.items[i].value = 0, H) :=
  run_bind_of (item_run hi) rfl

/-- The search for a key, on the pointers and on the strings. -/
theorem search_agrees (h : Owned H) (key : CString) :
    ∃ r, (kvsArraySearchItem (some key)).run H = .ok (r, H) ∧
      (KvStore.kvsArraySearchItem (some key)).run H.table = .ok (r, H.table) ∧
      ((∃ i, ∃ hi : i < kvsArrayItemSize, r = some i ∧
          H.strings.cells H.items[i].key = some key) ∨
        (r = none ∧ ∀ i, ∀ hi : i < kvsArrayItemSize,
          H.strings.cells H.items[i].key ≠ some key)) := by
  let p : Nat → Bool := fun i =>
    if h : i < kvsArrayItemSize then decide (H.table.items[i].key = some key) else false
  have hp : ∀ i, ∀ hi : i < kvsArrayItemSize, p i = decide (H.table.items[i].key = some key) :=
    fun i hi => dif_pos hi
  obtain ⟨i, hrun, hlist, hat⟩ := forFirst_same (p := p)
    (fun i hi => by rw [hp i hi]; exact keyIs_run h hi key)
    (fun i hi => by rw [hp i hi]; exact arrayKeyIs_run hi key)
  by_cases hi : i < kvsArrayItemSize
  · refine ⟨some i, run_bind_of hrun (run_ite_pos hi rfl),
      run_bind_of hlist (run_ite_pos hi rfl), Or.inl ⟨i, hi, rfl, ?_⟩⟩
    have hkey := hat hi
    rwa [hp i hi, decide_eq_true_iff, table_item] at hkey
  · have hnone : (KvStore.kvsArraySearchItem (some key)).run H.table = .ok (none, H.table) :=
      run_bind_of hlist (run_ite_neg hi rfl)
    refine ⟨none, run_bind_of hrun (run_ite_neg hi rfl), hnone, Or.inr ⟨rfl, fun j hj => ?_⟩⟩
    obtain ⟨r, hspec, hr⟩ := kvsArraySearchItem_spec H.table key
    rw [hnone] at hspec
    cases hspec
    obtain ⟨_, _, hc, _⟩ | ⟨-, hall⟩ := hr
    · cases hc
    · have hj' := hall H.table.items[j] (Vector.mem_toList_iff.mpr (Vector.getElem_mem hj))
      rwa [table_item] at hj'

/-- The scan for a free slot, likewise; the new strings do not matter. -/
theorem freeSlot_agrees (h : Owned H) (M : Mem CString) :
    ∃ i, (forFirst kvsArrayItemSize isFree).run { H with strings := M } =
        .ok (i, { H with strings := M }) ∧
      kvsArrayFreeSlot.run H.table = .ok (i, H.table) ∧
      ∀ hi : i < kvsArrayItemSize, H.items[i] = ⟨0, 0⟩ := by
  let p : Nat → Bool := fun i =>
    if h : i < kvsArrayItemSize then H.items[i].key = 0 && H.items[i].value = 0 else false
  have hp : ∀ i, ∀ hi : i < kvsArrayItemSize, p i = (H.items[i].key = 0 && H.items[i].value = 0) :=
    fun i hi => dif_pos hi
  obtain ⟨i, hrun, hlist, hat⟩ := forFirst_same (p := p) (s := { H with strings := M })
    (fun i hi => by rw [hp i hi]; exact isFree_run hi) (fun i hi => by
      rw [hp i hi, arrayIsFree_run (A := H.table) hi, table_item]
      simp only [h.cells_none hi (Or.inl rfl), h.cells_none hi (Or.inr rfl)])
  refine ⟨i, hrun, hlist, fun hi => ?_⟩
  have hfree := hat hi
  rw [hp i hi, Bool.and_eq_true, decide_eq_true_iff, decide_eq_true_iff] at hfree
  exact (ArrayCell.mk.injEq ..).mpr hfree

/-- The same answer on both levels, and a change that leads to the same strings. -/
def Agrees (H : ArrayHeap) (o : ArrayOp) : Prop :=
  ∃ r H' m', (op o).run H = .ok (r, H') ∧ (ArrayTable.op o).run H.table = .ok (r, H'.table) ∧
    Change H o H' ∧ ArraySim H'.table m'

theorem exist_run (h : Owned H) (hm : ArraySim H.table m) (key : CString) :
    (kvsArrayExist (some key)).run H = .ok (if key ∈ m then 1 else 0, H) := by
  obtain ⟨r, hrun, hlist, -⟩ := search_agrees h key
  have hexist : (KvStore.kvsArrayExist (some key)).run H.table =
      .ok (if r.isSome then 1 else 0, H.table) := run_bind_of hlist rfl
  have hret := (Prod.mk.inj (Except.ok.inj (hexist.symm.trans (kvsArrayExist_spec hm key)))).1
  rw [← hret]
  exact run_bind_of hrun rfl

/-- A put that comes to nothing before it has copied both strings. -/
theorem put_refused (hm : ArraySim H.table m) {allocKey allocValue : Bool} {key value : CString}
    {H' : ArrayHeap} (hrun : (kvsArraySet allocKey allocValue (some key) (some value)).run H =
      .ok (-1, H'))
    (hlist : (KvStore.kvsArraySet allocKey allocValue (some key) (some value)).run H.table =
      .ok (-1, H.table)) (hsame : H'.table = H.table)
    (hc : Change H (.put allocKey allocValue key value) H') :
    Agrees H (.put allocKey allocValue key value) := by
  refine ⟨.int (-1), H', m, run_map_of _ hrun, ?_, hc, ?_⟩
  · rw [hsame]
    exact run_map_of _ hlist
  · rw [hsame]
    exact hm

theorem put_agrees (h : Owned H) (hm : ArraySim H.table m) (allocKey allocValue : Bool)
    (key value : CString) : Agrees H (.put allocKey allocValue key value) := by
  have hsame : Change H (.put allocKey allocValue key value) H :=
    .same _ fun key' hkey' => by cases hkey'
  have hexist := exist_run h hm key
  have hexist' := kvsArrayExist_spec hm key
  by_cases hfull : H.count = kvsArrayItemSize - 1
  · exact put_refused hm (run_bind_of (run_get H) (run_ite_pos hfull rfl))
      (run_bind_of (run_get H.table) (run_ite_pos hfull rfl)) rfl hsame
  by_cases hk : key ∈ m
  · rw [if_pos hk] at hexist hexist'
    exact put_refused hm
      (run_bind_of (run_get H) (run_ite_neg hfull (run_bind_of hexist rfl)))
      (run_bind_of (run_get H.table) (run_ite_neg hfull (run_bind_of hexist' rfl))) rfl hsame
  rw [if_neg hk] at hexist hexist'
  -- What follows the two checks, on both levels.
  have hstart : ∀ {p}, (do
      let kcopy ← malloc allocKey key
      if kcopy = 0 then return -1
      else
        let vcopy ← malloc allocValue value
        if vcopy = 0 then
          free kcopy
          return -1
        else
          let i ← forFirst kvsArrayItemSize isFree
          assignItem i fun c => { c with key := kcopy }
          assignItem i fun c => { c with value := vcopy }
          modify fun H => { H with count := H.count + 1 }
          return 0 : Prog ArrayHeap Int).run H = p →
      (kvsArraySet allocKey allocValue (some key) (some value)).run H = p := fun hrest =>
    run_bind_of (run_get H) (run_ite_neg hfull (run_bind_of hexist hrest))
  cases allocKey with
  | false =>
      exact put_refused hm (hstart rfl)
        (run_bind_of (run_get H.table) (run_ite_neg hfull (run_bind_of hexist' rfl))) rfl hsame
  | true =>
      have hnext : H.strings.next ≠ 0 := Nat.ne_of_gt H.strings.next_pos
      cases allocValue with
      | false =>
          refine put_refused hm (hstart ?_)
            (run_bind_of (run_get H.table) (run_ite_neg hfull (run_bind_of hexist' rfl)))
            (table_congr (Mem.alloc_release H.strings key)) (.undone key value)
          refine run_bind_of (malloc_run H key) (run_ite_neg hnext (run_bind_of rfl ?_))
          exact run_ite_pos rfl (run_bind_of (free_run (Mem.alloc_self H.strings key)) rfl)
      | true =>
          obtain ⟨A', hset, hsim, -⟩ := kvsArraySet_spec hm key value
          obtain ⟨i, hscan, hscan', hfree⟩ :=
            freeSlot_agrees h ((H.strings.alloc key).alloc value)
          have hlist : (KvStore.kvsArraySet true true (some key) (some value)).run H.table =
              (do
                KvStore.assignItem i fun item => { item with key := some key }
                KvStore.assignItem i fun item => { item with value := some value }
                modify fun A => { A with count := A.count + 1 }
                return 0 : Prog ArrayTable Int).run H.table :=
            run_bind_of (run_get H.table) (run_ite_neg hfull (run_bind_of hexist'
              (run_ite_neg (by decide) (run_ite_neg (by decide) (run_ite_neg (by decide)
                (run_bind_of hscan' rfl))))))
          have hi : i < kvsArrayItemSize := by
            -- Past the end of the table the call would not have returned.
            by_contra hi
            have herror : (KvStore.assignItem i fun item => { item with key := some key }).run
                H.table = .error .outOfBounds := by
              refine run_bind_of (run_get H.table) ?_
              rw [dif_neg hi]
              rfl
            rw [hset, run_bind_error herror] at hlist
            cases hlist
          obtain ⟨hkey, hvalue, hother⟩ := cells_alloc_alloc H.strings key value
          have htable := table_set hi ⟨H.strings.next, H.strings.next + 1⟩ (H.count + 1)
            fun j hj _ => ⟨hother _ (Nat.ne_of_lt (h.lt_next hj (Or.inl rfl)))
              (Nat.ne_of_lt (Nat.lt_succ_of_lt (h.lt_next hj (Or.inl rfl)))),
              hother _ (Nat.ne_of_lt (h.lt_next hj (Or.inr rfl)))
              (Nat.ne_of_lt (Nat.lt_succ_of_lt (h.lt_next hj (Or.inr rfl))))⟩
          rw [hkey, hvalue] at htable
          have hputs := hlist.trans (KvStore.assignItem_twice_run hi _ _)
          have hA : A' = (⟨H.items.set i ⟨H.strings.next, H.strings.next + 1⟩, H.count + 1,
              (H.strings.alloc key).alloc value⟩ : ArrayHeap).table := by
            rw [htable]
            exact (Prod.mk.inj (Except.ok.inj (hset.symm.trans hputs))).2
          refine ⟨.int 0, _, _, run_map_of _ (hstart ?_), run_map_of _ ?_,
            .set key value i hi (hfree hi), hA ▸ hsim⟩
          · refine run_bind_of (malloc_run H key) (run_ite_neg hnext (run_bind_of rfl ?_))
            exact run_ite_neg (Nat.succ_ne_zero _) (run_bind_of hscan
              ((assignItem_twice_run hi _ _).trans rfl))
          · rw [htable]
            exact hputs

/-- The pointer that a get returns is to the value of the slot with the key. -/
theorem get_run (h : Owned H) (key : CString) :
    ∃ p, (kvsArrayGet (some key)).run H = .ok (p, H) ∧
      (KvStore.kvsArrayGet (some key)).run H.table = .ok (H.strings.cells p, H.table) ∧
      (p ≠ 0 → ∃ i, ∃ hi : i < kvsArrayItemSize, H.items[i].value = p ∧
        H.strings.cells H.items[i].key = some key) := by
  obtain ⟨r, hrun, hlist, hr⟩ := search_agrees h key
  rcases hr with ⟨i, hi, rfl, hkey⟩ | ⟨rfl, -⟩
  · refine ⟨H.items[i].value, run_bind_of hrun (run_bind_of (item_run hi) rfl),
      run_bind_of hlist (run_bind_of (arrayItem_run hi) ?_), fun _ => ⟨i, hi, rfl, hkey⟩⟩
    rw [table_item]
    rfl
  · refine ⟨0, run_bind_of hrun rfl, run_bind_of hlist ?_, fun hc => absurd rfl hc⟩
    rw [H.strings.null]
    rfl

/-- It is null if and only if the map does not have the key. -/
theorem get_null_iff (hm : ArraySim H.table m) {key : CString} {p : Ptr}
    (hlist : (KvStore.kvsArrayGet (some key)).run H.table = .ok (H.strings.cells p, H.table))
    (hnull : H.strings.cells p = none ↔ p = 0) : p = 0 ↔ key ∉ m := by
  have hcells : H.strings.cells p = arrayRules.get m key :=
    (Prod.mk.inj (Except.ok.inj (hlist.symm.trans (kvsArrayGet_spec hm key)))).1
  rw [← hnull, hcells]
  constructor
  · intro hnone hmem
    obtain ⟨v, hv⟩ := Finmap.mem_iff.mp hmem
    rw [MapRules.get_stored hv] at hnone
    cases hnone
  · exact MapRules.get_absent

theorem get_agrees (h : Owned H) (hm : ArraySim H.table m) (key : CString) :
    Agrees H (.get key) := by
  obtain ⟨p, hrun, hlist, hslot⟩ := get_run h key
  have hsame : Change H (.get key) H := .same _ fun _ hc => by cases hc
  refine ⟨.str (H.strings.cells p), H, m, run_bind_of hrun ?_, run_map_of _ hlist, hsame, hm⟩
  by_cases hp : p = 0
  · refine run_ite_pos hp ?_
    rw [hp, H.strings.null]
    rfl
  · obtain ⟨i, hi, hvalue, -⟩ := hslot hp
    obtain ⟨v, hv⟩ := Option.ne_none_iff_exists'.mp
      (mt (h.cells_none hi (Or.inr hvalue.symm)).mp hp)
    refine run_ite_neg hp (run_bind_of (deref_run hv) ?_)
    rw [hv]
    rfl

/-- Both pointers of a slot are given back and cleared. -/
theorem clear_run (hi : i < kvsArrayItemSize) {k v : CString}
    (hkey : H.strings.cells H.items[i].key = some k)
    (hvalue : H.strings.cells H.items[i].value = some v)
    (hne : H.items[i].value ≠ H.items[i].key) :
    (do
      whenever ((← item i).key ≠ 0) do
        free (← item i).key
        assignItem i fun c => { c with key := 0 }
      whenever ((← item i).value ≠ 0) do
        free (← item i).value
        assignItem i fun c => { c with value := 0 }
      modify fun H => { H with count := H.count - 1 }
      return 0 : Prog ArrayHeap Int).run H =
    .ok (0, ⟨H.items.set i ⟨0, 0⟩, H.count - 1,
      (H.strings.release H.items[i].key).release H.items[i].value⟩) := by
  let H₁ : ArrayHeap :=
    ⟨H.items.set i ⟨0, H.items[i].value⟩, H.count, H.strings.release H.items[i].key⟩
  have hitem : (item i).run H₁ = .ok (⟨0, H.items[i].value⟩, H₁) := by
    rw [item_run hi]
    simp [H₁]
  have hvalue₁ : H₁.strings.cells H.items[i].value = some v :=
    (Mem.release_of_ne H.strings hne).trans hvalue
  have hclear : (assignItem i fun c => { c with value := 0 }).run
      { H₁ with strings := H₁.strings.release H.items[i].value } =
      .ok ((), ⟨H.items.set i ⟨0, 0⟩, H.count, H₁.strings.release H.items[i].value⟩) := by
    rw [assignItem_run hi]
    simp [H₁]
  have hfirst : (do
      free (← item i).key
      assignItem i fun c => { c with key := 0 } : Prog ArrayHeap Unit).run H = .ok ((), H₁) :=
    run_bind_of (item_run hi) (run_bind_of (free_run hkey) (assignItem_run hi _))
  refine run_bind_of (item_run hi)
    (run_bind_of (run_whenever_pos (Mem.ne_zero_of_some hkey) hfirst) ?_)
  exact run_bind_of hitem (run_bind_of (run_whenever_pos (Mem.ne_zero_of_some hvalue)
    (run_bind_of hitem (run_bind_of (free_run hvalue₁) hclear))) rfl)

theorem delete_agrees (h : Owned H) (hm : ArraySim H.table m) (key : CString) :
    Agrees H (.delete key) := by
  obtain ⟨A', hdelete, hsim, -⟩ := kvsArrayDelete_spec hm key
  obtain ⟨r, hrun, hlist, hr⟩ := search_agrees h key
  rcases hr with ⟨i, hi, rfl, hkey⟩ | ⟨rfl, hnone⟩
  swap
  · have hsame : Change H (.delete key) H :=
      .same _ fun key' hc => by
        cases hc
        exact hnone
    exact ⟨.int (-1), H, m, run_map_of _ (run_bind_of hrun rfl),
      run_map_of _ (run_bind_of hlist rfl), hsame, hm⟩
  have hitem : H.table.items[i] = ⟨some key, H.strings.cells H.items[i].value⟩ := by
    rw [table_item, hkey]
  obtain ⟨v, hvalue⟩ : ∃ v, H.strings.cells H.items[i].value = some v := by
    have hsound := hm.sound H.table.items[i] (Vector.mem_toList_iff.mpr (Vector.getElem_mem hi))
    rw [hitem] at hsound
    exact Option.ne_none_iff_exists'.mp (mt hsound.mpr (by simp))
  have hkey0 := Mem.ne_zero_of_some hkey
  have hvalue0 := Mem.ne_zero_of_some hvalue
  have hne := h.value_ne_key hi hkey0 hvalue0
  have htable := table_set hi ⟨0, 0⟩ (H.count - 1)
    (m := (H.strings.release H.items[i].key).release H.items[i].value) fun j hj hij => by
      have hkeep : ∀ q, q = H.items[j].key ∨ q = H.items[j].value →
          ((H.strings.release H.items[i].key).release H.items[i].value).cells q =
            H.strings.cells q := by
        intro q hq
        rw [cells_release_release, if_neg]
        exact not_or.mpr ⟨h.ne_of_slot hi hj hij (Or.inl rfl) hkey0 hq,
          h.ne_of_slot hi hj hij (Or.inr rfl) hvalue0 hq⟩
      exact ⟨hkeep _ (Or.inl rfl), hkeep _ (Or.inr rfl)⟩
  have hcleared : (KvStore.kvsArrayDelete (some key)).run H.table =
      .ok (0, ⟨H.table.items.set i ⟨none, none⟩, H.count - 1⟩) := by
    refine run_bind_of hlist (run_bind_of (arrayItem_run hi) ?_)
    rw [hitem, hvalue, whenever, if_pos (by simp), whenever, if_pos (by simp)]
    exact (KvStore.assignItem_twice_run hi _ _).trans rfl
  rw [Mem.null] at htable
  rw [← htable] at hcleared
  obtain ⟨-, hA⟩ := Prod.mk.inj (Except.ok.inj (hdelete.symm.trans hcleared))
  exact ⟨.int 0, _, _, run_map_of _ (run_bind_of hrun (clear_run hi hkey hvalue hne)),
    run_map_of _ hcleared, .delete key i hi hkey hvalue0, hA ▸ hsim⟩

/-- **Every call on the pointers does what the call on the strings does.** -/
theorem op_agrees (h : Owned H) (hm : ArraySim H.table m) (o : ArrayOp) : Agrees H o := by
  cases o with
  | put a b k v => exact put_agrees h hm a b k v
  | get k => exact get_agrees h hm k
  | count =>
      have hsame : Change H .count H := .same _ fun _ hc => by cases hc
      exact ⟨.int H.count, H, m, run_map_of _ (run_bind_of (run_get H) rfl),
        run_map_of _ (run_bind_of (run_get H.table) rfl), hsame, hm⟩
  | exist k =>
      have hsame : Change H (.exist k) H := .same _ fun _ hc => by cases hc
      exact ⟨.int (if k ∈ m then 1 else 0), H, m, run_map_of _ (exist_run h hm k),
        run_map_of _ (kvsArrayExist_spec hm k), hsame, hm⟩
  | delete k => exact delete_agrees h hm k

/-- The same for every run of calls. -/
theorem ops_agree (ops : List ArrayOp) (h : Owned H) (hm : ArraySim H.table m) :
    ∃ rs H' m', (runCalls op ops).run H = .ok (rs, H') ∧
      (runCalls ArrayTable.op ops).run H.table = .ok (rs, H'.table) ∧
      Owned H' ∧ ArraySim H'.table m' := by
  induction ops generalizing H m with
  | nil => exact ⟨[], H, m, rfl, rfl, h, hm⟩
  | cons o rest ih =>
      obtain ⟨r, H₁, m₁, hrun, hlist, hchange, hsim⟩ := op_agrees h hm o
      obtain ⟨rs, H', m', hruns, hlists, howned, hsim'⟩ := ih (h.change hchange) hsim
      exact ⟨r :: rs, H', m', runCalls_cons_ok hrun hruns, runCalls_cons_ok hlist hlists,
        howned, hsim'⟩

end Calls

/-! ### How long a pointer lives -/

section Pointers

variable {H H' : ArrayHeap} {m : Dict CString CString} {o : ArrayOp} {key v : CString} {p : Ptr}

/-- The pointer is to the value that the table has for the key. -/
def Points (H : ArrayHeap) (key v : CString) (p : Ptr) : Prop :=
  ∃ i, ∃ hi : i < kvsArrayItemSize, H.items[i].value = p ∧
    H.strings.cells H.items[i].key = some key ∧ H.strings.cells p = some v

/-- The pointer is to a string that has been given back. -/
def Dangles (H : ArrayHeap) (p : Ptr) : Prop :=
  p < H.strings.next ∧ H.strings.cells p = none

/-- Two slots do not have the same key. -/
theorem slot_unique (hm : ArraySim H.table m) {i j : Nat} (hi : i < kvsArrayItemSize)
    (hj : j < kvsArrayItemSize) (hkey : H.strings.cells H.items[i].key = some key)
    (hkey' : H.strings.cells H.items[j].key = some key) : i = j := by
  have hdistinct := hm.invariant.distinct
  rw [List.pairwise_iff_getElem] at hdistinct
  have hlt : ∀ {a b : Nat} (ha : a < kvsArrayItemSize) (hb : b < kvsArrayItemSize), a < b →
      H.strings.cells H.items[a].key = some key → H.strings.cells H.items[b].key ≠ some key := by
    intro a b ha hb hab hkeya
    have hne := hdistinct a b (by simpa using ha) (by simpa using hb) hab key
    simp only [Vector.getElem_toList, table_item H ha, table_item H hb] at hne
    exact hne hkeya
  rcases Nat.lt_trichotomy i j with hij | hij | hij
  · exact absurd hkey' (hlt hi hj hij hkey)
  · exact hij
  · exact absurd hkey (hlt hj hi hij hkey')

/-- Only the deletion of the key ends the life of a pointer to its value. -/
theorem Change.points (hc : Change H o H') (h : Owned H) (hm : ArraySim H.table m)
    (hp : Points H key v p) :
    (o = .delete key ∧ Dangles H' p) ∨ (o ≠ .delete key ∧ Points H' key v p) := by
  obtain ⟨i, hi, hvalue, hkey, hv⟩ := hp
  cases hc with
  | same o hstored =>
      exact Or.inr ⟨fun ho => hstored key ho i hi hkey, i, hi, hvalue, hkey, hv⟩
  | undone key' value =>
      refine Or.inr ⟨by simp, i, hi, hvalue, ?_, ?_⟩
      · exact (Mem.alloc_release _ _ _).trans hkey
      · exact (Mem.alloc_release _ _ _).trans hv
  | set key' value j hj hfree =>
      obtain ⟨-, -, hother⟩ := cells_alloc_alloc H.strings key' value
      have hkeep : ∀ {q s}, H.strings.cells q = some s →
          ((H.strings.alloc key').alloc value).cells q = some s := by
        intro q s hs
        have hlt := Mem.lt_next_of_some hs
        rw [hother q (Nat.ne_of_lt hlt) (Nat.ne_of_lt (Nat.lt_succ_of_lt hlt)), hs]
      have hji : j ≠ i := by
        rintro rfl
        rw [hfree] at hkey
        exact Mem.ne_zero_of_some hkey rfl
      have hitem : (H.items.set j ⟨H.strings.next, H.strings.next + 1⟩)[i] = H.items[i] :=
        Vector.getElem_set_ne hj hi hji
      exact Or.inr ⟨by simp, i, hi, (congrArg ArrayCell.value hitem).trans hvalue,
        hitem ▸ hkeep hkey, hkeep hv⟩
  | delete key' j hj hkey' hvalue' =>
      by_cases hij : j = i
      · subst hij
        have hsame : key' = key := Option.some.inj (hkey'.symm.trans hkey)
        refine Or.inl ⟨by rw [hsame], show p < H.strings.next from Mem.lt_next_of_some hv, ?_⟩
        exact (cells_release_release H.strings).trans (if_pos (Or.inr hvalue.symm))
      · have hother : key' ≠ key := fun hc => hij (slot_unique hm hj hi (hc ▸ hkey') hkey)
        have hkeep : ∀ {q s}, q = H.items[i].key ∨ q = H.items[i].value →
            H.strings.cells q = some s →
            ((H.strings.release H.items[j].key).release H.items[j].value).cells q = some s := by
          intro q s hq hs
          rw [cells_release_release, if_neg, hs]
          exact not_or.mpr
            ⟨h.ne_of_slot hj hi hij (Or.inl rfl) (Mem.ne_zero_of_some hkey') hq,
              h.ne_of_slot hj hi hij (Or.inr rfl) hvalue' hq⟩
        have hitem : (H.items.set j ⟨0, 0⟩)[i] = H.items[i] := Vector.getElem_set_ne hj hi hij
        exact Or.inr ⟨fun hc => hother (ArrayOp.delete.inj hc), i, hi,
          (congrArg ArrayCell.value hitem).trans hvalue, hitem ▸ hkeep (Or.inl rfl) hkey,
          hkeep (Or.inr hvalue.symm) hv⟩

/-- What dangles is not pointed to again. -/
theorem Change.dangles (hc : Change H o H') (hp : Dangles H p) : Dangles H' p := by
  obtain ⟨hlt, hnone⟩ := hp
  cases hc with
  | same => exact ⟨hlt, hnone⟩
  | undone key value =>
      exact ⟨Nat.lt_succ_of_lt hlt, (Mem.alloc_release _ _ _).trans hnone⟩
  | set key value i hi hfree =>
      obtain ⟨-, -, hother⟩ := cells_alloc_alloc H.strings key value
      refine ⟨Nat.lt_succ_of_lt (Nat.lt_succ_of_lt hlt), ?_⟩
      exact (hother p (Nat.ne_of_lt hlt) (Nat.ne_of_lt (Nat.lt_succ_of_lt hlt))).trans hnone
  | delete key i hi hkey hvalue =>
      refine ⟨hlt, (cells_release_release H.strings).trans ?_⟩
      rw [hnone, ite_self]

theorem dangles_run (ops : List ArrayOp) (h : Owned H) (hm : ArraySim H.table m)
    (hp : Dangles H p) : ∃ rs H', (runCalls op ops).run H = .ok (rs, H') ∧ Dangles H' p := by
  have hcall : ∀ H o, (Owned H ∧ (∃ m, ArraySim H.table m) ∧ Dangles H p) → True →
      ∃ r H', (op o).run H = .ok (r, H') ∧
        Owned H' ∧ (∃ m, ArraySim H'.table m) ∧ Dangles H' p := by
    rintro H o ⟨h, ⟨m, hm⟩, hp⟩ -
    obtain ⟨r, H', m', hrun, -, hchange, hsim⟩ := op_agrees h hm o
    exact ⟨r, H', hrun, h.change hchange, ⟨m', hsim⟩, hchange.dangles hp⟩
  obtain ⟨rs, H', hrun, -, -, hp'⟩ :=
    runCalls_total hcall ops H ⟨h, ⟨m, hm⟩, hp⟩ fun _ _ => trivial
  exact ⟨rs, H', hrun, hp'⟩

/-- The pointer can be read until the key is deleted. -/
theorem points_run (ops : List ArrayOp) (h : Owned H) (hm : ArraySim H.table m)
    (hp : Points H key v p) : ∃ rs H', (runCalls op ops).run H = .ok (rs, H') ∧
      H'.strings.cells p = if .delete key ∈ ops then none else some v := by
  induction ops generalizing H m with
  | nil =>
      obtain ⟨-, -, -, -, hv⟩ := hp
      exact ⟨[], H, rfl, hv⟩
  | cons o rest ih =>
      obtain ⟨r, H₁, m₁, hrun, -, hchange, hsim⟩ := op_agrees h hm o
      rcases hchange.points h hm hp with ⟨rfl, hdangles⟩ | ⟨ho, hpoints⟩
      · obtain ⟨rs, H', hruns, -, hnone⟩ := dangles_run rest (h.change hchange) hsim hdangles
        exact ⟨r :: rs, H', runCalls_cons_ok hrun hruns, by rw [if_pos List.mem_cons_self, hnone]⟩
      · obtain ⟨rs, H', hruns, hcells⟩ := ih (h.change hchange) hsim hpoints
        refine ⟨r :: rs, H', runCalls_cons_ok hrun hruns, ?_⟩
        rw [hcells]
        simp only [List.mem_cons, Ne.symm ho, false_or]

end Pointers

/-! ### Over whole runs -/

theorem static_table : ArrayHeap.static.table = ArrayTable.static := by
  refine congrArg (ArrayTable.mk · 0) (Vector.ext fun i hi => ?_)
  rw [Vector.getElem_map]
  simp [ArrayHeap.static, Mem.empty]

/-- A run of calls from the start. -/
theorem run_static (ops : List ArrayOp) :
    ∃ rs H m, (runCalls op ops).run ArrayHeap.static = .ok (rs, H) ∧
      (runCalls ArrayTable.op ops).run ArrayTable.static = .ok (rs, H.table) ∧
      Owned H ∧ ArraySim H.table m := by
  have hm : ArraySim ArrayHeap.static.table ∅ := by
    rw [static_table]
    exact ArraySim.static
  obtain ⟨rs, H, m, hrun, hlist, h, hsim⟩ := ops_agree ops Owned.static hm
  rw [static_table] at hlist
  exact ⟨rs, H, m, hrun, hlist, h, hsim⟩

end ArrayHeap

/--
**The pointers of the array engine do what its strings do, and nothing leaks**: every run of calls
answers the same on both levels, also where an allocation fails, and afterwards there are exactly
two strings for every key that the engine counts.
-/
theorem array_heap_refines (ops : List ArrayOp) :
    ∃ rs H, ∃ n : Nat, (runCalls ArrayHeap.op ops).run ArrayHeap.static = .ok (rs, H) ∧
      (runCalls ArrayTable.op ops).run ArrayTable.static = .ok (rs, H.table) ∧
      ArrayHeap.kvsArrayCount.run H = .ok ((n : Int), H) ∧ H.strings.Has (2 * n) := by
  obtain ⟨rs, H, m, hrun, hlist, h, hm⟩ := ArrayHeap.run_static ops
  refine ⟨rs, H, m.keys.card, hrun, hlist, ?_, H.ptrs, h.nodup, h.all, ?_⟩
  · rw [← hm.count]
    rfl
  · have hlength := h.length
    rw [show H.count = _ from hm.count] at hlength
    omega

/--
**The pointer that `kvs_array_get` returns can be used until the key is deleted**: it is null if
and only if the engine does not have the key, and otherwise, whatever calls come before and after,
what it points to stays as it was, until a deletion of its key leaves it dangling.
-/
theorem array_pointer_valid_iff (ops ops' : List ArrayOp) (key : CString) :
    ∃ rs H p rs' H', (runCalls ArrayHeap.op ops).run ArrayHeap.static = .ok (rs, H) ∧
      (ArrayHeap.kvsArrayGet (some key)).run H = .ok (p, H) ∧
      (ArrayHeap.kvsArrayExist (some key)).run H = .ok (if p = 0 then 0 else 1, H) ∧
      (runCalls ArrayHeap.op ops').run H = .ok (rs', H') ∧
      (p ≠ 0 → ∃ v, H.strings.cells p = some v ∧
        H'.strings.cells p = if .delete key ∈ ops' then none else some v) := by
  obtain ⟨rs, H, m, hrun, -, h, hm⟩ := ArrayHeap.run_static ops
  obtain ⟨p, hget, hlist, hslot⟩ := ArrayHeap.get_run h key
  have hexist := ArrayHeap.exist_run h hm key
  by_cases hp : p = 0
  · obtain ⟨rs', H', -, hrun', -⟩ := ArrayHeap.ops_agree ops' h hm
    have hmem := (ArrayHeap.get_null_iff hm hlist (by simp [hp, H.strings.null])).mp hp
    rw [if_neg hmem] at hexist
    exact ⟨rs, H, p, rs', H', hrun, hget, by rw [if_pos hp, hexist], hrun',
      fun hc => absurd hp hc⟩
  · obtain ⟨i, hi, hvalue, hkey⟩ := hslot hp
    have hnull := h.cells_none hi (Or.inr hvalue.symm)
    have hmem : key ∈ m := not_not.mp (mt (ArrayHeap.get_null_iff hm hlist hnull).mpr hp)
    obtain ⟨v, hv⟩ := Option.ne_none_iff_exists'.mp (mt hnull.mp hp)
    obtain ⟨rs', H', hrun', hcells⟩ :=
      ArrayHeap.points_run ops' h hm ⟨i, hi, hvalue, hkey, hv⟩
    rw [if_pos hmem] at hexist
    exact ⟨rs, H, p, rs', H', hrun, hget, by rw [if_neg hp, hexist], hrun',
      fun _ => ⟨v, hv, hcells⟩⟩

end KvStore
