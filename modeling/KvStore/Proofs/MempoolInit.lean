/-
What `memp_init` leaves of the page.

The loop links every block to the address behind it, the last one included, and only then a
null is stored, at the end of the last block.  So the pointers lead through all the blocks,
once each, but not to null: they lead to the rest of the page, which is too short for a block,
and the null is the word there.  That word is inside the page when the rest has room for a
pointer, and otherwise behind its end, in part or as a whole.
-/
import KvStore.Proofs.Mempool

namespace KvStore

/-! ### What is asked of it -/

/-- `memp_init` returns, and has written no byte outside its page. -/
def InitInside (page : Page) (m : Ptr) (b : Nat) (h : PoolHeap) : Prop :=
  ∃ heap, (mempInit (some page) m b).run h = .ok (0, heap) ∧
    ∀ a, a < page.addr ∨ page.addr + memPageSize ≤ a → heap.bytes a = h.bytes a

/--
The free list of a pool: from `free_ptr` the first words lead through `free_count` different
blocks of the page, as many as fit, and then to null.
-/
def FreeList (page : Page) (b : Nat) (pool : Mempool) (bytes : Bytes) : Prop :=
  pool.freeCount = (memPageSize / b : Nat) ∧
    ∃ qs, LeadsTo (word bytes sizeofCharPtr) pool.freePtr qs 0 ∧ qs.length = memPageSize / b ∧
      qs.Nodup ∧ ∀ q ∈ qs, page.IsBlock b q

/-- `memp_init` builds the free list, without leaving its page. -/
def InitProper (page : Page) (m : Ptr) (b : Nat) (h : PoolHeap) : Prop :=
  ∃ heap pool, (mempInit (some page) m b).run h = .ok (0, heap) ∧
    (∀ a, a < page.addr ∨ page.addr + memPageSize ≤ a → heap.bytes a = h.bytes a) ∧
    heap.pools.cells m = some pool ∧ FreeList page b pool heap.bytes

/-! ### What it does -/

section Init

variable {page : Page} {m : Ptr} {b : Nat} {pool : Mempool} {h heap : PoolHeap}

/-- **The list leads through every block once, then behind the last one**, and only there is
null. -/
theorem mempInit_leads (hb : sizeofCharPtr ≤ b) (hle : b ≤ memPageSize)
    (hinit : (mempInit (some page) m b).run h = .ok (0, heap))
    (hcell : heap.pools.cells m = some pool) :
    pool = page.freshPool b ∧
      LeadsTo (word heap.bytes sizeofCharPtr) pool.freePtr (page.blocks b)
        (page.addr + b * (memPageSize / b)) ∧
      word heap.bytes sizeofCharPtr (page.addr + b * (memPageSize / b)) = some 0 := by
  obtain ⟨h', hl, rfl⟩ := mempInit_inv hb hle hinit
  obtain rfl := Option.some.inj (hcell.symm.trans hl.cell)
  exact ⟨rfl, LeadsTo.range' (hl.links_store hb 0), word_storeWord (Nat.pow_pos (by decide))⟩

/-- What it leaves is never the free list: after as many blocks there is no null. -/
theorem mempInit_not_freeList (hb : sizeofCharPtr ≤ b) (hle : b ≤ memPageSize)
    (hinit : (mempInit (some page) m b).run h = .ok (0, heap))
    (hcell : heap.pools.cells m = some pool) : ¬ FreeList page b pool heap.bytes := by
  rintro ⟨-, qs, hqs, hlength, -, -⟩
  obtain ⟨-, hblocks, -⟩ := mempInit_leads hb hle hinit hcell
  have hcount : (page.blocks b).length = qs.length := by
    rw [hlength, Area.blocks, List.length_range']
  have hend : page.addr + b * (memPageSize / b) = 0 := (hblocks.unique hqs hcount).2
  exact page.ne_null (Nat.add_eq_zero_iff.mp hend).1

/-- With room for a pointer behind the last block, the null is inside the page. -/
theorem initInside_of_room (hb : sizeofCharPtr ≤ b) (hle : b ≤ memPageSize)
    (hroom : sizeofCharPtr ≤ memPageSize % b) (hcell : h.pools.cells m = some pool) :
    InitInside page m b h := by
  obtain ⟨h', hl, hrun⟩ := mempInit_run page hb hle hcell
  have hnull := page.ne_null
  have hsplit := Nat.div_add_mod memPageSize b
  refine ⟨_, hrun.trans (run_bind_of (storePtr_run (by omega) fun a hle' hlt => hl.mapped a ?_)
    rfl), ?_⟩
  · exact mapArea_isSome h.bytes page (by omega) (by omega)
  · intro a ha
    refine (storeWord_apart (by omega)).trans ?_
    rw [hl.outside a ha, mapArea_apart h.bytes page ha]

/-- Without it, the first byte behind the page is zero after a run. -/
theorem mempInit_behind (hb : sizeofCharPtr ≤ b) (hle : b ≤ memPageSize)
    (hroom : memPageSize % b < sizeofCharPtr)
    (hinit : (mempInit (some page) m b).run h = .ok (0, heap)) :
    heap.bytes (page.addr + memPageSize) = some 0 := by
  obtain ⟨h', -, rfl⟩ := mempInit_inv hb hle hinit
  have hsplit := Nat.div_add_mod memPageSize b
  exact storeWord_zero (by omega) (by omega)

theorem not_initInside (hb : sizeofCharPtr ≤ b) (hle : b ≤ memPageSize)
    (hroom : memPageSize % b < sizeofCharPtr)
    (hbehind : h.bytes (page.addr + memPageSize) ≠ some 0) : ¬ InitInside page m b h := by
  rintro ⟨heap, hinit, hsame⟩
  refine hbehind ?_
  rw [← hsame _ (.inr (Nat.le_refl _))]
  exact mempInit_behind hb hle hroom hinit

/-- The pool of the array engine has no rest: all of the null is behind the page. -/
theorem initArrayTable_behind (page : Page) (hcell : h.pools.cells m = some pool)
    (hbehind : ∀ a, page.addr + memPageSize ≤ a → a < page.addr + memPageSize + sizeofCharPtr →
      (h.bytes a).isSome) :
    ∃ heap, (initArrayTable (some page) m).run h = .ok ((), heap) ∧
      ∀ a, page.addr + memPageSize ≤ a → a < page.addr + memPageSize + sizeofCharPtr →
        heap.bytes a = some 0 := by
  have hb : sizeofCharPtr ≤ sizeofKvsArrayItem := by decide
  have hle : sizeofKvsArrayItem ≤ memPageSize := by decide
  obtain ⟨heap, hinit⟩ := mempInit_ok page hb hle hcell hbehind
  refine ⟨heap, run_bind_of hinit rfl, fun a hle' hlt => ?_⟩
  obtain ⟨h', -, rfl⟩ := mempInit_inv hb hle hinit
  have hend : sizeofKvsArrayItem * (memPageSize / sizeofKvsArrayItem) = memPageSize := by decide
  refine storeWord_zero ?_ ?_
  · rw [hend]
    exact hle'
  · rw [hend]
    exact hlt

end Init

/-- The page at 4096, and memory that is mapped everywhere and holds sevens. -/
theorem initArrayTable_not_proper :
    let page : Page := ⟨4096, fun _ => 7, by decide, by decide⟩
    let h : PoolHeap := ⟨Mem.empty.alloc ⟨0, 0, 0, 0⟩, fun _ => some 7⟩
    (∃ heap, (initArrayTable (some page) 1).run h = .ok ((), heap)) ∧
      ¬ InitInside page 1 sizeofKvsArrayItem h ∧ ¬ InitProper page 1 sizeofKvsArrayItem h := by
  intro page h
  have hb : sizeofCharPtr ≤ sizeofKvsArrayItem := by decide
  have hle : sizeofKvsArrayItem ≤ memPageSize := by decide
  have hcell : h.pools.cells 1 = some ⟨0, 0, 0, 0⟩ := rfl
  obtain ⟨heap, hrun, -⟩ := initArrayTable_behind page hcell fun _ _ _ => rfl
  refine ⟨⟨heap, hrun⟩, not_initInside hb hle (by decide) (by decide), ?_⟩
  rintro ⟨heap, pool, hinit, -, hpool, hlist⟩
  exact mempInit_not_freeList hb hle hinit hpool hlist

/--
**`memp_init` never builds the free list, and leaves its page exactly when the rest of the page
has no room for a pointer.**  For every size of a block from `sizeof(char *)` to the size of the
page: on no heap does it build the free list without leaving its page; and it returns on every
heap without writing outside the page if and only if the page's size leaves a rest of at least
`sizeof(char *)` when it is divided by the size of a block.
-/
theorem mempInit_never_proper (page : Page) (b : Nat) (hb : sizeofCharPtr ≤ b)
    (hle : b ≤ memPageSize) :
    (∀ m h, ¬ InitProper page m b h) ∧
      ((∀ m h pool, h.pools.cells m = some pool → InitInside page m b h) ↔
        sizeofCharPtr ≤ memPageSize % b) := by
  refine ⟨?_, ?_, fun hroom m h pool hcell => initInside_of_room hb hle hroom hcell⟩
  · rintro m h ⟨heap, pool, hinit, -, hpool, hlist⟩
    exact mempInit_not_freeList hb hle hinit hpool hlist
  · intro hall
    by_contra hroom
    let h : PoolHeap := ⟨Mem.empty.alloc ⟨0, 0, 0, 0⟩, fun _ => some 7⟩
    have hcell : h.pools.cells 1 = some ⟨0, 0, 0, 0⟩ := rfl
    have hbehind : h.bytes (page.addr + memPageSize) ≠ some 0 := by
      show (some 7 : Option Byte) ≠ some 0
      decide
    exact not_initInside hb hle (Nat.lt_of_not_le hroom) hbehind (hall 1 h _ hcell)

/-- Three blocks of 8190 bytes leave a rest of 6. -/
theorem mempInit_never_proper_rest :
    let page : Page := ⟨4096, fun _ => 7, by decide, by decide⟩
    (∀ m h, ¬ InitProper page m 8190 h) ∧
      ¬ ∀ m h pool, h.pools.cells m = some pool → InitInside page m 8190 h := by
  intro page
  obtain ⟨hlist, hinside⟩ := mempInit_never_proper page 8190 (by decide) (by decide)
  exact ⟨hlist, fun hall => absurd (hinside.mp hall) (by decide)⟩

end KvStore
