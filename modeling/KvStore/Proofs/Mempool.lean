/-
Who has the blocks of a pool.

At any time each block of the page is either held or free, and the free ones are those that
`free_ptr` leads through in `free_count` steps (`Pooling`).  The links are in the blocks, so
that a holder overwrites the link of his own block, but of no other.  Where the last link
leads does not matter: `memp_init` lets it point behind the last block, and nobody follows it.

A user who writes only into blocks he holds, and frees only these, is never given a block, or
a part of one, that somebody has already (`pool_blocks_apart`).
-/
import Mathlib.Logic.Relation
import KvStore.Base.Chain
import KvStore.Engine.Mempool

namespace KvStore

/-! ### Blocks -/

/-- The blocks of `b` bytes that a page is cut into. -/
def Area.blocks (page : Page) (b : Nat) : List Nat := List.range' page.addr (memPageSize / b) b

/-- A block of the page: it lies inside, at a multiple of the size of a block. -/
def Area.IsBlock (page : Page) (b ptr : Nat) : Prop :=
  ∃ k, ptr = page.addr + b * k ∧ ptr + b ≤ page.addr + memPageSize

/-- Two blocks have no byte in common. -/
def Apart (b ptr ptr' : Nat) : Prop := ptr + b ≤ ptr' ∨ ptr' + b ≤ ptr

section Blocks

variable {page : Page} {b ptr ptr' : Nat}

theorem block_end {k : Nat} (hk : k < memPageSize / b) : b * k + b ≤ memPageSize :=
  calc b * k + b = b * (k + 1) := (Nat.mul_succ b k).symm
    _ ≤ b * (memPageSize / b) := Nat.mul_le_mul_left b hk
    _ ≤ memPageSize := Nat.mul_div_le memPageSize b

theorem mem_blocks (hb : 0 < b) : ptr ∈ page.blocks b ↔ page.IsBlock b ptr := by
  constructor
  · intro h
    obtain ⟨k, hk, rfl⟩ := List.mem_range'.mp h
    have hend := block_end hk
    exact ⟨k, rfl, by omega⟩
  · rintro ⟨k, rfl, hend⟩
    refine List.mem_range'.mpr ⟨k, ?_, rfl⟩
    have hmul : (k + 1) * b ≤ memPageSize := by
      rw [Nat.add_mul, Nat.one_mul, Nat.mul_comm]
      omega
    exact (Nat.le_div_iff_mul_le hb).mpr hmul

theorem nodup_blocks (hb : 0 < b) : (page.blocks b).Nodup := List.nodup_range' b hb

theorem Area.IsBlock.ne_null (h : page.IsBlock b ptr) : ptr ≠ 0 := by
  obtain ⟨k, rfl, -⟩ := h
  have hpage := page.ne_null
  omega

theorem Area.IsBlock.apart (h : page.IsBlock b ptr) (h' : page.IsBlock b ptr')
    (hne : ptr ≠ ptr') : Apart b ptr ptr' := by
  obtain ⟨k, rfl, -⟩ := h
  obtain ⟨k', rfl, -⟩ := h'
  rcases Nat.lt_trichotomy k k' with hlt | rfl | hlt
  · have hmul : b * (k + 1) ≤ b * k' := Nat.mul_le_mul_left b hlt
    rw [Nat.mul_succ] at hmul
    exact .inl (by omega)
  · exact absurd rfl hne
  · have hmul : b * (k' + 1) ≤ b * k := Nat.mul_le_mul_left b hlt
    rw [Nat.mul_succ] at hmul
    exact .inr (by omega)

end Blocks

/-! ### Loads and stores -/

section Accesses

variable {h h' : PoolHeap} {ptr v : Nat}

theorem loadPtr_run (hptr : ptr ≠ 0) (hv : word h.bytes sizeofCharPtr ptr = some v) :
    (loadPtr ptr).run h = .ok (v, h) := by
  unfold loadPtr
  rw [run_bind_ok (run_get h), readWord_of_some hptr hv]
  rfl

theorem storePtr_run (hptr : ptr ≠ 0)
    (hmapped : ∀ a, ptr ≤ a → a < ptr + sizeofCharPtr → (h.bytes a).isSome) :
    (storePtr ptr v).run h =
      .ok ((), { h with bytes := storeWord h.bytes sizeofCharPtr ptr v }) := by
  unfold storePtr
  rw [run_bind_ok (run_get h), writeWord_of_mapped hptr hmapped]
  rfl

theorem storePtr_inv {u : Unit} (hrun : (storePtr ptr v).run h = .ok (u, h')) :
    h' = { h with bytes := storeWord h.bytes sizeofCharPtr ptr v } := by
  unfold storePtr at hrun
  rw [run_bind_ok (run_get h)] at hrun
  obtain ⟨bytes, hbytes, hrun⟩ := run_liftE_inv hrun
  cases hrun
  rw [writeWord_inv hbytes]

end Accesses

/-! ### The invariant -/

/-- The blocks `free` are free, in this order, and those of the state are held. -/
structure Pooling (page : Page) (m : Ptr) (b : Nat) (pool : Mempool) (free : List Nat)
    (s : PoolState) : Prop where
  cell : s.heap.pools.cells m = some pool
  count : pool.freeCount = free.length
  linked : LeadsThrough (word s.heap.bytes sizeofCharPtr) pool.freePtr free
  blocks : (free ++ s.held).Perm (page.blocks b)
  mapped : ∀ a, page.addr ≤ a → a < page.addr + memPageSize → (s.heap.bytes a).isSome

namespace Pooling

variable {page : Page} {m : Ptr} {b ptr : Nat} {pool : Mempool} {free : List Nat} {s : PoolState}

theorem ne_null (hs : Pooling page m b pool free s) : m ≠ 0 := Mem.ne_zero_of_some hs.cell

theorem isBlock_held (hs : Pooling page m b pool free s) (hb : 0 < b) (hheld : ptr ∈ s.held) :
    page.IsBlock b ptr :=
  (mem_blocks hb).mp (hs.blocks.subset (List.mem_append_right free hheld))

theorem isBlock_free (hs : Pooling page m b pool free s) (hb : 0 < b) (hfree : ptr ∈ free) :
    page.IsBlock b ptr :=
  (mem_blocks hb).mp (hs.blocks.subset (List.mem_append_left s.held hfree))

theorem nodup (hs : Pooling page m b pool free s) (hb : 0 < b) : (free ++ s.held).Nodup :=
  hs.blocks.nodup_iff.mpr (nodup_blocks hb)

/-- A block that is free and one that is held have no byte in common. -/
theorem free_apart_held {ptr' : Nat} (hs : Pooling page m b pool free s) (hb : 0 < b)
    (hfree : ptr ∈ free) (hheld : ptr' ∈ s.held) : Apart b ptr ptr' :=
  (hs.isBlock_free hb hfree).apart (hs.isBlock_held hb hheld)
    ((List.nodup_append.mp (hs.nodup hb)).2.2 ptr hfree ptr' hheld)

theorem held_pairwise (hs : Pooling page m b pool free s) (hb : 0 < b) :
    s.held.Pairwise (Apart b) := by
  have hne : s.held.Pairwise (· ≠ ·) := (List.nodup_append.mp (hs.nodup hb)).2.1
  refine hne.imp_of_mem ?_
  intro ptr ptr' h h' hne
  exact (hs.isBlock_held hb h).apart (hs.isBlock_held hb h') hne

/-- What is written into a block that is held changes no link. -/
theorem linked_write {bytes : Bytes} (hs : Pooling page m b pool free s)
    (hb : sizeofCharPtr ≤ b) (hheld : ptr ∈ s.held)
    (hbytes : ∀ a, a < ptr ∨ ptr + b ≤ a → bytes a = s.heap.bytes a) :
    LeadsThrough (word bytes sizeofCharPtr) pool.freePtr free := by
  have hpos : 0 < b := Nat.lt_of_lt_of_le (by decide) hb
  refine hs.linked.congr fun q hq => word_congr fun a hle hlt => hbytes a ?_
  rcases hs.free_apart_held hpos hq hheld with hapart | hapart
  · exact .inl (by omega)
  · exact .inr (by omega)

/-! ### What the functions do -/

theorem alloc_none (hs : Pooling page m b pool [] s) :
    (mempAlloc m).run s.heap = .ok (0, s.heap) := by
  refine run_ite_neg hs.ne_null (run_bind_of (deref_run hs.cell) ?_)
  exact run_ite_pos (by rw [hs.count]; rfl) rfl

/-- The first free block is taken out of the list. -/
theorem alloc_some (hs : Pooling page m b pool (ptr :: free) s) (hb : 0 < b) :
    ∃ pool' heap, (mempAlloc m).run s.heap = .ok (ptr, heap) ∧
      Pooling page m b pool' free ⟨heap, ptr :: s.held⟩ := by
  obtain ⟨hfirst, next, hnext, hrest⟩ := hs.linked
  have hcount : pool.freeCount = free.length + 1 := by
    rw [hs.count, List.length_cons]
    rfl
  have hnull : ptr ≠ 0 := (hs.isBlock_free hb (List.mem_cons_self ..)).ne_null
  let pool₁ := { pool with freePtr := next }
  let pool₂ := { pool₁ with freeCount := pool.freeCount - 1 }
  have hcell₁ := Mem.write_self hs.cell pool₁
  refine ⟨pool₂, { s.heap with pools := (s.heap.pools.write m pool₁).write m pool₂ }, ?_,
    Mem.write_self hcell₁ pool₂, ?_, hrest, ?_, hs.mapped⟩
  · refine run_ite_neg hs.ne_null (run_bind_of (deref_run hs.cell) ?_)
    refine run_ite_neg (by omega) (run_bind_of (deref_run hs.cell) ?_)
    rw [hfirst]
    refine run_bind_of (loadPtr_run hnull hnext) ?_
    refine run_bind_of (assign_run hs.cell _) ?_
    exact run_bind_of (assign_run hcell₁ _) rfl
  · show pool.freeCount - 1 = free.length
    omega
  · exact List.perm_middle.trans hs.blocks

/-- A block that was held is put in front of the list. -/
theorem freed (hs : Pooling page m b pool free s) (hb : sizeofCharPtr ≤ b)
    (hheld : ptr ∈ s.held) :
    ∃ pool' heap, (mempFree m ptr).run s.heap = .ok (ptr, heap) ∧
      Pooling page m b pool' (ptr :: free) ⟨heap, s.held.erase ptr⟩ := by
  have hpos : 0 < b := Nat.lt_of_lt_of_le (by decide) hb
  have hblock := hs.isBlock_held hpos hheld
  have hmapped : ∀ a, ptr ≤ a → a < ptr + sizeofCharPtr → (s.heap.bytes a).isSome := by
    obtain ⟨k, rfl, hend⟩ := hblock
    intro a hle hlt
    exact hs.mapped a (by omega) (by omega)
  have hlinked : LeadsThrough
      (word (storeWord s.heap.bytes sizeofCharPtr ptr pool.freePtr) sizeofCharPtr)
      pool.freePtr free :=
    hs.linked_write hb hheld fun a ha => storeWord_apart (by omega)
  let bytes := storeWord s.heap.bytes sizeofCharPtr ptr pool.freePtr
  let pool₁ := { pool with freePtr := ptr }
  let pool₂ := { pool₁ with freeCount := pool.freeCount + 1 }
  have hcell₁ := Mem.write_self hs.cell pool₁
  refine ⟨pool₂, ⟨(s.heap.pools.write m pool₁).write m pool₂, bytes⟩, ?_,
    Mem.write_self hcell₁ pool₂, ?_, ⟨rfl, ?_⟩, ?_, ?_⟩
  · refine run_bind_of (deref_run hs.cell) ?_
    refine run_bind_of (storePtr_run hblock.ne_null hmapped) ?_
    refine run_bind_of (assign_run hs.cell _) ?_
    exact run_bind_of (assign_run hcell₁ _) rfl
  · show pool.freeCount + 1 = ((ptr :: free).length : Int)
    rw [hs.count, List.length_cons]
    rfl
  · -- Without a free block the pointer may be anything, and need not be read back.
    cases free with
    | nil =>
        obtain ⟨v, hv⟩ := word_isSome (m := bytes)
          fun a hle hlt => storeWord_isSome (hmapped a hle hlt)
        exact ⟨v, hv, trivial⟩
    | cons q rest =>
        obtain ⟨k, hq, hend⟩ := hs.isBlock_free hpos (List.mem_cons_self ..)
        have hfits := page.fits
        have hlt : pool.freePtr < 256 ^ sizeofCharPtr := by
          rw [hs.linked.1]
          omega
        exact ⟨pool.freePtr, word_storeWord hlt, hlinked⟩
  · have hperm : (ptr :: s.held.erase ptr).Perm s.held := (List.perm_cons_erase hheld).symm
    exact (List.perm_middle.symm.trans (hperm.append_left free)).trans hs.blocks
  · intro a hle hlt
    exact storeWord_isSome (hs.mapped a hle hlt)

theorem write {a : Nat} (hs : Pooling page m b pool free s) (hb : sizeofCharPtr ≤ b)
    (hheld : ptr ∈ s.held) (hle : ptr ≤ a) (hlt : a < ptr + b) (v : Byte) :
    Pooling page m b pool free
      ⟨{ s.heap with bytes := Function.update s.heap.bytes a (some v) }, s.held⟩ := by
  refine ⟨hs.cell, hs.count, ?_, hs.blocks, ?_⟩
  · refine hs.linked_write hb hheld fun a' ha' => ?_
    exact Function.update_of_ne (by omega) ..
  · intro a' hle' hlt'
    by_cases h : a' = a
    · rw [h]
      show (Function.update s.heap.bytes a (some v) a).isSome
      rw [Function.update_self]
      rfl
    · show (Function.update s.heap.bytes a (some v) a').isSome
      rw [Function.update_of_ne h]
      exact hs.mapped a' hle' hlt'

/-- **Every step leaves each block either free or held.** -/
theorem step {s' : PoolState} (hs : Pooling page m b pool free s) (hb : sizeofCharPtr ≤ b)
    (h : PoolStep m b s s') : ∃ pool' free', Pooling page m b pool' free' s' := by
  have hpos : 0 < b := Nat.lt_of_lt_of_le (by decide) hb
  cases h with
  | alloc h =>
      cases free with
      | nil =>
          rw [hs.alloc_none] at h
          cases h
          exact ⟨pool, [], hs⟩
      | cons ptr free =>
          obtain ⟨pool', heap, hrun, hs'⟩ := hs.alloc_some hpos
          rw [hrun] at h
          cases h
          rw [if_neg (hs.isBlock_free hpos (List.mem_cons_self ..)).ne_null]
          exact ⟨pool', free, hs'⟩
  | free hheld h =>
      obtain ⟨pool', heap, hrun, hs'⟩ := hs.freed hb hheld
      rw [hrun] at h
      cases h
      exact ⟨pool', _, hs'⟩
  | write hheld hle hlt v => exact ⟨pool, free, hs.write hb hheld hle hlt v⟩

theorem run {s' : PoolState} (hs : Pooling page m b pool free s) (hb : sizeofCharPtr ≤ b)
    (h : Relation.ReflTransGen (PoolStep m b) s s') :
    ∃ pool' free', Pooling page m b pool' free' s' := by
  induction h with
  | refl => exact ⟨pool, free, hs⟩
  | tail _ hstep ih =>
      obtain ⟨pool', free', hs'⟩ := ih
      exact hs'.step hb hstep

end Pooling

/-! ### The beginning -/

theorem ptrAdd_natCast (ptr b : Nat) : ptrAdd ptr b = ptr + b := by
  unfold ptrAdd
  omega

theorem blockCount_natCast {b : Nat} (hb : 0 < b) (hle : b ≤ memPageSize) :
    blockCount b = .ok (memPageSize / b : Nat) := by
  have hsize : sizeOfInt b = b := by
    have hlt : memPageSize < 2 ^ 64 := by decide
    unfold sizeOfInt
    omega
  unfold blockCount
  rw [hsize, if_neg (by omega)]

/--
The first `k` blocks are linked, each to the one behind it; `bytes` is the memory before.
-/
structure LinkedUpTo (page : Page) (m : Ptr) (b : Nat) (pool : Mempool) (bytes : Bytes) (k : Nat)
    (h : PoolHeap) : Prop where
  cell : h.pools.cells m = some pool
  links : ∀ i, i < k →
    word h.bytes sizeofCharPtr (page.addr + b * i) = some (page.addr + b * (i + 1))
  mapped : ∀ a, (bytes a).isSome → (h.bytes a).isSome

/-- The same, with nothing written outside the page. -/
structure LinkedInside (page : Page) (m : Ptr) (b : Nat) (pool : Mempool) (bytes : Bytes) (k : Nat)
    (h : PoolHeap) : Prop extends LinkedUpTo page m b pool bytes k h where
  outside : ∀ a, a < page.addr ∨ page.addr + memPageSize ≤ a → h.bytes a = bytes a

section Links

variable {page : Page} {m : Ptr} {b k : Nat} {pool : Mempool} {bytes : Bytes} {h : PoolHeap}

/-- The next link, stored where the blocks linked so far end, changes none of theirs. -/
theorem LinkedUpTo.links_store (hl : LinkedUpTo page m b pool bytes k h)
    (hb : sizeofCharPtr ≤ b) (v : Nat) :
    ∀ i, i < k → word (storeWord h.bytes sizeofCharPtr (page.addr + b * k) v) sizeofCharPtr
      (page.addr + b * i) = some (page.addr + b * (i + 1)) := by
  intro i hi
  have hmul : b * (i + 1) ≤ b * k := Nat.mul_le_mul_left b hi
  rw [Nat.mul_succ] at hmul
  refine (word_congr fun a _ hlt => storeWord_apart (.inl ?_)).trans (hl.links i hi)
  omega

theorem LinkedInside.step (hl : LinkedInside page m b pool bytes k h) (hb : sizeofCharPtr ≤ b)
    (hmapped : ∀ a, page.addr ≤ a → a < page.addr + memPageSize → (bytes a).isSome)
    (hcount : pool.freeCount = (memPageSize / b : Nat)) (hk : k < memPageSize / b) :
    ∃ h', (mempInitStep m b (k, page.addr + b * k)).run h =
        .ok (.inl ((k + 1 : Nat), page.addr + b * (k + 1)), h') ∧
      LinkedInside page m b pool bytes (k + 1) h' := by
  have hend := block_end hk
  have hnull := page.ne_null
  have hfits := page.fits
  have hnext : ptrAdd (page.addr + b * k) b = page.addr + b * (k + 1) := by
    rw [ptrAdd_natCast, Nat.mul_succ, Nat.add_assoc]
  let bytes' := storeWord h.bytes sizeofCharPtr (page.addr + b * k) (page.addr + b * (k + 1))
  refine ⟨{ h with bytes := bytes' }, ?_, ⟨hl.cell, ?_, ?_⟩, ?_⟩
  · refine run_bind_of (deref_run hl.cell) (run_ite_pos ?_ ?_)
    · rw [hcount]
      exact Int.ofNat_lt.mpr hk
    · rw [hnext]
      refine run_bind_of (storePtr_run (by omega) fun a hle hlt => ?_) rfl
      exact hl.mapped a (hmapped a (by omega) (by omega))
  · intro i hi
    rcases Nat.lt_succ_iff_lt_or_eq.mp hi with hi | rfl
    · exact hl.links_store hb _ i hi
    · refine word_storeWord ?_
      rw [Nat.mul_succ]
      omega
  · intro a ha
    exact storeWord_isSome (hl.mapped a ha)
  · intro a ha
    exact (storeWord_apart (by omega)).trans (hl.outside a ha)

theorem LinkedInside.loop (hl : LinkedInside page m b pool bytes 0 h) (hb : sizeofCharPtr ≤ b)
    (hmapped : ∀ a, page.addr ≤ a → a < page.addr + memPageSize → (bytes a).isSome)
    (hcount : pool.freeCount = (memPageSize / b : Nat)) :
    ∃ h', (KvStore.loop (mempInitStep m b) (memPageSize + 1) (0, page.addr)).run h =
        .ok (page.addr + b * (memPageSize / b), h') ∧
      LinkedInside page m b pool bytes (memPageSize / b) h' := by
  have hstep : ∀ n (v : Int × Nat) h, (∃ k : Nat, v = ((k : Int), page.addr + b * k) ∧
        k + n = memPageSize / b ∧ LinkedInside page m b pool bytes k h) →
      (∃ ptr h', (mempInitStep m b v).run h = .ok (.inr ptr, h') ∧
        (ptr = page.addr + b * (memPageSize / b) ∧
          LinkedInside page m b pool bytes (memPageSize / b) h')) ∨
      (∃ v' h' n', (mempInitStep m b v).run h = .ok (.inl v', h') ∧ n' < n ∧
        ∃ k : Nat, v' = ((k : Int), page.addr + b * k) ∧ k + n' = memPageSize / b ∧
          LinkedInside page m b pool bytes k h') := by
    rintro n v h ⟨k, rfl, hn, hl⟩
    cases n with
    | zero =>
        have hk : k = memPageSize / b := hn
        refine .inl ⟨_, h, run_bind_of (deref_run hl.cell) (run_ite_neg ?_ rfl), by rw [hk], ?_⟩
        · rw [hcount, hk]
          exact Int.lt_irrefl _
        · rw [← hk]
          exact hl
    | succ n =>
        obtain ⟨h', hrun, hl'⟩ := hl.step hb hmapped hcount (by omega)
        exact .inr ⟨_, h', n, hrun, Nat.lt_succ_self n, k + 1, rfl, by omega, hl'⟩
  have hfuel : memPageSize / b < memPageSize + 1 :=
    Nat.lt_succ_of_le (Nat.div_le_self memPageSize b)
  obtain ⟨ptr, h', hrun, rfl, hl'⟩ := loop_total hstep (memPageSize + 1) (memPageSize / b)
    (0, page.addr) h ⟨0, rfl, Nat.zero_add _, hl⟩ hfuel
  exact ⟨h', hrun, hl'⟩

end Links

section Init

variable {page : Page} {m : Ptr} {b : Nat} {pool : Mempool} {h heap : PoolHeap}

/-- What `memp_init` has made of the pool when it writes the links. -/
def Area.freshPool (page : Page) (b : Nat) : Mempool :=
  ⟨b, (memPageSize / b : Nat), page.addr, page.addr⟩

/-- The part before the links, with the pointer that `malloc` returns. -/
theorem mempInit_start {answer : Option Page} {ptr : Nat} {bytes : Bytes} (hb : 0 < b)
    (hle : b ≤ memPageSize) (hcell : h.pools.cells m = some pool)
    (hmalloc : ∀ pools, (mallocPage answer).run ⟨pools, h.bytes⟩ = .ok (ptr, ⟨pools, bytes⟩)) :
    ∃ pools : Mem Mempool,
      pools.cells m = some ⟨b, (memPageSize / b : Nat), ptr, pool.mem⟩ ∧
      (mempInit answer m b).run h = (mempInitPage m b).run ⟨pools, bytes⟩ := by
  let pool₁ := { pool with blockSize := (b : Int) }
  let pool₂ := { pool₁ with freeCount := ((memPageSize / b : Nat) : Int) }
  let pool₃ := { pool₂ with freePtr := ptr }
  have hcell₁ := Mem.write_self hcell pool₁
  have hcell₂ := Mem.write_self hcell₁ pool₂
  refine ⟨_, Mem.write_self hcell₂ pool₃, run_ite_neg (Mem.ne_zero_of_some hcell) ?_⟩
  refine run_bind_of (assign_run hcell _) ?_
  rw [blockCount_natCast hb hle]
  refine run_bind_of (run_liftE_ok _ _) ?_
  refine run_bind_of (assign_run hcell₁ _) ?_
  refine run_bind_of (hmalloc _) ?_
  exact run_bind_of (assign_run hcell₂ _) rfl

/-- Up to the null behind the last block, nothing can go wrong. -/
theorem mempInit_run (page : Page) (hb : sizeofCharPtr ≤ b) (hle : b ≤ memPageSize)
    (hcell : h.pools.cells m = some pool) :
    ∃ h', LinkedInside page m b (page.freshPool b) (mapArea h.bytes page) (memPageSize / b) h' ∧
      (mempInit (some page) m b).run h =
        (do storePtr (page.addr + b * (memPageSize / b)) 0; return 0 : Prog PoolHeap Int).run
          h' := by
  have hpos : 0 < b := Nat.lt_of_lt_of_le (by decide) hb
  have hmalloc : ∀ pools, (mallocPage (some page)).run ⟨pools, h.bytes⟩ =
      .ok (page.addr, ⟨pools, mapArea h.bytes page⟩) := fun _ => rfl
  obtain ⟨pools, hcell₁, hstart⟩ := mempInit_start hpos hle hcell hmalloc
  have hcell₂ := Mem.write_self hcell₁ (page.freshPool b)
  have hl : LinkedInside page m b (page.freshPool b) (mapArea h.bytes page) 0
      ⟨pools.write m (page.freshPool b), mapArea h.bytes page⟩ :=
    ⟨⟨hcell₂, fun i hi => absurd hi (Nat.not_lt_zero i), fun _ ha => ha⟩, fun _ _ => rfl⟩
  obtain ⟨h', hloop, hl'⟩ := hl.loop hb (fun a => mapArea_isSome h.bytes page) rfl
  refine ⟨h', hl', hstart.trans ?_⟩
  refine run_bind_of (deref_run hcell₁) (run_ite_neg page.ne_null ?_)
  refine run_bind_of (assign_run hcell₁ _) ?_
  refine run_bind_of (deref_run hcell₂) ?_
  exact run_bind_of hloop rfl

theorem mempInit_cell {answer : Option Page} (hinit : (mempInit answer m b).run h = .ok (0, heap)) :
    ∃ pool, h.pools.cells m = some pool := by
  unfold mempInit at hinit
  by_cases hm : m = 0
  · rw [if_pos hm] at hinit
    cases hinit
  · rw [if_neg hm] at hinit
    obtain ⟨u, h₁, hassign, -⟩ := run_bind_inv hinit
    obtain ⟨pool, h₂, hderef, -⟩ := run_bind_inv hassign
    exact ⟨pool, (deref_inv hderef).1⟩

/-- Without a page, `memp_init` has not returned 0. -/
theorem mempInit_page {answer : Option Page} (hb : 0 < b) (hle : b ≤ memPageSize)
    (hinit : (mempInit answer m b).run h = .ok (0, heap)) : ∃ page, answer = some page := by
  cases answer with
  | some page => exact ⟨page, rfl⟩
  | none =>
      obtain ⟨pool, hcell⟩ := mempInit_cell hinit
      have hmalloc : ∀ pools, (mallocPage none).run ⟨pools, h.bytes⟩ =
          .ok (0, ⟨pools, h.bytes⟩) := fun _ => rfl
      obtain ⟨pools, hcell₁, hstart⟩ := mempInit_start hb hle hcell hmalloc
      have hfail : (mempInitPage m b).run ⟨pools, h.bytes⟩ = .ok (-1, ⟨pools, h.bytes⟩) :=
        run_bind_of (deref_run hcell₁) (run_ite_pos rfl rfl)
      rw [hstart, hfail] at hinit
      cases hinit

/-- `memp_init` returns 0 if it finds a page, and bytes behind it for the null. -/
theorem mempInit_ok (page : Page) (hb : sizeofCharPtr ≤ b) (hle : b ≤ memPageSize)
    (hcell : h.pools.cells m = some pool)
    (hbehind : ∀ a, page.addr + memPageSize ≤ a → a < page.addr + memPageSize + sizeofCharPtr →
      (h.bytes a).isSome) : Gives (mempInit (some page) m b) h 0 := by
  obtain ⟨h', hl, hrun⟩ := mempInit_run page hb hle hcell
  have hnull := page.ne_null
  have hend := Nat.mul_div_le memPageSize b
  refine ⟨_, hrun.trans (run_bind_of (storePtr_run (by omega) fun a hle' hlt => hl.mapped a ?_)
    rfl)⟩
  by_cases ha : a < page.addr + memPageSize
  · exact mapArea_isSome h.bytes page (by omega) ha
  · rw [mapArea_apart h.bytes page (by omega)]
    exact hbehind a (by omega) (by omega)

/-- All blocks are linked, and the null is stored where the last one ends. -/
theorem mempInit_inv (hb : sizeofCharPtr ≤ b) (hle : b ≤ memPageSize)
    (hinit : (mempInit (some page) m b).run h = .ok (0, heap)) :
    ∃ h', LinkedInside page m b (page.freshPool b) (mapArea h.bytes page) (memPageSize / b) h' ∧
      heap = { h' with
        bytes := storeWord h'.bytes sizeofCharPtr (page.addr + b * (memPageSize / b)) 0 } := by
  obtain ⟨pool, hcell⟩ := mempInit_cell hinit
  obtain ⟨h', hl, hrun⟩ := mempInit_run page hb hle hcell
  rw [hinit] at hrun
  obtain ⟨u, heap', hstore, hend⟩ := run_bind_inv hrun.symm
  cases hend
  exact ⟨h', hl, storePtr_inv hstore⟩

/-- The null that comes last is behind all blocks, whatever it overwrites there. -/
theorem Pooling.init (hb : sizeofCharPtr ≤ b) (hle : b ≤ memPageSize)
    (hinit : (mempInit (some page) m b).run h = .ok (0, heap)) :
    Pooling page m b (page.freshPool b) (page.blocks b) ⟨heap, []⟩ := by
  obtain ⟨h', hl, rfl⟩ := mempInit_inv hb hle hinit
  refine ⟨hl.cell, ?_, (LeadsTo.range' (hl.links_store hb 0)).leadsThrough, ?_, ?_⟩
  · rw [Area.blocks, List.length_range']
    rfl
  · rw [List.append_nil]
  · intro a hle' hlt
    exact storeWord_isSome (hl.mapped a (mapArea_isSome h.bytes page hle' hlt))

end Init

/-! ### Whole runs -/

/--
**The users of a pool never share a byte.**  After `memp_init` has returned 0 for blocks of `b`
bytes, and whatever was allocated, freed by its holder, and written by its holder since then:
the free blocks and those held are as many as fit into the page; the blocks held are blocks of
the page and apart; `memp_alloc` returns, null if every block of the page is held, and
otherwise a block of the page apart from all that are held; and whatever is held can be freed.
-/
theorem pool_blocks_apart {answer : Option Page} {m : Ptr} {b : Nat} {h heap : PoolHeap}
    {s : PoolState} (hb : sizeofCharPtr ≤ b) (hle : b ≤ memPageSize)
    (hinit : (mempInit answer m b).run h = .ok (0, heap))
    (hrun : Relation.ReflTransGen (PoolStep m b) ⟨heap, []⟩ s) :
    ∃ page pool, answer = some page ∧ s.heap.pools.cells m = some pool ∧
      pool.freeCount + s.held.length = (memPageSize / b : Nat) ∧
      (∀ ptr ∈ s.held, page.IsBlock b ptr) ∧ s.held.Pairwise (Apart b) ∧
      (∃ ptr heap', (mempAlloc m).run s.heap = .ok (ptr, heap') ∧
        (ptr = 0 ↔ ∀ ptr', page.IsBlock b ptr' → ptr' ∈ s.held) ∧
        (ptr ≠ 0 → page.IsBlock b ptr ∧ ∀ ptr' ∈ s.held, Apart b ptr ptr')) ∧
      ∀ ptr ∈ s.held, ∃ heap', (mempFree m ptr).run s.heap = .ok (ptr, heap') := by
  have hpos : 0 < b := Nat.lt_of_lt_of_le (by decide) hb
  obtain ⟨page, rfl⟩ := mempInit_page hpos hle hinit
  obtain ⟨pool, free, hs⟩ := (Pooling.init hb hle hinit).run hb hrun
  refine ⟨page, pool, rfl, hs.cell, ?_, fun ptr => hs.isBlock_held hpos, hs.held_pairwise hpos,
    ?_, ?_⟩
  · have hlength := hs.blocks.length_eq
    rw [List.length_append, Area.blocks, List.length_range'] at hlength
    rw [hs.count]
    exact_mod_cast hlength
  · cases free with
    | nil =>
        refine ⟨0, s.heap, hs.alloc_none, iff_of_true rfl fun ptr' hblock => ?_,
          fun hc => absurd rfl hc⟩
        exact hs.blocks.mem_iff.mpr ((mem_blocks hpos).mpr hblock)
    | cons ptr free =>
        obtain ⟨pool', heap', halloc, -⟩ := hs.alloc_some hpos
        have hfree : ptr ∈ ptr :: free := List.mem_cons_self ..
        have hblock := hs.isBlock_free hpos hfree
        have hapart := fun ptr' (hheld : ptr' ∈ s.held) => hs.free_apart_held hpos hfree hheld
        refine ⟨ptr, heap', halloc, iff_of_false hblock.ne_null fun hall => ?_,
          fun _ => ⟨hblock, hapart⟩⟩
        rcases hapart ptr (hall ptr hblock) with hc | hc
        · omega
        · omega
  · intro ptr hheld
    obtain ⟨pool', heap', hfree, -⟩ := hs.freed hb hheld
    exact ⟨heap', hfree⟩

theorem pool_blocks_apart_three :
    let page : Page := ⟨4096, fun _ => 7, by decide, by decide⟩
    let h : PoolHeap := ⟨Mem.empty.alloc ⟨0, 0, 0, 0⟩, fun _ => some 0⟩
    ∃ heap s pool, (mempInit (some page) 1 (8192 : Nat)).run h = .ok (0, heap) ∧
      Relation.ReflTransGen (PoolStep 1 8192) ⟨heap, []⟩ s ∧ s.held = [4096] ∧
      s.heap.pools.cells 1 = some pool ∧ pool.freeCount = 2 := by
  intro page h
  have hb : sizeofCharPtr ≤ 8192 := by decide
  have hle : 8192 ≤ memPageSize := by decide
  have hfound : h.pools.cells 1 = some ⟨0, 0, 0, 0⟩ := rfl
  obtain ⟨heap, hinit⟩ := mempInit_ok page hb hle hfound (fun _ _ _ => rfl)
  have hthree : memPageSize / 8192 = 3 := by decide
  have hrange : List.range' 4096 3 8192 = 4096 :: [12288, 20480] := rfl
  have hblocks : page.blocks 8192 = 4096 :: [12288, 20480] := by
    rw [Area.blocks, hthree]
    exact hrange
  have hs := Pooling.init hb hle hinit
  rw [hblocks] at hs
  obtain ⟨-, heap', halloc, -⟩ := hs.alloc_some (by decide)
  have hrun : Relation.ReflTransGen (PoolStep 1 8192) ⟨heap, []⟩ ⟨heap', [4096]⟩ :=
    .single (.alloc halloc)
  obtain ⟨page', pool, -, hcell, hcount, -⟩ := pool_blocks_apart hb hle hinit hrun
  rw [hthree] at hcount
  have hone : pool.freeCount + 1 = 3 := hcount
  exact ⟨heap, _, pool, hinit, hrun, rfl, hcell, by omega⟩

end KvStore
