/-
Allocated memory.

`Mem α` is the part of the heap that holds objects of one type: an address is
either allocated, and then holds an `α`, or it is not.  Address 0 is the null
pointer and is never allocated; addresses from `next` on have not been handed out
yet.  Both facts are fields, so an ill-formed memory cannot be built, and a write
can only change an address that is allocated.  Freed addresses are not handed out
again, so a dangling pointer is always seen as one.

A program's state usually holds such a memory among other things; `HasMem` says
where, and the heap operations are defined and specified once over it.
-/
import KvStore.Base.Prog
import Mathlib.Data.List.Perm.Subperm

namespace KvStore

/-- An address; 0 is `NULL`. -/
abbrev Ptr := Nat

structure Mem (α : Type) where
  cells : Ptr → Option α
  /-- the next address `malloc` hands out -/
  next : Ptr
  null : cells 0 = none
  fresh : ∀ p, next ≤ p → cells p = none
  next_pos : 0 < next

namespace Mem

variable {α : Type}

@[ext] theorem ext {m m' : Mem α} (hc : ∀ p, m.cells p = m'.cells p) (hn : m.next = m'.next) :
    m = m' := by
  cases m; cases m'
  cases hn
  cases (funext hc : _ = _)
  rfl

/-- Nothing is allocated. -/
def empty : Mem α where
  cells _ := none
  next := 1
  null := rfl
  fresh _ _ := rfl
  next_pos := Nat.one_pos

/-- Store `v` at `p`, if `p` is allocated. -/
def write (m : Mem α) (p : Ptr) (v : α) : Mem α where
  cells q := if q = p then (m.cells p).map (fun _ => v) else m.cells q
  next := m.next
  null := by
    by_cases h : 0 = p
    · rw [if_pos h, ← h, m.null]; rfl
    · rw [if_neg h, m.null]
  fresh q hq := by
    by_cases h : q = p
    · rw [if_pos h, ← h, m.fresh q hq]; rfl
    · rw [if_neg h, m.fresh q hq]
  next_pos := m.next_pos

/-- Allocate the next address and store `v` there. -/
def alloc (m : Mem α) (v : α) : Mem α where
  cells q := if q = m.next then some v else m.cells q
  next := m.next + 1
  null := by rw [if_neg (Nat.ne_of_lt m.next_pos), m.null]
  fresh q hq := by
    rw [if_neg (Nat.ne_of_gt hq), m.fresh q (Nat.le_of_succ_le hq)]
  next_pos := Nat.succ_pos _

/-- Give the block at `p` back. -/
def release (m : Mem α) (p : Ptr) : Mem α where
  cells q := if q = p then none else m.cells q
  next := m.next
  null := by rw [m.null, ite_self]
  fresh q hq := by rw [m.fresh q hq, ite_self]
  next_pos := m.next_pos

/-- Change every object, by a function that may depend on its address. -/
def mapCells (m : Mem α) (f : Ptr → α → α) : Mem α where
  cells p := (m.cells p).map (f p)
  next := m.next
  null := by rw [m.null]; rfl
  fresh p hp := by rw [m.fresh p hp]; rfl
  next_pos := m.next_pos

theorem mapCells_of_some {m : Mem α} {p : Ptr} {v : α} (h : m.cells p = some v)
    (f : Ptr → α → α) : (m.mapCells f).cells p = some (f p v) := congrArg (Option.map (f p)) h

theorem mapCells_mapCells (m : Mem α) (f g : Ptr → α → α) :
    (m.mapCells f).mapCells g = m.mapCells fun p v => g p (f p v) :=
  ext (fun p => Option.map_map (g p) (f p) (m.cells p)) rfl

theorem mapCells_congr {m : Mem α} {f g : Ptr → α → α}
    (h : ∀ p v, m.cells p = some v → f p v = g p v) : m.mapCells f = m.mapCells g := by
  refine ext (fun p => ?_) rfl
  show (m.cells p).map (f p) = (m.cells p).map (g p)
  cases hp : m.cells p with
  | none => rfl
  | some v => exact congrArg some (h p v hp)

theorem mapCells_id (m : Mem α) : (m.mapCells fun _ v => v) = m :=
  ext (fun _ => Option.map_id') rfl

theorem write_self {m : Mem α} {p : Ptr} {u : α} (h : m.cells p = some u) (v : α) :
    (m.write p v).cells p = some v := by
  simp [write, h]

theorem write_of_ne (m : Mem α) {p q : Ptr} (h : q ≠ p) (v : α) :
    (m.write p v).cells q = m.cells q := by
  simp [write, h]

theorem write_eq_mapCells {m : Mem α} {p : Ptr} {v : α} (h : m.cells p = some v) (f : α → α) :
    m.write p (f v) = m.mapCells fun q u => if q = p then f u else u := by
  refine ext (fun q => ?_) rfl
  by_cases hq : q = p
  · subst hq
    rw [write_self h, mapCells_of_some h, if_pos rfl]
  · rw [write_of_ne m hq]
    show _ = (m.cells q).map fun u => if q = p then f u else u
    simp only [if_neg hq, Option.map_id']

theorem write_isSome (m : Mem α) (p q : Ptr) (v : α) :
    ((m.write p v).cells q).isSome = (m.cells q).isSome := by
  by_cases h : q = p
  · subst h
    simp [write]
  · rw [write_of_ne m h]

/-- A later write to an address replaces an earlier one. -/
theorem write_write (m : Mem α) (p : Ptr) (u v : α) : (m.write p u).write p v = m.write p v := by
  refine ext (fun q => ?_) rfl
  by_cases h : q = p
  · subst h
    simp only [write, if_true]
    cases m.cells q <;> rfl
  · rw [write_of_ne _ h, write_of_ne _ h, write_of_ne _ h]

theorem alloc_self (m : Mem α) (v : α) : (m.alloc v).cells m.next = some v := by
  simp [alloc]

theorem alloc_of_ne (m : Mem α) {q : Ptr} (h : q ≠ m.next) (v : α) :
    (m.alloc v).cells q = m.cells q := by
  simp [alloc, h]

theorem alloc_write (m : Mem α) (u v : α) : (m.alloc u).write m.next v = m.alloc v := by
  refine ext (fun q => ?_) rfl
  by_cases h : q = m.next
  · rw [h, write_self (alloc_self m u), alloc_self]
  · rw [write_of_ne _ h, alloc_of_ne _ h, alloc_of_ne _ h]

theorem release_self (m : Mem α) (p : Ptr) : (m.release p).cells p = none := by
  simp [release]

theorem release_of_ne (m : Mem α) {p q : Ptr} (h : q ≠ p) :
    (m.release p).cells q = m.cells q := by
  simp [release, h]

/-- What is given back at once was never there. -/
theorem alloc_release (m : Mem α) (v : α) (q : Ptr) :
    ((m.alloc v).release m.next).cells q = m.cells q := by
  by_cases h : q = m.next
  · rw [h, release_self, m.fresh _ (Nat.le_refl _)]
  · rw [release_of_ne _ h, alloc_of_ne m h]

theorem ne_zero_of_some {m : Mem α} {p : Ptr} {v : α} (h : m.cells p = some v) : p ≠ 0 := by
  rintro rfl
  rw [m.null] at h
  cases h

theorem lt_next_of_some {m : Mem α} {p : Ptr} {v : α} (h : m.cells p = some v) : p < m.next := by
  by_contra hc
  rw [m.fresh p (Nat.le_of_not_lt hc)] at h
  cases h

/-- There are no more allocated addresses than were handed out. -/
theorem length_le_next {m : Mem α} {l : List Ptr} (hnd : l.Nodup)
    (h : ∀ q ∈ l, ∃ v, m.cells q = some v) : l.length ≤ m.next := by
  have hsub : l ⊆ List.range m.next := by
    intro q hq
    obtain ⟨v, hv⟩ := h q hq
    exact List.mem_range.mpr (lt_next_of_some hv)
  simpa using (List.subperm_of_subset hnd hsub).length_le

/-- Read the object at `p`. -/
def read (m : Mem α) (p : Ptr) : Except Fault α :=
  if p = 0 then .error .nullDeref
  else match m.cells p with
    | some v => .ok v
    | none => .error .badAddress

theorem read_of_some {m : Mem α} {p : Ptr} {v : α} (h : m.cells p = some v) :
    m.read p = .ok v := by
  unfold read
  rw [if_neg (ne_zero_of_some h), h]

end Mem

/-- A state that holds a memory of `α`. -/
class HasMem (σ : Type) (α : outParam Type) where
  mem : σ → Mem α
  withMem : σ → Mem α → σ
  mem_withMem : ∀ s m, mem (withMem s m) = m

section Heap

variable {σ α : Type} [HasMem σ α]

open HasMem

/-- `*p` -/
def deref (p : Ptr) : Prog σ α := do
  let s ← get
  liftE ((mem s).read p)

/-- `*p = f(*p)`: an assignment to one or more fields of the object at `p`. -/
def assign (p : Ptr) (f : α → α) : Prog σ Unit := do
  let v ← deref p
  modify fun s => withMem s ((mem s).write p (f v))

/-- `malloc` of one object, given whether it succeeds; `v` is what is stored there first. -/
def malloc (ok : Bool) (v : α) : Prog σ Ptr := do
  if ok then
    let s ← get
    set (withMem s ((mem s).alloc v))
    pure (mem s).next
  else pure 0

/-- `free(p)` -/
def free (p : Ptr) : Prog σ Unit := do
  let _ ← (deref p : Prog σ α)
  modify fun s => withMem s ((mem s).release p)

theorem deref_run {s : σ} {p : Ptr} {v : α} (h : (mem s).cells p = some v) :
    (deref p : Prog σ α).run s = .ok (v, s) := by
  unfold deref
  rw [run_bind_ok (run_get s), Mem.read_of_some h]
  rfl

theorem deref_inv {s s' : σ} {p : Ptr} {v : α} (h : (deref p : Prog σ α).run s = .ok (v, s')) :
    (mem s).cells p = some v ∧ s' = s := by
  unfold deref at h
  rw [run_bind_ok (run_get s)] at h
  obtain ⟨hread, rfl⟩ := liftE_inv h
  refine ⟨?_, rfl⟩
  unfold Mem.read at hread
  by_cases hp : p = 0
  · rw [if_pos hp] at hread
    cases hread
  · rw [if_neg hp] at hread
    cases hcell : (mem s).cells p with
    | none =>
        rw [hcell] at hread
        cases hread
    | some u =>
        rw [hcell] at hread
        rw [Except.ok.inj hread]

theorem deref_none {s : σ} {p : Ptr} (h : (mem s).cells p = none) :
    (deref p : Prog σ α).run s = .error (if p = 0 then .nullDeref else .badAddress) := by
  unfold deref
  rw [run_bind_ok (run_get s)]
  unfold Mem.read
  by_cases hp : p = 0
  · rw [if_pos hp, if_pos hp]
    rfl
  · rw [if_neg hp, if_neg hp, h]
    rfl

theorem assign_run {s : σ} {p : Ptr} {v : α} (h : (mem s).cells p = some v) (f : α → α) :
    (assign p f : Prog σ Unit).run s = .ok ((), withMem s ((mem s).write p (f v))) := by
  unfold assign
  rw [run_bind_ok (deref_run h)]
  rfl

theorem assign_inv {s s' : σ} {p : Ptr} {f : α → α}
    (h : (assign p f : Prog σ Unit).run s = .ok ((), s')) :
    ∃ v, (mem s).cells p = some v ∧ s' = withMem s ((mem s).write p (f v)) := by
  unfold assign at h
  obtain ⟨v, s₁, hread, hwrite⟩ := run_bind_inv h
  obtain ⟨hcell, rfl⟩ := deref_inv hread
  cases hwrite
  exact ⟨v, hcell, rfl⟩

theorem malloc_run (s : σ) (v : α) :
    (malloc true v : Prog σ Ptr).run s = .ok ((mem s).next, withMem s ((mem s).alloc v)) := rfl

theorem free_run {s : σ} {p : Ptr} {v : α} (h : (mem s).cells p = some v) :
    (free p : Prog σ Unit).run s = .ok ((), withMem s ((mem s).release p)) := by
  unfold free
  rw [run_bind_ok (deref_run h)]
  rfl

end Heap

end KvStore
