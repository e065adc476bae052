/-
Arrays of pointers on the heap.

A program keeps one array of `n` pointers, which is null before it is allocated and dangles after
it was given back.  `HasSlots` says where it is in the state; the accesses are defined and
specified once over that.
-/
import KvStore.Base.Memory

namespace KvStore

/-- What a `**` points to, if anything. -/
inductive SlotArray (n : Nat)
  | null
  | allocated (slots : Vector Ptr n)
  /-- it was given back, and still points there -/
  | freed

/-- A state with an array of pointers. -/
class HasSlots (σ : Type) (n : outParam Nat) where
  slots : σ → SlotArray n
  withSlots : σ → SlotArray n → σ
  slots_withSlots : ∀ s a, slots (withSlots s a) = a

section Programs

variable {σ : Type} {n : Nat} [HasSlots σ n]

open HasSlots

/-- `table[i]` -/
def getSlot (i : Int) : Prog σ Ptr := do
  match slots (← get) with
  | .null => fault .nullDeref
  | .freed => fault .badAddress
  | .allocated t => if h : 0 ≤ i ∧ i.toNat < n then return t.get ⟨i.toNat, h.2⟩ else fault .outOfBounds

/-- `table[i] = p` -/
def setSlot (i : Int) (p : Ptr) : Prog σ Unit := do
  let s ← get
  match slots s with
  | .null => fault .nullDeref
  | .freed => fault .badAddress
  | .allocated t =>
      if h : 0 ≤ i ∧ i.toNat < n then set (withSlots s (.allocated (t.set i.toNat p h.2)))
      else fault .outOfBounds

/-- `free(table)` -/
def freeSlots : Prog σ Unit := do
  match slots (← get) with
  | .null => return ()
  | .freed => fault .badAddress
  | .allocated _ => modify fun s => withSlots s .freed

variable {s : σ} {t : Vector Ptr n} {i : Nat}

theorem getSlot_run (h : slots s = .allocated t) (hi : i < n) :
    (getSlot i).run s = .ok (t[i], s) := by
  refine run_bind_of (run_get s) ?_
  rw [h]
  show (if h : _ then _ else _ : Prog σ Ptr).run s = _
  rw [dif_pos ⟨Int.natCast_nonneg i, hi⟩]
  rfl

theorem setSlot_run (h : slots s = .allocated t) (hi : i < n) (p : Ptr) :
    (setSlot i p).run s = .ok ((), withSlots s (.allocated (t.set i p))) := by
  refine run_bind_of (run_get s) ?_
  rw [h]
  show (if h : _ then _ else _ : Prog σ Unit).run s = _
  rw [dif_pos ⟨Int.natCast_nonneg i, hi⟩]
  rfl

theorem freeSlots_run (h : slots s = .allocated t) :
    freeSlots.run s = .ok ((), withSlots s .freed) := by
  refine run_bind_of (run_get s) ?_
  rw [h]
  rfl

end Programs

end KvStore
