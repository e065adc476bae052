/-
Which keys have a slot in the chained hash.

`_hash` adds the bytes of the key as `char`s, which are signed: a byte from 0x80 on counts
256 less than its code.  C's `%` keeps the sign of the sum, so that a negative sum that is no
multiple of the table's size gives a negative index, and the three functions that use the
index access memory in front of the slots.  `hash_index_iff` says for which keys this does
not happen.
-/
import KvStore.Base.Avoids
import KvStore.Proofs.Hash

namespace KvStore

/-- The sum of the bytes as unsigned numbers. -/
def CString.byteSum (k : CString) : Nat := k.bytes.foldr (fun b sum => b.toNat + sum) 0

/-- The number of bytes that are negative as `char`s. -/
def CString.highBytes (k : CString) : Nat := k.bytes.countP fun b => 0x80 ≤ b.toNat

/--
The codes add up to at least 256 for each byte from 0x80 on, or to the same number as these
do, up to a multiple of the table's size.
-/
def CString.SumInRange (k : CString) : Prop :=
  256 * k.highBytes ≤ k.byteSum ∨ k.byteSum % 1024 = 256 * k.highBytes % 1024

instance (k : CString) : Decidable k.SumInRange := inferInstanceAs (Decidable (_ ∨ _))

/-- `_hash` returns the index of a slot, and the functions that use it access only slots. -/
structure IndexInRange (k : CString) : Prop where
  index : ∃ idx, hash (some k) maxTableSize = .ok idx ∧ 0 ≤ idx ∧ idx < maxTableSize
  put : ∀ alloc v, Avoids .outOfBounds (putKvHashtable alloc (some k) (some v))
  get : Avoids .outOfBounds (getKvHashtable (some k))
  delete : Avoids .outOfBounds (deleteKvHashtable (some k))

/-! ### The sum -/

theorem intOfChar_eq (c : Byte) :
    intOfChar c = c.toNat - 256 * (if 0x80 ≤ c.toNat then 1 else 0) := by
  show c.toBitVec.toInt = (c.toBitVec.toNat : Int) - 256 * (if 0x80 ≤ c.toBitVec.toNat then 1 else 0)
  rw [BitVec.toInt_eq_toNat_cond]
  by_cases hc : 2 * c.toBitVec.toNat < 2 ^ 8
  · rw [if_pos hc, if_neg (by omega)]
    omega
  · rw [if_neg hc, if_pos (by omega)]
    omega

theorem charSum_eq (k : CString) : charSum k.bytes = (k.byteSum : Int) - 256 * k.highBytes := by
  unfold CString.byteSum CString.highBytes
  induction k.bytes with
  | nil => rfl
  | cons c rest ih =>
      rw [charSum, List.foldr_cons, ← charSum, ih, intOfChar_eq, List.foldr_cons, List.countP_cons]
      by_cases hc : 0x80 ≤ c.toNat
      · rw [if_pos hc, if_pos (decide_eq_true hc)]
        omega
      · rw [if_neg hc, if_neg (by simpa using hc)]
        omega

/-- **The sum of the bytes of a key that fits a message is an `int`.** -/
theorem hash_returns {k : CString} (hlen : k.length ≤ 1024) :
    hash (some k) maxTableSize = .ok (((k.byteSum : Int) - 256 * k.highBytes).tmod maxTableSize) := by
  have hchar : ∀ b ∈ k.bytes, -128 ≤ intOfChar b ∧ intOfChar b ≤ 127 := by
    intro b _
    have hb := b.toNat_lt
    rw [intOfChar_eq]
    by_cases hc : 0x80 ≤ b.toNat
    · rw [if_pos hc]
      omega
    · rw [if_neg hc]
      omega
  have hbytes : k.bytes.length ≤ 1024 := hlen
  rw [hash, hashSum_run (-128) 127 (by omega) (by omega) hchar (by omega) (by omega),
    charSum_eq, Int.zero_add]
  rfl

/-- The remainder of a sum is an index exactly when it is not negative. -/
theorem sumInRange_iff (k : CString) :
    k.SumInRange ↔ 0 ≤ ((k.byteSum : Int) - 256 * k.highBytes).tmod maxTableSize := by
  have hsize : (maxTableSize : Int) = 1024 := rfl
  rw [hsize, CString.SumInRange]
  generalize k.byteSum = n
  generalize k.highBytes = h
  by_cases hpos : 256 * h ≤ n
  · rw [Int.tmod_eq_emod_of_nonneg (by omega)]
    omega
  · have hneg : ((n : Int) - 256 * h).tmod 1024 = -((256 * h - n : Int) % 1024) := by
      rw [show (n : Int) - 256 * h = -(256 * h - n) by omega, Int.neg_tmod,
        Int.tmod_eq_emod_of_nonneg (by omega)]
    rw [hneg]
    omega

/-! ### The accesses -/

section Access

variable {k : CString} {idx : Int} {e : Fault}

theorem hashChain_avoids (h : 0 ≤ idx ∧ idx < maxTableSize) :
    Avoids .outOfBounds (hashChain idx) := by
  refine .seq .get fun H => ?_
  cases H.nodes with
  | none => exact .fault (by decide)
  | some t =>
      show Avoids _ (if h : 0 ≤ idx ∧ idx.toNat < maxTableSize then _ else _)
      rw [dif_pos ⟨h.1, by omega⟩]
      exact .pure _

theorem setHashChain_avoids (h : 0 ≤ idx ∧ idx < maxTableSize) (chain : List HashNode) :
    Avoids .outOfBounds (setHashChain idx chain) := by
  refine .seq .get fun H => ?_
  cases H.nodes with
  | none => exact .fault (by decide)
  | some t =>
      show Avoids _ (if h : 0 ≤ idx ∧ idx.toNat < maxTableSize then _ else _)
      rw [dif_pos ⟨h.1, by omega⟩]
      exact .set _

theorem putKvHashtable_avoids (hidx : hash (some k) maxTableSize = .ok idx)
    (h : 0 ≤ idx ∧ idx < maxTableSize) (alloc : Bool) (v : CString) :
    Avoids .outOfBounds (putKvHashtable alloc (some k) (some v)) := by
  rw [putKvHashtable, hidx]
  refine .ok_seq (.seq (.mutexLock (by decide)) fun _ => ?_)
  refine .seq (hashChain_avoids h) fun chain => ?_
  refine .seq (.liftE (findNode_ne_error k (by decide))) fun found => ?_
  cases found with
  | some _ => exact .seq .mutexUnlock fun _ => .pure _
  | none =>
      cases alloc with
      | false => exact .fault (by decide)
      | true =>
          refine .seq (setHashChain_avoids h _) fun _ => .seq (.modify _) fun _ => ?_
          exact .seq .mutexUnlock fun _ => .pure _

theorem getKvHashtable_avoids (hidx : hash (some k) maxTableSize = .ok idx)
    (h : 0 ≤ idx ∧ idx < maxTableSize) : Avoids .outOfBounds (getKvHashtable (some k)) := by
  rw [getKvHashtable, hidx]
  refine .ok_seq (.seq (.mutexLock (by decide)) fun _ => ?_)
  refine .seq (hashChain_avoids h) fun chain => ?_
  refine .seq (.liftE (findNode_ne_error k (by decide))) fun _ => ?_
  exact .seq .mutexUnlock fun _ => .pure _

theorem deleteEnd_avoids (h : 0 ≤ idx ∧ idx < maxTableSize) (chain : List HashNode) :
    Avoids .outOfBounds (deleteEnd idx chain) := by
  refine .seq (setHashChain_avoids h _) fun _ => .seq (.modify _) fun _ => ?_
  exact .seq .mutexUnlock fun _ => .pure _

theorem deleteKvHashtable_avoids (hidx : hash (some k) maxTableSize = .ok idx)
    (h : 0 ≤ idx ∧ idx < maxTableSize) : Avoids .outOfBounds (deleteKvHashtable (some k)) := by
  rw [deleteKvHashtable, hidx]
  refine .ok_seq (.seq (.mutexLock (by decide)) fun _ => ?_)
  refine .seq (hashChain_avoids h) fun chain => ?_
  cases chain with
  | nil => exact .pure _
  | cons head next =>
      refine .seq (.liftE (strcmp_ne_error (by decide) _ _)) fun r => ?_
      refine .ite (deleteEnd_avoids h _) ?_
      refine .seq (.liftE (unlinkNode_ne_error k (by decide))) fun rest => ?_
      cases rest with
      | none => exact .seq .mutexUnlock fun _ => .pure _
      | some rest => exact deleteEnd_avoids h _

theorem hashChain_outside {H : Hashtable} {t : Vector (List HashNode) maxTableSize} (h : idx < 0)
    (ht : H.nodes = some t) : (hashChain idx).run H = .error .outOfBounds := by
  refine run_bind_of (run_get H) ?_
  rw [ht]
  show (if h : 0 ≤ idx ∧ idx.toNat < maxTableSize then _ else _ :
    Prog Hashtable (List HashNode)).run H = _
  rw [dif_neg (by omega)]
  rfl

/-- An index outside the table is used as one by all three functions. -/
theorem outside_faults {H : Hashtable} {t : Vector (List HashNode) maxTableSize}
    (hidx : hash (some k) maxTableSize = .ok idx) (h : idx < 0) (ht : H.nodes = some t)
    (hlock : H.lock ≠ .held) (alloc : Bool) (v : CString) :
    (putKvHashtable alloc (some k) (some v)).run H = .error .outOfBounds ∧
      (getKvHashtable (some k)).run H = .error .outOfBounds ∧
      (deleteKvHashtable (some k)).run H = .error .outOfBounds := by
  obtain ⟨mu, hmu, -⟩ := Mutex.lock_unlock hlock
  have hchain := hashChain_outside (H := { H with lock := mu }) h ht
  have hlocked := mutexLock_run (s := H) hmu
  rw [putKvHashtable, getKvHashtable, deleteKvHashtable, hidx]
  refine ⟨?_, ?_, ?_⟩
  · exact run_bind_of rfl (run_bind_of hlocked (run_bind_error hchain))
  · exact run_bind_of rfl (run_bind_of hlocked (run_bind_error hchain))
  · exact run_bind_of rfl (run_bind_of hlocked (run_bind_error hchain))

end Access

/-! ### The keys -/

/--
**The slot index is in range exactly for the keys whose bytes, as `char`s, add up to a number
that is not negative or to a multiple of the table's size.**  The sum never overflows.  With
any other key `put`, `get` and `delete` access memory outside the slots of every table.
-/
theorem hash_index_iff (k : CString) (hlen : k.length ≤ 1024) :
    (∃ idx, hash (some k) maxTableSize = .ok idx) ∧ (IndexInRange k ↔ k.SumInRange) ∧
      (¬ k.SumInRange → ∀ (H : Hashtable) t alloc v, H.nodes = some t → H.lock ≠ .held →
        (putKvHashtable alloc (some k) (some v)).run H = .error .outOfBounds ∧
        (getKvHashtable (some k)).run H = .error .outOfBounds ∧
        (deleteKvHashtable (some k)).run H = .error .outOfBounds) := by
  have hidx := hash_returns hlen
  refine ⟨⟨_, hidx⟩, ?_, ?_⟩
  · rw [sumInRange_iff]
    constructor
    · rintro ⟨⟨idx, hidx', hpos, -⟩, -⟩
      rw [hidx] at hidx'
      rw [Except.ok.inj hidx']
      exact hpos
    · intro hpos
      have hlt : ((k.byteSum : Int) - 256 * k.highBytes).tmod maxTableSize < maxTableSize :=
        Int.tmod_lt_of_pos _ (by decide)
      exact ⟨⟨_, hidx, hpos, hlt⟩, putKvHashtable_avoids hidx ⟨hpos, hlt⟩,
        getKvHashtable_avoids hidx ⟨hpos, hlt⟩, deleteKvHashtable_avoids hidx ⟨hpos, hlt⟩⟩
  · rw [sumInRange_iff]
    intro hneg H t alloc v ht hlock
    exact outside_faults hidx (not_le.mp hneg) ht hlock alloc v

/-- A negative byte does no harm if the others make up for it. -/
theorem hash_index_iff_mixed :
    let k : CString := ⟨[0xff, 0x61], by decide⟩
    k.SumInRange ∧ IndexInRange k := by
  intro k
  have hk : k.SumInRange := by decide
  exact ⟨hk, (hash_index_iff k (by decide)).2.1.mpr hk⟩

/-- A key of one negative byte has the index -1. -/
theorem hash_negative_index :
    let k : CString := ⟨[0xff], by decide⟩
    hash (some k) maxTableSize = .ok (-1) ∧ ¬ IndexInRange k ∧
      (putKvHashtable true (some k) (some k)).run (Hashtable.fresh .free) = .error .outOfBounds := by
  intro k
  have hidx : hash (some k) maxTableSize = .ok (-1) := by decide
  refine ⟨hidx, ?_, (outside_faults hidx (by decide) rfl (by decide) true k).1⟩
  rintro ⟨⟨idx, hidx', hpos, -⟩, -⟩
  rw [hidx] at hidx'
  cases hidx'
  exact absurd hpos (by decide)

end KvStore
