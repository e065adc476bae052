/-
Memory as bytes.

A `Mem` holds objects.  Code that cuts a piece of memory into blocks by itself, and keeps
pointers in them, is about bytes: an address holds a byte or is not mapped, and a pointer is a
number that lies in several bytes, the lowest first.  An access to an address that is not
mapped faults.  One that leaves the piece of memory it was meant for is only seen by what it
reads or changes, and may fault or not.

A word that was stored is read back (`word_storeWord`), and all other bytes are as before
(`storeWord_apart`).
-/
import KvStore.Base.CString
import Mathlib.Algebra.Group.Nat.Defs
import Mathlib.Logic.Function.Basic

namespace KvStore

/-- What lies at each address; `none` where nothing is mapped. -/
abbrev Bytes := Nat → Option Byte

/-- The number in the `n` bytes from `p` on. -/
def word (m : Bytes) : Nat → Nat → Option Nat
  | 0, _ => some 0
  | n + 1, p => do
      let low ← m p
      let high ← word m n (p + 1)
      return low.toNat + 256 * high

/-- The memory with a number in the `n` bytes from `p` on; what does not fit is lost. -/
def storeWord (m : Bytes) : Nat → Nat → Nat → Bytes
  | 0, _, _ => m
  | n + 1, p, v =>
      Function.update (storeWord m n (p + 1) (v / 256)) p (some (UInt8.ofNat v))

section Words

variable {m m' : Bytes} {n p a v : Nat}

/-- A word depends on its own bytes only. -/
theorem word_congr (h : ∀ a, p ≤ a → a < p + n → m' a = m a) : word m' n p = word m n p := by
  induction n generalizing p with
  | zero => rfl
  | succ n ih =>
      have hlow : m' p = m p := h p (Nat.le_refl p) (by omega)
      have hhigh : word m' n (p + 1) = word m n (p + 1) :=
        ih fun a hle hlt => h a (by omega) (by omega)
      rw [word, word, hlow, hhigh]

theorem storeWord_apart (h : a < p ∨ p + n ≤ a) : storeWord m n p v a = m a := by
  induction n generalizing p v with
  | zero => rfl
  | succ n ih =>
      rw [storeWord, Function.update_of_ne (by omega)]
      exact ih (by omega)

/-- A null is zero in all its bytes. -/
theorem storeWord_zero (hle : p ≤ a) (hlt : a < p + n) : storeWord m n p 0 a = some 0 := by
  induction n generalizing p with
  | zero => omega
  | succ n ih =>
      by_cases hap : a = p
      · rw [hap, storeWord, Function.update_self]
        rfl
      · rw [storeWord, Function.update_of_ne hap]
        exact ih (by omega) (by omega)

theorem storeWord_isSome (h : (m a).isSome) : (storeWord m n p v a).isSome := by
  induction n generalizing p v with
  | zero => exact h
  | succ n ih =>
      by_cases hap : a = p
      · rw [hap, storeWord, Function.update_self]
        rfl
      · rw [storeWord, Function.update_of_ne hap]
        exact ih

/-- **A number that fits is read back.** -/
theorem word_storeWord (hv : v < 256 ^ n) : word (storeWord m n p v) n p = some v := by
  induction n generalizing p v with
  | zero =>
      have hzero : v = 0 := by
        rw [Nat.pow_zero] at hv
        omega
      rw [hzero]
      rfl
  | succ n ih =>
      have hdiv : v / 256 < 256 ^ n := by
        rw [Nat.div_lt_iff_lt_mul (by decide), ← Nat.pow_succ]
        exact hv
      have hhigh : word (storeWord m (n + 1) p v) n (p + 1) = some (v / 256) := by
        rw [← ih hdiv]
        refine word_congr fun a hle _ => ?_
        rw [storeWord, Function.update_of_ne (by omega)]
      have hlow : storeWord m (n + 1) p v p = some (UInt8.ofNat v) := by
        rw [storeWord, Function.update_self]
      rw [word, hlow, hhigh]
      show some ((UInt8.ofNat v).toNat + 256 * (v / 256)) = some v
      rw [UInt8.toNat_ofNat']
      congr 1
      omega

/-- Where bytes are mapped, there is a word. -/
theorem word_isSome (h : ∀ a, p ≤ a → a < p + n → (m a).isSome) : ∃ v, word m n p = some v := by
  induction n generalizing p with
  | zero => exact ⟨0, rfl⟩
  | succ n ih =>
      obtain ⟨low, hlow⟩ := Option.isSome_iff_exists.mp (h p (Nat.le_refl p) (by omega))
      obtain ⟨high, hhigh⟩ := ih (p := p + 1) fun a hle hlt => h a (by omega) (by omega)
      exact ⟨low.toNat + 256 * high, by rw [word, hlow, hhigh]; rfl⟩

end Words

/-! ### Accesses -/

/-- Read the word of `n` bytes at `p`. -/
def readWord (m : Bytes) (n p : Nat) : Except Fault Nat :=
  if p = 0 then .error .nullDeref
  else match word m n p with
    | some v => .ok v
    | none => .error .badAddress

/-- Write the word of `n` bytes at `p`. -/
def writeWord (m : Bytes) (n p v : Nat) : Except Fault Bytes := do
  let _ ← readWord m n p
  return storeWord m n p v

section Accesses

variable {m m' : Bytes} {n p v : Nat}

theorem readWord_of_some (hp : p ≠ 0) (h : word m n p = some v) : readWord m n p = .ok v := by
  unfold readWord
  rw [if_neg hp, h]

theorem writeWord_of_mapped (hp : p ≠ 0) (h : ∀ a, p ≤ a → a < p + n → (m a).isSome) :
    writeWord m n p v = .ok (storeWord m n p v) := by
  obtain ⟨u, hu⟩ := word_isSome h
  unfold writeWord
  rw [readWord_of_some hp hu]
  rfl

theorem writeWord_inv (h : writeWord m n p v = .ok m') : m' = storeWord m n p v := by
  unfold writeWord at h
  cases hread : readWord m n p with
  | error e =>
      rw [hread] at h
      cases h
  | ok u =>
      rw [hread] at h
      exact (Except.ok.inj h).symm

end Accesses

/-! ### Memory that is handed out -/

/--
What an allocation of `size` bytes gives, with addresses of `n` bytes: where the memory is,
and what happens to be in it.
-/
structure Area (n size : Nat) where
  addr : Nat
  content : Nat → Byte
  ne_null : addr ≠ 0
  /-- also the address behind it is one -/
  fits : addr + size < 256 ^ n

/-- The memory after the allocation. -/
def mapArea {n size : Nat} (m : Bytes) (area : Area n size) : Bytes := fun a =>
  if area.addr ≤ a ∧ a < area.addr + size then some (area.content (a - area.addr)) else m a

theorem mapArea_apart {n size : Nat} (m : Bytes) (area : Area n size) {a : Nat}
    (h : a < area.addr ∨ area.addr + size ≤ a) : mapArea m area a = m a := by
  unfold mapArea
  rw [if_neg (by omega)]

theorem mapArea_isSome {n size : Nat} (m : Bytes) (area : Area n size) {a : Nat}
    (hle : area.addr ≤ a) (hlt : a < area.addr + size) : (mapArea m area a).isSome := by
  unfold mapArea
  rw [if_pos ⟨hle, hlt⟩]
  rfl

end KvStore
