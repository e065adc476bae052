/-
C strings in memory.

A `CString` is what a `char *` argument denotes: bytes without a NUL.  Memory is a
list of bytes starting at the pointer, and it `Reads` as a string when the string
and a NUL are in front of it, whatever follows.  The `<string.h>` functions work
on memory, not on strings, so that a buffer without a terminator is read on past
its end or faults rather than silently being a shorter string.

The order of `CString` is the one `strcmp` decides: lexicographic in the bytes
taken as unsigned numbers, which is what `strcmp_spec` says.
-/
import KvStore.Base.Prog
import Mathlib.Data.List.Lex
import Mathlib.Data.List.TakeWhile
import Mathlib.Order.Lattice

namespace KvStore

abbrev Byte := UInt8

/-- A string as C sees it: any bytes but NUL. -/
structure CString where
  bytes : List Byte
  nonzero : (0 : Byte) ∉ bytes
  deriving DecidableEq

namespace CString

@[ext] theorem ext {a b : CString} (h : a.bytes = b.bytes) : a = b := by
  cases a; cases b; cases h; rfl

def empty : CString := ⟨[], by simp⟩

def length (s : CString) : Nat := s.bytes.length

/-- The bytes as numbers, which is what `strcmp` compares. -/
def codes (s : CString) : List Nat := s.bytes.map UInt8.toNat

theorem codes_injective : Function.Injective codes := by
  intro a b h
  refine ext (List.map_injective_iff.mpr ?_ h)
  intro x y hxy
  exact UInt8.toNat_inj.mp hxy

instance : LinearOrder CString := LinearOrder.lift' codes codes_injective

/-- The string and its terminator, as they lie in memory. -/
def mem (s : CString) : List Byte := s.bytes ++ [0]

end CString

/-- The memory `m` starts with the string `s` and its terminator. -/
def Reads (m : List Byte) (s : CString) : Prop := ∃ rest, m = s.bytes ++ 0 :: rest

theorem CString.reads_mem (s : CString) : Reads s.mem s := ⟨[], rfl⟩

theorem Reads.append {m : List Byte} {s : CString} (h : Reads m s) (m' : List Byte) :
    Reads (m ++ m') s := by
  obtain ⟨rest, rfl⟩ := h
  exact ⟨rest ++ m', by simp⟩

/-- A string shorter than a first part is already read from that part. -/
theorem Reads.of_append {m m' : List Byte} {s : CString} (h : Reads (m ++ m') s)
    (hlen : s.length < m.length) : Reads m s := by
  obtain ⟨rest, hm⟩ := h
  rcases List.append_eq_append_iff.mp hm with ⟨a, ha, -⟩ | ⟨a, ha, hrest⟩
  · have hle : m.length ≤ s.length := by
      rw [CString.length, ha, List.length_append]
      omega
    omega
  · cases a with
    | nil =>
        rw [List.append_nil] at ha
        rw [ha] at hlen
        exact absurd hlen (Nat.lt_irrefl _)
    | cons b a =>
        obtain rfl : 0 = b := (List.cons.inj hrest).1
        exact ⟨a, ha⟩

/-! ### Reading a string -/

/-- The string a pointer to the memory `m` denotes. -/
def cstr (m : List Byte) : Except Fault CString :=
  if 0 ∈ m then
    .ok ⟨m.takeWhile (· ≠ 0), fun h => by simpa using List.mem_takeWhile_imp h⟩
  else .error .overrun

theorem takeWhile_reads {m : List Byte} {s : CString} (h : Reads m s) :
    m.takeWhile (· ≠ 0) = s.bytes := by
  obtain ⟨rest, rfl⟩ := h
  have hall : ∀ b ∈ s.bytes, decide (b ≠ 0) = true := by
    intro b hb
    simp only [ne_eq, decide_not, Bool.not_eq_true', decide_eq_false_iff_not]
    intro h0
    exact s.nonzero (by rw [← h0]; exact hb)
  rw [List.takeWhile_append_of_pos hall]
  simp

theorem cstr_of_reads {m : List Byte} {s : CString} (h : Reads m s) : cstr m = .ok s := by
  have hmem : (0 : Byte) ∈ m := by
    obtain ⟨rest, rfl⟩ := h
    simp
  unfold cstr
  rw [if_pos hmem]
  congr 1
  exact CString.ext (takeWhile_reads h)

theorem Reads.unique {m : List Byte} {s s' : CString} (h : Reads m s) (h' : Reads m s') :
    s = s' :=
  CString.ext ((takeWhile_reads h).symm.trans (takeWhile_reads h'))

/-! ### Comparing strings -/

/-- `strcmp`: the difference of the first bytes that differ, or 0 at a common NUL. -/
def strcmp : List Byte → List Byte → Except Fault Int
  | x :: xs, y :: ys =>
      if x ≠ y then .ok (x.toNat - y.toNat)
      else if x = 0 then .ok 0
      else strcmp xs ys
  | _, _ => .error .overrun

/-- What the sign of `strcmp` says about two byte strings in front of their NULs. -/
private theorem strcmp_bytes (xs ys r₁ r₂ : List Byte) (hx : (0 : Byte) ∉ xs)
    (hy : (0 : Byte) ∉ ys) :
    ∃ r, strcmp (xs ++ 0 :: r₁) (ys ++ 0 :: r₂) = .ok r ∧
      (r < 0 ↔ xs.map UInt8.toNat < ys.map UInt8.toNat) ∧ (r = 0 ↔ xs = ys) := by
  have hpos : ∀ b : Byte, b ≠ 0 → 0 < b.toNat := by
    intro b hb
    rcases Nat.eq_zero_or_pos b.toNat with h0 | h0
    · exact absurd (UInt8.toNat_inj.mp (h0.trans UInt8.toNat_zero.symm)) hb
    · exact h0
  -- The induction follows `strcmp`: it consumes both strings together.
  induction xs generalizing ys with
  | nil =>
      cases ys with
      | nil => exact ⟨0, by simp [strcmp], by simp, by simp⟩
      | cons y ys =>
          have hy0 : y ≠ 0 := fun h => hy (by simp [h])
          have := hpos y hy0
          refine ⟨-(y.toNat : Int), ?_, ?_, ?_⟩
          · simp [strcmp, Ne.symm hy0]
          · simp; omega
          · simp; omega
  | cons x xs ih =>
      have hx0 : x ≠ 0 := fun h => hx (by simp [h])
      have hxpos := hpos x hx0
      cases ys with
      | nil =>
          refine ⟨x.toNat, ?_, ?_, ?_⟩
          · simp [strcmp, hx0]
          · simp
          · simp; omega
      | cons y ys =>
          by_cases hxy : x = y
          · subst hxy
            obtain ⟨r, hr, hlt, heq⟩ :=
              ih ys (fun h => hx (by simp [h])) (fun h => hy (by simp [h]))
            refine ⟨r, ?_, ?_, ?_⟩
            · simp only [List.cons_append, strcmp, ne_eq, not_true_eq_false, if_false, if_neg hx0]
              exact hr
            · rw [hlt, List.map_cons, List.map_cons, List.cons_lt_cons_iff]
              simp
            · simpa using heq
          · have hne : x.toNat ≠ y.toNat := fun h => hxy (UInt8.toNat_inj.mp h)
            refine ⟨x.toNat - y.toNat, ?_, ?_, ?_⟩
            · simp [strcmp, hxy]
            · rw [List.map_cons, List.map_cons, List.cons_lt_cons_iff]
              simp only [hne, false_and, or_false]
              omega
            · simp only [List.cons.injEq, hxy, false_and, iff_false]
              omega

/-- **`strcmp` decides the order of `CString`.** -/
theorem strcmp_spec {m₁ m₂ : List Byte} {a b : CString} (h₁ : Reads m₁ a) (h₂ : Reads m₂ b) :
    ∃ r, strcmp m₁ m₂ = .ok r ∧ (r < 0 ↔ a < b) ∧ (r = 0 ↔ a = b) := by
  obtain ⟨r₁, rfl⟩ := h₁
  obtain ⟨r₂, rfl⟩ := h₂
  obtain ⟨r, hr, hlt, heq⟩ := strcmp_bytes a.bytes b.bytes r₁ r₂ a.nonzero b.nonzero
  exact ⟨r, hr, hlt, heq.trans (CString.ext_iff.symm)⟩

/-- The only fault of `strcmp` is to read past the end of a string. -/
theorem strcmp_ne_error {e : Fault} (he : e ≠ .overrun) (m m' : List Byte) :
    strcmp m m' ≠ .error e := by
  have hend : (.error .overrun : Except Fault Int) ≠ .error e :=
    fun h => he (Except.error.inj h).symm
  induction m generalizing m' with
  | nil => exact hend
  | cons x xs ih =>
      cases m' with
      | nil => exact hend
      | cons y ys =>
          unfold strcmp
          by_cases hxy : x ≠ y
          · rw [if_pos hxy]
            exact fun h => by cases h
          · rw [if_neg hxy]
            by_cases hx : x = 0
            · rw [if_pos hx]
              exact fun h => by cases h
            · rw [if_neg hx]
              exact ih ys

/-! ### Copying into a fixed buffer -/

/-- A `char` array of `n` bytes. -/
abbrev CharBuf (n : Nat) := {bytes : List Byte // bytes.length = n}

/-- The `n` bytes `strncpy` writes: the source up to its NUL, padded with NULs. -/
def fillBuf : Nat → List Byte → List Byte
  | 0, _ => []
  | n + 1, [] => List.replicate (n + 1) 0
  | n + 1, b :: src => if b = 0 then List.replicate (n + 1) 0 else b :: fillBuf n src

theorem length_fillBuf (n : Nat) (src : List Byte) : (fillBuf n src).length = n := by
  induction n generalizing src with
  | zero => rfl
  | succ n ih =>
      cases src with
      | nil => simp [fillBuf]
      | cons b src =>
          by_cases hb : b = 0
          · simp [fillBuf, hb]
          · simp [fillBuf, hb, ih]

/-- `strncpy` into an array of `n` bytes from the string or the array of `n` bytes `src`. -/
def strncpy (n : Nat) (src : List Byte) : CharBuf n := ⟨fillBuf n src, length_fillBuf n src⟩

/-- An array of `n` NULs, as `memset` leaves it. -/
def zeroBuf (n : Nat) : CharBuf n := ⟨List.replicate n 0, by simp⟩

theorem fillBuf_short {n : Nat} {src : List Byte} (h0 : (0 : Byte) ∉ src) (h : src.length ≤ n) :
    fillBuf n src = src ++ List.replicate (n - src.length) 0 := by
  induction src generalizing n with
  | nil => cases n <;> simp [fillBuf]
  | cons b src ih =>
      cases n with
      | zero => simp at h
      | succ n =>
          have hb : b ≠ 0 := fun hb => h0 (by simp [hb])
          unfold fillBuf
          rw [if_neg hb, ih (fun hc => h0 (by simp [hc])) (by simpa using h)]
          simp

/-- A string that leaves room for its terminator is read back from the buffer. -/
theorem reads_strncpy {n : Nat} {s : CString} (h : s.length < n) :
    Reads (strncpy n s.bytes).val s := by
  refine ⟨List.replicate (n - s.length - 1) 0, ?_⟩
  show fillBuf n s.bytes = _
  rw [fillBuf_short s.nonzero (Nat.le_of_lt h)]
  congr 1
  rw [← List.replicate_succ]
  congr 1
  simp only [CString.length] at h ⊢
  omega

/-- Copying a buffer that `strncpy` filled copies it exactly. -/
theorem fillBuf_fillBuf (n : Nat) (src : List Byte) :
    fillBuf n (fillBuf n src) = fillBuf n src := by
  induction n generalizing src with
  | zero => rfl
  | succ n ih =>
      cases src with
      | nil => simp [fillBuf, List.replicate_succ]
      | cons b src =>
          by_cases hb : b = 0
          · simp [fillBuf, hb, List.replicate_succ]
          · simp [fillBuf, hb, ih]

theorem strncpy_strncpy (n : Nat) (src : List Byte) :
    strncpy n (strncpy n src).val = strncpy n src :=
  Subtype.ext (fillBuf_fillBuf n src)

end KvStore
