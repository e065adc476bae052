/-
Linked chains.

`next p` is the pointer stored at the address `p`, if there is one.  `ChainFrom next p qs`
says that from `p` on, `p` itself not counted, the pointers lead through exactly the
addresses `qs` and then to null.  A chain is never owned by its list: a proof that changes
a pointer says what the new `next` is, and gets the new chain from one of the rules below.
`LeadsThrough` is the same for a chain whose length is known and whose end is not, and `LeadsTo`
says where such a chain leads behind its last address.
-/
import KvStore.Base.Memory
import Mathlib.Data.List.Nodup

namespace KvStore

/-- The pointers from `p` on lead through `qs` and end in null. -/
def ChainFrom (next : Ptr → Option Ptr) : Ptr → List Ptr → Prop
  | p, [] => next p = some 0
  | p, q :: qs => next p = some q ∧ q ≠ 0 ∧ ChainFrom next q qs

namespace ChainFrom

variable {next next' : Ptr → Option Ptr} {p z : Ptr} {qs A B : List Ptr}

/-- The first pointer of a chain. -/
theorem first (h : ChainFrom next p qs) : next p = some (qs.headD 0) := by
  cases qs with
  | nil => exact h
  | cons q qs => exact h.1

/-- There is only one chain from an address. -/
theorem unique {qs' : List Ptr} (h : ChainFrom next p qs) (h' : ChainFrom next p qs') :
    qs = qs' := by
  induction qs generalizing p qs' with
  | nil =>
      cases qs' with
      | nil => rfl
      | cons q' qs' =>
          have hnull : some 0 = some q' := h.symm.trans h'.1
          exact absurd (Option.some.inj hnull).symm h'.2.1
  | cons q qs ih =>
      cases qs' with
      | nil =>
          have hnull : some q = some 0 := h.1.symm.trans h'
          exact absurd (Option.some.inj hnull) h.2.1
      | cons q' qs' =>
          obtain rfl : q = q' := Option.some.inj (h.1.symm.trans h'.1)
          rw [ih h.2.2 h'.2.2]

/-- A chain depends on its own addresses only. -/
theorem congr (h : ChainFrom next p qs) (hnext : ∀ q ∈ p :: qs, next' q = next q) :
    ChainFrom next' p qs := by
  induction qs generalizing p with
  | nil => exact (hnext p (by simp)).trans h
  | cons q qs ih =>
      refine ⟨(hnext p (by simp)).trans h.1, h.2.1, ih h.2.2 ?_⟩
      intro r hr
      exact hnext r (List.mem_cons_of_mem _ hr)

/-- The rest of a chain, from the last address of a front part on. -/
theorem drop (h : ChainFrom next p (A ++ B)) : ChainFrom next (A.getLastD p) B := by
  induction A generalizing p with
  | nil => exact h
  | cons a A ih =>
      rw [List.getLastD_cons]
      exact ih h.2.2

theorem getLastD_mem (p : Ptr) (A : List Ptr) : A.getLastD p ∈ p :: A := by
  induction A generalizing p with
  | nil => simp
  | cons a A ih =>
      rw [List.getLastD_cons]
      exact List.mem_cons_of_mem _ (ih a)

/--
A chain is changed behind its front part `A`: only the pointer of the last address of `A`
differs, and from there on it leads through `B`.
-/
theorem splice {C : List Ptr} (h : ChainFrom next p (A ++ C)) (hnd : (p :: A).Nodup)
    (hnext : ∀ q ∈ p :: A, q ≠ A.getLastD p → next' q = next q)
    (hrest : ChainFrom next' (A.getLastD p) B) : ChainFrom next' p (A ++ B) := by
  induction A generalizing p with
  | nil => exact hrest
  | cons a A ih =>
      rw [List.getLastD_cons] at hnext hrest
      have hpa : p ≠ A.getLastD a := by
        intro hc
        have hmem := getLastD_mem a A
        rw [← hc] at hmem
        exact (List.nodup_cons.mp hnd).1 hmem
      refine ⟨(hnext p (by simp) hpa).trans h.1, h.2.1, ?_⟩
      refine ih h.2.2 (List.nodup_cons.mp hnd).2 ?_ hrest
      intro q hq
      exact hnext q (List.mem_cons_of_mem _ hq)

/-- The same addresses, reached from another one with the same pointer. -/
theorem reroot {q : Ptr} (h : ChainFrom next p B) (hq : next' q = next p)
    (hnext : ∀ b ∈ B, next' b = next b) : ChainFrom next' q B := by
  cases B with
  | nil => exact hq.trans h
  | cons b B => exact ⟨hq.trans h.1, h.2.1, h.2.2.congr hnext⟩

theorem ne_getLastD {q : Ptr} (hnd : (p :: (A ++ B)).Nodup) (hq : q ∈ B) : q ≠ A.getLastD p := by
  rintro rfl
  rw [← List.cons_append, List.nodup_append] at hnd
  exact hnd.2.2 _ (getLastD_mem p A) _ hq rfl

/-- A new address is linked behind the front part of a chain. -/
theorem insert (h : ChainFrom next p (A ++ B)) (hnd : (p :: (A ++ B)).Nodup) (hz : z ≠ 0)
    (hnext : ∀ q ∈ p :: (A ++ B), q ≠ A.getLastD p → next' q = next q)
    (hlast : next' (A.getLastD p) = some z) (hnew : next' z = next (A.getLastD p)) :
    ChainFrom next' p (A ++ z :: B) := by
  refine h.splice (hnd.sublist (by simp)) (fun q hq => hnext q ?_)
    ⟨hlast, hz, h.drop.reroot hnew (fun b hb => hnext b (by simp [hb]) (ne_getLastD hnd hb))⟩
  simp only [List.mem_cons, List.mem_append] at hq ⊢
  tauto

/-- An address is unlinked from behind the front part of a chain. -/
theorem remove (h : ChainFrom next p (A ++ z :: B)) (hnd : (p :: (A ++ z :: B)).Nodup)
    (hnext : ∀ q ∈ p :: (A ++ B), q ≠ A.getLastD p → next' q = next q)
    (hlast : next' (A.getLastD p) = next z) : ChainFrom next' p (A ++ B) := by
  refine h.splice (hnd.sublist (by simp)) (fun q hq => hnext q ?_)
    (h.drop.2.2.reroot hlast (fun b hb => hnext b (by simp [hb])
      (ne_getLastD hnd (List.mem_cons_of_mem z hb))))
  simp only [List.mem_cons, List.mem_append] at hq ⊢
  tauto

end ChainFrom

/-! ### Chains that are counted

Whoever knows how many addresses to follow does not need the null at the end.
-/

/-- The pointers from `p` on, `p` itself counted, lead through `qs`, and then anywhere. -/
def LeadsThrough (next : Ptr → Option Ptr) : Ptr → List Ptr → Prop
  | _, [] => True
  | p, q :: qs => p = q ∧ ∃ r, next q = some r ∧ LeadsThrough next r qs

namespace LeadsThrough

variable {next next' : Ptr → Option Ptr} {p : Ptr} {qs : List Ptr}

/-- It depends on the pointers of these addresses only. -/
theorem congr (h : LeadsThrough next p qs) (hnext : ∀ q ∈ qs, next' q = next q) :
    LeadsThrough next' p qs := by
  induction qs generalizing p with
  | nil => trivial
  | cons q qs ih =>
      obtain ⟨rfl, r, hr, hrest⟩ := h
      refine ⟨rfl, r, (hnext p (by simp)).trans hr, ih hrest ?_⟩
      intro q' hq'
      exact hnext q' (List.mem_cons_of_mem p hq')

end LeadsThrough

/-- The pointers from `p` on, `p` itself counted, lead through `qs`, and then to `r`. -/
def LeadsTo (next : Ptr → Option Ptr) : Ptr → List Ptr → Ptr → Prop
  | p, [], r => p = r
  | p, q :: qs, r => p = q ∧ ∃ p', next q = some p' ∧ LeadsTo next p' qs r

namespace LeadsTo

variable {next : Ptr → Option Ptr} {p r : Ptr} {qs : List Ptr}

theorem leadsThrough (h : LeadsTo next p qs r) : LeadsThrough next p qs := by
  induction qs generalizing p with
  | nil => trivial
  | cons q qs ih =>
      obtain ⟨hq, p', hp', hrest⟩ := h
      exact ⟨hq, p', hp', ih hrest⟩

/-- Following the pointers equally often leads to the same address. -/
theorem unique {qs' : List Ptr} {r' : Ptr} (h : LeadsTo next p qs r) (h' : LeadsTo next p qs' r')
    (hlength : qs.length = qs'.length) : qs = qs' ∧ r = r' := by
  induction qs generalizing p qs' with
  | nil =>
      cases qs' with
      | nil => exact ⟨rfl, h.symm.trans h'⟩
      | cons q' qs' => cases hlength
  | cons q qs ih =>
      cases qs' with
      | nil => cases hlength
      | cons q' qs' =>
          obtain ⟨rfl, p₁, hp₁, hrest⟩ := h
          obtain ⟨rfl, p₂, hp₂, hrest'⟩ := h'
          obtain rfl := Option.some.inj (hp₁.symm.trans hp₂)
          obtain ⟨rfl, rfl⟩ := ih hrest hrest' (Nat.succ.inj hlength)
          exact ⟨rfl, rfl⟩

/-- Addresses at equal distances, each with a pointer to the next. -/
theorem range' {p n d : Nat} {next : Nat → Option Nat}
    (h : ∀ i, i < n → next (p + d * i) = some (p + d * (i + 1))) :
    LeadsTo next p (List.range' p n d) (p + d * n) := by
  induction n generalizing p with
  | zero => rfl
  | succ n ih =>
      have hfirst : next p = some (p + d) := by simpa using h 0 (Nat.succ_pos n)
      have hlast : p + d * (n + 1) = p + d + d * n := by
        rw [Nat.mul_add, Nat.mul_one, Nat.add_comm _ d, ← Nat.add_assoc]
      rw [hlast]
      refine ⟨rfl, p + d, hfirst, ih ?_⟩
      intro i hi
      have hnext := h (i + 1) (by omega)
      rw [Nat.mul_add, Nat.mul_one, Nat.add_comm _ d, ← Nat.add_assoc] at hnext
      rw [hnext, Nat.mul_add d (i + 1), Nat.mul_one, Nat.add_comm _ d, ← Nat.add_assoc]

end LeadsTo

end KvStore
