/-
Tables of chains in memory.

`heads` are pointers to objects that each point to the next one, and `chains` are the addresses
that they lead to.  No address is on two chains or twice on one, and every object that is
allocated is on a chain, so `Buckets` says also that no object is leaked.  An operation changes
one chain: `Buckets.replace` is the rule for all of them, and from it come the rules for an
object that is linked in front and for one that is unlinked.
-/
import KvStore.Base.Chain
import KvStore.Base.Table
import Mathlib.Data.List.Lattice

namespace KvStore

/-! ### Counting what is allocated -/

/-- The memory has so many objects. -/
def Mem.Has {α : Type} (m : Mem α) (k : Nat) : Prop :=
  ∃ ps : List Ptr, ps.Nodup ∧ (∀ p, m.cells p ≠ none ↔ p ∈ ps) ∧ ps.length = k

theorem Mem.cells_ne_none {α : Type} {m : Mem α} {p : Ptr} :
    m.cells p ≠ none ↔ ∃ v, m.cells p = some v := Option.ne_none_iff_exists'

theorem Mem.Has.empty_iff {α : Type} {m : Mem α} {k : Nat} (h : m.Has k) :
    (∀ p, m.cells p = none) ↔ k = 0 := by
  obtain ⟨ps, -, hall, rfl⟩ := h
  rw [List.length_eq_zero_iff, List.eq_nil_iff_forall_not_mem]
  exact forall_congr' fun p => (not_iff_not.mpr (hall p)).symm.trans not_not |>.symm

/-! ### Ways -/

namespace LeadsTo

variable {next next' : Ptr → Option Ptr} {p r r' : Ptr} {A B qs : List Ptr}

/-- It depends on the pointers of these addresses only. -/
theorem congr (h : LeadsTo next p qs r) (hnext : ∀ q ∈ qs, next' q = next q) :
    LeadsTo next' p qs r := by
  induction qs generalizing p with
  | nil => exact h
  | cons q qs ih =>
      obtain ⟨rfl, p', hp', hrest⟩ := h
      refine ⟨rfl, p', (hnext p (by simp)).trans hp', ih hrest ?_⟩
      intro q' hq'
      exact hnext q' (List.mem_cons_of_mem p hq')

theorem append_iff : LeadsTo next p (A ++ B) r ↔ ∃ q, LeadsTo next p A q ∧ LeadsTo next q B r := by
  induction A generalizing p with
  | nil => exact ⟨fun h => ⟨p, rfl, h⟩, fun ⟨q, hq, h⟩ => by cases hq; exact h⟩
  | cons a A ih =>
      constructor
      · rintro ⟨rfl, p', hp', hrest⟩
        obtain ⟨q, hA, hB⟩ := ih.mp hrest
        exact ⟨q, ⟨rfl, p', hp', hA⟩, hB⟩
      · rintro ⟨q, ⟨rfl, p', hp', hA⟩, hB⟩
        exact ⟨rfl, p', hp', ih.mpr ⟨q, hA, hB⟩⟩

/-- Every address on the way has a pointer. -/
theorem some_of_mem (h : LeadsTo next p qs r) {q : Ptr} (hq : q ∈ qs) : ∃ p', next q = some p' := by
  induction qs generalizing p with
  | nil => cases hq
  | cons q' qs ih =>
      obtain ⟨rfl, p', hp', hrest⟩ := h
      rcases List.mem_cons.mp hq with rfl | hq
      · exact ⟨p', hp'⟩
      · exact ih hrest hq

/-- The last pointer of a way is changed. -/
theorem redirect {a : Ptr} (h : LeadsTo next p (A ++ [a]) r) (ha : a ∉ A)
    (hother : ∀ q ∈ A, next' q = next q) (hlast : next' a = some r') :
    LeadsTo next' p (A ++ [a]) r' := by
  obtain ⟨q, hA, rfl, p', -, -⟩ := append_iff.mp h
  exact append_iff.mpr ⟨q, hA.congr hother, rfl, r', hlast, rfl⟩

end LeadsTo

/-! ### Tables -/

section Memory

variable {α : Type} {n : Nat} (next : α → Ptr)

/-- The pointer in the object at an address. -/
def pointerAt (m : Mem α) (p : Ptr) : Option Ptr := (m.cells p).map next

structure Buckets (m : Mem α) (heads : Vector Ptr n) (chains : Vector (List Ptr) n) : Prop where
  chain : ∀ i, ∀ hi : i < n, LeadsTo (pointerAt next m) heads[i] chains[i] 0
  nodup : ∀ i, ∀ hi : i < n, chains[i].Nodup
  disjoint : ∀ i j, ∀ hi : i < n, ∀ hj : j < n, i ≠ j → ∀ p ∈ chains[i], p ∉ chains[j]
  all : ∀ p v, m.cells p = some v → ∃ i, ∃ hi : i < n, p ∈ chains[i]

variable {next} {m m' : Mem α} {heads heads' : Vector Ptr n} {chains : Vector (List Ptr) n}

theorem pointerAt_some {p : Ptr} {v : α} (h : m.cells p = some v) :
    pointerAt next m p = some (next v) := congrArg (Option.map next) h

theorem pointerAt_congr {p : Ptr} (h : m'.cells p = m.cells p) :
    pointerAt next m' p = pointerAt next m p := congrArg (Option.map next) h

namespace Buckets

/-- Null pointers, and nothing allocated. -/
theorem empty :
    Buckets next (Mem.empty : Mem α) (Vector.replicate n 0) (Vector.replicate n []) := by
  refine ⟨?_, ?_, ?_, ?_⟩
  · intro i hi
    rw [Vector.getElem_replicate, Vector.getElem_replicate]
    rfl
  · intro i hi
    rw [Vector.getElem_replicate]
    exact List.nodup_nil
  · intro i j hi hj _ p hp
    rw [Vector.getElem_replicate] at hp
    cases hp
  · intro p v hv
    cases hv

/-- What is on a chain is allocated. -/
theorem cell (h : Buckets next m heads chains) {i : Nat} {hi : i < n} {p : Ptr}
    (hp : p ∈ chains[i]) : ∃ v, m.cells p = some v := by
  obtain ⟨q, hq⟩ := (h.chain i hi).some_of_mem hp
  obtain ⟨v, hv, -⟩ := Option.map_eq_some_iff.mp hq
  exact ⟨v, hv⟩

/-- It depends on the objects only. -/
theorem congr (h : Buckets next m heads chains) (hcells : ∀ p, m'.cells p = m.cells p) :
    Buckets next m' heads chains := by
  refine ⟨fun i hi => (h.chain i hi).congr fun q _ => pointerAt_congr (hcells q), h.nodup,
    h.disjoint, ?_⟩
  intro p v hv
  exact h.all p v ((hcells p).symm.trans hv)

/-- No chain is longer than there are addresses. -/
theorem length_le (h : Buckets next m heads chains) {i : Nat} (hi : i < n) :
    chains[i].length ≤ m.next :=
  Mem.length_le_next (h.nodup i hi) fun _ hq => h.cell hq

/--
**One chain is replaced**: its addresses are old ones of this chain or were not allocated, those
that are not on it any more are given back, and nothing else is changed.
-/
theorem replace (h : Buckets next m heads chains) {i : Nat} (hi : i < n) {ps : List Ptr}
    (hheads : ∀ j, ∀ hj : j < n, j ≠ i → heads'[j] = heads[j])
    (hother : ∀ p, p ∉ chains[i] → p ∉ ps → m'.cells p = m.cells p)
    (hchain : LeadsTo (pointerAt next m') heads'[i] ps 0) (hnodup : ps.Nodup)
    (hnew : ∀ p ∈ ps, p ∈ chains[i] ∨ m.cells p = none)
    (hgone : ∀ p ∈ chains[i], p ∉ ps → m'.cells p = none) :
    Buckets next m' heads' (chains.set i ps) := by
  -- The other chains have none of these addresses.
  have hapart : ∀ j, ∀ hj : j < n, j ≠ i → ∀ p ∈ chains[j], p ∉ chains[i] ∧ p ∉ ps := by
    intro j hj hne p hp
    have hnot := h.disjoint j i hj hi hne p hp
    refine ⟨hnot, fun hps => ?_⟩
    rcases hnew p hps with hold | hnone
    · exact hnot hold
    · obtain ⟨v, hv⟩ := h.cell hp
      rw [hnone] at hv
      cases hv
  have hset : ∀ j, ∀ hj : j < n, j ≠ i → (chains.set i ps)[j] = chains[j] :=
    fun j hj hne => Vector.getElem_set_ne hi hj hne.symm
  refine ⟨?_, ?_, ?_, ?_⟩
  · intro j hj
    by_cases hne : j = i
    · subst hne
      rw [Vector.getElem_set_self]
      exact hchain
    · rw [hset j hj hne, hheads j hj hne]
      refine (h.chain j hj).congr fun q hq => pointerAt_congr ?_
      exact hother q (hapart j hj hne q hq).1 (hapart j hj hne q hq).2
  · intro j hj
    by_cases hne : j = i
    · subst hne
      rw [Vector.getElem_set_self]
      exact hnodup
    · rw [hset j hj hne]
      exact h.nodup j hj
  · intro j k hj hk hjk p hp
    by_cases hji : j = i
    · subst hji
      rw [Vector.getElem_set_self] at hp
      rw [hset k hk hjk.symm]
      exact fun hc => (hapart k hk hjk.symm p hc).2 hp
    · rw [hset j hj hji] at hp
      by_cases hki : k = i
      · subst hki
        rw [Vector.getElem_set_self]
        exact (hapart j hj hji p hp).2
      · rw [hset k hk hki]
        exact h.disjoint j k hj hk hjk p hp
  · intro p v hv
    by_cases hps : p ∈ ps
    · exact ⟨i, hi, by rwa [Vector.getElem_set_self]⟩
    · have hold : p ∉ chains[i] := by
        intro hc
        rw [hgone p hc hps] at hv
        cases hv
      rw [hother p hold hps] at hv
      obtain ⟨j, hj, hp⟩ := h.all p v hv
      have hne : j ≠ i := by
        rintro rfl
        exact hold hp
      exact ⟨j, hj, by rwa [hset j hj hne]⟩

/-- A new object is linked in front of a chain. -/
theorem push (h : Buckets next m heads chains) {i : Nat} (hi : i < n) {v : α}
    (hv : next v = heads[i]) :
    Buckets next (m.alloc v) (heads.set i m.next) (chains.set i (m.next :: chains[i])) := by
  have hfresh : m.cells m.next = none := m.fresh m.next (Nat.le_refl _)
  have hnot : m.next ∉ chains[i] := by
    intro hc
    obtain ⟨u, hu⟩ := h.cell hc
    rw [hfresh] at hu
    cases hu
  refine h.replace hi ?_ ?_ ?_ (List.nodup_cons.mpr ⟨hnot, h.nodup i hi⟩) ?_ ?_
  · exact fun j hj hne => Vector.getElem_set_ne hi hj hne.symm
  · intro p _ hp
    exact Mem.alloc_of_ne m (fun hc => hp (by rw [hc]; simp)) v
  · rw [Vector.getElem_set_self]
    refine ⟨rfl, heads[i], ?_, (h.chain i hi).congr fun q hq => pointerAt_congr ?_⟩
    · rw [pointerAt_some (Mem.alloc_self m v), hv]
    · exact Mem.alloc_of_ne m (fun hc => hnot (hc ▸ hq)) v
  · intro p hp
    rcases List.mem_cons.mp hp with rfl | hp
    · exact Or.inr hfresh
    · exact Or.inl hp
  · intro p hp hnot'
    exact absurd (List.mem_cons_of_mem _ hp) hnot'

/-- The first object of a chain is unlinked and given back. -/
theorem unlink_first (h : Buckets next m heads chains) {i : Nat} (hi : i < n) {z : Ptr}
    {B : List Ptr} (hsplit : chains[i] = z :: B) {v : α} (hz : m.cells z = some v) :
    Buckets next (m.release z) (heads.set i (next v)) (chains.set i B) := by
  have hnd := h.nodup i hi
  have hchain := h.chain i hi
  rw [hsplit] at hnd hchain
  obtain ⟨hnot, hndB⟩ := List.nodup_cons.mp hnd
  obtain ⟨-, p', hp', hrest⟩ := hchain
  rw [pointerAt_some hz] at hp'
  cases hp'
  refine h.replace hi ?_ ?_ ?_ hndB ?_ ?_
  · exact fun j hj hne => Vector.getElem_set_ne hi hj hne.symm
  · intro p hp _
    exact Mem.release_of_ne m fun hc => hp (by rw [hsplit, hc]; simp)
  · rw [Vector.getElem_set_self]
    refine hrest.congr fun q hq => pointerAt_congr ?_
    exact Mem.release_of_ne m fun hc => hnot (hc ▸ hq)
  · intro p hp
    exact Or.inl (by rw [hsplit]; exact List.mem_cons_of_mem z hp)
  · intro p hp hnot'
    rw [hsplit] at hp
    rcases List.mem_cons.mp hp with rfl | hp
    · exact Mem.release_self m p
    · exact absurd hp hnot'

/-- An object behind another one is unlinked and given back. -/
theorem unlink_behind (h : Buckets next m heads chains) {i : Nat} (hi : i < n) {a z : Ptr}
    {A B : List Ptr} (hsplit : chains[i] = A ++ [a] ++ z :: B) {u u' v : α}
    (ha : m.cells a = some u) (hz : m.cells z = some v) (hu : next u' = next v) :
    Buckets next ((m.write a u').release z) heads (chains.set i (A ++ [a] ++ B)) := by
  have hnd := h.nodup i hi
  have hchain := h.chain i hi
  rw [hsplit] at hnd hchain
  obtain ⟨q, hA, rfl, p', hp', hB⟩ := LeadsTo.append_iff.mp hchain
  rw [pointerAt_some hz] at hp'
  cases hp'
  obtain ⟨hndA, hndB, hdisj⟩ := List.nodup_append.mp hnd
  obtain ⟨hzB, hndB'⟩ := List.nodup_cons.mp hndB
  have haA : a ∉ A := fun hc => (List.nodup_append.mp hndA).2.2 a hc a (by simp) rfl
  have hne : ∀ p ∈ A ++ [a] ++ B, p ≠ q := by
    intro p hp
    rcases List.mem_append.mp hp with hp | hp
    · exact hdisj p hp q (by simp)
    · exact fun hc => hzB (hc ▸ hp)
  have haq : a ≠ q := hne a (by simp)
  have hsame : ∀ p ∈ A ++ [a] ++ B, p ≠ a → ((m.write a u').release q).cells p = m.cells p := by
    intro p hp hpa
    rw [Mem.release_of_ne _ (hne p hp), Mem.write_of_ne m hpa]
  refine h.replace hi (fun _ _ _ => rfl) ?_ ?_ (hnd.sublist (by simp)) ?_ ?_
  · intro p hp _
    rw [hsplit] at hp
    rw [Mem.release_of_ne _ (fun hc => hp (by rw [hc]; simp)),
      Mem.write_of_ne m (fun hc => hp (by rw [hc]; simp))]
  · refine LeadsTo.append_iff.mpr ⟨next v, hA.redirect haA ?_ ?_, hB.congr ?_⟩
    · intro p hp
      exact pointerAt_congr (hsame p (by simp [hp]) fun hc => haA (hc ▸ hp))
    · have hcell : ((m.write a u').release q).cells a = some u' := by
        rw [Mem.release_of_ne _ haq, Mem.write_self ha]
      rw [pointerAt_some hcell, hu]
    · intro p hp
      refine pointerAt_congr (hsame p (by simp [hp]) fun hc => ?_)
      exact hdisj a (by simp) p (List.mem_cons_of_mem q hp) hc.symm
  · intro p hp
    refine Or.inl ?_
    rw [hsplit]
    simp only [List.mem_append, List.mem_cons] at hp ⊢
    tauto
  · intro p hp hnot
    rw [hsplit] at hp
    have hpq : p = q := by
      simp only [List.mem_append, List.mem_cons] at hp hnot
      tauto
    rw [hpq]
    exact Mem.release_self _ q

/-- The objects of a table of chains are those of its chains. -/
theorem has (h : Buckets next m heads chains) :
    chains.toList.flatten.Nodup ∧ ∀ p, m.cells p ≠ none ↔ p ∈ chains.toList.flatten := by
  constructor
  · rw [List.nodup_flatten]
    constructor
    · intro c hc
      obtain ⟨i, hi, rfl⟩ := exists_slot hc
      exact h.nodup i hi
    · refine List.pairwise_iff_getElem.mpr fun i j hi hj hij => ?_
      rw [Vector.length_toList] at hi hj
      rw [List.disjoint_left]
      intro p hp
      rw [Vector.getElem_toList] at hp ⊢
      exact h.disjoint i j hi hj (Nat.ne_of_lt hij) p hp
  · intro p
    rw [Mem.cells_ne_none, List.mem_flatten]
    constructor
    · rintro ⟨v, hv⟩
      obtain ⟨i, hi, hp⟩ := h.all p v hv
      exact ⟨_, by simp, hp⟩
    · rintro ⟨c, hc, hp⟩
      obtain ⟨i, hi, rfl⟩ := exists_slot hc
      exact h.cell hp

end Buckets

end Memory

end KvStore
