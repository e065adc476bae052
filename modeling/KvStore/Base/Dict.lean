/-
Lists of pairs as finite maps.

A data structure that stores key-value pairs lists them in some order.  `Holds l m`
says that the list `l` of pairs, no key twice, is the finite map `m`; the order does
not matter (`Holds.perm`).  Adding a pair with a new key, removing a pair wherever it
is and replacing its value are then the operations of the map.
-/
import Mathlib.Data.Finmap

namespace KvStore

/-- A finite map from keys to values. -/
abbrev Dict (κ ν : Type) := Finmap fun _ : κ => ν

section Card

variable {κ ν : Type} [DecidableEq κ] {m : Dict κ ν} {k : κ}

theorem keys_insert (v : ν) : (m.insert k v).keys = insert k m.keys := by
  ext k'
  rw [Finmap.mem_keys, Finmap.mem_insert, Finset.mem_insert, Finmap.mem_keys]

theorem card_insert_new (hk : k ∉ m) (v : ν) : (m.insert k v).keys.card = m.keys.card + 1 := by
  rw [keys_insert, Finset.card_insert_of_notMem (fun hc => hk (Finmap.mem_keys.mp hc))]

theorem card_erase_stored (hk : k ∈ m) : (m.erase k).keys.card + 1 = m.keys.card := by
  rw [Finmap.keys_erase]
  exact Finset.card_erase_add_one (Finmap.mem_keys.mpr hk)

theorem erase_absent (hk : k ∉ m) : m.erase k = m := by
  refine Finmap.ext_lookup fun k' => ?_
  by_cases hkk : k' = k
  · rw [hkk, Finmap.lookup_erase, Finmap.lookup_eq_none.mpr hk]
  · rw [Finmap.lookup_erase_ne hkk]

theorem insert_erase (v : ν) : (m.erase k).insert k v = m.insert k v := by
  refine Finmap.ext_lookup fun k' => ?_
  by_cases hkk : k' = k
  · rw [hkk, Finmap.lookup_insert, Finmap.lookup_insert]
  · rw [Finmap.lookup_insert_of_ne _ hkk, Finmap.lookup_insert_of_ne _ hkk,
      Finmap.lookup_erase_ne hkk]

end Card

section Holds

variable {κ ν : Type} [DecidableEq κ]

/-- The pairs of `l` are those of `m`, each once. -/
structure Holds (l : List (κ × ν)) (m : Dict κ ν) : Prop where
  nodup : (l.map Prod.fst).Nodup
  lookup : ∀ k v, (k, v) ∈ l ↔ m.lookup k = some v

namespace Holds

variable {l A B : List (κ × ν)} {m : Dict κ ν} {k : κ} {v : ν}

theorem nil : Holds ([] : List (κ × ν)) ∅ := by
  refine ⟨List.nodup_nil, ?_⟩
  intro k v
  simp

theorem perm {l' : List (κ × ν)} (h : Holds l m) (hp : l.Perm l') : Holds l' m := by
  refine ⟨(hp.map _).nodup_iff.mp h.nodup, ?_⟩
  intro k v
  rw [← hp.mem_iff, h.lookup]

theorem mem_iff (h : Holds l m) (k : κ) : k ∈ m ↔ k ∈ l.map Prod.fst := by
  rw [Finmap.mem_iff, List.mem_map]
  constructor
  · rintro ⟨v, hv⟩
    exact ⟨(k, v), (h.lookup k v).mpr hv, rfl⟩
  · rintro ⟨⟨k', v⟩, hmem, rfl⟩
    exact ⟨v, (h.lookup k' v).mp hmem⟩

theorem notMem_iff (h : Holds l m) (k : κ) : k ∉ m ↔ ∀ p ∈ l, p.1 ≠ k := by
  rw [h.mem_iff, List.mem_map, not_exists]
  simp only [not_and]

/-- The map has as many keys as the list has pairs. -/
theorem card (h : Holds l m) : m.keys.card = l.length := by
  have hkeys : m.keys = (l.map Prod.fst).toFinset := by
    ext k
    rw [Finmap.mem_keys, h.mem_iff, List.mem_toFinset]
  rw [hkeys, List.toFinset_card_of_nodup h.nodup, List.length_map]

/-- A pair with a new key is added. -/
theorem insert (h : Holds l m) (hk : k ∉ m) (v : ν) : Holds ((k, v) :: l) (m.insert k v) := by
  refine ⟨?_, ?_⟩
  · rw [List.map_cons, List.nodup_cons]
    exact ⟨fun hc => hk ((h.mem_iff k).mpr hc), h.nodup⟩
  · intro k' v'
    rw [List.mem_cons, Prod.mk.injEq]
    by_cases hkk : k' = k
    · subst hkk
      rw [Finmap.lookup_insert, h.lookup, Finmap.lookup_eq_none.mpr hk]
      simp [eq_comm]
    · rw [Finmap.lookup_insert_of_ne _ hkk, h.lookup]
      simp [hkk]

/-- No other pair has the key of a pair in the middle. -/
theorem notMem_rest (h : Holds (A ++ (k, v) :: B) m) : ∀ p ∈ A ++ B, p.1 ≠ k := by
  have hnd := h.nodup
  rw [List.map_append, List.map_cons, List.nodup_middle, ← List.map_append] at hnd
  intro p hp hpk
  exact (List.nodup_cons.mp hnd).1 (List.mem_map.mpr ⟨p, hp, hpk⟩)

/-- A pair in the middle is removed. -/
theorem erase (h : Holds (A ++ (k, v) :: B) m) : Holds (A ++ B) (m.erase k) := by
  have hrest := h.notMem_rest
  refine ⟨?_, ?_⟩
  · have hnd := h.nodup
    rw [List.map_append, List.map_cons, List.nodup_middle, ← List.map_append] at hnd
    exact (List.nodup_cons.mp hnd).2
  · intro k' v'
    by_cases hkk : k' = k
    · subst hkk
      rw [Finmap.lookup_erase]
      constructor
      · intro hmem
        exact absurd rfl (hrest _ hmem)
      · intro hc
        cases hc
    · rw [Finmap.lookup_erase_ne hkk, ← h.lookup]
      simp [hkk]

/-- The value of a pair in the middle is replaced. -/
theorem replace (h : Holds (A ++ (k, v) :: B) m) (v' : ν) :
    Holds (A ++ (k, v') :: B) (m.insert k v') := by
  have hins := h.erase.insert Finmap.notMem_erase_self v'
  rw [insert_erase] at hins
  exact hins.perm List.perm_middle.symm

end Holds

end Holds

end KvStore
