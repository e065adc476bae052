/-
Tables of a fixed number of slots.

A table is a vector, and an assignment changes one slot of it.  `vector_split` is the
one fact about indices: around a slot the table is a list with the slot's content in
the middle, and assigning to the slot exchanges that.  Everything else about a table is
then about lists.
-/
import Mathlib.Data.List.Basic

namespace KvStore

variable {α : Type} {n : Nat}

/-- A slot splits the table, and an assignment to it changes the middle. -/
theorem vector_split (t : Vector α n) {i : Nat} (hi : i < n) :
    ∃ P S, t.toList = P ++ t[i] :: S ∧ (∀ x, (t.set i x).toList = P ++ x :: S) ∧
      ∀ x ∈ P ++ S, ∃ j, ∃ hj : j < n, j ≠ i ∧ t[j] = x := by
  have hlen : i < t.toList.length := by simpa using hi
  refine ⟨t.toList.take i, t.toList.drop (i + 1), ?_, ?_, ?_⟩
  · have hsplit := List.take_append_drop i t.toList
    rw [List.drop_eq_getElem_cons hlen] at hsplit
    simpa using hsplit.symm
  · intro x
    rw [Vector.toList_set, List.set_eq_take_append_cons_drop, if_pos hlen]
  · intro x hx
    rcases List.mem_append.mp hx with hx | hx
    · obtain ⟨j, hj, rfl⟩ := List.mem_take_iff_getElem.mp hx
      have hjn : j < n := by omega
      exact ⟨j, hjn, by omega, by simp⟩
    · obtain ⟨j, hj, rfl⟩ := List.mem_drop_iff_getElem.mp hx
      have hjn : i + 1 + j < n := by
        rw [Vector.length_toList] at hj
        omega
      exact ⟨i + 1 + j, hjn, by omega, by simp⟩

/-- All entries of a table of chains, with one chain singled out. -/
theorem flatten_split (t : Vector (List α) n) {i : Nat} (hi : i < n) :
    ∃ L R, t.toList.flatten = L ++ t[i] ++ R ∧
      ∀ chain, (t.set i chain).toList.flatten = L ++ chain ++ R := by
  obtain ⟨P, S, hlist, hset, -⟩ := vector_split t hi
  refine ⟨P.flatten, S.flatten, ?_, ?_⟩
  · rw [hlist]
    simp
  · intro chain
    rw [hset]
    simp

/-- Two tables that are related slot by slot, and one slot of both is changed. -/
theorem pointwise_set {β : Type} {P : α → β → Prop} {s : Vector α n} {t : Vector β n} {i : Nat}
    (hi : i < n) {x : α} {y : β} (hxy : P x y)
    (h : ∀ j, ∀ hj : j < n, i ≠ j → P s[j] t[j]) :
    ∀ j, ∀ hj : j < n, P (s.set i x)[j] (t.set i y)[j] := by
  intro j hj
  by_cases hij : i = j
  · subst hij
    rw [Vector.getElem_set_self, Vector.getElem_set_self]
    exact hxy
  · rw [Vector.getElem_set_ne hi hj hij, Vector.getElem_set_ne hi hj hij]
    exact h j hj hij

/-- Tables of lists that are equally long slot by slot have equally many entries. -/
theorem flatten_length {β : Type} {s : Vector (List α) n} {t : Vector (List β) n}
    (h : ∀ i, ∀ hi : i < n, s[i].length = t[i].length) :
    s.toList.flatten.length = t.toList.flatten.length := by
  rw [List.length_flatten, List.length_flatten]
  congr 1
  refine List.ext_getElem (by simp) fun i hi _ => ?_
  rw [List.length_map, Vector.length_toList] at hi
  rw [List.getElem_map, List.getElem_map, Vector.getElem_toList, Vector.getElem_toList]
  exact h i hi

/-- What is in the table is in some slot. -/
theorem exists_slot {t : Vector α n} {x : α} (h : x ∈ t.toList) :
    ∃ i, ∃ hi : i < n, t[i] = x := by
  obtain ⟨i, hi, hx⟩ := List.mem_iff_getElem.mp h
  have hin : i < n := by simpa using hi
  exact ⟨i, hin, by simpa using hx⟩

end KvStore
