/-
Deletion.

The node with the key is taken out of every lane it is on, and only then freed, so no
pointer to it is left behind.  The level of the list stays as it is.
-/
import KvStore.Proofs.Skiptable.Insert

namespace KvStore

section Delete

variable {S : SkipList} {L A B : List Tower} {k : CString} {e : Tower}

theorem shapeAt_release {m : Mem SkNode} {p q : Ptr} (hp : p ≠ q) :
    shapeAt (m.release q) p = shapeAt m p := by
  rw [shapeAt, Mem.release_of_ne m hp, shapeAt]

theorem forwardAt_release {m : Mem SkNode} {p q : Ptr} (hp : p ≠ q) (i : Nat) :
    forwardAt (m.release q) i p = forwardAt m i p := by
  rw [forwardAt, Mem.release_of_ne m hp, forwardAt]

/-- The representation without an entry that is on no lane any more. -/
theorem SkipRep.drop {S' : SkipList} (h : SkipRep S (A ++ e :: B)) (hr : Relinked S S')
    (hdone : Spliced S' A (e :: B) B S.level) :
    SkipRep { S' with mem := S'.mem.release e.ptr } (A ++ B) := by
  obtain ⟨⟨m', rfl⟩, -, hsame⟩ := hr
  have hnd := h.nodup_header
  rw [List.map_append, List.map_cons, ← List.cons_append, List.nodup_middle, List.nodup_cons,
    List.cons_append, ← List.map_append] at hnd
  have hne : ∀ p ∈ S.header :: (A ++ B).map fun e => e.ptr, p ≠ e.ptr :=
    fun p hp hc => hnd.1 (hc ▸ hp)
  have hmem : ∀ a ∈ A ++ B, a ∈ A ++ e :: B ∧ a.ptr ≠ e.ptr := by
    intro a ha
    refine ⟨?_, hne _ (List.mem_cons_of_mem _ (List.mem_map_of_mem ha))⟩
    simp only [List.mem_append, List.mem_cons] at ha ⊢
    tauto
  refine ⟨?_, ?_, ?_, ?_, fun a ha => h.above a (hmem a ha).1, (List.nodup_cons.mp hnd.2).2,
    fun a ha => h.heights a (hmem a ha).1, h.level_pos, h.level_le, ?_,
    fun a ha => h.sound a (hmem a ha).1⟩
  · obtain ⟨key, value, hcell⟩ := h.header
    refine ⟨key, value, (shapeAt_release (hne _ (List.mem_cons_self ..))).trans ?_⟩
    exact (hsame S.header).trans hcell
  · intro a ha
    exact (shapeAt_release (hmem a ha).2).trans ((hsame a.ptr).trans (h.nodes a (hmem a ha).1))
  · intro p hp hsome
    have hpe : p ≠ e.ptr := by
      rintro rfl
      rw [Mem.release_self] at hsome
      cases hsome
    rw [Mem.release_of_ne _ hpe, isSome_of_shape (hsame p)] at hsome
    have hin := h.only p hp hsome
    rw [List.map_append, List.map_cons, List.mem_append, List.mem_cons] at hin
    rw [List.map_append, List.mem_append]
    tauto
  · intro j hj
    have hchain := hdone j hj
    -- On the levels the loop did not come to, the node never was.
    have hlane : lane j (if j < S.level then B else e :: B) = lane j B := by
      by_cases hjl : j < S.level
      · rw [if_pos hjl]
      · have := (h.heights e (by simp)).2
        rw [if_neg hjl, lane_cons_neg (by omega)]
    rw [hlane, ← lane_append] at hchain
    refine hchain.congr (fun q hq => forwardAt_release (hne q ?_) j)
    exact mem_ptrs_of_lane (S := S) hq (fun _ ha => ha)
  · exact h.ascending.sublist (by simp)

/-- What `delete` does to the list of entries. -/
def SkipDeleted (k : CString) (L L' : List Tower) : Prop :=
  (∃ A e B, L = A ++ e :: B ∧ e.name = k ∧ L' = A ++ B) ∨ ((∀ e ∈ L, e.name ≠ k) ∧ L' = L)

/-- **`delete` takes the entry with the key out, if there is one**, wherever the key lies. -/
theorem deleteBy_spec {compare : Ptr → Prog SkipList Int} (h : SkipRep S L)
    (hcmp : Compares S L compare k) :
    ∃ S' L', (SkipList.deleteBy compare).run S = .ok ((), S') ∧ SkipRep S' L' ∧
      SkipKeeps S S' ∧ SkipDeleted k L L' := by
  obtain ⟨A, B, hcut⟩ := exists_cut h.ascending k
  obtain ⟨update, hdesc, hupdate⟩ := descendBy_update h hcmp hcut
  rcases nextIsBy_run h hcmp hcut with ⟨e, B', rfl, rfl, hnext, hget⟩ | ⟨habs, hnext⟩
  · obtain rfl := hcut.list
    have he : e ∈ A ++ e :: B' := by simp
    have hstart : Spliced S A (e :: B') B' 0 := by
      intro j hj
      rw [if_neg (Nat.not_lt_zero j), ← lane_append]
      exact h.chains j hj
    obtain ⟨S₁, hunlink, hr, hdone⟩ := unlinkLevels_spec (n := S.level) hstart
      (by rw [Nat.zero_add]; exact h.level_le) h.nodup_header (ptr_ne_zero (h.nodes e he))
      (fun j hj hlt => hupdate j hj (by omega))
    rw [Nat.zero_add] at hdone
    obtain ⟨nd, hcell, -⟩ := Option.map_eq_some_iff.mp ((hr.shape e.ptr).trans (h.nodes e he))
    have hkeep : SkipKeeps S { S₁ with mem := S₁.mem.release e.ptr } := by
      obtain ⟨⟨m', rfl⟩, hnext, -⟩ := hr
      exact ⟨rfl, rfl, rfl, Nat.le_of_eq hnext.symm⟩
    refine ⟨_, A ++ B', ?_, h.drop hr hdone, hkeep, Or.inl ⟨A, e, B', rfl, rfl, rfl⟩⟩
    refine run_bind_of (run_get S) (run_bind_of hdesc (run_bind_of hnext (run_ite_pos rfl ?_)))
    exact run_bind_of hget (run_bind_of hunlink (free_run hcell))
  · refine ⟨S, L, ?_, h, ⟨rfl, rfl, rfl, le_refl _⟩, Or.inr ⟨habs, rfl⟩⟩
    refine run_bind_of (run_get S) (run_bind_of hdesc (run_bind_of hnext ?_))
    exact run_ite_neg (by simp) rfl

theorem delete_spec (h : SkipRep S L) (k : CString) :
    ∃ S' L', (SkipList.delete (some k)).run S = .ok ((), S') ∧ SkipRep S' L' ∧
      SkipKeeps S S' ∧ SkipDeleted k L L' := by
  rw [delete_eq]
  exact deleteBy_spec h (h.compares k)

end Delete

end KvStore
