/-
The pointers of the first hash engine.

Here the engine can go wrong: a key may have no slot, a key without terminator is read on into
what follows it, a mutex may be held, `malloc` may fail.  So a call on the pointers is put beside
the call on lists with `Refines`: whatever the one does, be it a fault, the other does.  Where
both return, the heap has the chains that the lists say, and the counter counts its nodes.
-/
import KvStore.Base.Bucket
import KvStore.Base.Refine
import KvStore.Engine.HashHeap
import KvStore.Proofs.Hash

namespace KvStore

namespace HashHeap

/-! ### What the heap stands for -/

/-- At the address is a node with these two arrays. -/
def NodeAt (m : Mem HashCell) (p : Ptr) (node : HashNode) : Prop :=
  ∃ c, m.cells p = some c ∧ c.key = node.key ∧ c.value = node.value

/-- The memory has the lists of `t` on the chains, and nothing else. -/
structure Chained (m : Mem HashCell) (t : Vector (List HashNode) maxTableSize)
    (slots : Vector Ptr maxTableSize) (chains : Vector (List Ptr) maxTableSize) : Prop where
  buckets : Buckets HashCell.next m slots chains
  nodes : ∀ i, ∀ hi : i < maxTableSize, List.Forall₂ (NodeAt m) chains[i] t[i]

/-- The heap has the lists `t` of the table `D`; the counter is their length. -/
structure Rep (H : HashHeap) (D : Hashtable) (t : Vector (List HashNode) maxTableSize)
    (slots : Vector Ptr maxTableSize) (chains : Vector (List Ptr) maxTableSize) : Prop where
  nodes : H.nodes = .allocated slots
  table : D = ⟨some t, H.maxSlots, H.count, H.lock⟩
  maxSlots : H.maxSlots = maxTableSize
  count : H.count = t.toList.flatten.length
  chained : Chained H.mem t slots chains

def Represents (H : HashHeap) (D : Hashtable) : Prop := ∃ t slots chains, Rep H D t slots chains

section Reading

variable {H : HashHeap} {D : Hashtable} {t : Vector (List HashNode) maxTableSize}
  {slots : Vector Ptr maxTableSize} {chains : Vector (List Ptr) maxTableSize} {m : Mem HashCell}
  {p : Ptr} {node : HashNode} {qs : List Ptr} {l : List HashNode} {key : CString} {fuel : Nat}

theorem NodeAt.ne_zero (h : NodeAt m p node) : p ≠ 0 := Mem.ne_zero_of_some h.choose_spec.1

theorem Chained.length_lt (h : Chained H.mem t slots chains) {i : Nat} (hi : i < maxTableSize) :
    chains[i].length < H.fuel := Nat.lt_succ_of_le (h.buckets.length_le hi)

end Reading

/-! ### Statements on both levels -/

section Statements

variable {H : HashHeap} {D : Hashtable} {t : Vector (List HashNode) maxTableSize}
  {slots : Vector Ptr maxTableSize} {chains : Vector (List Ptr) maxTableSize} {i : Nat}

theorem Rep.withLock (h : Rep H D t slots chains) (mu : Mutex) :
    Rep { H with lock := mu } { D with lock := mu } t slots chains :=
  ⟨h.nodes, by rw [h.table], h.maxSlots, h.count, h.chained⟩

theorem Rep.lock_eq (h : Rep H D t slots chains) : D.lock = H.lock := by rw [h.table]

theorem Rep.list (h : Rep H D t slots chains) : D.nodes = some t := by rw [h.table]

theorem Rep.unlock (h : Rep H D t slots chains) :
    Rep { H with lock := H.lock.unlock } { D with lock := D.lock.unlock } t slots chains := by
  rw [h.lock_eq]
  exact h.withLock _

end Statements

/-! ### Calls -/

section Calls

variable {H : HashHeap} {D : Hashtable} {t : Vector (List HashNode) maxTableSize}
  {slots : Vector Ptr maxTableSize} {chains : Vector (List Ptr) maxTableSize} {i : Nat}

/-- A node is the same where its cell is. -/
theorem NodeAt.congr {m m' : Mem HashCell} {p : Ptr} {node : HashNode} (h : NodeAt m p node)
    (hcell : m'.cells p = m.cells p) : NodeAt m' p node := by
  obtain ⟨c, hc, hkv⟩ := h
  exact ⟨c, hcell.trans hc, hkv⟩

theorem NodeAt.lt_next {m : Mem HashCell} {p : Ptr} {node : HashNode} (h : NodeAt m p node) :
    p < m.next := Mem.lt_next_of_some h.choose_spec.1

/-- A node more in front of one chain. -/
theorem Chained.push {m : Mem HashCell} (h : Chained m t slots chains) (hi : i < maxTableSize)
    (node : HashNode) :
    Chained (m.alloc ⟨node.key, node.value, slots[i]⟩) (t.set i (node :: t[i]))
      (slots.set i m.next) (chains.set i (m.next :: chains[i])) := by
  have hold : ∀ p n, NodeAt m p n → NodeAt (m.alloc ⟨node.key, node.value, slots[i]⟩) p n :=
    fun p n hn => hn.congr (Mem.alloc_of_ne m (Nat.ne_of_lt hn.lt_next) _)
  have hnew : NodeAt (m.alloc ⟨node.key, node.value, slots[i]⟩) m.next node :=
    ⟨_, Mem.alloc_self m _, rfl, rfl⟩
  exact ⟨h.buckets.push hi rfl, pointwise_set hi (.cons hnew ((h.nodes i hi).imp hold))
    fun j hj _ => (h.nodes j hj).imp hold⟩

/-- A node less on one chain. -/
theorem Chained.unlink {m m' : Mem HashCell} {z : Ptr} {ps : List Ptr} {l : List HashNode}
    {slots' : Vector Ptr maxTableSize} (h : Chained m t slots chains) (hi : i < maxTableSize)
    (hz : z ∈ chains[i]) (hbuckets : Buckets HashCell.next m' slots' (chains.set i ps))
    (hother : ∀ p node, p ≠ z → NodeAt m p node → NodeAt m' p node) (hnot : z ∉ ps)
    (hnodes : List.Forall₂ (NodeAt m) ps l) : Chained m' (t.set i l) slots' (chains.set i ps) := by
  have hlist : ∀ {qs l'}, z ∉ qs → List.Forall₂ (NodeAt m) qs l' →
      List.Forall₂ (NodeAt m') qs l' := by
    intro qs l' hzq hall
    have hne : ∀ p ∈ qs, p ≠ z := fun p hp heq => hzq (heq ▸ hp)
    exact ((List.forall₂_and_left _ _).mpr ⟨hne, hall⟩).imp fun p n hn => hother p n hn.1 hn.2
  exact ⟨hbuckets, pointwise_set hi (hlist hnot hnodes) fun j hj hne =>
    hlist (h.buckets.disjoint i j hi hj hne z hz) (h.nodes j hj)⟩

/-- The first node of a chain, wherever the table points. -/
theorem Chained.unlink_first {m : Mem HashCell} {z : Ptr} {ps : List Ptr} {l : List HashNode}
    {c : HashCell} (h : Chained m t slots chains) (hi : i < maxTableSize)
    (hsplit : chains[i] = z :: ps) (hc : m.cells z = some c)
    (hnodes : List.Forall₂ (NodeAt m) ps l) :
    Chained (m.release z) (t.set i l) (slots.set i c.next) (chains.set i ps) := by
  have hz : z ∈ chains[i] := by
    rw [hsplit]
    exact List.mem_cons_self
  have hnd := h.buckets.nodup i hi
  rw [hsplit] at hnd
  exact h.unlink hi hz (h.buckets.unlink_first hi hsplit hc)
    (fun p node hp hn => hn.congr (Mem.release_of_ne m hp)) (List.nodup_cons.mp hnd).1 hnodes

/-- A node behind another one. -/
theorem Chained.unlink_behind {m : Mem HashCell} {a z : Ptr} {A B : List Ptr} {l : List HashNode}
    {u c : HashCell} (h : Chained m t slots chains) (hi : i < maxTableSize)
    (hsplit : chains[i] = A ++ [a] ++ z :: B) (ha : m.cells a = some u) (hc : m.cells z = some c)
    (hnodes : List.Forall₂ (NodeAt m) (A ++ [a] ++ B) l) :
    Chained ((m.write a { u with next := c.next }).release z) (t.set i l) slots
      (chains.set i (A ++ [a] ++ B)) := by
  have hz : z ∈ chains[i] := by
    rw [hsplit]
    simp
  have hnd := h.buckets.nodup i hi
  rw [hsplit] at hnd
  obtain ⟨-, hndB, hdisj⟩ := List.nodup_append.mp hnd
  have hnot : z ∉ A ++ [a] ++ B := by
    intro hmem
    rcases List.mem_append.mp hmem with hmem | hmem
    · exact hdisj z hmem z List.mem_cons_self rfl
    · exact (List.nodup_cons.mp hndB).1 hmem
  refine h.unlink hi hz (h.buckets.unlink_behind hi hsplit ha hc rfl) ?_ hnot hnodes
  rintro p node hp ⟨d, hd, hkv⟩
  by_cases hpa : p = a
  · subst hpa
    rw [ha] at hd
    cases hd
    exact ⟨_, (Mem.release_of_ne _ hp).trans (Mem.write_self ha _), hkv⟩
  · exact ⟨d, ((Mem.release_of_ne _ hp).trans (Mem.write_of_ne m hpa _)).trans hd, hkv⟩

end Calls

/-! ### Destruction -/

section Destroy

/-- The nodes of a chain are given back from the front, and the slot follows. -/
theorem destChain_run {i : Nat} (hi : i < maxTableSize) {ps : List Ptr} :
    ∀ {fuel : Nat} {H t slots chains}, H.nodes = .allocated slots → Chained H.mem t slots chains →
      chains[i] = ps → ps.length < fuel →
      ∃ H' t' slots' chains', (loop (destHashtableStep i) fuel slots[i]).run H = .ok ((), H') ∧
        H'.nodes = .allocated slots' ∧ Chained H'.mem t' slots' chains' ∧ chains'[i] = [] ∧
        ∀ j, ∀ hj : j < maxTableSize, j ≠ i → chains'[j] = chains[j] := by
  induction ps with
  | nil =>
      intro fuel H t slots chains hnodes h hchain hfuel
      obtain ⟨fuel, rfl⟩ : ∃ m, fuel = m + 1 := ⟨fuel - 1, by omega⟩
      have hnull := h.buckets.chain i hi
      rw [hchain] at hnull
      have hstep : (destHashtableStep i slots[i]).run H = .ok (.inr (), H) :=
        run_ite_neg (not_not.mpr hnull) rfl
      exact ⟨H, t, slots, chains, loop_inr hstep, hnodes, h, hchain, fun _ _ _ => rfl⟩
  | cons z ps ih =>
      intro fuel H t slots chains hnodes h hchain hfuel
      rw [List.length_cons] at hfuel
      obtain ⟨fuel, rfl⟩ : ∃ m, fuel = m + 1 := ⟨fuel - 1, by omega⟩
      have hfirst := h.buckets.chain i hi
      have hlist := h.nodes i hi
      rw [hchain] at hfirst hlist
      obtain ⟨hz, -⟩ := hfirst
      obtain ⟨node, l, ⟨c, hc, -⟩, hrest, -⟩ := List.forall₂_cons_left_iff.mp hlist
      have hstep : (destHashtableStep i z).run H = .ok (.inl c.next,
          ⟨.allocated (slots.set i c.next), H.maxSlots, H.count, H.lock, H.mem.release z⟩) := by
        refine run_ite_pos (Mem.ne_zero_of_some hc) (run_bind_of (deref_run hc) ?_)
        exact run_bind_of (setSlot_run hnodes hi _) (run_bind_of (free_run hc) rfl)
      obtain ⟨H', t', slots', chains', hrun, hnodes', h', hempty, hother⟩ :=
        @ih fuel ⟨.allocated (slots.set i c.next), H.maxSlots, H.count, H.lock, H.mem.release z⟩
          _ _ _ rfl (h.unlink_first hi hchain hc hrest) (Vector.getElem_set_self hi) (by omega)
      refine ⟨H', t', slots', chains', ?_, hnodes', h', hempty, ?_⟩
      · rw [hz, loop_inl hstep, ← hrun, Vector.getElem_set_self]
      · intro j hj hji
        rw [hother j hj hji, Vector.getElem_set_ne hi hj hji.symm]

/-- The slots from `i` on, when the chains before are empty. -/
theorem destSlots_run :
    ∀ (k : Nat) {i : Nat} {H t slots chains}, H.nodes = .allocated slots →
      Chained H.mem t slots chains → i + k = maxTableSize →
      (∀ j, ∀ hj : j < maxTableSize, j < i → chains[j] = []) →
      ∃ H' t' slots' chains', (destHashtableSlots k i).run H = .ok ((), H') ∧
        H'.nodes = .allocated slots' ∧ Chained H'.mem t' slots' chains' ∧
        ∀ j, ∀ hj : j < maxTableSize, chains'[j] = [] := by
  intro k
  induction k with
  | zero =>
      intro i H t slots chains hnodes h hlast hbefore
      exact ⟨H, t, slots, chains, rfl, hnodes, h, fun j hj => hbefore j hj (by omega)⟩
  | succ k ih =>
      intro i H t slots chains hnodes h hlast hbefore
      have hi : i < maxTableSize := by omega
      obtain ⟨H', t', slots', chains', hrun, hnodes', h', hempty, hother⟩ :=
        destChain_run hi hnodes h rfl (h.length_lt hi)
      have hbefore' : ∀ j, ∀ hj : j < maxTableSize, j < i + 1 → chains'[j] = [] := by
        intro j hj hji
        by_cases heq : j = i
        · subst heq
          exact hempty
        · rw [hother j hj heq, hbefore j hj (by omega)]
      obtain ⟨H'', t'', slots'', chains'', hrun', hrest⟩ :=
        @ih (i + 1) H' t' slots' chains' hnodes' h' (by omega) hbefore'
      refine ⟨H'', t'', slots'', chains'', ?_, hrest⟩
      exact run_bind_of (getSlot_run hnodes hi) (run_bind_of (run_get H)
        (run_bind_of hrun hrun'))

/-- Every node is given back, and the array. -/
theorem Represents.destroy {H : HashHeap} {D : Hashtable} (h : Represents H D) :
    ∃ H', destHashtable.run H = .ok ((), H') ∧ H'.nodes = .freed ∧
      ∀ p, H'.mem.cells p = none := by
  obtain ⟨t, slots, chains, hrep⟩ := h
  obtain ⟨H', t', slots', chains', hrun, hnodes', h', hempty⟩ :=
    destSlots_run maxTableSize hrep.nodes hrep.chained (Nat.zero_add _)
      (fun j _ hj => absurd hj (Nat.not_lt_zero j))
  refine ⟨{ H' with nodes := .freed }, run_bind_of (run_get H) ?_, rfl, ?_⟩
  · rw [hrep.maxSlots]
    exact run_bind_of hrun (freeSlots_run hnodes')
  · intro p
    by_contra hp
    obtain ⟨v, hv⟩ := Mem.cells_ne_none.mp hp
    obtain ⟨i, hi, hmem⟩ := h'.buckets.all p v hv
    rw [hempty i hi] at hmem
    cases hmem

end Destroy

/-! ### Runs -/

/-- A table whose slots are all null. -/
def fresh (mu : Mutex) : HashHeap :=
  ⟨.allocated (Vector.replicate maxTableSize 0), maxTableSize, 0, mu, Mem.empty⟩

theorem Represents.fresh (mu : Mutex) : Represents (HashHeap.fresh mu) (Hashtable.fresh mu) := by
  refine ⟨Vector.replicate maxTableSize [], _, _, rfl, rfl, rfl, ?_, Buckets.empty, ?_⟩
  · rw [Vector.toList_replicate, List.flatten_replicate_nil]
    rfl
  · intro i hi
    rw [Vector.getElem_replicate, Vector.getElem_replicate]
    exact .nil

/-- The counter counts the nodes that are allocated. -/
theorem Represents.has {H : HashHeap} {D : Hashtable} (h : Represents H D) :
    ∃ n : Nat, H.count = n ∧ D.count = n ∧ H.mem.Has n := by
  obtain ⟨t, slots, chains, hrep⟩ := h
  obtain ⟨hnodup, hall⟩ := hrep.chained.buckets.has
  refine ⟨_, hrep.count, ?_, chains.toList.flatten, hnodup, hall, ?_⟩
  · rw [hrep.table]
    exact hrep.count
  · exact flatten_length fun i hi => (hrep.chained.nodes i hi).length_eq

end HashHeap

end KvStore
