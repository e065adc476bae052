/-
The pointers of the second hash engine.

`HeapRep` says which lists the chains of the heap stand for, that no node is leaked, and whose
each string is: a node's key, a node's value, or nobody's.  The last are the copies that
`put_kv_dhashtable` has forgotten.  Each call is followed by the one on lists, and the bookkeeping
of the heap goes along with it; so it is known after every run what is allocated, and what
`dest_dhashtable` leaves of it.
-/
import KvStore.Base.Bucket
import KvStore.Engine.DhashHeap
import KvStore.Proofs.Dhash

namespace KvStore

namespace DhashHeap

/-! ### What the heap stands for -/

/-- The pointers of the node at an address to its strings. -/
def copiesAt (H : DhashHeap) (p : Ptr) : Option (Ptr × Ptr) :=
  (H.nodes.cells p).map fun c => (c.key, c.value)

theorem copiesAt_some {H : DhashHeap} {p k v : Ptr} (h : H.copiesAt p = some (k, v)) :
    ∃ c, H.nodes.cells p = some c ∧ c.key = k ∧ c.value = v := by
  obtain ⟨c, hc, heq⟩ := Option.map_eq_some_iff.mp h
  exact ⟨c, hc, (Prod.mk.inj heq).1, (Prod.mk.inj heq).2⟩

/-- At the address is a node with these strings. -/
def NodeAt (H : DhashHeap) (p : Ptr) (node : KvNode) : Prop :=
  ∃ k v, H.copiesAt p = some (k, v) ∧ H.strings.cells k = some node.key ∧
    H.strings.cells v = some node.value

/--
Each string is the key or the value of one node, or it is leaked.  `copies` are the pointers of
the nodes, and `owner` says whose a string is, and whether it is the value.
-/
structure Owned (copies : Ptr → Option (Ptr × Ptr)) (m : Mem CString)
    (owner : Ptr → Option (Ptr × Bool)) (leaked : List Ptr) : Prop where
  key : ∀ p k v, copies p = some (k, v) → owner k = some (p, false) ∧ ∃ s, m.cells k = some s
  value : ∀ p k v, copies p = some (k, v) → owner v = some (p, true) ∧ ∃ s, m.cells v = some s
  lost : ∀ q ∈ leaked, owner q = none ∧ ∃ s, m.cells q = some s
  all : ∀ q s, m.cells q = some s → q ∈ leaked ∨ ∃ p k v, copies p = some (k, v) ∧ (q = k ∨ q = v)
  nodup : leaked.Nodup

/-- The heap has the lists of `t`, on the chains, and nothing else but the leaked strings. -/
structure HeapRep (H : DhashHeap) (t : Vector (List KvNode) dhashTableSize)
    (slots : Vector Ptr dhashTableSize) (chains : Vector (List Ptr) dhashTableSize)
    (leaked : List Ptr) : Prop where
  buckets : Buckets KvCell.next H.nodes slots chains
  nodes : ∀ i, ∀ hi : i < dhashTableSize, List.Forall₂ H.NodeAt chains[i] t[i]
  strings : ∃ owner, Owned H.copiesAt H.strings owner leaked

/-! ### Whose the strings are -/

section Owned

variable {copies copies' : Ptr → Option (Ptr × Ptr)} {m : Mem CString}
  {owner : Ptr → Option (Ptr × Bool)} {leaked : List Ptr}

/-- A copy that nobody knows. -/
theorem Owned.leak (h : Owned copies m owner leaked) (s : CString) :
    ∃ owner', Owned copies (m.alloc s) owner' (m.next :: leaked) := by
  have hcell : ∀ {q u}, m.cells q = some u → q ≠ m.next ∧ (m.alloc s).cells q = some u := by
    intro q u hq
    have hne := Nat.ne_of_lt (Mem.lt_next_of_some hq)
    exact ⟨hne, (Mem.alloc_of_ne m hne s).trans hq⟩
  refine ⟨fun q => if q = m.next then none else owner q, ?_, ?_, ?_, ?_, ?_⟩
  · intro p k v hkv
    obtain ⟨hk, u, hu⟩ := h.key p k v hkv
    exact ⟨(if_neg (hcell hu).1).trans hk, u, (hcell hu).2⟩
  · intro p k v hkv
    obtain ⟨hv, u, hu⟩ := h.value p k v hkv
    exact ⟨(if_neg (hcell hu).1).trans hv, u, (hcell hu).2⟩
  · intro q hq
    rcases List.mem_cons.mp hq with rfl | hq
    · exact ⟨if_pos rfl, s, Mem.alloc_self m s⟩
    · obtain ⟨hnone, u, hu⟩ := h.lost q hq
      exact ⟨(if_neg (hcell hu).1).trans hnone, u, (hcell hu).2⟩
  · intro q u hq
    by_cases hne : q = m.next
    · exact Or.inl (hne ▸ List.mem_cons_self)
    · rw [Mem.alloc_of_ne m hne] at hq
      exact (h.all q u hq).imp_left (List.mem_cons_of_mem _)
  · refine List.nodup_cons.mpr ⟨fun hmem => ?_, h.nodup⟩
    obtain ⟨-, u, hu⟩ := h.lost _ hmem
    exact (hcell hu).1 rfl

/-- Two copies that belong to a new node. -/
theorem Owned.add (h : Owned copies m owner leaked) {z : Ptr} (hz : copies z = none)
    (hself : copies' z = some (m.next, m.next + 1))
    (hother : ∀ p, p ≠ z → copies' p = copies p) (key value : CString) :
    ∃ owner', Owned copies' ((m.alloc key).alloc value) owner' leaked := by
  have hcell : ∀ {q u}, m.cells q = some u → q ≠ m.next ∧ q ≠ m.next + 1 ∧
      ((m.alloc key).alloc value).cells q = some u := by
    intro q u hq
    have hlt := Mem.lt_next_of_some hq
    have hne := Nat.ne_of_lt hlt
    have hne' := Nat.ne_of_lt (Nat.lt_succ_of_lt hlt)
    refine ⟨hne, hne', ?_⟩
    rw [Mem.alloc_of_ne (m.alloc key) hne', Mem.alloc_of_ne m hne, hq]
  have hkey : ((m.alloc key).alloc value).cells m.next = some key := by
    rw [Mem.alloc_of_ne (m.alloc key) (Nat.ne_of_lt (Nat.lt_succ_self _)), Mem.alloc_self]
  have hvalue : ((m.alloc key).alloc value).cells (m.next + 1) = some value :=
    Mem.alloc_self (m.alloc key) value
  have hold : ∀ {p kv}, copies p = some kv → copies' p = some kv := by
    intro p kv hkv
    rw [hother p fun hc => ?_, hkv]
    rw [hc, hz] at hkv
    cases hkv
  have hcases : ∀ {p k v}, copies' p = some (k, v) →
      p = z ∧ k = m.next ∧ v = m.next + 1 ∨ copies p = some (k, v) := by
    intro p k v hkv
    by_cases hp : p = z
    · subst hp
      rw [hself] at hkv
      cases hkv
      exact Or.inl ⟨rfl, rfl, rfl⟩
    · exact Or.inr ((hother p hp).symm.trans hkv)
  refine ⟨fun q => if q = m.next then some (z, false)
    else if q = m.next + 1 then some (z, true) else owner q, ?_, ?_, ?_, ?_, h.nodup⟩
  · intro p k v hkv
    rcases hcases hkv with ⟨rfl, rfl, rfl⟩ | hkv
    · exact ⟨if_pos rfl, key, hkey⟩
    · obtain ⟨hk, u, hu⟩ := h.key p k v hkv
      obtain ⟨hne, hne', hu'⟩ := hcell hu
      exact ⟨((if_neg hne).trans (if_neg hne')).trans hk, u, hu'⟩
  · intro p k v hkv
    rcases hcases hkv with ⟨rfl, rfl, rfl⟩ | hkv
    · exact ⟨(if_neg (Nat.succ_ne_self _)).trans (if_pos rfl), value, hvalue⟩
    · obtain ⟨hv, u, hu⟩ := h.value p k v hkv
      obtain ⟨hne, hne', hu'⟩ := hcell hu
      exact ⟨((if_neg hne).trans (if_neg hne')).trans hv, u, hu'⟩
  · intro q hq
    obtain ⟨hnone, u, hu⟩ := h.lost q hq
    obtain ⟨hne, hne', hu'⟩ := hcell hu
    exact ⟨((if_neg hne).trans (if_neg hne')).trans hnone, u, hu'⟩
  · intro q u hq
    by_cases hne' : q = m.next + 1
    · exact Or.inr ⟨z, _, _, hself, Or.inr hne'⟩
    by_cases hne : q = m.next
    · exact Or.inr ⟨z, _, _, hself, Or.inl hne⟩
    rw [Mem.alloc_of_ne (m.alloc key) hne', Mem.alloc_of_ne m hne] at hq
    rcases h.all q u hq with hl | ⟨p, k, v, hkv, hpq⟩
    · exact Or.inl hl
    · exact Or.inr ⟨p, k, v, hold hkv, hpq⟩

/-- The strings of one node are given back with it; those of no other are. -/
theorem Owned.remove (h : Owned copies m owner leaked) {z k v : Ptr} (hz : copies z = some (k, v))
    (hself : copies' z = none) (hother : ∀ p, p ≠ z → copies' p = copies p) :
    Owned copies' ((m.release k).release v) owner leaked ∧
      ∀ p k' v', p ≠ z → copies p = some (k', v') →
        ((m.release k).release v).cells k' = m.cells k' ∧
          ((m.release k).release v).cells v' = m.cells v' := by
  have hk := (h.key z k v hz).1
  have hv := (h.value z k v hz).1
  -- A string that is not owned by `z` is neither of the two.
  have hkeep : ∀ {q}, (∀ b, owner q ≠ some (z, b)) →
      ((m.release k).release v).cells q = m.cells q := by
    intro q hq
    have hqk : q ≠ k := fun hc => hq false (by rw [hc, hk])
    have hqv : q ≠ v := fun hc => hq true (by rw [hc, hv])
    rw [Mem.release_of_ne _ hqv, Mem.release_of_ne _ hqk]
  have hapart : ∀ {p q b}, p ≠ z → owner q = some (p, b) → ∀ b', owner q ≠ some (z, b') := by
    intro p q b hp hq b' hc
    rw [hq] at hc
    exact hp (Prod.mk.inj (Option.some.inj hc)).1
  have hcopies : ∀ {p kv}, copies' p = some kv → p ≠ z ∧ copies p = some kv := by
    intro p kv hkv
    by_cases hp : p = z
    · rw [hp, hself] at hkv
      cases hkv
    · exact ⟨hp, (hother p hp).symm.trans hkv⟩
  refine ⟨⟨?_, ?_, ?_, ?_, h.nodup⟩, ?_⟩
  · intro p k' v' hkv
    obtain ⟨hp, hkv⟩ := hcopies hkv
    obtain ⟨hk', u, hu⟩ := h.key p k' v' hkv
    exact ⟨hk', u, (hkeep (hapart hp hk')).trans hu⟩
  · intro p k' v' hkv
    obtain ⟨hp, hkv⟩ := hcopies hkv
    obtain ⟨hv', u, hu⟩ := h.value p k' v' hkv
    exact ⟨hv', u, (hkeep (hapart hp hv')).trans hu⟩
  · intro q hq
    obtain ⟨hnone, u, hu⟩ := h.lost q hq
    exact ⟨hnone, u, (hkeep fun b => by rw [hnone]; simp).trans hu⟩
  · intro q u hq
    by_cases hqv : q = v
    · rw [hqv, Mem.release_self] at hq
      cases hq
    rw [Mem.release_of_ne _ hqv] at hq
    by_cases hqk : q = k
    · rw [hqk, Mem.release_self] at hq
      cases hq
    rw [Mem.release_of_ne _ hqk] at hq
    rcases h.all q u hq with hl | ⟨p, k', v', hkv, hpq⟩
    · exact Or.inl hl
    · refine Or.inr ⟨p, k', v', ?_, hpq⟩
      rw [hother p fun hc => ?_, hkv]
      rw [hc, hz] at hkv
      cases hkv
      exact hpq.elim hqk hqv
  · intro p k' v' hp hkv
    exact ⟨hkeep (hapart hp (h.key p k' v' hkv).1), hkeep (hapart hp (h.value p k' v' hkv).1)⟩

end Owned

section Access

variable {H : DhashHeap} {t : Vector (List KvNode) dhashTableSize}
  {slots : Vector Ptr dhashTableSize} {chains : Vector (List Ptr) dhashTableSize}
  {leaked : List Ptr} {i : Nat} {p : Ptr} {s : CString}

theorem readString_run (h : H.strings.cells p = some s) : (readString p).run H = .ok (s, H) := by
  refine run_bind_of (run_get H) ?_
  rw [Mem.read_of_some h]
  rfl

theorem freeString_run (h : H.strings.cells p = some s) :
    (freeString p).run H = .ok ((), { H with strings := H.strings.release p }) :=
  run_ite_neg (Mem.ne_zero_of_some h) (run_bind_of (readString_run h) rfl)

/-- The strings after `strdup`. -/
def dup (ok : Bool) (s : CString) (m : Mem CString) : Mem CString := if ok then m.alloc s else m

theorem strdup_run (ok : Bool) (s : CString) :
    (strdup ok s).run H =
      .ok (if ok then H.strings.next else 0, { H with strings := dup ok s H.strings }) := by
  cases ok <;> rfl

/-- The fuel is enough for a chain. -/
theorem HeapRep.fuel (h : HeapRep H t slots chains leaked) (hi : i < dhashTableSize) :
    chains[i].length < H.fuel := Nat.lt_succ_of_le (h.buckets.length_le hi)

end Access

/-! ### Walks -/

section Walks

variable {H : DhashHeap} {key : CString} {p : Ptr} {qs : List Ptr} {l : List KvNode} {fuel : Nat}

theorem NodeAt.cell {node : KvNode} (h : H.NodeAt p node) : ∃ c, H.nodes.cells p = some c := by
  obtain ⟨k, v, hcopies, -⟩ := h
  obtain ⟨c, hc, -⟩ := copiesAt_some hcopies
  exact ⟨c, hc⟩

theorem NodeAt.ne_zero {node : KvNode} (h : H.NodeAt p node) : p ≠ 0 :=
  Mem.ne_zero_of_some h.cell.choose_spec

/-- The key of a node is compared. -/
theorem NodeAt.compare {node : KvNode} (h : H.NodeAt p node) (key : CString) :
    ∃ c r, H.nodes.cells p = some c ∧ strcmp node.key.mem key.mem = .ok r ∧
      (r = 0 ↔ node.key = key) ∧ (readString c.key).run H = .ok (node.key, H) := by
  obtain ⟨k, v, hcopies, hkey, -⟩ := h
  obtain ⟨c, hc, rfl, rfl⟩ := copiesAt_some hcopies
  obtain ⟨r, hr, heq⟩ := strcmp_eq_zero node.key key
  exact ⟨c, r, hc, hr, heq, readString_run hkey⟩

/-- The walk finds the first node with the key. -/
theorem find_run (hchain : LeadsTo (pointerAt KvCell.next H.nodes) p qs 0)
    (hnodes : List.Forall₂ H.NodeAt qs l) (hfuel : qs.length < fuel) :
    ∃ q, (loop (findStep key) fuel p).run H = .ok (q, H) ∧
      (q = 0 ∧ l.find? (fun node => node.key = key) = none ∨
        ∃ node, H.NodeAt q node ∧ l.find? (fun node => node.key = key) = some node) := by
  induction hnodes generalizing p fuel with
  | nil =>
      obtain ⟨fuel, rfl⟩ : ∃ m, fuel = m + 1 := ⟨fuel - 1, by omega⟩
      cases hchain
      exact ⟨0, loop_inr (run_ite_neg (by simp) rfl), Or.inl ⟨rfl, rfl⟩⟩
  | @cons q node qs l hnode _ ih =>
      rw [List.length_cons] at hfuel
      obtain ⟨fuel, rfl⟩ : ∃ m, fuel = m + 1 := ⟨fuel - 1, by omega⟩
      obtain ⟨rfl, p', hp', hrest⟩ := hchain
      obtain ⟨c, r, hc, hr, heq, hread⟩ := hnode.compare key
      rw [pointerAt_some hc] at hp'
      cases hp'
      have hstep : ∀ {res}, (if r = 0 then Sum.inr p else Sum.inl c.next) = res →
          (findStep key p).run H = .ok (res, H) := by
        intro res hres
        refine run_ite_pos (Mem.ne_zero_of_some hc) (run_bind_of (deref_run hc)
          (run_bind_of hread ?_))
        rw [hr]
        refine run_bind_of rfl ?_
        rw [← hres]
        split <;> rfl
      by_cases hk : node.key = key
      · refine ⟨p, loop_inr (hstep (if_pos (heq.mpr hk))), Or.inr ⟨node, hnode, ?_⟩⟩
        exact List.find?_cons_of_pos (by simpa using hk)
      · obtain ⟨q, hq, hfound⟩ := @ih c.next fuel hrest (by omega)
        rw [loop_inl (hstep (if_neg fun h0 => hk (heq.mp h0)))]
        exact ⟨q, hq, by rwa [List.find?_cons_of_neg (by simpa using hk)]⟩

/-- The walk counts the nodes. -/
theorem count_run (hchain : LeadsTo (pointerAt KvCell.next H.nodes) p qs 0)
    (hnodes : List.Forall₂ H.NodeAt qs l) (hfuel : qs.length < fuel) (n : Int) :
    (loop countStep fuel (p, n)).run H = .ok (l.foldl (fun c _ => c + 1) n, H) := by
  induction hnodes generalizing p fuel n with
  | nil =>
      obtain ⟨fuel, rfl⟩ : ∃ m, fuel = m + 1 := ⟨fuel - 1, by omega⟩
      cases hchain
      have hstep : (countStep (0, n)).run H = .ok (.inr n, H) := rfl
      exact loop_inr hstep
  | @cons q node qs l hnode _ ih =>
      rw [List.length_cons] at hfuel
      obtain ⟨fuel, rfl⟩ : ∃ m, fuel = m + 1 := ⟨fuel - 1, by omega⟩
      obtain ⟨rfl, p', hp', hrest⟩ := hchain
      obtain ⟨c, hc⟩ := hnode.cell
      rw [pointerAt_some hc] at hp'
      cases hp'
      have hstep : (countStep (p, n)).run H = .ok (.inl (c.next, n + 1), H) :=
        run_ite_pos (Mem.ne_zero_of_some hc) (run_bind_of (deref_run hc) rfl)
      rw [loop_inl hstep]
      exact ih hrest (by omega) (n + 1)

/-- Where `indirect` points after the nodes `A`. -/
def Indirect.after (indirect : Indirect) (A : List Ptr) : Indirect :=
  (A.getLast?.map Indirect.next).getD indirect

theorem Indirect.after_cons (indirect : Indirect) (a : Ptr) (A : List Ptr) :
    (Indirect.next a).after A = indirect.after (a :: A) := by
  cases A with
  | nil => rfl
  | cons b A =>
      rw [Indirect.after, Indirect.after, List.getLast?_cons_cons,
        List.getLast?_eq_some_getLast (List.cons_ne_nil b A)]
      rfl

/-- The walk of the deletion: the place of the first node with the key, if there is one. -/
theorem delete_run (hchain : LeadsTo (pointerAt KvCell.next H.nodes) p qs 0)
    (hnodes : List.Forall₂ H.NodeAt qs l) (hfuel : qs.length < fuel) (indirect : Indirect) :
    (∃ indirect', (loop (deleteStep key) fuel (indirect, p)).run H = .ok ((indirect', 0), H) ∧
        chainStack l key = []) ∨
      ∃ A z B node, qs = A ++ z :: B ∧ H.NodeAt z node ∧
        (loop (deleteStep key) fuel (indirect, p)).run H = .ok ((indirect.after A, z), H) ∧
        chainStack l key ≠ [] ∧
        List.Forall₂ H.NodeAt (A ++ B) (l.eraseP fun node => node.key = key) := by
  induction hnodes generalizing p fuel indirect with
  | nil =>
      obtain ⟨fuel, rfl⟩ : ∃ m, fuel = m + 1 := ⟨fuel - 1, by omega⟩
      cases hchain
      have hstep : (deleteStep key (indirect, 0)).run H = .ok (.inr (indirect, 0), H) := rfl
      exact Or.inl ⟨indirect, loop_inr hstep, rfl⟩
  | @cons q node qs l hnode hrestnodes ih =>
      rw [List.length_cons] at hfuel
      obtain ⟨fuel, rfl⟩ : ∃ m, fuel = m + 1 := ⟨fuel - 1, by omega⟩
      obtain ⟨rfl, p', hp', hrest⟩ := hchain
      obtain ⟨c, r, hc, hr, heq, hread⟩ := hnode.compare key
      rw [pointerAt_some hc] at hp'
      cases hp'
      have hstep : ∀ {res},
          (if r ≠ 0 then Sum.inl (.next p, c.next) else .inr (indirect, p)) = res →
          (deleteStep key (indirect, p)).run H = .ok (res, H) := by
        intro res hres
        refine run_ite_pos (Mem.ne_zero_of_some hc) (run_bind_of (deref_run hc)
          (run_bind_of hread ?_))
        rw [hr]
        refine run_bind_of rfl ?_
        rw [← hres]
        split <;> rfl
      by_cases hk : node.key = key
      · refine Or.inr ⟨[], p, qs, node, rfl, hnode, ?_, ?_, ?_⟩
        · exact loop_inr (hstep (if_neg (not_not.mpr (heq.mpr hk))))
        · simp [chainStack, hk]
        · rw [List.eraseP_cons_of_pos (by simpa using hk)]
          exact hrestnodes
      · have hskip : chainStack (node :: l) key = chainStack l key := by simp [chainStack, hk]
        rw [loop_inl (hstep (if_pos fun h0 => hk (heq.mp h0))), hskip,
          List.eraseP_cons_of_neg (by simpa using hk)]
        rcases @ih c.next fuel hrest (by omega) (.next p) with
          ⟨indirect', hrun, hnone⟩ | ⟨A, z, B, node', rfl, hnode', hrun, hsome, hab⟩
        · exact Or.inl ⟨indirect', hrun, hnone⟩
        · refine Or.inr ⟨p :: A, z, B, node', rfl, hnode', ?_, hsome, ?_⟩
          · rw [hrun, Indirect.after_cons indirect p A]
          · exact .cons hnode hab

end Walks

/-! ### Putting -/

section Put

variable {H H' : DhashHeap} {t : Vector (List KvNode) dhashTableSize}
  {slots : Vector Ptr dhashTableSize} {chains : Vector (List Ptr) dhashTableSize}
  {leaked : List Ptr} {key value : CString}

/-- The heap after a node was linked in front of the chain of its slot. -/
def pushed (H : DhashHeap) (slots : Vector Ptr dhashTableSize) (i : Nat) (hi : i < dhashTableSize)
    (key value : CString) : DhashHeap where
  table := .allocated (slots.set i H.nodes.next)
  nodes := H.nodes.alloc ⟨H.strings.next, H.strings.next + 1, slots[i]⟩
  strings := (H.strings.alloc key).alloc value

theorem put_run (htable : H.table = .allocated slots) (key value : CString) :
    (putKvDhashtable true true true (some key) (some value)).run H =
      .ok (0, H.pushed slots (hashFunction key).toNat (hashFunction_lt key) key value) := by
  obtain ⟨table, nodes, strings⟩ := H
  cases htable
  have hi := hashFunction_lt key
  have hnode : nodes.next ≠ 0 := Nat.ne_of_gt nodes.next_pos
  have hcopy : strings.next ≠ 0 := Nat.ne_of_gt strings.next_pos
  refine run_bind_of rfl (run_bind_of (malloc_run _ _) (run_ite_neg hnode ?_))
  refine run_bind_of (strdup_run true key) ?_
  refine run_bind_of (assign_run (Mem.alloc_self nodes _) _) (run_bind_of rfl ?_)
  refine run_bind_of (strdup_run true value) ?_
  refine run_bind_of (assign_run (Mem.write_self (Mem.alloc_self nodes _) _) _) ?_
  refine run_ite_neg ?_ (run_bind_of (getSlot_run rfl hi) ?_)
  · rintro (hc | hc)
    · exact hcopy hc
    · exact absurd hc (Nat.succ_ne_zero _)
  refine run_bind_of (assign_run
    (Mem.write_self (Mem.write_self (Mem.alloc_self nodes _) _) _) _) ?_
  refine run_bind_of (setSlot_run rfl hi _) ?_
  show Except.ok ((0 : Int), (⟨_, (((nodes.alloc _).write nodes.next _).write nodes.next _).write
    nodes.next _, _⟩ : DhashHeap)) = _
  rw [Mem.alloc_write, Mem.alloc_write, Mem.alloc_write]
  rfl

theorem copiesAt_pushed_self {i : Nat} (hi : i < dhashTableSize) :
    (H.pushed slots i hi key value).copiesAt H.nodes.next =
      some (H.strings.next, H.strings.next + 1) :=
  congrArg (Option.map _) (Mem.alloc_self H.nodes _)

theorem copiesAt_pushed {i : Nat} (hi : i < dhashTableSize) {p : Ptr} (hp : p ≠ H.nodes.next) :
    (H.pushed slots i hi key value).copiesAt p = H.copiesAt p :=
  congrArg (Option.map _) (Mem.alloc_of_ne H.nodes hp _)

theorem strings_pushed {i : Nat} (hi : i < dhashTableSize) {q : Ptr} {s : CString}
    (hq : H.strings.cells q = some s) :
    (H.pushed slots i hi key value).strings.cells q = some s := by
  have hlt := Mem.lt_next_of_some hq
  refine (Mem.alloc_of_ne (H.strings.alloc key) (Nat.ne_of_lt (Nat.lt_succ_of_lt hlt))
    value).trans ?_
  exact (Mem.alloc_of_ne H.strings (Nat.ne_of_lt hlt) key).trans hq

theorem copiesAt_fresh : H.copiesAt H.nodes.next = none :=
  congrArg (Option.map _) (H.nodes.fresh _ (Nat.le_refl _))

/-- A pair more on one list. -/
theorem HeapRep.push (h : HeapRep H t slots chains leaked) {i : Nat} (hi : i < dhashTableSize)
    (key value : CString) :
    HeapRep (H.pushed slots i hi key value) (t.set i (⟨key, value⟩ :: t[i]))
      (slots.set i H.nodes.next) (chains.set i (H.nodes.next :: chains[i])) leaked := by
  obtain ⟨owner, howned⟩ := h.strings
  have hold : ∀ p node, H.NodeAt p node → (H.pushed slots i hi key value).NodeAt p node := by
    rintro p node ⟨k, v, hkv, hk, hv⟩
    refine ⟨k, v, ?_, strings_pushed hi hk, strings_pushed hi hv⟩
    rw [copiesAt_pushed hi, hkv]
    rintro rfl
    rw [copiesAt_fresh] at hkv
    cases hkv
  have hnew : (H.pushed slots i hi key value).NodeAt H.nodes.next ⟨key, value⟩ := by
    refine ⟨_, _, copiesAt_pushed_self hi, ?_, Mem.alloc_self (H.strings.alloc key) value⟩
    refine (Mem.alloc_of_ne (H.strings.alloc key) (Nat.ne_of_lt (Nat.lt_succ_self _))
      value).trans ?_
    exact Mem.alloc_self H.strings key
  refine ⟨h.buckets.push hi rfl, pointwise_set hi (.cons hnew ((h.nodes i hi).imp hold))
    fun j hj _ => (h.nodes j hj).imp hold, ?_⟩
  exact howned.add copiesAt_fresh (copiesAt_pushed_self hi) (fun _ => copiesAt_pushed hi) key value

/-- What is left when a copy fails: the node is given back, the other copy is not. -/
theorem put_fails {allocKey allocValue : Bool} (hfail : allocKey = false ∨ allocValue = false)
    (H : DhashHeap) (key value : CString) :
    ∃ c, (putKvDhashtable true allocKey allocValue (some key) (some value)).run H =
      .ok (-1, ⟨H.table, (H.nodes.alloc c).release H.nodes.next,
        dup allocValue value (dup allocKey key H.strings)⟩) := by
  obtain ⟨table, nodes, strings⟩ := H
  have hnode : nodes.next ≠ 0 := Nat.ne_of_gt nodes.next_pos
  refine ⟨⟨if allocKey then strings.next else 0,
    if allocValue then (dup allocKey key strings).next else 0, 0⟩,
    run_bind_of rfl (run_bind_of (malloc_run _ _) (run_ite_neg hnode ?_))⟩
  refine run_bind_of (strdup_run allocKey key) ?_
  refine run_bind_of (assign_run (Mem.alloc_self nodes _) _) (run_bind_of rfl ?_)
  refine run_bind_of (strdup_run allocValue value) ?_
  refine run_bind_of (assign_run (Mem.write_self (Mem.alloc_self nodes _) _) _) ?_
  refine run_ite_pos ?_ (run_bind_of (free_run
    (Mem.write_self (Mem.write_self (Mem.alloc_self nodes _) _) _)) ?_)
  · rcases hfail with rfl | rfl
    · exact Or.inl rfl
    · exact Or.inr rfl
  show Except.ok ((-1 : Int), (⟨_, (((nodes.alloc _).write nodes.next _).write nodes.next _).release
    nodes.next, _⟩ : DhashHeap)) = _
  rw [Mem.alloc_write, Mem.alloc_write]
  rfl

/-- Whether a call leaks a string: a put does if one of its copies fails and not the other. -/
def leaks : DhashOp → Bool
  | .put true allocKey allocValue _ _ => allocKey != allocValue
  | _ => false

/-- The same lists; one string more is leaked, if one copy was made. -/
theorem HeapRep.fail (h : HeapRep H t slots chains leaked) {allocKey allocValue : Bool}
    (hfail : allocKey = false ∨ allocValue = false) (c : KvCell) (key value : CString) :
    ∃ leaked', HeapRep ⟨H.table, (H.nodes.alloc c).release H.nodes.next,
        dup allocValue value (dup allocKey key H.strings)⟩ t slots chains leaked' ∧
      leaked'.length = leaked.length + (leaks (.put true allocKey allocValue key value)).toNat := by
  obtain ⟨owner, howned⟩ := h.strings
  have hcells := Mem.alloc_release H.nodes c
  have hcopies : ∀ T m, copiesAt ⟨T, (H.nodes.alloc c).release H.nodes.next, m⟩ = H.copiesAt := by
    intro T m
    funext p
    exact congrArg (Option.map _) (hcells p)
  -- A string that was there is there.
  have hdup : ∀ ok s (m : Mem CString) q u, m.cells q = some u →
      (dup ok s m).cells q = some u := by
    intro ok s m q u hq
    cases ok with
    | false => exact hq
    | true => exact (Mem.alloc_of_ne m (Nat.ne_of_lt (Mem.lt_next_of_some hq)) s).trans hq
  have hnodes : ∀ T p node, H.NodeAt p node → NodeAt ⟨T, (H.nodes.alloc c).release H.nodes.next,
      dup allocValue value (dup allocKey key H.strings)⟩ p node := by
    rintro T p node ⟨k, v, hkv, hk, hv⟩
    refine ⟨k, v, ?_, hdup _ _ _ _ _ (hdup _ _ _ _ _ hk), hdup _ _ _ _ _ (hdup _ _ _ _ _ hv)⟩
    rw [hcopies]
    exact hkv
  have hrep : ∀ {owner' leaked'}, Owned H.copiesAt (dup allocValue value
      (dup allocKey key H.strings)) owner' leaked' → HeapRep ⟨H.table,
        (H.nodes.alloc c).release H.nodes.next, dup allocValue value (dup allocKey key H.strings)⟩
        t slots chains leaked' := by
    intro owner' leaked' howned'
    refine ⟨h.buckets.congr hcells, fun i hi => (h.nodes i hi).imp (hnodes _), owner', ?_⟩
    rw [hcopies]
    exact howned'
  cases allocKey with
  | false =>
      cases allocValue with
      | false => exact ⟨leaked, hrep howned, rfl⟩
      | true =>
          obtain ⟨owner', howned'⟩ := howned.leak value
          exact ⟨_, hrep howned', rfl⟩
  | true =>
      cases allocValue with
      | false =>
          obtain ⟨owner', howned'⟩ := howned.leak key
          exact ⟨_, hrep howned', rfl⟩
      | true => exact absurd hfail (by decide)

end Put

/-! ### Taking a node away -/

section Unlink

variable {H H' : DhashHeap} {t : Vector (List KvNode) dhashTableSize}
  {slots slots' : Vector Ptr dhashTableSize} {chains : Vector (List Ptr) dhashTableSize}
  {leaked : List Ptr} {i : Nat} {z : Ptr} {c : KvCell} {ps : List Ptr} {l : List KvNode}

/-- The strings of a node are two. -/
theorem HeapRep.strings_of (h : HeapRep H t slots chains leaked) (hc : H.nodes.cells z = some c) :
    ∃ k v, H.strings.cells c.key = some k ∧ H.strings.cells c.value = some v ∧
      c.value ≠ c.key := by
  obtain ⟨owner, howned⟩ := h.strings
  have hcopies : H.copiesAt z = some (c.key, c.value) := congrArg (Option.map _) hc
  obtain ⟨hkey, k, hk⟩ := howned.key _ _ _ hcopies
  obtain ⟨hvalue, v, hv⟩ := howned.value _ _ _ hcopies
  refine ⟨k, v, hk, hv, fun heq => ?_⟩
  rw [heq, hkey] at hvalue
  cases hvalue

/-- A node that is on no chain any more is given back with its strings. -/
theorem HeapRep.unlink (h : HeapRep H t slots chains leaked) (hi : i < dhashTableSize)
    (hz : z ∈ chains[i]) (hc : H.nodes.cells z = some c)
    (hbuckets : Buckets KvCell.next H'.nodes slots' (chains.set i ps))
    (hgone : H'.copiesAt z = none)
    (hother : ∀ p, p ≠ z → H'.copiesAt p = H.copiesAt p)
    (hstrings : H'.strings = (H.strings.release c.key).release c.value)
    (hnot : z ∉ ps) (hnodes : List.Forall₂ H.NodeAt ps l) :
    HeapRep H' (t.set i l) slots' (chains.set i ps) leaked := by
  obtain ⟨owner, howned⟩ := h.strings
  have hcopies : H.copiesAt z = some (c.key, c.value) := congrArg (Option.map _) hc
  obtain ⟨howned', hkept⟩ := howned.remove hcopies hgone hother
  rw [← hstrings] at howned' hkept
  have hlist : ∀ {qs l'}, z ∉ qs → List.Forall₂ H.NodeAt qs l' → List.Forall₂ H'.NodeAt qs l' := by
    intro qs l' hzq hall
    have hne : ∀ p ∈ qs, p ≠ z := fun p hp heq => hzq (heq ▸ hp)
    refine ((List.forall₂_and_left _ _).mpr ⟨hne, hall⟩).imp ?_
    rintro p node ⟨hp, k, v, hkv, hk, hv⟩
    obtain ⟨hk', hv'⟩ := hkept p k v hp hkv
    exact ⟨k, v, (hother p hp).trans hkv, hk'.trans hk, hv'.trans hv⟩
  exact ⟨hbuckets, pointwise_set hi (hlist hnot hnodes) fun j hj hne =>
    hlist (h.buckets.disjoint i j hi hj hne z hz) (h.nodes j hj), owner, howned'⟩

/-- The first node of a chain, wherever the table points. -/
theorem HeapRep.unlink_first (h : HeapRep H t slots chains leaked) (hi : i < dhashTableSize)
    (hsplit : chains[i] = z :: ps) (hc : H.nodes.cells z = some c)
    (hnodes : List.Forall₂ H.NodeAt ps l) (T : SlotArray dhashTableSize) :
    HeapRep ⟨T, H.nodes.release z, (H.strings.release c.key).release c.value⟩ (t.set i l)
      (slots.set i c.next) (chains.set i ps) leaked := by
  have hz : z ∈ chains[i] := by
    rw [hsplit]
    exact List.mem_cons_self
  have hnd := h.buckets.nodup i hi
  rw [hsplit] at hnd
  refine h.unlink hi hz hc (h.buckets.unlink_first hi hsplit hc) ?_ ?_ rfl
    (List.nodup_cons.mp hnd).1 hnodes
  · exact congrArg (Option.map _) (Mem.release_self H.nodes z)
  · exact fun p hp => congrArg (Option.map _) (Mem.release_of_ne H.nodes hp)

/-- A node behind another one. -/
theorem HeapRep.unlink_behind (h : HeapRep H t slots chains leaked) (hi : i < dhashTableSize)
    {a : Ptr} {u : KvCell} {A B : List Ptr} (hsplit : chains[i] = A ++ [a] ++ z :: B)
    (ha : H.nodes.cells a = some u) (hc : H.nodes.cells z = some c)
    (hnodes : List.Forall₂ H.NodeAt (A ++ [a] ++ B) l) (T : SlotArray dhashTableSize) :
    HeapRep ⟨T, (H.nodes.write a { u with next := c.next }).release z,
        (H.strings.release c.key).release c.value⟩ (t.set i l) slots
      (chains.set i (A ++ [a] ++ B)) leaked := by
  have hz : z ∈ chains[i] := by
    rw [hsplit]
    simp
  have hnd := h.buckets.nodup i hi
  rw [hsplit] at hnd
  obtain ⟨-, hndB, hdisj⟩ := List.nodup_append.mp hnd
  have hnot : z ∉ A ++ [a] ++ B := by
    intro hmem
    rcases List.mem_append.mp hmem with hmem | hmem
    · exact hdisj z hmem z List.mem_cons_self rfl
    · exact (List.nodup_cons.mp hndB).1 hmem
  refine h.unlink hi hz hc (h.buckets.unlink_behind hi hsplit ha hc rfl) ?_ ?_ rfl hnot hnodes
  · exact congrArg (Option.map _) (Mem.release_self _ z)
  · intro p hp
    refine (congrArg (Option.map _) (Mem.release_of_ne _ hp)).trans ?_
    by_cases hpa : p = a
    · subst hpa
      -- The pointers to the strings are as before.
      rw [Mem.write_self ha, copiesAt, ha]
      rfl
    · rw [Mem.write_of_ne _ hpa]
      rfl

/-- The three calls of `free` at the end of a deletion. -/
theorem release_run (hc : H.nodes.cells z = some c) {k v : CString}
    (hk : H.strings.cells c.key = some k) (hv : H.strings.cells c.value = some v)
    (hne : c.value ≠ c.key) :
    (do
      freeString (← deref z).key
      freeString (← deref z).value
      free z
      return (0 : Int) : Prog DhashHeap Int).run H =
      .ok (0, ⟨H.table, H.nodes.release z, (H.strings.release c.key).release c.value⟩) := by
  have hv' : (H.strings.release c.key).cells c.value = some v :=
    (Mem.release_of_ne H.strings hne).trans hv
  refine run_bind_of (deref_run hc) (run_bind_of (freeString_run hk) ?_)
  refine run_bind_of (deref_run hc) (run_bind_of (freeString_run hv') ?_)
  exact run_bind_of (free_run hc) rfl

end Unlink

/-! ### Calls -/

/-- The heap has the lists of `t`, in the chains of its table, and `n` strings are leaked. -/
def Represents (H : DhashHeap) (t : Vector (List KvNode) dhashTableSize) (n : Nat) : Prop :=
  ∃ slots chains leaked, H.table = .allocated slots ∧ HeapRep H t slots chains leaked ∧
    leaked.length = n

/-- What `init_dhashtable` leaves. -/
def fresh : DhashHeap :=
  ⟨.allocated (Vector.replicate dhashTableSize 0), Mem.empty, Mem.empty⟩

theorem Represents.fresh : Represents DhashHeap.fresh (Vector.replicate dhashTableSize []) 0 := by
  refine ⟨_, _, [], rfl, ⟨Buckets.empty, ?_, fun _ => none, ?_⟩, rfl⟩
  · intro i hi
    rw [Vector.getElem_replicate, Vector.getElem_replicate]
    exact .nil
  · refine ⟨?_, ?_, ?_, ?_, List.nodup_nil⟩
    · intro p k v hkv
      cases hkv
    · intro p k v hkv
      cases hkv
    · intro q hq
      cases hq
    · intro q s hq
      cases hq

section Calls

variable {H : DhashHeap} {t : Vector (List KvNode) dhashTableSize} {n : Nat}

/-- The same answer from the heap and from the lists, and the lists stay what the heap has. -/
def Agrees (H : DhashHeap) (t : Vector (List KvNode) dhashTableSize) (n : Nat) (o : DhashOp) :
    Prop :=
  ∃ r H' t', (DhashHeap.op o).run H = .ok (r, H') ∧
    (DhashTable.op o).run ⟨some t⟩ = .ok (r, ⟨some t'⟩) ∧ Represents H' t' (n + (leaks o).toNat)

theorem put_agrees (h : Represents H t n) (allocNode allocKey allocValue : Bool)
    (key value : CString) : Agrees H t n (.put allocNode allocKey allocValue key value) := by
  have hi := hashFunction_lt key
  cases allocNode with
  | false => exact ⟨.int (-1), H, t, rfl, rfl, h⟩
  | true =>
      obtain ⟨slots, chains, leaked, htable, hrep, rfl⟩ := h
      by_cases hfail : allocKey = false ∨ allocValue = false
      · obtain ⟨c, hrun⟩ := put_fails hfail H key value
        obtain ⟨leaked', hrep', hlength⟩ := hrep.fail hfail c key value
        refine ⟨.int (-1), _, t, run_map_of _ hrun, run_map_of _ ?_,
          slots, chains, leaked', htable, hrep', hlength⟩
        exact run_bind_of rfl (run_ite_neg (by decide) (run_bind_of rfl (run_ite_pos hfail rfl)))
      · obtain ⟨rfl, rfl⟩ : allocKey = true ∧ allocValue = true := by simpa using hfail
        refine ⟨.int 0, _, _, run_map_of _ (put_run htable key value),
          run_map_of _ ?_, _, _, leaked, rfl, hrep.push hi key value, rfl⟩
        refine run_bind_of rfl (run_ite_neg (by decide) (run_bind_of rfl (run_ite_neg hfail ?_)))
        exact run_bind_of (dhashChain_run rfl hi) (run_bind_of (setDhashChain_run rfl hi _) rfl)

/-- The walk for a key, in the heap and in its list. -/
theorem find_agrees (h : Represents H t n) (key : CString) :
    ∃ q found, (find key).run H = .ok (q, H) ∧
      (do
        let chain ← dhashChain (hashFunction key).toNat
        liftE (findKv key chain) : Prog DhashTable (Option KvNode)).run ⟨some t⟩ =
        .ok (found, ⟨some t⟩) ∧
      (q = 0 ∧ found = none ∨ ∃ node, H.NodeAt q node ∧ found = some node) := by
  have hi := hashFunction_lt key
  obtain ⟨slots, chains, leaked, htable, hrep, -⟩ := h
  obtain ⟨q, hrun, hfound⟩ := find_run (hrep.buckets.chain _ hi) (hrep.nodes _ hi) (hrep.fuel hi)
  refine ⟨q, _, run_bind_of (getSlot_run htable hi) (run_bind_of (run_get H) hrun),
    run_bind_of (dhashChain_run rfl hi) ?_, hfound⟩
  rw [findKv_eq]
  rfl

theorem get_agrees (h : Represents H t n) (key : CString) : Agrees H t n (.get key) := by
  obtain ⟨q, found, hrun, hlist, hcases⟩ := find_agrees h key
  have hlist' : (KvStore.getKvDhashtable (some key)).run ⟨some t⟩ =
      .ok (found.map KvNode.value, ⟨some t⟩) := by
    obtain ⟨chain, s, hchain, hfound⟩ := run_bind_inv hlist
    exact run_bind_of rfl (run_bind_of hchain (run_bind_of hfound rfl))
  rcases hcases with ⟨rfl, rfl⟩ | ⟨node, ⟨k, v, hkv, -, hv⟩, rfl⟩
  · refine ⟨.str none, H, t, ?_, run_map_of _ hlist', h⟩
    have hget : (DhashHeap.getKvDhashtable (some key)).run H = .ok (0, H) :=
      run_bind_of rfl (run_bind_of hrun rfl)
    exact run_bind_of hget rfl
  · obtain ⟨c, hc, -, rfl⟩ := copiesAt_some hkv
    refine ⟨.str (some node.value), H, t, ?_, run_map_of _ hlist', h⟩
    have hget : (DhashHeap.getKvDhashtable (some key)).run H = .ok (c.value, H) :=
      run_bind_of rfl (run_bind_of hrun (run_ite_neg (Mem.ne_zero_of_some hc)
        (run_bind_of (deref_run hc) rfl)))
    refine run_bind_of hget (run_ite_neg (Mem.ne_zero_of_some hv) ?_)
    exact run_bind_of (readString_run hv) rfl

theorem exist_agrees (h : Represents H t n) (key : CString) : Agrees H t n (.exist key) := by
  obtain ⟨q, found, hrun, hlist, hcases⟩ := find_agrees h key
  obtain ⟨chain, s, hchain, hfound⟩ := run_bind_inv hlist
  have hlist' : (KvStore.existKvDhashtable (some key)).run ⟨some t⟩ =
      .ok (if found.isSome then 1 else 0, ⟨some t⟩) :=
    run_bind_of rfl (run_bind_of hchain (run_bind_of hfound rfl))
  have hheap : (DhashHeap.existKvDhashtable (some key)).run H = .ok (if q = 0 then 0 else 1, H) :=
    run_bind_of rfl (run_bind_of hrun rfl)
  have hsame : (if q = 0 then 0 else 1 : Int) = if found.isSome then 1 else 0 := by
    rcases hcases with ⟨rfl, rfl⟩ | ⟨node, hnode, rfl⟩
    · rfl
    · rw [if_neg hnode.ne_zero]
      rfl
  rw [hsame] at hheap
  exact ⟨_, H, t, run_map_of _ hheap, run_map_of _ hlist', h⟩

/-- The slots from `i` on are counted. -/
theorem countSlots_run {slots : Vector Ptr dhashTableSize}
    {chains : Vector (List Ptr) dhashTableSize} {leaked : List Ptr}
    (htable : H.table = .allocated slots) (h : HeapRep H t slots chains leaked) :
    ∀ (k i : Nat) (count : Int), i + k = dhashTableSize →
      (countSlots k i count).run H = .ok ((t.toList.drop i).foldl
        (fun count chain => chain.foldl (fun c _ => c + 1) count) count, H) := by
  intro k
  induction k with
  | zero =>
      intro i count hlast
      rw [List.drop_of_length_le (by rw [Vector.length_toList]; omega)]
      rfl
  | succ k ih =>
      intro i count hlast
      have hi : i < dhashTableSize := by omega
      refine run_bind_of (getSlot_run htable hi) (run_bind_of (run_get H) (run_bind_of
        (count_run (h.buckets.chain i hi) (h.nodes i hi) (h.fuel hi) count) ?_))
      have hdrop : t.toList.drop i = t[i] :: t.toList.drop (i + 1) := by
        rw [List.drop_eq_getElem_cons (by rwa [Vector.length_toList]), Vector.getElem_toList]
      rw [ih (i + 1) _ (by omega), hdrop, List.foldl_cons]

theorem count_agrees (h : Represents H t n) : Agrees H t n .count := by
  obtain ⟨slots, chains, leaked, htable, hrep, hlost⟩ := h
  have hheap := countSlots_run htable hrep dhashTableSize 0 0 rfl
  exact ⟨_, H, t, run_map_of _ hheap, rfl, slots, chains, leaked, htable, hrep, hlost⟩

theorem delete_agrees (h : Represents H t n) (key : CString) : Agrees H t n (.delete key) := by
  have hi := hashFunction_lt key
  obtain ⟨slots, chains, leaked, htable, hrep, hlost⟩ := h
  have hchain := hrep.buckets.chain _ hi
  rcases delete_run hchain (hrep.nodes _ hi) (hrep.fuel hi) (.slot (hashFunction key).toNat) with
    ⟨indirect, hrun, hnone⟩ | ⟨A, z, B, node, hsplit, hnode, hrun, hsome, hrest⟩
  · refine ⟨.int (-1), H, t, run_map_of _ ?_, run_map_of _ ?_,
      slots, chains, leaked, htable, hrep, hlost⟩
    · exact run_bind_of rfl (run_bind_of (getSlot_run htable hi) (run_bind_of (run_get H)
        (run_bind_of hrun rfl)))
    · refine run_bind_of rfl (run_bind_of (dhashChain_run rfl hi) ?_)
      rw [unlinkKv_eq, if_pos hnone]
      rfl
  · obtain ⟨c, hc⟩ := hnode.cell
    obtain ⟨k, v, hk, hv, hne⟩ := hrep.strings_of hc
    have hheap : ∀ {H' r},
        ((Indirect.slot (hashFunction key).toNat).after A |>.store c.next).run H =
          .ok ((), H') → (do
          freeString (← deref z).key
          freeString (← deref z).value
          free z
          return (0 : Int) : Prog DhashHeap Int).run H' = r →
        (DhashHeap.deleteKvDhashtable (some key)).run H = r := by
      intro H' r hstore hrelease
      refine run_bind_of rfl (run_bind_of (getSlot_run htable hi) (run_bind_of (run_get H)
        (run_bind_of hrun (run_ite_neg (Mem.ne_zero_of_some hc) ?_))))
      exact run_bind_of (deref_run hc) (run_bind_of hstore hrelease)
    have hlist : (KvStore.deleteKvDhashtable (some key)).run ⟨some t⟩ = .ok (0, ⟨some (t.set _
        (t[(hashFunction key).toNat].eraseP fun node => node.key = key))⟩) := by
      refine run_bind_of rfl (run_bind_of (dhashChain_run rfl hi) ?_)
      rw [unlinkKv_eq, if_neg hsome]
      exact run_bind_of (run_liftE_ok _ _) (run_bind_of (setDhashChain_run rfl hi _) rfl)
    rcases List.eq_nil_or_concat A with rfl | ⟨A, a, rfl⟩
    · -- The slot of the table is changed.
      have hstore := setSlot_run (s := H) htable hi c.next
      exact ⟨.int 0, _, _, run_map_of _ (hheap hstore (release_run hc hk hv hne)),
        run_map_of _ hlist, _, _, leaked, rfl,
        hrep.unlink_first hi hsplit hc hrest _, hlost⟩
    · -- The pointer of the node before is changed.
      rw [List.concat_eq_append] at hsplit hrest hheap
      have hmem : a ∈ chains[(hashFunction key).toNat] := by
        rw [hsplit]
        simp
      obtain ⟨u, hu⟩ := hrep.buckets.cell hmem
      have hnd := hrep.buckets.nodup _ hi
      rw [hsplit] at hnd
      have hza : z ≠ a := fun heq => (List.nodup_append.mp hnd).2.2 a (by simp) z
        List.mem_cons_self heq.symm
      have hc' : (H.nodes.write a { u with next := c.next }).cells z = some c :=
        (Mem.write_of_ne _ hza _).trans hc
      have hafter : (Indirect.slot (hashFunction key).toNat).after (A ++ [a]) = .next a := by
        rw [Indirect.after, List.getLast?_append]
        rfl
      have hstore : ((Indirect.next a).store c.next).run H = .ok ((), ⟨H.table,
          H.nodes.write a { u with next := c.next }, H.strings⟩) := assign_run hu _
      rw [hafter] at hheap
      exact ⟨.int 0, _, _, run_map_of _ (hheap hstore (release_run hc' hk hv hne)),
        run_map_of _ hlist, _, _, leaked, htable,
        hrep.unlink_behind hi hsplit hu hc hrest _, hlost⟩

theorem op_agrees (h : Represents H t n) (o : DhashOp) : Agrees H t n o := by
  cases o with
  | put a b c key value => exact put_agrees h a b c key value
  | get key => exact get_agrees h key
  | count => exact count_agrees h
  | exist key => exact exist_agrees h key
  | delete key => exact delete_agrees h key

end Calls

/-! ### What is allocated -/

section Ledger

variable {H : DhashHeap} {t : Vector (List KvNode) dhashTableSize} {n : Nat}
  {slots : Vector Ptr dhashTableSize} {chains : Vector (List Ptr) dhashTableSize}
  {leaked : List Ptr}

/-- The pointers of a node to its strings, one after the other. -/
def stringsOf (H : DhashHeap) (p : Ptr) : List Ptr :=
  ((H.copiesAt p).map fun kv => [kv.1, kv.2]).getD []

theorem stringsOf_some {p k v : Ptr} (h : H.copiesAt p = some (k, v)) :
    H.stringsOf p = [k, v] := by
  rw [stringsOf, h]
  rfl

/-- There are as many addresses on the chains as pairs on the lists. -/
theorem HeapRep.length (h : HeapRep H t slots chains leaked) :
    chains.toList.flatten.length = t.toList.flatten.length :=
  flatten_length fun i hi => (h.nodes i hi).length_eq

/-- The strings are those of the nodes, and the leaked ones. -/
theorem Owned.has {owner : Ptr → Option (Ptr × Bool)} {ps : List Ptr}
    (h : Owned H.copiesAt H.strings owner leaked) (hnodup : ps.Nodup)
    (hps : ∀ p, H.nodes.cells p ≠ none ↔ p ∈ ps) :
    H.strings.Has (2 * ps.length + leaked.length) := by
  have hsome : ∀ p ∈ ps, ∃ k v, H.copiesAt p = some (k, v) := by
    intro p hp
    obtain ⟨c, hc⟩ := Mem.cells_ne_none.mp ((hps p).mpr hp)
    exact ⟨c.key, c.value, congrArg (Option.map _) hc⟩
  have hmem : ∀ {p q k v}, H.copiesAt p = some (k, v) → (q ∈ H.stringsOf p ↔ q = k ∨ q = v) := by
    intro p q k v hkv
    rw [stringsOf_some hkv]
    simp
  have howner : ∀ p ∈ ps, ∀ q ∈ H.stringsOf p, ∃ b, owner q = some (p, b) := by
    intro p hp q hq
    obtain ⟨k, v, hkv⟩ := hsome p hp
    rcases (hmem hkv).mp hq with rfl | rfl
    · exact ⟨_, (h.key p _ _ hkv).1⟩
    · exact ⟨_, (h.value p _ _ hkv).1⟩
  refine ⟨ps.flatMap H.stringsOf ++ leaked, ?_, ?_, ?_⟩
  · refine List.nodup_append.mpr ⟨List.nodup_flatMap.mpr ⟨?_, ?_⟩, h.nodup, ?_⟩
    · intro p hp
      obtain ⟨k, v, hkv⟩ := hsome p hp
      have hne : k ≠ v := by
        rintro rfl
        have hboth := (h.key p k k hkv).1.symm.trans (h.value p k k hkv).1
        cases hboth
      rw [stringsOf_some hkv]
      simpa using hne
    · refine hnodup.imp_of_mem fun {p p'} hp hp' hne => ?_
      refine List.disjoint_left.mpr fun q hq hq' => ?_
      obtain ⟨b, hb⟩ := howner p hp q hq
      obtain ⟨b', hb'⟩ := howner p' hp' q hq'
      exact hne (Prod.mk.inj (Option.some.inj (hb.symm.trans hb'))).1
    · rintro q hq _ hl rfl
      obtain ⟨p, hp, hq⟩ := List.mem_flatMap.mp hq
      obtain ⟨b, hb⟩ := howner p hp q hq
      rw [(h.lost q hl).1] at hb
      cases hb
  · intro q
    rw [Mem.cells_ne_none, List.mem_append, List.mem_flatMap]
    constructor
    · rintro ⟨s, hs⟩
      rcases h.all q s hs with hl | ⟨p, k, v, hkv, hq⟩
      · exact Or.inr hl
      · obtain ⟨c, hc, -⟩ := copiesAt_some hkv
        exact Or.inl ⟨p, (hps p).mp (Mem.cells_ne_none.mpr ⟨c, hc⟩), (hmem hkv).mpr hq⟩
    · rintro (⟨p, hp, hq⟩ | hl)
      · obtain ⟨k, v, hkv⟩ := hsome p hp
        rcases (hmem hkv).mp hq with rfl | rfl
        · exact (h.key p _ _ hkv).2
        · exact (h.value p _ _ hkv).2
      · exact (h.lost q hl).2
  · have hlength : ∀ p ∈ ps, (H.stringsOf p).length = 2 := by
      intro p hp
      obtain ⟨k, v, hkv⟩ := hsome p hp
      rw [stringsOf_some hkv]
      rfl
    rw [List.length_append, List.length_flatMap, List.map_congr_left hlength, List.map_const',
      List.sum_replicate_nat, Nat.mul_comm]

/-- A node and two strings for each pair, and the leaked strings. -/
theorem Represents.has (h : Represents H t n) :
    H.nodes.Has t.toList.flatten.length ∧ H.strings.Has (2 * t.toList.flatten.length + n) := by
  obtain ⟨slots, chains, leaked, -, hrep, rfl⟩ := h
  obtain ⟨hnodup, hall⟩ := hrep.buckets.has
  obtain ⟨owner, howned⟩ := hrep.strings
  rw [← hrep.length]
  exact ⟨⟨_, hnodup, hall, rfl⟩, howned.has hnodup hall⟩

end Ledger

/-! ### Destruction -/

section Destroy

variable {H : DhashHeap} {t : Vector (List KvNode) dhashTableSize}
  {slots : Vector Ptr dhashTableSize} {chains : Vector (List Ptr) dhashTableSize}
  {leaked : List Ptr}

/--
The nodes of a chain are given back from the front.  The table is not changed meanwhile; `slots`
say where the chains are that are left.
-/
theorem destChain_run {i : Nat} (hi : i < dhashTableSize) {ps : List Ptr} :
    ∀ {fuel : Nat} {H t slots chains}, HeapRep H t slots chains leaked → chains[i] = ps →
      ps.length < fuel →
      ∃ H' t' slots' chains', (loop destDhashtableStep fuel slots[i]).run H = .ok ((), H') ∧
        H'.table = H.table ∧ HeapRep H' t' slots' chains' leaked ∧ chains'[i] = [] ∧
        ∀ j, ∀ hj : j < dhashTableSize, j ≠ i → slots'[j] = slots[j] ∧ chains'[j] = chains[j] := by
  induction ps with
  | nil =>
      intro fuel H t slots chains h hchain hfuel
      obtain ⟨fuel, rfl⟩ : ∃ m, fuel = m + 1 := ⟨fuel - 1, by omega⟩
      have hend := h.buckets.chain i hi
      rw [hchain] at hend
      refine ⟨H, t, slots, chains, ?_, rfl, h, hchain, fun _ _ _ => ⟨rfl, rfl⟩⟩
      have hstep : (destDhashtableStep slots[i]).run H = .ok (.inr (), H) :=
        run_ite_neg (not_not.mpr hend) rfl
      exact loop_inr hstep
  | cons z ps ih =>
      intro fuel H t slots chains h hchain hfuel
      rw [List.length_cons] at hfuel
      obtain ⟨fuel, rfl⟩ : ∃ m, fuel = m + 1 := ⟨fuel - 1, by omega⟩
      have hfirst := h.buckets.chain i hi
      have hnodes := h.nodes i hi
      rw [hchain] at hfirst hnodes
      obtain ⟨hz, -⟩ := hfirst
      obtain ⟨node, l, hnode, hrest, -⟩ := List.forall₂_cons_left_iff.mp hnodes
      obtain ⟨c, hc⟩ := hnode.cell
      obtain ⟨k, v, hk, hv, hne⟩ := h.strings_of hc
      have hv' : (H.strings.release c.key).cells c.value = some v :=
        (Mem.release_of_ne H.strings hne).trans hv
      have hstep : (destDhashtableStep z).run H = .ok (.inl c.next,
          ⟨H.table, H.nodes.release z, (H.strings.release c.key).release c.value⟩) := by
        refine run_ite_pos (Mem.ne_zero_of_some hc) (run_bind_of (deref_run hc) ?_)
        refine run_bind_of (freeString_run hk) (run_bind_of (freeString_run hv') ?_)
        exact run_bind_of (free_run hc) rfl
      have hrep := h.unlink_first hi hchain hc hrest H.table
      obtain ⟨H', t', slots', chains', hrun, htable, hrep', hempty, hother⟩ :=
        @ih fuel _ _ _ _ hrep (Vector.getElem_set_self hi) (by omega)
      refine ⟨H', t', slots', chains', ?_, htable, hrep', hempty, ?_⟩
      · rw [hz, loop_inl hstep, ← hrun, Vector.getElem_set_self]
      · intro j hj hji
        obtain ⟨hslot, hchain'⟩ := hother j hj hji
        rw [hslot, hchain', Vector.getElem_set_ne hi hj hji.symm,
          Vector.getElem_set_ne hi hj hji.symm]
        exact ⟨rfl, rfl⟩

/-- The slots from `i` on, when the chains before are empty. -/
theorem destSlots_run {table : Vector Ptr dhashTableSize} :
    ∀ (k : Nat) {i : Nat} {H t slots chains}, HeapRep H t slots chains leaked →
      i + k = dhashTableSize → H.table = .allocated table →
      (∀ j, ∀ hj : j < dhashTableSize, i ≤ j → slots[j] = table[j]) →
      (∀ j, ∀ hj : j < dhashTableSize, j < i → chains[j] = []) →
      ∃ H' t' slots' chains', (destDhashtableSlots k i).run H = .ok ((), H') ∧
        H'.table = .allocated table ∧ HeapRep H' t' slots' chains' leaked ∧
        ∀ j, ∀ hj : j < dhashTableSize, chains'[j] = [] := by
  intro k
  induction k with
  | zero =>
      intro i H t slots chains h hlast htable _ hbefore
      exact ⟨H, t, slots, chains, rfl, htable, h, fun j hj => hbefore j hj (by omega)⟩
  | succ k ih =>
      intro i H t slots chains h hlast htable hslots hbefore
      have hi : i < dhashTableSize := by omega
      obtain ⟨H', t', slots', chains', hrun, htable', hrep, hempty, hother⟩ :=
        destChain_run hi h rfl (h.fuel hi)
      rw [hslots i hi (Nat.le_refl i)] at hrun
      obtain ⟨H'', t'', slots'', chains'', hrun', hrest⟩ := @ih (i + 1) H' t' slots' chains' hrep
        (by omega) (htable'.trans htable) (fun j hj hij => by
          rw [(hother j hj (by omega)).1, hslots j hj (by omega)]) (fun j hj hji => by
          by_cases heq : j = i
          · subst heq
            exact hempty
          · rw [(hother j hj heq).2, hbefore j hj (by omega)])
      refine ⟨H'', t'', slots'', chains'', ?_, hrest⟩
      exact run_bind_of (getSlot_run htable hi) (run_bind_of (run_get H) (run_bind_of hrun hrun'))

/-- Everything is given back but the leaked strings. -/
theorem Represents.destroy {n : Nat} (h : Represents H t n) :
    ∃ H', destDhashtable.run H = .ok ((), H') ∧ H'.table = .freed ∧ H'.nodes.Has 0 ∧
      H'.strings.Has n := by
  obtain ⟨slots, chains, leaked, htable, hrep, rfl⟩ := h
  obtain ⟨H', t', slots', chains', hrun, htable', hrep', hempty⟩ :=
    destSlots_run dhashTableSize hrep (Nat.zero_add _) htable (fun _ _ _ => rfl)
      (fun j _ hj => absurd hj (Nat.not_lt_zero j))
  have hnone : ∀ p, H'.nodes.cells p ≠ none ↔ p ∈ ([] : List Ptr) := by
    intro p
    rw [Mem.cells_ne_none]
    refine ⟨fun ⟨v, hv⟩ => ?_, fun hp => (List.not_mem_nil hp).elim⟩
    obtain ⟨i, hi, hp⟩ := hrep'.buckets.all p v hv
    rwa [hempty i hi] at hp
  obtain ⟨owner, howned⟩ := hrep'.strings
  have hstrings := howned.has List.nodup_nil hnone
  rw [List.length_nil, Nat.mul_zero, Nat.zero_add] at hstrings
  exact ⟨{ H' with table := .freed }, run_bind_of hrun (freeSlots_run htable'), rfl,
    ⟨[], List.nodup_nil, hnone, rfl⟩, hstrings⟩

end Destroy

/-! ### Runs -/

/-- Calls one after another. -/
theorem Represents.run {H : DhashHeap} {t : Vector (List KvNode) dhashTableSize} {n : Nat}
    (h : Represents H t n) (ops : List DhashOp) :
    ∃ rs H' t', (runCalls DhashHeap.op ops).run H = .ok (rs, H') ∧
      (runCalls DhashTable.op ops).run ⟨some t⟩ = .ok (rs, ⟨some t'⟩) ∧
      Represents H' t' (n + ops.countP leaks) := by
  induction ops generalizing H t n with
  | nil => exact ⟨[], H, t, rfl, rfl, h⟩
  | cons o ops ih =>
      obtain ⟨r, H₁, t₁, hheap, hlist, h₁⟩ := op_agrees h o
      obtain ⟨rs, H₂, t₂, hheap', hlist', h₂⟩ := ih h₁
      refine ⟨r :: rs, H₂, t₂, runCalls_cons_ok hheap hheap', runCalls_cons_ok hlist hlist', ?_⟩
      have hcount : n + (o :: ops).countP leaks = n + (leaks o).toNat + ops.countP leaks := by
        rw [List.countP_cons, Nat.add_assoc, Nat.add_comm (ops.countP leaks)]
        cases leaks o <;> rfl
      rw [hcount]
      exact h₂

theorem leaks_eq_zero (ops : List DhashOp) :
    ops.countP leaks = 0 ↔
      ∀ allocKey allocValue key value, .put true allocKey allocValue key value ∈ ops →
        allocKey = allocValue := by
  rw [List.countP_eq_zero]
  constructor
  · intro hnone a b key value hmem
    by_contra hne
    exact hnone _ hmem (bne_iff_ne.mpr hne)
  · intro hall o ho hleak
    cases o with
    | put node a b key value =>
        cases node with
        | false => cases hleak
        | true => exact bne_iff_ne.mp hleak (hall a b key value ho)
    | get | count | exist | delete => cases hleak

end DhashHeap

/--
**`dest_dhashtable` gives everything back that is known**: after any run it returns, every node
and the strings of every node are given back, each once, and what is left are the strings that
the failed puts leaked.  So nothing is left exactly when no put made just one of its copies.
-/
theorem dhash_destroyed_iff (ops : List DhashOp) :
    ∃ H₀ rs H H', (DhashHeap.initDhashtable true).run DhashHeap.static = .ok (0, H₀) ∧
      (runCalls DhashHeap.op ops).run H₀ = .ok (rs, H) ∧
      DhashHeap.destDhashtable.run H = .ok ((), H') ∧ H'.table = .freed ∧
      (∀ p, H'.nodes.cells p = none) ∧ H'.strings.Has (ops.countP DhashHeap.leaks) ∧
      ((∀ q, H'.strings.cells q = none) ↔ ∀ allocKey allocValue key value,
        .put true allocKey allocValue key value ∈ ops → allocKey = allocValue) := by
  obtain ⟨rs, H, t, hheap, -, hrep⟩ := DhashHeap.Represents.fresh.run ops
  obtain ⟨H', hdest, hfreed, hnodes, hstrings⟩ := hrep.destroy
  rw [Nat.zero_add] at hstrings
  refine ⟨_, rs, H, H', rfl, hheap, hdest, hfreed, hnodes.empty_iff.mpr rfl, hstrings, ?_⟩
  exact hstrings.empty_iff.trans (DhashHeap.leaks_eq_zero ops)

end KvStore
