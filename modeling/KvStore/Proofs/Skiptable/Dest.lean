/-
Taking the skip list down.

`dest_skiptable` goes through the levels from the highest one down, and on each it deletes
the nodes one after the other.  A deleted node is gone from every level, and the one behind
it on this level was read before.  Once a level has been gone through, no tower reaches it
any more; after the lowest one there is no node left.

The key that `delete` is given lies in the node that the call frees.  It is compared only
while the node is still there, and since keys are different, that node is the one found.
-/
import KvStore.Proofs.Skiptable.Engine

namespace KvStore

section Rounds

variable {S : SkipList} {L L' A B : List Tower} {e : Tower} {i : Nat} {current : Ptr}
  {rest : List Ptr}

/-- The key of a node is compared where it lies. -/
theorem SkipRep.compareNodes (h : SkipRep S L) (he : e ∈ L) :
    Compares S L (compareNodes e.ptr) e.name := by
  intro a ha
  obtain ⟨fs, hcell, -⟩ := h.cell ha
  obtain ⟨fs', hcell', -⟩ := h.cell he
  obtain ⟨r, hr, hlt, heq⟩ := strcmp_spec (h.sound a ha).reads (h.sound e he).reads
  refine ⟨r, run_bind_of (deref_run hcell) (run_bind_of (deref_run hcell') ?_), hlt, heq⟩
  show (liftE (strcmp (a.key.val ++ a.value.val) (e.key.val ++ e.value.val))).run S = _
  rw [hr]
  rfl

/-- Keys are different, so it is the entry itself that goes. -/
theorem SkipDeleted.of_ascending (hd : SkipDeleted e.name (A ++ e :: B) L')
    (hasc : (A ++ e :: B).Pairwise fun a b => a.name < b.name) : L' = A ++ B := by
  rcases hd with ⟨A', e', B', hlist, hname, rfl⟩ | ⟨habs, -⟩
  · obtain ⟨-, hbehind, hfront⟩ := List.pairwise_append.mp hasc
    have hA : e' ∉ A := fun hc => ne_of_lt (hfront e' hc e (by simp)) hname
    have hB : e' ∉ B := fun hc => ne_of_gt ((List.pairwise_cons.mp hbehind).1 e' hc) hname
    obtain ⟨rfl, -, rfl⟩ := (List.append_cons_inj_of_notMem hA hB).mp hlist
    rfl
  · exact absurd rfl (habs e (by simp))

/-- The first node of a lane. -/
theorem lane_first (h : lane i L = current :: rest) :
    ∃ A e B, L = A ++ e :: B ∧ lane i A = [] ∧ i < e.height ∧ e.ptr = current ∧
      lane i B = rest := by
  induction L with
  | nil => cases h
  | cons a L ih =>
      by_cases hi : i < a.height
      · rw [lane_cons_pos hi] at h
        obtain ⟨hptr, hrest⟩ := List.cons.inj h
        exact ⟨[], a, L, rfl, rfl, hi, hptr, hrest⟩
      · rw [lane_cons_neg hi] at h
        obtain ⟨A, e, B, rfl, hA, he⟩ := ih h
        exact ⟨a :: A, e, B, rfl, by rw [lane_cons_neg hi, hA], he⟩

/-- What a part of the teardown does: the nodes `ps` go, and the others stay as they are. -/
structure TakenDown (S : SkipList) (L : List Tower) (ps : List Ptr) (S' : SkipList)
    (L' : List Tower) : Prop where
  rep : SkipRep S' L'
  ptrs : (L.map fun e => e.ptr).Perm (ps ++ L'.map fun e => e.ptr)
  sub : ∀ e ∈ L', e ∈ L
  header : S'.header = S.header
  lock : S'.lock = S.lock

theorem TakenDown.refl (h : SkipRep S L) : TakenDown S L [] S L :=
  ⟨h, .refl _, fun _ he => he, rfl, rfl⟩

theorem TakenDown.trans {S₁ S₂ : SkipList} {L₁ L₂ : List Tower} {ps qs : List Ptr}
    (h : TakenDown S L ps S₁ L₁) (h' : TakenDown S₁ L₁ qs S₂ L₂) :
    TakenDown S L (ps ++ qs) S₂ L₂ := by
  refine ⟨h'.rep, ?_, fun e he => h.sub e (h'.sub e he), h'.header.trans h.header,
    h'.lock.trans h.lock⟩
  rw [List.append_assoc]
  exact h.ptrs.trans (h'.ptrs.append_left ps)

/-- **A round deletes the first node of the level** and goes on with the second. -/
theorem dest_level_round (deleted : List Ptr) (h : SkipRep S L) (hlock : S.lock ≠ .held)
    (hi : i < maxLevel) (hlane : lane i L = current :: rest) :
    ∃ S' L', (destSkiptableStep i (current, deleted)).run S =
        .ok (.inl (rest.headD 0, deleted ++ [current]), S') ∧
      TakenDown S L [current] S' L' ∧ lane i L' = rest := by
  obtain ⟨A, e, B, rfl, hA, hheight, rfl, rfl⟩ := lane_first hlane
  have he : e ∈ A ++ e :: B := by simp
  have hne : e.ptr ≠ 0 := ptr_ne_zero (h.nodes e he)
  have hnext : forwardAt S.mem i e.ptr = some ((lane i B).headD 0) := by
    have hchain := h.chains i hi
    rw [hlane] at hchain
    exact hchain.2.2.first
  obtain ⟨mu, hmu, hunlock⟩ := Mutex.lock_unlock hlock
  have hrep : SkipRep { S with lock := mu } (A ++ e :: B) := h.congr rfl rfl rfl
  obtain ⟨S₁, L', hdelete, hrep₁, hkeep, hd⟩ := deleteBy_spec hrep (hrep.compareNodes he)
  obtain rfl := hd.of_ascending h.ascending
  refine ⟨{ S₁ with lock := S₁.lock.unlock }, A ++ B, ?_, ⟨hrep₁.congr rfl rfl rfl, ?_, ?_,
    hkeep.header, ?_⟩, ?_⟩
  · refine run_ite_pos hne (run_bind_of (getForward_run hnext) ?_)
    exact run_bind_of (mutexLock_run hmu) (run_bind_of hdelete (run_bind_of (mutexUnlock_run _) rfl))
  · rw [List.map_append, List.map_append, List.map_cons]
    exact List.perm_middle
  · intro a ha
    simp only [List.mem_append, List.mem_cons] at ha ⊢
    tauto
  · show S₁.lock.unlock = _
    rw [hkeep.lock, hunlock]
  · rw [lane_append, hA, List.nil_append]

/-- The loop on a level deletes the nodes on it, and leaves when there is none. -/
theorem dest_level {fuel : Nat} (deleted : List Ptr) (h : SkipRep S L) (hlock : S.lock ≠ .held)
    (hi : i < maxLevel) (hfuel : (lane i L).length < fuel) :
    ∃ ps S' L', (loop (destSkiptableStep i) fuel ((lane i L).headD 0, deleted)).run S =
        .ok (deleted ++ ps, S') ∧ TakenDown S L ps S' L' ∧ lane i L' = [] := by
  obtain ⟨fuel, rfl⟩ : ∃ n, fuel = n + 1 := ⟨fuel - 1, by omega⟩
  -- By induction on the nodes that are still on the level.
  generalize hlane : lane i L = ps at hfuel
  induction ps generalizing S L deleted fuel with
  | nil =>
      have hleave : (destSkiptableStep i (0, deleted)).run S = .ok (.inr deleted, S) := rfl
      refine ⟨[], S, L, ?_, .refl h, hlane⟩
      rw [List.append_nil]
      exact loop_inr hleave
  | cons current rest ih =>
      obtain ⟨S₁, L₁, hround, htaken, hrest⟩ := dest_level_round deleted h hlock hi hlane
      rw [List.length_cons] at hfuel
      obtain ⟨fuel, rfl⟩ : ∃ n, fuel = n + 1 := ⟨fuel - 1, by omega⟩
      obtain ⟨ps, S', L', hloop, htaken', hend⟩ :=
        ih (deleted ++ [current]) htaken.rep (by rw [htaken.lock]; exact hlock) fuel hrest (by omega)
      refine ⟨current :: ps, S', L', ?_, htaken.trans htaken', hend⟩
      refine (loop_inl hround).trans (hloop.trans ?_)
      rw [List.append_assoc]
      rfl

/-- **The levels below `n` are gone through one after the other**, and no node is left. -/
theorem destSkiptableLevels_spec {n : Nat} (deleted : List Ptr) (h : SkipRep S L)
    (hlock : S.lock ≠ .held) (hn : n ≤ maxLevel) (hheights : ∀ e ∈ L, e.height ≤ n) :
    ∃ ps S', (destSkiptableLevels n deleted).run S = .ok (deleted ++ ps, S') ∧
      TakenDown S L ps S' [] := by
  induction n generalizing S L deleted with
  | zero =>
      have hnil : L = [] := by
        refine List.eq_nil_iff_forall_not_mem.mpr ?_
        intro e he
        have := (h.heights e he).1
        have := hheights e he
        omega
      subst hnil
      refine ⟨[], S, ?_, .refl h⟩
      rw [List.append_nil]
      rfl
  | succ i ih =>
      have hfirst := getForward_run (h.chains i hn).first
      have hfuel : (lane i L).length < S.fuel := by
        have hle := h.length_le
        have hlane := (lane_sublist (i := i) (L := L)).length_le
        rw [List.length_map] at hlane
        rw [SkipList.fuel]
        omega
      obtain ⟨ps, S₁, L₁, hloop, htaken, hend⟩ := dest_level deleted h hlock hn hfuel
      -- The towers that reached this level are gone.
      have hheights₁ : ∀ e ∈ L₁, e.height ≤ i := by
        intro e he
        by_contra hc
        have hin : e.ptr ∈ lane i L₁ := mem_lane.mpr ⟨e, he, not_le.mp hc, rfl⟩
        rw [hend] at hin
        cases hin
      obtain ⟨qs, S', hrest, htaken'⟩ := ih (deleted ++ ps) htaken.rep
        (by rw [htaken.lock]; exact hlock) (by omega) hheights₁
      refine ⟨ps ++ qs, S', ?_, htaken.trans htaken'⟩
      rw [← List.append_assoc]
      exact run_bind_of (run_get S) (run_bind_of hfirst (run_bind_of hloop hrest))

end Rounds

/-! ### Over whole runs -/

/-- A call that returns keeps the list in order, whichever allocations succeed. -/
theorem tableOp_keeps {S S' : SkipList} {op : TableOp} {r : Int}
    (h : (∃ L m, ListStores S L m) ∧ S.lock ≠ .held) (hfit : op.KeyFitting)
    (hrun : (tableOp op).run S = .ok (r, S')) :
    (∃ L m, ListStores S' L m) ∧ S'.lock ≠ .held := by
  obtain ⟨⟨L, m, hst⟩, hlock⟩ := h
  cases op with
  | put a b k v =>
      have htrue : (putKvSkiptable true true (some k) (some v)).run S = .ok (r, S') := by
        by_cases hab : a = true ∧ b = true
        · obtain ⟨rfl, rfl⟩ := hab
          exact hrun
        · obtain ⟨hsame, herr⟩ := hst.put_noAlloc (k := k) hlock hab v
          by_cases hk : k ∈ m
          · exact (hsame hk).symm.trans hrun
          · cases (herr hk).symm.trans hrun
      obtain ⟨S₁, L₁, hput, hst₁, -, -, hlock₁⟩ := hst.put hlock hfit v
      cases hput.symm.trans htrue
      exact ⟨⟨L₁, _, hst₁⟩, by rw [hlock₁]; exact hlock⟩
  | delete k =>
      obtain ⟨S₁, L₁, hdelete, hst₁, -, -, hlock₁, -⟩ := hst.delete k
      cases hdelete.symm.trans hrun
      exact ⟨⟨L₁, _, hst₁⟩, by rw [hlock₁]; exact hlock⟩

/--
**The loops of `dest_skiptable` delete every node once**: after any run of puts and deletes
from a fresh list they return, having called `delete` for each node besides the header
exactly once; no such node is then allocated, and the header's pointers are null on all
levels.
-/
theorem destSkiptable_deletes_all (S₀ : SkipList) (mu : Mutex) (hmu : mu ≠ .held)
    (ops : List TableOp) (hops : ∀ op ∈ ops, op.KeyFitting) :
    ∃ S₁, (initSkiptable true true mu).run S₀ = .ok (0, S₁) ∧
      ∀ rs S, (runCalls tableOp ops).run S₁ = .ok (rs, S) →
        ∃ deleted S', destSkiptableLoops.run S = .ok (deleted, S') ∧ deleted.Nodup ∧
          (∀ p, p ∈ deleted ↔ S.header < p ∧ (S.mem.cells p).isSome) ∧
          (∀ p, S.header < p → S'.mem.cells p = none) ∧
          S'.header = S.header ∧
          ∀ i, i < maxLevel → (getForward S'.header i).run S' = .ok (0, S') := by
  obtain ⟨S₁, hinit, hrep₁, hlock₁, -⟩ := initSkiptable_rep S₀ mu
  refine ⟨S₁, hinit, ?_⟩
  intro rs S hrun
  obtain ⟨⟨L, m, hst⟩, hlock⟩ := runCalls_keeps (fun S op r S' => tableOp_keeps)
    ⟨⟨[], ∅, hrep₁, Holds.nil⟩, by rw [hlock₁]; exact hmu⟩ hops hrun
  have hrep := hst.rep
  obtain ⟨deleted, S', hloops, htaken⟩ := destSkiptableLevels_spec [] hrep hlock
    hrep.level_le (fun e he => (hrep.heights e he).2)
  rw [List.nil_append] at hloops
  have hptrs : (L.map fun e => e.ptr).Perm deleted := by
    have := htaken.ptrs
    rwa [List.map_nil, List.append_nil] at this
  refine ⟨deleted, S', run_bind_of (run_get S) hloops, hptrs.nodup_iff.mp hrep.nodup, ?_, ?_,
    htaken.header, ?_⟩
  · intro p
    rw [← hptrs.mem_iff]
    constructor
    · intro hp
      obtain ⟨e, he, rfl⟩ := List.mem_map.mp hp
      obtain ⟨fs, hcell, -⟩ := hrep.cell he
      exact ⟨hrep.above e he, by rw [hcell]; rfl⟩
    · rintro ⟨hp, hsome⟩
      exact hrep.only p hp hsome
  · intro p hp
    rw [← htaken.header] at hp
    by_contra hc
    have hin := htaken.rep.only p hp (Option.isSome_iff_ne_none.mpr hc)
    cases hin
  · intro i hi
    exact getForward_run (htaken.rep.chains i hi)

/-- Two nodes are deleted; the value of one was replaced while there was no memory. -/
theorem destSkiptable_deletes_all_two :
    let k : CString := ⟨[107], by decide⟩
    let k' : CString := ⟨[108], by decide⟩
    let ops : List TableOp := [.put true true k k, .put true true k' k, .put false false k k']
    ∃ S₁ rs S, (initSkiptable true true .free).run (SkipList.static fun n => n) = .ok (0, S₁) ∧
      (runCalls tableOp ops).run S₁ = .ok (rs, S) ∧
        ∃ deleted S', destSkiptableLoops.run S = .ok (deleted, S') ∧ deleted.Nodup ∧
          (∀ p, p ∈ deleted ↔ S.header < p ∧ (S.mem.cells p).isSome) ∧
          (∀ p, S.header < p → S'.mem.cells p = none) ∧
          S'.header = S.header ∧
          ∀ i, i < maxLevel → (getForward S'.header i).run S' = .ok (0, S') := by
  intro k k' ops
  obtain ⟨S₁, hinit, hall⟩ :=
    destSkiptable_deletes_all (SkipList.static fun n => n) .free (by decide) ops (by decide)
  obtain ⟨S₁', hinit', hrep, hlock, -⟩ := initSkiptable_rep (SkipList.static fun n => n) .free
  cases hinit.symm.trans hinit'
  have hfree : S₁.lock ≠ .held := by rw [hlock]; decide
  obtain ⟨S₂, L₂, hput₂, hst₂, -, -, hlock₂⟩ :=
    ListStores.put (k := k) ⟨hrep, Holds.nil⟩ hfree (by decide) k
  obtain ⟨S₃, L₃, hput₃, hst₃, -, -, hlock₃⟩ :=
    hst₂.put (k := k') (by rw [hlock₂]; exact hfree) (by decide) k
  have hfree₃ : S₃.lock ≠ .held := by rw [hlock₃, hlock₂]; exact hfree
  obtain ⟨S₄, L₄, hput₄, -⟩ := hst₃.put (k := k) hfree₃ (by decide) k'
  rw [← (hst₃.put_noAlloc (a := false) (b := false) hfree₃ (by decide) k').1 (by simp)] at hput₄
  have hrun : (runCalls tableOp ops).run S₁ = .ok ([0, 0, 0], S₄) :=
    runCalls_cons_ok hput₂ (runCalls_cons_ok hput₃ (runCalls_cons_ok hput₄ rfl))
  exact ⟨S₁, _, S₄, hinit, hrun, hall _ S₄ hrun⟩

end KvStore
