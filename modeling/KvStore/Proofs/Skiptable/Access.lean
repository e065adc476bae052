/-
No access of the skip list is outside a tower.

A node does not store how high its tower is, and `update` starts out unassigned.  The model
makes both visible: `getForward` and `setForward` fault at an index outside the tower of the
node, `setUpdate` at one outside the array, and `getUpdate` also at an entry that has no
value yet.  The four lemmas below say that each returns in no other case.  So a call that
returns has made no such access, and what is left to show is that `insert`, `find` and
`delete` return, from every list that puts and deletes can build and with every further
result of `rand`.
-/
import KvStore.Proofs.Skiptable.Count

namespace KvStore

/-! ### The single access -/

section Access

variable {S : SkipList} {p q : Ptr} {i : Nat} {update : Update}

/-- `p->forward[i]` is read exactly when the tower of `p` is higher than `i`. -/
theorem getForward_returns_iff :
    (∃ r, (getForward p i).run S = .ok r) ↔
      ∃ nd, S.mem.cells p = some nd ∧ i < nd.forward.length := by
  constructor
  · rintro ⟨⟨q, S'⟩, hrun⟩
    obtain ⟨nd, S₁, hderef, hrest⟩ := run_bind_inv hrun
    obtain ⟨hcell, -⟩ := deref_inv hderef
    refine ⟨nd, hcell, ?_⟩
    by_contra hc
    rw [List.getElem?_eq_none (not_lt.mp hc)] at hrest
    cases hrest
  · rintro ⟨nd, hcell, hi⟩
    refine ⟨_, getForward_run (q := nd.forward[i]) ?_⟩
    rw [forwardAt, hcell, Option.bind_some, List.getElem?_eq_getElem hi]

/-- `p->forward[i]` is assigned exactly when the tower of `p` is higher than `i`. -/
theorem setForward_returns_iff :
    (∃ r, (setForward p i q).run S = .ok r) ↔
      ∃ nd, S.mem.cells p = some nd ∧ i < nd.forward.length := by
  constructor
  · rintro ⟨⟨_, S'⟩, hrun⟩
    obtain ⟨nd, S₁, hderef, hrest⟩ := run_bind_inv hrun
    obtain ⟨hcell, -⟩ := deref_inv hderef
    refine ⟨nd, hcell, ?_⟩
    by_contra hc
    rw [if_neg hc] at hrest
    cases hrest
  · rintro ⟨nd, hcell, hi⟩
    exact ⟨_, run_bind_of (deref_run hcell) (run_ite_pos hi (assign_run hcell _))⟩

/-- `update[i]` is assigned exactly when `i` is below `MAX_LEVEL`. -/
theorem setUpdate_returns_iff : (∃ r, (setUpdate i p update).run S = .ok r) ↔ i < maxLevel := by
  constructor
  · rintro ⟨r, hrun⟩
    by_contra hc
    rw [setUpdate, dif_neg hc] at hrun
    cases hrun
  · intro hi
    exact ⟨_, setUpdate_run update hi p⟩

/-- `update[i]` is read exactly when `i` is below `MAX_LEVEL` and the entry was assigned. -/
theorem getUpdate_returns_iff :
    (∃ r, (getUpdate update i).run S = .ok r) ↔ ∃ hi : i < maxLevel, update[i].isSome := by
  constructor
  · rintro ⟨r, hrun⟩
    by_cases hi : i < maxLevel
    · refine ⟨hi, ?_⟩
      rw [getUpdate, dif_pos hi] at hrun
      cases hu : update[i] with
      | none =>
          rw [hu] at hrun
          cases hrun
      | some p => rfl
    · rw [getUpdate, dif_neg hi] at hrun
      cases hrun
  · rintro ⟨hi, hsome⟩
    obtain ⟨p, hp⟩ := Option.isSome_iff_exists.mp hsome
    exact ⟨_, getUpdate_run hi hp⟩

end Access

/-! ### The towers -/

/--
The header's tower has `MAX_LEVEL` pointers, every other tower at least one and no more than
the list has levels.
-/
structure TowersBounded (S : SkipList) : Prop where
  header : ∃ nd, S.mem.cells S.header = some nd ∧ nd.forward.length = maxLevel
  nodes : ∀ p nd, S.header < p → S.mem.cells p = some nd →
    1 ≤ nd.forward.length ∧ nd.forward.length ≤ S.level
  level : S.level ≤ maxLevel

theorem SkipRep.towersBounded {S : SkipList} {L : List Tower} (h : SkipRep S L) :
    TowersBounded S := by
  refine ⟨?_, ?_, h.level_le⟩
  · obtain ⟨key, value, hshape⟩ := h.header
    obtain ⟨nd, hcell, hnd⟩ := Option.map_eq_some_iff.mp hshape
    exact ⟨nd, hcell, congrArg (fun s => s.2.2) hnd⟩
  · intro p nd hp hcell
    obtain ⟨e, he, rfl⟩ := List.mem_map.mp (h.only p hp (by rw [hcell]; rfl))
    obtain ⟨fs, hcell', hlen⟩ := h.cell he
    rw [hcell] at hcell'
    obtain rfl := Option.some.inj hcell'
    rw [show fs.length = e.height from hlen]
    exact h.heights e he

/-! ### Over whole runs -/

/--
**Every access of the skip list is inside the tower or the array it is made to**: after any
run of puts and deletes from a fresh list, and whatever `rand` returns from then on, `find`,
`delete` and `insert` return for every further key, and leave towers of these heights.
-/
theorem skiptable_accesses_inside (S₀ : SkipList) (mu : Mutex) (hmu : mu ≠ .held)
    (calls : List Call) (hcalls : ∀ c ∈ calls, c.Updates ∧ c.KeyFitting) :
    ∃ S₁ rs S, (initSkiptable true true mu).run S₀ = .ok (0, S₁) ∧
      (runCalls skiptableCall calls).run S₁ = .ok (rs, S) ∧ TowersBounded S ∧
      ∀ (rand : Nat → Nat) (k v : CString), KeyFits k →
        (∃ r, (SkipList.find (some k)).run { S with rand := rand } =
          .ok (r, { S with rand := rand })) ∧
        (∃ S', (SkipList.delete (some k)).run { S with rand := rand } = .ok ((), S') ∧
          TowersBounded S') ∧
        ∃ S', (SkipList.insert true true k v).run { S with rand := rand } = .ok ((), S') ∧
          TowersBounded S' := by
  obtain ⟨S₁, hinit, hrep₁, hlock, -⟩ := initSkiptable_rep S₀ mu
  obtain ⟨rs, S, L, m, hrun, hst, -⟩ :=
    skiptableUpdates_spec ⟨hrep₁, Holds.nil⟩ (by rw [hlock]; exact hmu) hcalls
  refine ⟨S₁, rs, S, hinit, hrun, hst.rep.towersBounded, ?_⟩
  intro rand k v hk
  have hrep : SkipRep { S with rand := rand } L := hst.rep.congr rfl rfl rfl
  refine ⟨?_, ?_, ?_⟩
  · obtain ⟨r, hfind, -⟩ := find_spec hrep k
    exact ⟨r, hfind⟩
  · obtain ⟨S', L', hdelete, hrep', -⟩ := delete_spec hrep k
    exact ⟨S', hdelete, hrep'.towersBounded⟩
  · obtain ⟨S', L', hinsert, hrep', -⟩ := insert_spec hrep hk v
    exact ⟨S', hinsert, hrep'.towersBounded⟩

/-- Towers of the greatest height, a replaced value and a deleted node. -/
theorem skiptable_accesses_inside_high :
    let k : CString := ⟨[107], by decide⟩
    let k' : CString := ⟨[108], by decide⟩
    let calls : List Call := [.put k k, .put k' k, .put k k', .delete k]
    ∃ S₁ rs S, (initSkiptable true true .free).run (SkipList.static fun _ => 1) = .ok (0, S₁) ∧
      (runCalls skiptableCall calls).run S₁ = .ok (rs, S) ∧ TowersBounded S ∧
      ∀ (rand : Nat → Nat) (k v : CString), KeyFits k →
        (∃ r, (SkipList.find (some k)).run { S with rand := rand } =
          .ok (r, { S with rand := rand })) ∧
        (∃ S', (SkipList.delete (some k)).run { S with rand := rand } = .ok ((), S') ∧
          TowersBounded S') ∧
        ∃ S', (SkipList.insert true true k v).run { S with rand := rand } = .ok ((), S') ∧
          TowersBounded S' :=
  skiptable_accesses_inside (SkipList.static fun _ => 1) .free (by decide) _ (by decide)

end KvStore
