/-
Does `get` find what `exist` finds?

In the two hash engines and in the skip list both questions are answered by one walk, so
they agree in every state (`agree_of_map`).  The array reads a field of the item it found,
which is not null as long as keys and values come and go together.  The tree's `get` reads
a field of whatever node the search stops at, the sentinel included, and never returns
null: there the two agree on the stored keys only.
-/
import KvStore.Proofs.Store
import KvStore.Spec.Keys

namespace KvStore

open KvStore.Tree Ctx

/-- Whether the engine's get function returns a null pointer. -/
def Store.getIsNull : Engine → CString → Prog Store Bool
  | .array, k => onArray (Option.isNone <$> kvsArrayGet (some k))
  | .rbtree, k => onTree (Option.isNone <$> getKvRbtree (some k))
  | .hash, k => onHash (Option.isNone <$> getKvHashtable (some k))
  | .dhash, k => onDhash (Option.isNone <$> getKvDhashtable (some k))
  | .skiptable, k => onTable (Option.isNone <$> getKvSkiptable (some k))

/-- The engine's exist function. -/
def Store.exist : Engine → CString → Prog Store Int
  | .array, k => onArray (kvsArrayExist (some k))
  | .rbtree, k => onTree (existKvRbtree (some k))
  | .hash, k => onHash (existKvHashtable (some k))
  | .dhash, k => onDhash (existKvDhashtable (some k))
  | .skiptable, k => onTable (existKvSkiptable (some k))

/-- The get function returns null for the key iff the exist function returns 0 for it. -/
def Store.Agree (e : Engine) (s : Store) (k : CString) : Prop :=
  Gives (Store.getIsNull e k) s true ↔ Gives (Store.exist e k) s 0

/-! ### Where one walk answers both -/

section Walk

variable {σ α : Type} {s : σ}

/-- If `exist` tests the pointer that `get` returns, the two agree in every state. -/
theorem agree_of_map {get : Prog σ (Option α)} {exist : Prog σ Int}
    (h : exist = (fun r => if r.isSome then 1 else 0) <$> get) :
    Gives (Option.isNone <$> get) s true ↔ Gives exist s 0 := by
  rw [h, Gives.map, Gives.map]
  constructor
  · rintro ⟨r, hr, hnone⟩
    refine ⟨r, hr, ?_⟩
    rw [Option.isNone_iff_eq_none.mp hnone]
    rfl
  · rintro ⟨r, hr, hzero⟩
    refine ⟨r, hr, ?_⟩
    cases r with
    | none => rfl
    | some a => exact absurd hzero (by simp)

end Walk

theorem existKvHashtable_eq (k : Option CString) :
    existKvHashtable k = (fun r => if r.isSome then 1 else 0) <$> getKvHashtable k := by
  rw [map_eq_pure_bind]
  rfl

theorem existKvDhashtable_eq (k : Option CString) :
    existKvDhashtable k = (fun r => if r.isSome then 1 else 0) <$> getKvDhashtable k := by
  unfold existKvDhashtable getKvDhashtable
  simp only [map_bind, map_pure, Option.isSome_map]

theorem existKvSkiptable_eq (k : CString) :
    existKvSkiptable (some k) =
      (fun r => if r.isSome then 1 else 0) <$> getKvSkiptable (some k) := by
  unfold existKvSkiptable getKvSkiptable
  rw [map_eq_pure_bind]
  congr 1
  funext r
  cases r with
  | none => rfl
  | some v => rfl

/-! ### The array -/

theorem ArraySim.agree {A : ArrayTable} {m : Dict CString CString} (h : ArraySim A m)
    (k : CString) :
    Gives (Option.isNone <$> kvsArrayGet (some k)) A true ↔ Gives (kvsArrayExist (some k)) A 0 := by
  have hget : Gives (Option.isNone <$> kvsArrayGet (some k)) A (arrayRules.get m k).isNone :=
    ⟨A, run_map_of _ (kvsArrayGet_spec h k)⟩
  have hexist : Gives (kvsArrayExist (some k)) A (if k ∈ m then 1 else 0) :=
    ⟨A, kvsArrayExist_spec h k⟩
  by_cases hk : k ∈ m
  · obtain ⟨v, hv⟩ := Finmap.mem_iff.mp hk
    rw [MapRules.get_stored hv] at hget
    rw [if_pos hk] at hexist
    exact ⟨fun hc => absurd (hget.unique hc) (by simp),
      fun hc => absurd (hexist.unique hc) (by decide)⟩
  · rw [MapRules.get_absent hk] at hget
    rw [if_neg hk] at hexist
    exact ⟨fun _ => hexist, fun _ => hget⟩

/-! ### The tree -/

section Tree

variable {T T' : Rbtree} {np : Ptr} {t : Tree Entry} {m : Dict CString CString}
  {K : Finset CString}

/-- The tree's `get` never returns null. -/
theorem getKvRbtree_not_null (T : Rbtree) (k : CString) :
    ¬ Gives (Option.isNone <$> getKvRbtree (some k)) T true := by
  rw [Gives.map]
  rintro ⟨r, ⟨T', hr⟩, hnone⟩
  obtain ⟨p, T₁, -, hr⟩ := run_bind_inv hr
  obtain ⟨nd, T₂, -, hr⟩ := run_bind_inv hr
  cases hr
  exact absurd hnone (by simp)

theorem Stores.get (h : Stores T np t m) (k : CString) :
    ∃ mem, (getKvRbtree (some k)).run T = .ok (some mem, T) := by
  obtain ⟨p, hrun, hloc⟩ := h.search k
  rcases hloc with ⟨-, ctx, c, l, e, r, rfl, -, rfl, -⟩ | ⟨rfl, -⟩
  · have hrep : Rep T np (fill ctx (branch .left c l e r)) := h.rep
    exact ⟨_, run_bind_of hrun (run_bind_of hrep.deref_at rfl)⟩
  · exact ⟨_, run_bind_of hrun (run_bind_of h.rep.deref_nil rfl)⟩

/-- The tree stores these keys, with values of whatever length. -/
structure TreeKeys (T : Rbtree) (K : Finset CString) : Prop where
  stores : ∃ np t m, Stores T np t m ∧ m.keys = K
  lock : T.lock ≠ .held

theorem TreeKeys.exist (h : TreeKeys T K) (k : CString) :
    (existKvRbtree (some k)).run T = .ok (if k ∈ K then 1 else 0, T) := by
  obtain ⟨np, t, m, hst, rfl⟩ := h.stores
  rw [hst.exist k]
  by_cases hk : k ∈ m
  · rw [if_pos hk, if_pos (Finmap.mem_keys.mpr hk)]
  · rw [if_neg hk, if_neg (fun hc => hk (Finmap.mem_keys.mp hc))]

/-- A call whose key fits changes the stored keys as it should, if it returns. -/
theorem TreeKeys.call (h : TreeKeys T K) {c : Call} (hc : c.KeyFitting) {r : Answer}
    (hrun : (rbtreeCall c).run T = .ok (r, T')) : TreeKeys T' (c.keysAfter K) := by
  obtain ⟨np, t, m, hst, rfl⟩ := h.stores
  cases c with
  | put k v =>
      obtain ⟨i, hput, rfl⟩ := run_map_inv hrun
      by_cases hk : k ∈ m
      · rw [hst.put_stored hk] at hput
        cases hput
        exact ⟨⟨np, t, m, hst, (Finset.insert_eq_of_mem (Finmap.mem_keys.mpr hk)).symm⟩, h.lock⟩
      · obtain ⟨T₁, t₁, hput', hst', -, -, hlock⟩ := hst.put h.lock hc hk v
        rw [hput'] at hput
        cases hput
        exact ⟨⟨np, t₁, _, hst', keys_insert _⟩, by rw [hlock]; exact h.lock⟩
  | get k =>
      obtain ⟨mem, hget⟩ := hst.get k
      obtain ⟨p, T₁, hget', hread⟩ := run_bind_inv hrun
      rw [hget] at hget'
      cases hget'
      rw [readAnswer] at hread
      cases hmem : cstr mem with
      | error e =>
          rw [hmem] at hread
          cases hread
      | ok w =>
          rw [hmem] at hread
          cases hread
          exact h
  | count =>
      cases hrun
      exact h
  | exist k =>
      obtain ⟨i, hexist, rfl⟩ := run_map_inv hrun
      rw [h.exist k] at hexist
      cases hexist
      exact h
  | delete k =>
      obtain ⟨i, hdel, rfl⟩ := run_map_inv hrun
      by_cases hk : k ∈ m
      · obtain ⟨T₁, np', t₁, hdel', hst', -, -, hlock⟩ := hst.delete h.lock hk
        rw [hdel'] at hdel
        cases hdel
        exact ⟨⟨np', t₁, _, hst', Finmap.keys_erase k m⟩, by rw [hlock]; exact h.lock⟩
      · rw [hst.delete_absent hk] at hdel
        cases hdel
        refine ⟨⟨np, t, m, hst, (Finset.erase_eq_of_notMem ?_).symm⟩, h.lock⟩
        rwa [Finmap.mem_keys]

/-- In the tree the two agree on the stored keys only. -/
theorem TreeKeys.agree (h : TreeKeys T K) (k : CString) :
    (Gives (Option.isNone <$> getKvRbtree (some k)) T true ↔ Gives (existKvRbtree (some k)) T 0) ↔
      k ∈ K := by
  have hexist : Gives (existKvRbtree (some k)) T (if k ∈ K then 1 else 0) := ⟨T, h.exist k⟩
  by_cases hk : k ∈ K
  · rw [if_pos hk] at hexist
    exact ⟨fun _ => hk, fun _ => ⟨fun hc => absurd hc (getKvRbtree_not_null T k),
      fun hc => absurd (hexist.unique hc) (by decide)⟩⟩
  · rw [if_neg hk] at hexist
    exact ⟨fun hc => absurd (hc.mpr hexist) (getKvRbtree_not_null T k), fun hc => absurd hc hk⟩

end Tree

/-! ### All engines -/

/-- In four engines `get` and `exist` agree, in the tree they agree on the stored keys. -/
theorem agree_iff {s : Store} {K : Finset CString} {m : Dict CString CString} {e : Engine}
    (harray : e = .array → ArraySim s.array m) (htree : e = .rbtree → TreeKeys s.tree K)
    (k : CString) : Store.Agree e s k ↔ (e = .rbtree → k ∈ K) := by
  unfold Store.Agree
  cases e with
  | array =>
      simp only [Store.getIsNull, Store.exist, onArray, Gives.zoom]
      exact iff_of_true ((harray rfl).agree k) (by simp)
  | rbtree =>
      simp only [Store.getIsNull, Store.exist, onTree, Gives.zoom]
      rw [(htree rfl).agree k]
      simp
  | hash =>
      simp only [Store.getIsNull, Store.exist, onHash, Gives.zoom]
      exact iff_of_true (agree_of_map (existKvHashtable_eq _)) (by simp)
  | dhash =>
      simp only [Store.getIsNull, Store.exist, onDhash, Gives.zoom]
      exact iff_of_true (agree_of_map (existKvDhashtable_eq _)) (by simp)
  | skiptable =>
      simp only [Store.getIsNull, Store.exist, onTable, Gives.zoom]
      exact iff_of_true (agree_of_map (existKvSkiptable_eq k)) (by simp)

/--
**`get` returns null exactly when `exist` returns 0, after every run of an engine's calls and
for every key, except in the tree, where this is so exactly for the stored keys.**
-/
theorem get_agrees_exist_iff (rand : Nat → Nat) (slots : Vector (List HashNode) maxTableSize)
    (mu : Mutex) (hmu : mu ≠ .held) :
    ∃ s₀, (initKvengine slots mu).run (Store.static rand) = .ok ((), s₀) ∧
      ∀ (e : Engine) (calls : List Call) (rs : List Answer) (s : Store) (k : CString),
        (∀ c ∈ calls, c.KeyFitting) →
        (runCalls (Store.call e) calls).run s₀ = .ok (rs, s) →
        (Store.Agree e s k ↔ (e = .rbtree → k ∈ keysAfter ∅ calls)) := by
  obtain ⟨s₀, hinit, -, hfresh⟩ := initKvengine_run rand slots hmu
  refine ⟨s₀, hinit, ?_⟩
  intro e calls rs s k hfit hrun
  have harray : e = .array → ∃ m, ArraySim s.array m := by
    rintro rfl
    refine runCalls_keeps (P := fun s => ∃ m, ArraySim s.array m) (Q := fun _ => True) ?_
      ⟨∅, hfresh.array⟩ (fun _ _ => trivial) hrun
    rintro s c r s' ⟨m, hsim⟩ - hcall
    obtain ⟨A, hA, rfl⟩ := zoom_inv hcall
    obtain ⟨A', hA', hsim', -⟩ := arrayCall_refines hsim c
    rw [hA] at hA'
    cases hA'
    exact ⟨_, hsim'⟩
  have htree : e = .rbtree → TreeKeys s.tree (keysAfter ∅ calls) := by
    rintro rfl
    obtain ⟨np, t, hst, -⟩ := hfresh.tree.stores
    refine runCalls_invariant (P := fun K (s : Store) => TreeKeys s.tree K)
      (f := Call.keysAfter) (Q := Call.KeyFitting) ?_ calls ∅ s₀ rs s
      ⟨⟨np, t, ∅, hst, Finmap.keys_empty⟩, hfresh.tree.lock⟩ hfit hrun
    intro K s c r s' hkeys hc hcall
    obtain ⟨T, hT, rfl⟩ := zoom_inv hcall
    exact hkeys.call hc hT
  by_cases hA : e = .array
  · obtain ⟨m, hsim⟩ := harray hA
    exact agree_iff (fun _ => hsim) htree k
  · exact agree_iff (m := ∅) (fun hc => absurd hc hA) htree k

/-- A key is put into the tree and deleted again. -/
theorem get_agrees_exist_iff_deleted :
    let k : CString := ⟨[107], by decide⟩
    ∃ s₀, (initKvengine (Vector.replicate maxTableSize []) .free).run (Store.static fun _ => 0) =
        .ok ((), s₀) ∧
      ∀ rs s, (runCalls (Store.call .rbtree) [.put k k, .delete k]).run s₀ = .ok (rs, s) →
        (Store.Agree .rbtree s k ↔ k ∈ keysAfter ∅ [.put k k, .delete k]) := by
  intro k
  obtain ⟨s₀, hinit, h⟩ := get_agrees_exist_iff (fun _ => 0) (Vector.replicate maxTableSize [])
    .free (by decide)
  refine ⟨s₀, hinit, ?_⟩
  intro rs s hrun
  simpa using h .rbtree _ rs s k (by decide) hrun

/-- In the fresh tree `exist` returns 0 for a key, and `get` returns the sentinel's value. -/
theorem rbtree_get_absent_not_null :
    let k : CString := ⟨[107], by decide⟩
    ∃ s₀, (initKvengine (Vector.replicate maxTableSize []) .free).run (Store.static fun _ => 0) =
        .ok ((), s₀) ∧
      (Store.exist .rbtree k).run s₀ = .ok (0, s₀) ∧
      (Store.getIsNull .rbtree k).run s₀ = .ok (false, s₀) ∧ ¬ Store.Agree .rbtree s₀ k := by
  intro k
  obtain ⟨s₀, hinit, hfresh⟩ := initKvengine_spec (fun _ => 0) .free (by decide)
  obtain ⟨mem, v, hget, -, -⟩ := getKvRbtree_spec hfresh.tree k
  have hexist := existKvRbtree_spec hfresh.tree k
  rw [if_neg Finmap.notMem_empty] at hexist
  have hexist' : (Store.exist .rbtree k).run s₀ = .ok (0, s₀) := zoom_run hexist
  refine ⟨s₀, hinit, hexist', zoom_run (run_map_of _ hget), ?_⟩
  intro hagree
  have hnull := hagree.mpr ⟨s₀, hexist'⟩
  rw [Store.getIsNull, onTree, Gives.zoom] at hnull
  exact getKvRbtree_not_null s₀.tree k hnull

end KvStore
