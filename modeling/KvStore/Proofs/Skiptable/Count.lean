/-
What the counter of the skip list counts.

`put_kv_skiptable` counts up also when `insert` only replaced a value, and nothing ever
counts down for it.  So after a run the counter is the number of stored keys plus the
number of puts that found their key stored (`skiptableUpdates_spec`), and it is exact
exactly when there was no such put.
-/
import KvStore.Proofs.Skiptable.Engine
import KvStore.Spec.Keys

namespace KvStore

section Count

variable {S : SkipList} {L : List Tower} {m : Dict CString CString} {calls : List Call}

theorem countKvSkiptable_run (S : SkipList) : countKvSkiptable.run S = .ok (S.nbElements, S) :=
  run_bind_of (run_get S) rfl

/-- The level-0 chain has one node for each stored key. -/
theorem ListStores.chain (h : ListStores S L m) :
    ∃ qs, ChainFrom (forwardAt S.mem 0) S.header qs ∧ qs.length = m.keys.card := by
  refine ⟨lane 0 L, h.rep.chains 0 (by decide), ?_⟩
  rw [lane_zero (fun e he => (h.rep.heights e he).1), h.holds.card, List.length_map,
    List.length_map]

/-- What one update does to the keys and to the counter. -/
theorem skiptableUpdate_spec (h : ListStores S L m) (hlock : S.lock ≠ .held) {c : Call}
    (hc : c.Updates) (hfit : c.KeyFitting) :
    ∃ r S' L' m', (skiptableCall c).run S = .ok (r, S') ∧ ListStores S' L' m' ∧
      S'.lock ≠ .held ∧ m'.keys = c.keysAfter m.keys ∧
      S'.nbElements - m'.keys.card = S.nbElements - m.keys.card + c.repeats m.keys := by
  cases c with
  | put k v =>
      obtain ⟨S', L', hrun, hst, -, hcount, hlock'⟩ := h.put hlock hfit v
      refine ⟨_, S', L', _, run_map_of _ hrun, hst, by rw [hlock']; exact hlock,
        keys_insert _, ?_⟩
      rw [hcount, Call.repeats, keys_insert]
      by_cases hk : k ∈ m.keys
      · rw [if_pos hk, Finset.insert_eq_of_mem hk]
        omega
      · rw [if_neg hk, Finset.card_insert_of_notMem hk]
        omega
  | delete k =>
      obtain ⟨S', L', hrun, hst, -, hcount, hlock', -⟩ := h.delete k
      refine ⟨_, S', L', _, run_map_of _ hrun, hst, by rw [hlock']; exact hlock,
        keys_delete _, ?_⟩
      rw [hcount, Call.repeats, keys_delete]
      by_cases hk : k ∈ m
      · have hcard := Finset.card_erase_add_one (Finmap.mem_keys.mpr hk)
        rw [if_pos hk]
        omega
      · rw [if_neg hk, Finset.erase_eq_of_notMem (fun hc => hk (Finmap.mem_keys.mp hc))]
        omega
  | get | count | exist => exact absurd hc id

/-- **The counter is ahead of the keys by the number of repeated puts.** -/
theorem skiptableUpdates_spec (h : ListStores S L m) (hlock : S.lock ≠ .held)
    (hcalls : ∀ c ∈ calls, c.Updates ∧ c.KeyFitting) :
    ∃ rs S' L' m', (runCalls skiptableCall calls).run S = .ok (rs, S') ∧ ListStores S' L' m' ∧
      m'.keys = keysAfter m.keys calls ∧
      S'.nbElements - m'.keys.card = S.nbElements - m.keys.card + repeats m.keys calls := by
  induction calls generalizing S L m with
  | nil => exact ⟨[], S, L, m, rfl, h, rfl, by simp [repeats]⟩
  | cons c rest ih =>
      obtain ⟨hc, hfit⟩ := hcalls c (by simp)
      obtain ⟨r, S₁, L₁, m₁, hrun, hst, hlock₁, hkeys, hdrift⟩ :=
        skiptableUpdate_spec h hlock hc hfit
      obtain ⟨rs, S', L', m', hrest, hst', hkeys', hdrift'⟩ :=
        ih hst hlock₁ fun c' hc' => hcalls c' (by simp [hc'])
      refine ⟨r :: rs, S', L', m', runCalls_cons_ok hrun hrest, hst', ?_, ?_⟩
      · rw [hkeys', hkeys]
        rfl
      · rw [hkeys] at hdrift' hdrift
        rw [hdrift', repeats, hdrift, Int.natCast_add]
        omega

end Count

end KvStore
