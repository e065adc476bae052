/-
What the skip list prints.

A level's line has the pairs of the towers that are high enough, in the order of the list.  So
the lines show the structure itself: each level is a part of the one below it, in the same order,
and the lowest is the whole map.
-/
import KvStore.Engine.SkiptablePrint
import KvStore.Proofs.Skiptable.Count

namespace KvStore

section Print

variable {S : SkipList} {L : List Tower} {i : Nat}

/-- The pairs on level `i`. -/
def lanePairs (i : Nat) (L : List Tower) : List (CString × CString) :=
  (L.filter fun e => i < e.height).map fun e => e.pair

/-- The pairs of a level, as `print` writes them. -/
def pairsText (pairs : List (CString × CString)) : List Byte :=
  pairs.flatMap fun kv => pairText kv.1 kv.2

/-- The lines of the levels below `n`, the highest first. -/
def linesText (level : Nat → List (CString × CString)) : Nat → List Byte
  | 0 => []
  | i + 1 => levelText i ++ pairsText (level i) ++ literal "\n" ++ linesText level i

theorem lanePairs_succ_sublist : (lanePairs (i + 1) L).Sublist (lanePairs i L) := by
  refine List.Sublist.map _ (List.monotone_filter_right L ?_)
  intro e he
  rw [decide_eq_true_eq] at he ⊢
  omega

theorem lanePairs_zero (h : ∀ e ∈ L, 1 ≤ e.height) : lanePairs 0 L = L.map fun e => e.pair := by
  unfold lanePairs
  rw [List.filter_eq_self.mpr]
  intro e he
  exact decide_eq_true (h e he)

/-- The rest of a level is printed, from the node behind `p` on. -/
theorem printLevel_run (h : SkipRep S L) (hterm : ∀ e ∈ L, e.Terminated) :
    ∀ {M : List Tower} {p : Ptr} {fuel : Nat} (out : List Byte), (∀ e ∈ M, e ∈ L) →
      ChainFrom (forwardAt S.mem i) p (M.map fun e => e.ptr) → M.length < fuel →
      (loop (printStep i) fuel ((M.map fun e => e.ptr).headD 0, out)).run S =
        .ok (out ++ pairsText (M.map fun e => e.pair), S) := by
  intro M
  induction M with
  | nil =>
      intro p fuel out _ _ hfuel
      obtain ⟨fuel, rfl⟩ : ∃ m, fuel = m + 1 := ⟨fuel - 1, by omega⟩
      have hstep : (printStep i (0, out)).run S = .ok (.inr out, S) := rfl
      rw [show pairsText (([] : List Tower).map fun e => e.pair) = [] from rfl, List.append_nil]
      exact loop_inr hstep
  | cons e M ih =>
      intro p fuel out hM hchain hfuel
      rw [List.length_cons] at hfuel
      obtain ⟨fuel, rfl⟩ : ∃ m, fuel = m + 1 := ⟨fuel - 1, by omega⟩
      have he := hM e List.mem_cons_self
      obtain ⟨-, hne, hrest⟩ := hchain
      obtain ⟨fs, hcell, -⟩ := h.cell he
      have hkey : cstr (SkNode.keyMem ⟨e.key, e.value, fs⟩) = .ok e.name :=
        cstr_of_reads (h.sound e he).reads
      have hvalue : cstr (SkNode.valueMem ⟨e.key, e.value, fs⟩) = .ok e.text :=
        cstr_of_reads (hterm e he)
      have hstep : (printStep i (e.ptr, out)).run S =
          .ok (.inl ((M.map fun e => e.ptr).headD 0, out ++ pairText e.name e.text), S) := by
        refine run_ite_pos hne (run_bind_of (deref_run hcell) ?_)
        rw [hkey, hvalue]
        exact run_bind_of rfl (run_bind_of rfl (run_bind_of (getForward_run hrest.first) rfl))
      refine (loop_inl hstep).trans ?_
      rw [ih _ (fun a ha => hM a (List.mem_cons_of_mem e ha)) hrest (by omega), List.append_assoc]
      rfl

theorem printLevels_run (h : SkipRep S L) (hterm : ∀ e ∈ L, e.Terminated) :
    ∀ {n : Nat} (out : List Byte), n ≤ maxLevel →
      (printLevels n out).run S = .ok (out ++ linesText (fun i => lanePairs i L) n, S) := by
  intro n
  induction n with
  | zero =>
      intro out _
      rw [linesText, List.append_nil]
      rfl
  | succ i ih =>
      intro out hn
      have hchain := h.chains i (by omega)
      have hlength : (L.filter fun e => i < e.height).length < S.fuel := by
        have hle := List.length_filter_le (fun e => decide (i < e.height)) L
        have hlen := h.length_le
        rw [SkipList.fuel]
        omega
      have hlevel := printLevel_run h hterm (out ++ levelText i)
        (fun e he => List.mem_of_mem_filter he) hchain hlength
      refine run_bind_of (run_get S) (run_bind_of (getForward_run hchain.first)
        (run_bind_of hlevel ?_))
      rw [ih _ (by omega), linesText, lanePairs]
      simp only [List.append_assoc]

theorem print_run (h : SkipRep S L) (hterm : ∀ e ∈ L, e.Terminated) :
    SkipList.print.run S = .ok (linesText (fun i => lanePairs i L) S.level ++ literal "\n", S) :=
  run_bind_of (run_get S) (run_bind_of (printLevels_run h hterm [] h.level_le) rfl)

end Print

/-! ### In every state of a run -/

/-- What `print` shows of a list that stores `m`. -/
def PrintsLevels (S : SkipList) (m : Dict CString CString) : Prop :=
  ∃ level : Nat → List (CString × CString),
    SkipList.print.run S = .ok (linesText level S.level ++ literal "\n", S) ∧
    (∀ i, (level (i + 1)).Sublist (level i)) ∧ ((level 0).map Prod.fst).Pairwise (· < ·) ∧
    ∀ k v, (k, v) ∈ level 0 ↔ m.lookup k = some v

theorem SkiptableSim.prints {S : SkipList} {m : Dict CString CString} (h : SkiptableSim S m) :
    PrintsLevels S m := by
  obtain ⟨L, hst, hterm⟩ := h.stores
  have hzero := lanePairs_zero fun e he => (hst.rep.heights e he).1
  refine ⟨fun i => lanePairs i L, print_run hst.rep hterm, fun i => lanePairs_succ_sublist, ?_, ?_⟩
  · show ((lanePairs 0 L).map Prod.fst).Pairwise (· < ·)
    rw [hzero, List.map_map, List.pairwise_map]
    exact hst.rep.ascending
  · show ∀ k v, (k, v) ∈ lanePairs 0 L ↔ _
    rw [hzero]
    exact hst.holds.lookup

theorem skiptableCall_sim {S : SkipList} {m : Dict CString CString} (h : SkiptableSim S m)
    {c : Call} (hc : c.Fits) :
    ∃ r S', (skiptableCall c).run S = .ok (r, S') ∧
      SkiptableSim S' (skiptableRules.step m c).2 := by
  by_cases hcount : c = .count
  · subst hcount
    exact ⟨_, S, run_map_of _ (countKvSkiptable_run S), h⟩
  · obtain ⟨S', hrun, hsim, -⟩ := skiptableCall_refines h hc.putFits hcount
    exact ⟨_, S', hrun, hsim⟩

theorem skiptableCalls_sim {S : SkipList} {m : Dict CString CString} (h : SkiptableSim S m)
    {calls : List Call} (hfit : ∀ c ∈ calls, c.Fits) :
    ∃ rs S', (runCalls skiptableCall calls).run S = .ok (rs, S') ∧
      SkiptableSim S' (runMachine skiptableRules.step m calls).2 := by
  induction calls generalizing S m with
  | nil => exact ⟨[], S, rfl, h⟩
  | cons c calls ih =>
      obtain ⟨r, S₁, hrun, h₁⟩ := skiptableCall_sim h (hfit c List.mem_cons_self)
      obtain ⟨rs, S₂, hrun', h₂⟩ := ih h₁ fun c' hc' => hfit c' (List.mem_cons_of_mem c hc')
      exact ⟨r :: rs, S₂, runCalls_cons_ok hrun hrun', h₂⟩

/--
**`print` shows the map on its lowest level and a part of it on each level above**: after every
run of calls whose strings fit, whatever `rand` returns, there is one line for each level, from
the highest down; the pairs of a level are among those of the next lower one, in the same order,
and level 0 has the pairs of the map by ascending keys.  Nothing is changed.
-/
theorem skiptable_print_levels (S₀ : SkipList) (mu : Mutex) (hmu : mu ≠ .held) (calls : List Call)
    (hfit : ∀ c ∈ calls, c.Fits) :
    ∃ S₁ rs S, (initSkiptable true true mu).run S₀ = .ok (0, S₁) ∧
      (runCalls skiptableCall calls).run S₁ = .ok (rs, S) ∧
      PrintsLevels S (runMachine skiptableRules.step ∅ calls).2 := by
  obtain ⟨S₁, hinit, hsim, -⟩ := initSkiptable_spec S₀ hmu
  obtain ⟨rs, S, hrun, hsim'⟩ := skiptableCalls_sim hsim hfit
  exact ⟨S₁, rs, S, hinit, hrun, hsim'.prints⟩

/-- Two keys on two levels, of which one was overwritten. -/
theorem skiptable_print_levels_two :
    let k : CString := ⟨[107], by decide⟩
    let k' : CString := ⟨[108], by decide⟩
    let S₀ := SkipList.static (fun n => n)
    ∃ S₁ rs S, (initSkiptable true true .free).run S₀ = .ok (0, S₁) ∧
      (runCalls skiptableCall [.put k' k, .put k k, .put k' k']).run S₁ = .ok (rs, S) ∧
      PrintsLevels S (runMachine skiptableRules.step ∅ [.put k' k, .put k k, .put k' k']).2 :=
  skiptable_print_levels (SkipList.static fun n => n) .free (by decide) _ (by decide)

end KvStore
