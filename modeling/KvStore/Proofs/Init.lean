/-
What the init functions leave behind.

An engine may be initialised over whatever its variable held before, and `malloc` returns
memory with whatever it held before.  `init_rbtree` and `init_dhashtable` write everything
their engines read.  `init_hashtable` does not write the slots it allocates, and
`init_skiptable` does not write the counter.
-/
import KvStore.Proofs.Store

namespace KvStore

/--
Run on the state `s₀`, the init function returns 0 and leaves an engine that counts 0 keys
and in which no key of `D` exists.
-/
def Empties {σ : Type} (init count : Prog σ Int) (exist : Option CString → Prog σ Int)
    (D : CString → Prop) (s₀ : σ) : Prop :=
  ∃ s, init.run s₀ = .ok (0, s) ∧ count.run s = .ok (0, s) ∧
    ∀ k, D k → (exist (some k)).run s = .ok (0, s)

/-- All bytes of the key are below 0x80, and their sum is no more than an `int` can hold. -/
def ShortAscii (k : CString) : Prop := Ascii k ∧ k.length ≤ 16909320

/-- The slots are chains that an earlier life of the engine can have left: of ASCII keys. -/
structure EarlierLife (slots : Vector (List HashNode) maxTableSize) : Prop where
  chains : Chains slots
  ascii : ∀ node ∈ slots.toList.flatten, Ascii node.name

theorem initRbtree_empties (T₀ : Rbtree) {mu : Mutex} (hmu : mu ≠ .held) :
    Empties (initRbtree true mu) countKvRbtree existKvRbtree (fun _ => True) T₀ := by
  obtain ⟨T, hrun, hsim, -⟩ := initRbtree_spec T₀ hmu
  refine ⟨T, hrun, ?_, ?_⟩
  · have hcount : countKvRbtree.run T = .ok (T.nbElements, T) := run_bind_of (run_get T) rfl
    rw [hcount, hsim.count]
    rfl
  · intro k _
    rw [existKvRbtree_spec hsim k, if_neg Finmap.notMem_empty]

theorem initDhashtable_empties (D₀ : DhashTable) :
    Empties (initDhashtable true) countKvDhashtable existKvDhashtable (fun _ => True) D₀ := by
  refine ⟨DhashTable.fresh, rfl, ?_, ?_⟩
  · rw [countKvDhashtable_spec DhashSim.fresh]
    rfl
  · intro k _
    rw [existKvDhashtable_spec DhashSim.fresh k, if_pos (Stacks.stack_empty k)]

/-- The skip list's counter is what it was before. -/
theorem initSkiptable_empties_iff (S₀ : SkipList) {mu : Mutex} (hmu : mu ≠ .held) :
    Empties (initSkiptable true true mu) countKvSkiptable existKvSkiptable (fun _ => True) S₀ ↔
      S₀.nbElements = 0 := by
  obtain ⟨S, hrun, hsim, -, hcount⟩ := initSkiptable_spec S₀ hmu
  have hcount' : countKvSkiptable.run S = .ok (S₀.nbElements, S) := by
    rw [← hcount]
    exact run_bind_of (run_get S) rfl
  constructor
  · rintro ⟨S', hrun', hzero, -⟩
    rw [hrun] at hrun'
    cases hrun'
    rw [hcount'] at hzero
    exact (Prod.mk.inj (Except.ok.inj hzero)).1
  · intro hzero
    rw [hzero] at hcount'
    refine ⟨S, hrun, hcount', ?_⟩
    intro k _
    rw [existKvSkiptable_spec hsim k, if_neg Finmap.notMem_empty]

section Hash

variable {slots : Vector (List HashNode) maxTableSize} {mu : Mutex}

theorem initHashtable_run (H₀ : Hashtable) (slots : Vector (List HashNode) maxTableSize)
    (mu : Mutex) : (initHashtable true slots mu).run H₀ =
      .ok (0, ⟨some slots, maxTableSize, 0, mu⟩) := rfl

/-- Null slots make an empty table. -/
theorem initHashtable_empties (H₀ : Hashtable) (hmu : mu ≠ .held)
    (hnull : ∀ i, ∀ hi : i < maxTableSize, slots[i] = []) :
    Empties (initHashtable true slots mu) countKvHashtable existKvHashtable ShortAscii H₀ := by
  refine ⟨_, initHashtable_run H₀ slots mu, rfl, ?_⟩
  intro k hk
  obtain ⟨i, hi, hidx⟩ := hashable_ascii hk.2 hk.1
  have hfind : findNode k slots[i] = .ok none := by
    rw [hnull i hi]
    rfl
  refine run_bind_of (getKvHashtable_run rfl hi hidx hmu hfind) rfl

/-- A chain of an earlier life that is still in its slot is found. -/
theorem initHashtable_empties_null (H₀ : Hashtable) (hmu : mu ≠ .held) (hlife : EarlierLife slots)
    (h : Empties (initHashtable true slots mu) countKvHashtable existKvHashtable ShortAscii H₀) :
    ∀ i, ∀ hi : i < maxTableSize, slots[i] = [] := by
  obtain ⟨H, hrun, -, hexist⟩ := h
  rw [initHashtable_run] at hrun
  cases hrun
  intro i hi
  cases hslot : slots[i] with
  | nil => rfl
  | cons node next =>
      exfalso
      have hnode : node ∈ slots[i] := by rw [hslot]; simp
      have hsound := hlife.chains.slot hi node hnode
      have hlen : node.name.length < 128 := by
        obtain ⟨rest, hrest⟩ := hsound.readsKey
        have hkey := node.key.property
        rw [hrest, List.length_append, List.length_cons, maxKeyLen] at hkey
        rw [CString.length]
        omega
      have hshort : ShortAscii node.name :=
        ⟨hlife.ascii node (mem_flatten.mpr ⟨i, hi, hnode⟩), by omega⟩
      have hidx := hlife.chains.home i hi node hnode
      have hzero := hexist node.name hshort
      rcases findNode_spec node.name (hlife.chains.slot hi) with
        ⟨A, n, B, -, -, hfind⟩ | ⟨habs, -⟩
      · have hone := run_bind_of (f := fun r => pure (if r.isSome then (1 : Int) else 0))
          (getKvHashtable_run (H := ⟨some slots, maxTableSize, 0, mu⟩) rfl hi hidx hmu hfind) rfl
        rw [show (existKvHashtable (some node.name)).run _ = _ from hone] at hzero
        cases hzero
      · exact habs node hnode rfl

/-- What a table that stores a key leaves in its slots is not null. -/
theorem HashSim.earlierLife {H : Hashtable} {m : Dict CString CString} (h : HashSim H m)
    {k : CString} (hk : k ∈ m) (hascii : ∀ k ∈ m, Ascii k) :
    ∃ slots, H.nodes = some slots ∧ EarlierLife slots ∧
      ¬ ∀ i, ∀ hi : i < maxTableSize, slots[i] = [] := by
  obtain ⟨t, ht, hchains, hholds⟩ := h.table
  refine ⟨t, ht, ⟨hchains, ?_⟩, ?_⟩
  · intro node hnode
    refine hascii node.name ((hholds.mem_iff node.name).mpr ?_)
    exact List.mem_map.mpr ⟨node.pair, List.mem_map.mpr ⟨node, hnode, rfl⟩, rfl⟩
  · intro hnull
    obtain ⟨p, hp, -⟩ := List.mem_map.mp ((hholds.mem_iff k).mp hk)
    obtain ⟨node, hnode, -⟩ := List.mem_map.mp hp
    obtain ⟨i, hi, hnode⟩ := mem_flatten.mp hnode
    rw [hnull i hi] at hnode
    cases hnode

end Hash

/--
**Initialisation empties an engine, whatever was there before**: always for the tree and the
second hash; for the skip list exactly if its counter was 0 before; for the chained hash if
the new slots read as null, and over what an earlier life left there only then.
-/
theorem init_empties_iff (T₀ : Rbtree) (D₀ : DhashTable) (S₀ : SkipList) (H₀ : Hashtable)
    (slots : Vector (List HashNode) maxTableSize) (mu : Mutex) (hmu : mu ≠ .held) :
    Empties (initRbtree true mu) countKvRbtree existKvRbtree (fun _ => True) T₀ ∧
    Empties (initDhashtable true) countKvDhashtable existKvDhashtable (fun _ => True) D₀ ∧
    (Empties (initSkiptable true true mu) countKvSkiptable existKvSkiptable (fun _ => True) S₀ ↔
      S₀.nbElements = 0) ∧
    ((∀ i, ∀ hi : i < maxTableSize, slots[i] = []) →
      Empties (initHashtable true slots mu) countKvHashtable existKvHashtable ShortAscii H₀) ∧
    (EarlierLife slots →
      Empties (initHashtable true slots mu) countKvHashtable existKvHashtable ShortAscii H₀ →
      ∀ i, ∀ hi : i < maxTableSize, slots[i] = []) :=
  ⟨initRbtree_empties T₀ hmu, initDhashtable_empties D₀, initSkiptable_empties_iff S₀ hmu,
    initHashtable_empties H₀ hmu, initHashtable_empties_null H₀ hmu⟩

/-- The variables before the first initialisation, and slots that read as null. -/
theorem init_empties_iff_static :
    let slots : Vector (List HashNode) maxTableSize := Vector.replicate maxTableSize []
    Mutex.free ≠ .held ∧
    Empties (initRbtree true .free) countKvRbtree existKvRbtree (fun _ => True) Rbtree.static ∧
    Empties (initSkiptable true true .free) countKvSkiptable existKvSkiptable (fun _ => True)
      (SkipList.static fun _ => 0) ∧
    Empties (initHashtable true slots .free) countKvHashtable existKvHashtable ShortAscii
      ⟨none, 0, 0, .free⟩ := by
  intro slots
  obtain ⟨htree, -, hskip, hhash, -⟩ := init_empties_iff Rbtree.static ⟨none⟩
    (SkipList.static fun _ => 0) ⟨none, 0, 0, .free⟩ slots .free (by decide)
  exact ⟨by decide, htree, hskip.mpr rfl, hhash fun i hi => Vector.getElem_replicate hi⟩

/--
After a put and a second `init_skiptable` the skip list still counts one key; new slots in
which the chains of an earlier table are left make its key exist.
-/
theorem init_keeps_stale :
    let k : CString := ⟨[107], by decide⟩
    (∃ S₁ S₂, (initSkiptable true true .free).run (SkipList.static fun _ => 0) = .ok (0, S₁) ∧
      (putKvSkiptable true true (some k) (some k)).run S₁ = .ok (0, S₂) ∧
      ¬ Empties (initSkiptable true true .free) countKvSkiptable existKvSkiptable
        (fun _ => True) S₂) ∧
    ∃ H slots, (putKvHashtable true (some k) (some k)).run (Hashtable.fresh .free) = .ok (0, H) ∧
      H.nodes = some slots ∧
      ¬ Empties (initHashtable true slots .free) countKvHashtable existKvHashtable ShortAscii
        H := by
  intro k
  have hfree : Mutex.free ≠ .held := by decide
  constructor
  · obtain ⟨S₁, hinit, hsim, -, hcount⟩ := initSkiptable_spec (SkipList.static fun _ => 0) hfree
    obtain ⟨S₂, hput, -, hcount₂⟩ :=
      putKvSkiptable_spec hsim (k := k) (v := k) (by decide) (by decide)
    refine ⟨S₁, S₂, hinit, hput, ?_⟩
    rw [initSkiptable_empties_iff S₂ (by decide), hcount₂, hcount]
    decide
  · obtain ⟨H, hput, hsim, -⟩ := putKvHashtable_spec (HashSim.fresh hfree)
      (k := k) (v := k) (by decide) (by decide) (hashable_ascii (by decide) (by decide))
    obtain ⟨slots, hslots, hlife, hstale⟩ := hsim.earlierLife (k := k) (by decide) (by decide)
    refine ⟨H, slots, hput, hslots, ?_⟩
    intro hempty
    exact hstale (initHashtable_empties_null H (by decide) hlife hempty)

end KvStore
