/-
The chained hash engine is a finite map.

For ASCII keys the slot index is in range, and every node sits in the slot its key
hashes to.  The stored pairs are those of all chains together; a put conses onto one
chain and a delete takes one node out of the middle of one, whether it is the head,
inside or the tail.

A `delete` that finds the slot of its key empty returns without unlocking.  So what is
said about it is said for a mutex that does nothing, or for a slot that is not empty;
what follows for a real mutex is the subject of `Proofs/Locking.lean`.
-/
import KvStore.Base.Table
import KvStore.Engine.Hash
import KvStore.Spec.MapRules

namespace KvStore

namespace HashNode

/-- The string in the key array. -/
def name (node : HashNode) : CString :=
  match cstr node.key.val with
  | .ok s => s
  | .error _ => CString.empty

/-- The string in the value array. -/
def text (node : HashNode) : CString :=
  match cstr node.value.val with
  | .ok s => s
  | .error _ => CString.empty

def pair (node : HashNode) : CString × CString := (node.name, node.text)

/-- Both strings end inside their arrays. -/
structure Sound (node : HashNode) : Prop where
  readsKey : Reads node.key.val node.name
  readsValue : Reads node.value.val node.text

theorem Sound.keyMem {node : HashNode} (h : node.Sound) (next : List HashNode) :
    Reads (node.keyMem next) node.name := h.readsKey.append _

theorem Sound.valueMem {node : HashNode} (h : node.Sound) (next : List HashNode) :
    Reads (node.valueMem next) node.text := h.readsValue.append _

/-- A node made from strings that fit holds them. -/
theorem of_createHashNode {k v : CString} (hk : KeyFits k) (hv : ValueFits v) :
    ∃ node, createHashNode true k v = some node ∧ node.Sound ∧ node.pair = (k, v) := by
  have hkey := reads_strncpy hk
  have hvalue := reads_strncpy hv
  have hname : name ⟨strncpy maxKeyLen k.bytes, strncpy maxValueLen v.bytes⟩ = k := by
    unfold name
    rw [cstr_of_reads hkey]
  have htext : text ⟨strncpy maxKeyLen k.bytes, strncpy maxValueLen v.bytes⟩ = v := by
    unfold text
    rw [cstr_of_reads hvalue]
  refine ⟨_, rfl, ⟨?_, ?_⟩, ?_⟩
  · rw [hname]
    exact hkey
  · rw [htext]
    exact hvalue
  · unfold pair
    rw [hname, htext]

end HashNode

/-! ### The slot of a key -/

theorem intOfChar_ascii {c : Byte} (h : c.toNat ≤ 0x7f) : intOfChar c = c.toNat := by
  have hlt : 2 * c.toBitVec.toNat < 2 ^ 8 := by
    have : c.toBitVec.toNat ≤ 0x7f := h
    omega
  show c.toBitVec.toInt = _
  rw [BitVec.toInt_eq_toNat_cond, if_pos hlt]
  rfl

/-- The sum of the bytes as `char`s. -/
def charSum (bytes : List Byte) : Int := bytes.foldr (fun c sum => intOfChar c + sum) 0

/-- The loop of `_hash` adds up the `char`s, if bounds on each keep every sum an `int`. -/
theorem hashSum_run {bytes : List Byte} {sum : Int} (l u : Int) (hl : l ≤ 0) (hu : 0 ≤ u)
    (h : ∀ b ∈ bytes, l ≤ intOfChar b ∧ intOfChar b ≤ u)
    (hmin : -2147483648 ≤ sum + l * bytes.length) (hmax : sum + u * bytes.length ≤ 2147483647) :
    hashSum bytes sum = .ok (sum + charSum bytes) := by
  induction bytes generalizing sum with
  | nil => simp [hashSum, charSum, pure, Except.pure]
  | cons c rest ih =>
      obtain ⟨hc, hc'⟩ := h c (by simp)
      have hlen : ((c :: rest).length : Int) = rest.length + 1 := by simp
      have hdown : l * (rest.length : Int) ≤ 0 :=
        Int.mul_nonpos_of_nonpos_of_nonneg hl (Int.natCast_nonneg _)
      have hup : 0 ≤ u * (rest.length : Int) := Int.mul_nonneg hu (Int.natCast_nonneg _)
      rw [hlen, Int.mul_add, Int.mul_one] at hmin hmax
      have hadd : addInt sum (intOfChar c) = .ok (sum + intOfChar c) := by
        unfold addInt
        rw [if_pos]
        constructor <;> omega
      have hrest : hashSum rest (sum + intOfChar c) = .ok (sum + intOfChar c + charSum rest) :=
        ih (fun b hb => h b (by simp [hb])) (by omega) (by omega)
      rw [hashSum, hadd]
      refine hrest.trans ?_
      rw [charSum, charSum, List.foldr_cons, Int.add_assoc]

/-- The sum over ASCII bytes does not overflow while the key is short. -/
theorem hashSum_ascii {bytes : List Byte} (h : ∀ b ∈ bytes, b.toNat ≤ 0x7f)
    (hlen : bytes.length ≤ 16909320) : ∃ r, hashSum bytes 0 = .ok r ∧ 0 ≤ r := by
  have hchar : ∀ b ∈ bytes, 0 ≤ intOfChar b ∧ intOfChar b ≤ 127 := by
    intro b hb
    have hle := h b hb
    rw [intOfChar_ascii hle]
    omega
  refine ⟨_, hashSum_run 0 127 (by omega) (by omega) hchar (by omega) (by omega), ?_⟩
  rw [Int.zero_add]
  clear h hlen
  induction bytes with
  | nil => exact le_refl 0
  | cons c rest ih =>
      have hc := (hchar c (by simp)).1
      have hrest := ih fun b hb => hchar b (by simp [hb])
      rw [charSum, List.foldr_cons]
      exact Int.add_nonneg hc hrest

/-- The key has a slot: the sum of its bytes does not overflow and is not negative. -/
def Hashable (k : CString) : Prop :=
  ∃ i, i < maxTableSize ∧ hash (some k) maxTableSize = .ok (i : Int)

/-- **An ASCII key has a slot**, unless it is so long that the sum of its bytes overflows. -/
theorem hashable_ascii {k : CString} (hlen : k.length ≤ 16909320) (ha : Ascii k) : Hashable k := by
  obtain ⟨r, hr, hpos⟩ := hashSum_ascii ha hlen
  have hmod : r.tmod maxTableSize = r % maxTableSize := Int.tmod_eq_emod_of_nonneg hpos
  have h0 : 0 ≤ r % (maxTableSize : Int) := Int.emod_nonneg _ (by decide)
  have h1 : r % (maxTableSize : Int) < maxTableSize := Int.emod_lt_of_pos _ (by decide)
  refine ⟨(r % (maxTableSize : Int)).toNat, by omega, ?_⟩
  rw [hash, hr]
  show Except.ok (r.tmod maxTableSize) = _
  rw [hmod, Int.toNat_of_nonneg h0]

/-- The engine can hold the strings of a put, and the key of the call has a slot. -/
def Call.HashFits : Call → Prop
  | .put k v => KeyFits k ∧ ValueFits v ∧ Hashable k
  | .get k | .exist k | .delete k => Hashable k
  | .count => True

theorem Call.Fits.hashFits {c : Call} (h : c.Fits) (ha : c.AsciiKey) : c.HashFits := by
  have hslot : ∀ {k : CString}, KeyFits k → Ascii k → Hashable k := by
    intro k hk hasc
    have hlen : k.length < 128 := hk
    exact hashable_ascii (by omega) hasc
  cases c with
  | put k v => exact ⟨h.1, h.2, hslot h.1 ha⟩
  | get k | exist k | delete k => exact hslot h ha
  | count => trivial

/-! ### Walking a chain -/

section Chain

variable (key : CString) {chain : List HashNode}

/-- The comparison of a node's key with a string decides whether they are equal. -/
theorem HashNode.Sound.compare {node : HashNode} (h : node.Sound) (next : List HashNode)
    (key : CString) :
    ∃ r, strcmp (node.keyMem next) key.mem = .ok r ∧ (r = 0 ↔ node.name = key) := by
  obtain ⟨r, hr, -, heq⟩ := strcmp_spec (h.keyMem next) key.reads_mem
  exact ⟨r, hr, heq⟩

/-- The walks along a chain have no fault but that of `strcmp`. -/
theorem findNode_ne_error {e : Fault} (he : e ≠ .overrun) : findNode key chain ≠ .error e := by
  induction chain with
  | nil => exact fun h => by cases h
  | cons node next ih =>
      refine bind_ne_error (strcmp_ne_error he _ _) fun r => ?_
      by_cases hr : r = 0
      · rw [if_pos hr]
        exact fun h => by cases h
      · rw [if_neg hr]
        exact ih

theorem unlinkNode_ne_error {e : Fault} (he : e ≠ .overrun) :
    unlinkNode key chain ≠ .error e := by
  induction chain with
  | nil => exact fun h => by cases h
  | cons node next ih =>
      refine bind_ne_error (strcmp_ne_error he _ _) fun r => ?_
      by_cases hr : r = 0
      · rw [if_pos hr]
        exact fun h => by cases h
      · rw [if_neg hr]
        exact bind_ne_error ih fun _ h => by cases h

theorem findNode_spec (hs : ∀ node ∈ chain, node.Sound) :
    (∃ A node B, chain = A ++ node :: B ∧ node.name = key ∧
        findNode key chain = .ok (some (node, B))) ∨
      ((∀ node ∈ chain, node.name ≠ key) ∧ findNode key chain = .ok none) := by
  induction chain with
  | nil => exact Or.inr ⟨by simp, rfl⟩
  | cons node next ih =>
      obtain ⟨r, hr, heq⟩ := (hs node (by simp)).compare next key
      by_cases hk : node.name = key
      · refine Or.inl ⟨[], node, next, rfl, hk, ?_⟩
        unfold findNode
        rw [hr]
        exact if_pos (heq.mpr hk)
      · have hstep : findNode key (node :: next) = findNode key next := by
          rw [findNode, hr]
          exact if_neg (fun hc => hk (heq.mp hc))
        rw [hstep]
        rcases ih (fun n hn => hs n (by simp [hn])) with ⟨A, n, B, rfl, hn, hfind⟩ | ⟨habs, hfind⟩
        · exact Or.inl ⟨node :: A, n, B, rfl, hn, hfind⟩
        · refine Or.inr ⟨?_, hfind⟩
          intro n hn
          rcases List.mem_cons.mp hn with rfl | hn
          · exact hk
          · exact habs n hn

theorem unlinkNode_spec (hs : ∀ node ∈ chain, node.Sound) :
    (∃ A node B, chain = A ++ node :: B ∧ node.name = key ∧
        unlinkNode key chain = .ok (some (A ++ B))) ∨
      ((∀ node ∈ chain, node.name ≠ key) ∧ unlinkNode key chain = .ok none) := by
  induction chain with
  | nil => exact Or.inr ⟨by simp, rfl⟩
  | cons node next ih =>
      obtain ⟨r, hr, heq⟩ := (hs node (by simp)).compare next key
      by_cases hk : node.name = key
      · refine Or.inl ⟨[], node, next, rfl, hk, ?_⟩
        unfold unlinkNode
        rw [hr]
        exact if_pos (heq.mpr hk)
      · have hstep : unlinkNode key (node :: next) =
            (do return (← unlinkNode key next).map (node :: ·)) := by
          rw [unlinkNode, hr]
          exact if_neg (fun hc => hk (heq.mp hc))
        rw [hstep]
        rcases ih (fun n hn => hs n (by simp [hn])) with ⟨A, n, B, rfl, hn, hunl⟩ | ⟨habs, hunl⟩
        · exact Or.inl ⟨node :: A, n, B, rfl, hn, by rw [hunl]; rfl⟩
        · refine Or.inr ⟨?_, by rw [hunl]; rfl⟩
          intro n hn
          rcases List.mem_cons.mp hn with rfl | hn
          · exact hk
          · exact habs n hn

end Chain

/-! ### The table -/

/-- What holds of the chains between any two calls. -/
structure Chains (t : Vector (List HashNode) maxTableSize) : Prop where
  /-- every node's strings end inside the node -/
  sound : ∀ node ∈ t.toList.flatten, node.Sound
  /-- every node sits in the slot of its key -/
  home : ∀ i, ∀ hi : i < maxTableSize, ∀ node ∈ t[i],
    hash (some node.name) maxTableSize = .ok (i : Int)

/-- The table stores the map `m` and is ready for the next call. -/
structure HashSim (H : Hashtable) (m : Dict CString CString) : Prop where
  table : ∃ t, H.nodes = some t ∧ Chains t ∧ Holds (t.toList.flatten.map HashNode.pair) m
  count : H.count = m.keys.card
  lock : H.lock ≠ .held

/-- The slot of the key is empty. -/
def SlotEmpty (H : Hashtable) (k : CString) : Prop :=
  ∃ t i, ∃ hi : i < maxTableSize, H.nodes = some t ∧
    hash (some k) maxTableSize = .ok (i : Int) ∧ t[i] = []

section Calls

variable {H : Hashtable} {t : Vector (List HashNode) maxTableSize} {m : Dict CString CString}
  {i : Nat}

theorem hashChain_run (ht : H.nodes = some t) (hi : i < maxTableSize) :
    (hashChain (i : Int)).run H = .ok (t[i], H) := by
  refine run_bind_of (run_get H) ?_
  rw [ht]
  show (if h : 0 ≤ (i : Int) ∧ (i : Int).toNat < maxTableSize then _ else _ :
    Prog Hashtable (List HashNode)).run H = _
  rw [dif_pos ⟨Int.natCast_nonneg i, by simpa using hi⟩]
  rfl

theorem setHashChain_run (ht : H.nodes = some t) (hi : i < maxTableSize) (chain : List HashNode) :
    (setHashChain (i : Int) chain).run H =
      .ok ((), { H with nodes := some (t.set i chain) }) := by
  refine run_bind_of (run_get H) ?_
  rw [ht]
  show (if h : 0 ≤ (i : Int) ∧ (i : Int).toNat < maxTableSize then _ else _ :
    Prog Hashtable Unit).run H = _
  rw [dif_pos ⟨Int.natCast_nonneg i, by simpa using hi⟩]
  rfl

/-- Storing a chain, counting and unlocking. -/
theorem replace_run (ht : H.nodes = some t) (hi : i < maxTableSize) (f : Int → Int) (r : Int)
    {chain : List HashNode} :
    (do setHashChain (i : Int) chain
        modify fun H => { H with count := f H.count }
        mutexUnlock
        return r : Prog Hashtable Int).run H =
      .ok (r, { H with
        nodes := some (t.set i chain), count := f H.count, lock := H.lock.unlock }) :=
  run_bind_of (setHashChain_run ht hi chain) rfl

/-- A node is in the table iff it is in a slot. -/
theorem mem_flatten {node : HashNode} :
    node ∈ t.toList.flatten ↔ ∃ i, ∃ hi : i < maxTableSize, node ∈ t[i] := by
  rw [List.mem_flatten]
  constructor
  · rintro ⟨chain, hchain, hnode⟩
    obtain ⟨i, hi, rfl⟩ := exists_slot hchain
    exact ⟨i, hi, hnode⟩
  · rintro ⟨i, hi, hnode⟩
    exact ⟨t[i], by simp, hnode⟩

/-- The slot of a key decides whether the map has it. -/
theorem notMem_of_slot (hc : Chains t) (hh : Holds (t.toList.flatten.map HashNode.pair) m)
    {key : CString} (hi : i < maxTableSize) (hkey : hash (some key) maxTableSize = .ok (i : Int))
    (habs : ∀ node ∈ t[i], node.name ≠ key) : key ∉ m := by
  rw [hh.notMem_iff]
  intro p hp
  obtain ⟨node, hnode, rfl⟩ := List.mem_map.mp hp
  obtain ⟨j, hj, hnode⟩ := mem_flatten.mp hnode
  intro hname
  have hij := hc.home j hj node hnode
  rw [show node.name = key from hname, hkey] at hij
  have : i = j := Int.ofNat_inj.mp (Except.ok.inj hij)
  subst this
  exact habs node hnode hname

theorem lookup_of_slot (hh : Holds (t.toList.flatten.map HashNode.pair) m) (hi : i < maxTableSize)
    {node : HashNode} (hnode : node ∈ t[i]) : m.lookup node.name = some node.text :=
  (hh.lookup node.name node.text).mp
    (List.mem_map.mpr ⟨node, mem_flatten.mpr ⟨i, hi, hnode⟩, rfl⟩)

theorem Chains.slot (hc : Chains t) (hi : i < maxTableSize) : ∀ node ∈ t[i], node.Sound :=
  fun node hnode => hc.sound node (mem_flatten.mpr ⟨i, hi, hnode⟩)

/-- A chain of nodes that belong there may replace another. -/
theorem Chains.set (hc : Chains t) (hi : i < maxTableSize) {chain : List HashNode}
    (hs : ∀ node ∈ chain, node.Sound)
    (hh : ∀ node ∈ chain, hash (some node.name) maxTableSize = .ok (i : Int)) :
    Chains (t.set i chain) := by
  have hget : ∀ j, ∀ hj : j < maxTableSize, (t.set i chain)[j] = if i = j then chain else t[j] :=
    fun j hj => Vector.getElem_set hi hj
  refine ⟨?_, ?_⟩
  · intro node hnode
    obtain ⟨j, hj, hnode⟩ := mem_flatten.mp hnode
    rw [hget j hj] at hnode
    by_cases hij : i = j
    · rw [if_pos hij] at hnode
      exact hs node hnode
    · rw [if_neg hij] at hnode
      exact hc.slot hj node hnode
  · intro j hj node hnode
    rw [hget j hj] at hnode
    by_cases hij : i = j
    · rw [if_pos hij] at hnode
      rw [← hij]
      exact hh node hnode
    · rw [if_neg hij] at hnode
      exact hc.home j hj node hnode

/-- What a call does to the chains. -/
def HashEffect (H : Hashtable) (H' : Hashtable) : Call → Answer → Prop
  | .put k v, r =>
      (r = .int 1 ∧ H' = H) ∨
      (r = .int 0 ∧ ∃ t i node, ∃ hi : i < maxTableSize, H.nodes = some t ∧
        hash (some k) maxTableSize = .ok (i : Int) ∧ node.pair = (k, v) ∧
        H' = { H with nodes := some (t.set i (node :: t[i])), count := H.count + 1 })
  | .delete k, r =>
      (r = .int (-1) ∧ H' = H) ∨
      (r = .int 0 ∧ ∃ t i A node B, ∃ hi : i < maxTableSize, H.nodes = some t ∧
        t[i] = A ++ node :: B ∧ node.name = k ∧
        H' = { H with nodes := some (t.set i (A ++ B)), count := H.count - 1 })
  | _, _ => H' = H

/-- A put walks the chain of its slot under the mutex. -/
theorem putKvHashtable_start {mu : Mutex} {k : CString} (ht : H.nodes = some t)
    (hi : i < maxTableSize) (hidx : hash (some k) maxTableSize = .ok (i : Int))
    (hlock : H.lock.lock = .ok mu) (alloc : Bool) (v : CString) :
    (putKvHashtable alloc (some k) (some v)).run H =
      (putIntoChain alloc i k v t[i]).run { H with lock := mu } := by
  rw [putKvHashtable, hidx]
  refine run_bind_of rfl (run_bind_of (mutexLock_run hlock) ?_)
  exact run_bind_of (hashChain_run (H := { H with lock := mu }) ht hi) rfl

/-- A put of a stored key is refused, before it needs memory. -/
theorem putKvHashtable_stored (h : HashSim H m) {k : CString} (hs : Hashable k) (hk : k ∈ m)
    (alloc : Bool) (v : CString) : (putKvHashtable alloc (some k) (some v)).run H = .ok (1, H) := by
  obtain ⟨t, ht, hc, hh⟩ := h.table
  obtain ⟨i, hi, hidx⟩ := hs
  obtain ⟨mu, hlock, hunlock⟩ := Mutex.lock_unlock h.lock
  rw [putKvHashtable_start ht hi hidx hlock, putIntoChain]
  rcases findNode_spec k (hc.slot hi) with ⟨A, node, B, -, -, hfind⟩ | ⟨habs, -⟩
  · rw [hfind]
    refine run_bind_of rfl (run_bind_of (mutexUnlock_run _) ?_)
    show Except.ok ((1 : Int), ({ H with lock := mu.unlock } : Hashtable)) = _
    rw [hunlock]
  · exact absurd hk (notMem_of_slot hc hh hi hidx habs)

theorem putKvHashtable_spec (h : HashSim H m) {k v : CString} (hk : KeyFits k) (hv : ValueFits v)
    (hs : Hashable k) :
    ∃ H', (putKvHashtable true (some k) (some v)).run H = .ok ((hashRules.put m k v).1, H') ∧
      HashSim H' (hashRules.put m k v).2 ∧
      HashEffect H H' (.put k v) (.int (hashRules.put m k v).1) := by
  obtain ⟨t, ht, hc, hh⟩ := h.table
  obtain ⟨i, hi, hidx⟩ := hs
  obtain ⟨mu, hlock, hunlock⟩ := Mutex.lock_unlock h.lock
  rcases findNode_spec k (hc.slot hi) with ⟨A, node, B, hchain, rfl, -⟩ | ⟨habs, hfind⟩
  · have hmem : node.name ∈ m :=
      Finmap.mem_of_lookup_eq_some (lookup_of_slot hh hi (by rw [hchain]; simp))
    rw [MapRules.put_stored rfl hmem]
    exact ⟨H, putKvHashtable_stored h ⟨i, hi, hidx⟩ hmem true v, h, Or.inl ⟨rfl, rfl⟩⟩
  · rw [putKvHashtable_start ht hi hidx hlock, putIntoChain]
    have hnew := notMem_of_slot hc hh hi hidx habs
    rw [MapRules.put_new hnew (MapRules.hasRoom_of_unbounded rfl)]
    obtain ⟨node, hcreate, hsound, hpair⟩ := HashNode.of_createHashNode hk hv
    have hname : node.name = k := congrArg Prod.fst hpair
    obtain ⟨L, R, hflat, hset⟩ := flatten_split t hi
    have hholds := hh.insert hnew v
    refine ⟨{ H with nodes := some (t.set i (node :: t[i])), count := H.count + 1 }, ?_,
      ⟨⟨_, rfl, hc.set hi ?_ ?_, ?_⟩, ?_, h.lock⟩,
      Or.inr ⟨rfl, t, i, node, hi, ht, hidx, hpair, rfl⟩⟩
    · rw [hfind, hcreate]
      refine run_bind_of rfl ((replace_run (H := { H with lock := mu }) ht hi (· + 1) 0).trans ?_)
      rw [hunlock]
    · intro n hn
      rcases List.mem_cons.mp hn with rfl | hn
      · exact hsound
      · exact hc.slot hi n hn
    · intro n hn
      rcases List.mem_cons.mp hn with rfl | hn
      · rw [hname]
        exact hidx
      · exact hc.home i hi n hn
    · refine hholds.perm ?_
      rw [hset, hflat, ← hpair, ← List.map_cons]
      refine List.Perm.map _ ?_
      simp only [List.cons_append, List.append_assoc]
      exact List.perm_middle.symm
    · show H.count + 1 = _
      rw [h.count, hholds.card, hh.card]
      simp

/-- `get` returns what the walk along the chain of the key's slot finds. -/
theorem getKvHashtable_run {k : CString} (ht : H.nodes = some t) (hi : i < maxTableSize)
    (hidx : hash (some k) maxTableSize = .ok (i : Int)) (hlock : H.lock ≠ .held)
    {found : Option (HashNode × List HashNode)} (hfind : findNode k t[i] = .ok found) :
    (getKvHashtable (some k)).run H = .ok (found.map fun p => p.1.valueMem p.2, H) := by
  obtain ⟨mu, hmu, hunlock⟩ := Mutex.lock_unlock hlock
  rw [getKvHashtable, hidx]
  refine run_bind_of rfl (run_bind_of (mutexLock_run hmu) ?_)
  refine run_bind_of (hashChain_run (H := { H with lock := mu }) ht hi) ?_
  rw [hfind]
  refine run_bind_of rfl (run_bind_of (mutexUnlock_run _) ?_)
  show Except.ok (_, ({ H with lock := mu.unlock } : Hashtable)) = _
  rw [hunlock]

theorem getKvHashtable_spec (h : HashSim H m) {k : CString} (hs : Hashable k) :
    ∃ r, (getKvHashtable (some k)).run H = .ok (r, H) ∧
      ((∃ mem v, r = some mem ∧ Reads mem v ∧ m.lookup k = some v) ∨ (r = none ∧ k ∉ m)) := by
  obtain ⟨t, ht, hc, hh⟩ := h.table
  obtain ⟨i, hi, hidx⟩ := hs
  rcases findNode_spec k (hc.slot hi) with ⟨A, node, B, hchain, rfl, hfind⟩ | ⟨habs, hfind⟩
  · have hmem : node ∈ t[i] := by rw [hchain]; simp
    exact ⟨_, getKvHashtable_run ht hi hidx h.lock hfind, Or.inl ⟨_, node.text, rfl,
      (hc.slot hi node hmem).valueMem B, lookup_of_slot hh hi hmem⟩⟩
  · exact ⟨_, getKvHashtable_run ht hi hidx h.lock hfind,
      Or.inr ⟨rfl, notMem_of_slot hc hh hi hidx habs⟩⟩

theorem existKvHashtable_spec (h : HashSim H m) {k : CString} (hs : Hashable k) :
    (existKvHashtable (some k)).run H = .ok (if k ∈ m then 1 else 0, H) := by
  obtain ⟨r, hrun, hr⟩ := getKvHashtable_spec h hs
  refine run_bind_of hrun ?_
  rcases hr with ⟨mem, v, rfl, -, hlook⟩ | ⟨rfl, habs⟩
  · rw [if_pos (Finmap.mem_of_lookup_eq_some hlook)]
    rfl
  · rw [if_neg habs]
    rfl

/-- Taking a node out of the chain of its slot. -/
theorem HashSim.remove (h : HashSim H m) (ht : H.nodes = some t) (hi : i < maxTableSize)
    {A B : List HashNode} {node : HashNode} (hchain : t[i] = A ++ node :: B) :
    HashSim { H with nodes := some (t.set i (A ++ B)), count := H.count - 1 }
      (m.erase node.name) := by
  obtain ⟨t', ht', hc, hh⟩ := h.table
  rw [ht] at ht'
  cases ht'
  have hsub : ∀ n ∈ A ++ B, n ∈ t[i] := by
    intro n hn
    rw [hchain]
    simp only [List.mem_append, List.mem_cons] at hn ⊢
    tauto
  obtain ⟨L, R, hflat, hset⟩ := flatten_split t hi
  have hold : Holds ((L ++ A).map HashNode.pair ++ (node.name, node.text) ::
      (B ++ R).map HashNode.pair) m := by
    rw [hflat, hchain] at hh
    simpa [HashNode.pair] using hh
  refine ⟨⟨_, rfl, hc.set hi (fun n hn => hc.slot hi n (hsub n hn))
    (fun n hn => hc.home i hi n (hsub n hn)), ?_⟩, ?_, h.lock⟩
  · rw [hset]
    simpa using hold.erase
  · show H.count - 1 = _
    rw [h.count, hold.card, hold.erase.card]
    simp only [List.length_append, List.length_cons, List.length_map]
    omega

theorem deleteKvHashtable_start {mu : Mutex} {k : CString} (ht : H.nodes = some t)
    (hi : i < maxTableSize) (hidx : hash (some k) maxTableSize = .ok (i : Int))
    (hlock : H.lock.lock = .ok mu) :
    (deleteKvHashtable (some k)).run H = (deleteFromChain i k t[i]).run { H with lock := mu } := by
  rw [deleteKvHashtable, hidx]
  refine run_bind_of rfl (run_bind_of (mutexLock_run hlock) ?_)
  exact run_bind_of (hashChain_run (H := { H with lock := mu }) ht hi) rfl

/-- From an empty chain it returns with the mutex as it was locked. -/
theorem deleteKvHashtable_empty {k : CString} {mu : Mutex} (hlock : H.lock.lock = .ok mu)
    (hempty : SlotEmpty H k) :
    (deleteKvHashtable (some k)).run H = .ok (-1, { H with lock := mu }) := by
  obtain ⟨t, i, hi, ht, hidx, hchain⟩ := hempty
  rw [deleteKvHashtable_start ht hi hidx hlock, hchain]
  rfl

/-- From a chain that is not empty, the node with the key is taken out, wherever it is. -/
theorem deleteFromChain_spec {k : CString} {chain : List HashNode} (hne : chain ≠ [])
    (hs : ∀ node ∈ chain, node.Sound) (H : Hashtable) :
    (∃ A node B, chain = A ++ node :: B ∧ node.name = k ∧
        (deleteFromChain i k chain).run H = (deleteEnd i (A ++ B)).run H) ∨
      ((∀ node ∈ chain, node.name ≠ k) ∧
        (deleteFromChain i k chain).run H = .ok (-1, { H with lock := H.lock.unlock })) := by
  cases chain with
  | nil => exact absurd rfl hne
  | cons head next =>
      obtain ⟨r, hr, heq⟩ := (hs head (by simp)).compare next k
      rw [deleteFromChain, hr]
      by_cases hname : head.name = k
      · exact Or.inl ⟨[], head, next, rfl, hname,
          run_bind_of rfl (run_ite_pos (heq.mpr hname) rfl)⟩
      · have hr0 : ¬ r = 0 := fun hc => hname (heq.mp hc)
        have hnexts : ∀ n ∈ next, n.Sound := fun n hn => hs n (List.mem_cons_of_mem _ hn)
        rcases unlinkNode_spec k hnexts with ⟨A, node, B, rfl, hk, hunl⟩ | ⟨habs, hunl⟩
        · rw [hunl]
          exact Or.inl ⟨head :: A, node, B, rfl, hk,
            run_bind_of rfl (run_ite_neg hr0 (run_bind_of rfl rfl))⟩
        · rw [hunl]
          refine Or.inr ⟨?_, run_bind_of rfl (run_ite_neg hr0 (run_bind_of rfl ?_))⟩
          · intro n hn
            rcases List.mem_cons.mp hn with rfl | hn
            · exact hname
            · exact habs n hn
          · exact run_bind_of (mutexUnlock_run _) rfl

theorem deleteKvHashtable_spec (h : HashSim H m) {k : CString} (hs : Hashable k)
    (hslot : H.lock = .ignored ∨ ¬ SlotEmpty H k) :
    ∃ H', (deleteKvHashtable (some k)).run H = .ok ((hashRules.delete m k).1, H') ∧
      HashSim H' (hashRules.delete m k).2 ∧
      HashEffect H H' (.delete k) (.int (hashRules.delete m k).1) := by
  obtain ⟨t, ht, hc, hh⟩ := h.table
  obtain ⟨i, hi, hidx⟩ := hs
  obtain ⟨mu, hlock, hunlock⟩ := Mutex.lock_unlock h.lock
  by_cases hchain : t[i] = []
  · have hempty : SlotEmpty H k := ⟨t, i, hi, ht, hidx, hchain⟩
    have habs := notMem_of_slot hc hh hi hidx (by rw [hchain]; simp)
    rw [MapRules.delete_absent habs, deleteKvHashtable_empty hlock hempty]
    refine ⟨H, ?_, h, Or.inl ⟨rfl, rfl⟩⟩
    -- Only a mutex that does nothing is as before on this return.
    rcases hslot with hlock' | hslot
    · have hmu : mu = H.lock := by
        rw [hlock'] at hlock ⊢
        exact (Except.ok.inj hlock).symm
      rw [hmu]
      rfl
    · exact absurd hempty hslot
  · rw [deleteKvHashtable_start ht hi hidx hlock]
    rcases deleteFromChain_spec (i := i) (k := k) hchain (hc.slot hi) { H with lock := mu } with
      ⟨A, node, B, hsplit, rfl, hrun⟩ | ⟨habs, hrun⟩
    · have hnode : node ∈ t[i] := by rw [hsplit]; simp
      rw [MapRules.delete_stored (Finmap.mem_of_lookup_eq_some (lookup_of_slot hh hi hnode)), hrun]
      refine ⟨_, ?_, h.remove ht hi hsplit,
        Or.inr ⟨rfl, t, i, A, node, B, hi, ht, hsplit, rfl, rfl⟩⟩
      refine (replace_run (H := { H with lock := mu }) ht hi (· - 1) 0).trans ?_
      rw [hunlock]
    · rw [MapRules.delete_absent (notMem_of_slot hc hh hi hidx habs), hrun]
      refine ⟨H, ?_, h, Or.inl ⟨rfl, rfl⟩⟩
      rw [hunlock]
      rfl

theorem HashEffect.lock {H' : Hashtable} {c : Call} {r : Answer} (h : HashEffect H H' c r) :
    H'.lock = H.lock := by
  cases c with
  | put k v =>
      rcases h with ⟨-, rfl⟩ | ⟨-, t, i, node, hi, -, -, -, rfl⟩
      · rfl
      · rfl
  | delete k =>
      rcases h with ⟨-, rfl⟩ | ⟨-, t, i, A, node, B, hi, -, -, -, rfl⟩
      · rfl
      · rfl
  | get k => exact congrArg Hashtable.lock h
  | count => exact congrArg Hashtable.lock h
  | exist k => exact congrArg Hashtable.lock h

/-- **Every call answers as the map does**, a `delete` that forgets to unlock apart. -/
theorem hashCall_refines (h : HashSim H m) {c : Call} (hc : c.HashFits)
    (hslot : ∀ k, c = .delete k → H.lock = .ignored ∨ ¬ SlotEmpty H k) :
    ∃ H', (hashCall c).run H = .ok ((hashRules.step m c).1, H') ∧
      HashSim H' (hashRules.step m c).2 ∧ HashEffect H H' c (hashRules.step m c).1 := by
  cases c with
  | put k v =>
      obtain ⟨H', hrun, hsim, heff⟩ := putKvHashtable_spec h hc.1 hc.2.1 hc.2.2
      exact ⟨H', run_map_of _ hrun, hsim, heff⟩
  | get k =>
      refine ⟨H, ?_, h, rfl⟩
      obtain ⟨r, hrun, hr⟩ := getKvHashtable_spec h hc
      refine run_bind_of hrun ?_
      rcases hr with ⟨mem, v, rfl, hreads, hlook⟩ | ⟨rfl, habs⟩
      · rw [readAnswer_run hreads, MapRules.step, MapRules.get_stored hlook]
      · rw [MapRules.step, MapRules.get_absent habs]
        rfl
  | count =>
      have hrun : countKvHashtable.run H = .ok (H.count, H) := run_bind_of (run_get H) rfl
      rw [h.count] at hrun
      exact ⟨H, run_map_of _ hrun, h, rfl⟩
  | exist k => exact ⟨H, run_map_of _ (existKvHashtable_spec h hc), h, rfl⟩
  | delete k =>
      obtain ⟨H', hrun, hsim, heff⟩ := deleteKvHashtable_spec h hc (hslot k rfl)
      exact ⟨H', run_map_of _ hrun, hsim, heff⟩

/-- A table of null slots stores the empty map. -/
theorem HashSim.fresh {mu : Mutex} (hmu : mu ≠ .held) : HashSim (Hashtable.fresh mu) ∅ := by
  refine ⟨⟨_, rfl, ⟨?_, ?_⟩, ?_⟩, rfl, hmu⟩
  · simp
  · intro i hi node hnode
    rw [Vector.getElem_replicate] at hnode
    cases hnode
  · simpa using Holds.nil

end Calls

/-! ### Over whole runs -/

/-- What holds of the table between any two calls. -/
structure HashInvariant (H : Hashtable) : Prop where
  /-- every node sits in the slot its key hashes to -/
  home : ∃ t, H.nodes = some t ∧ ∀ i, ∀ hi : i < maxTableSize, ∀ node ∈ t[i],
    ∃ k, Reads node.key.val k ∧ hash (some k) maxTableSize = .ok (i : Int)
  /-- no key is stored twice -/
  distinct : ∃ t, H.nodes = some t ∧
    t.toList.flatten.Pairwise fun a b => ∀ k, Reads a.key.val k → ¬ Reads b.key.val k
  /-- the counter counts the nodes of all chains -/
  counted : ∃ t, H.nodes = some t ∧ H.count = t.toList.flatten.length

theorem HashSim.invariant {H : Hashtable} {m : Dict CString CString} (h : HashSim H m) :
    HashInvariant H := by
  obtain ⟨t, ht, hc, hh⟩ := h.table
  refine ⟨⟨t, ht, ?_⟩, ⟨t, ht, ?_⟩, ⟨t, ht, ?_⟩⟩
  · intro i hi node hnode
    exact ⟨node.name, (hc.slot hi node hnode).readsKey, hc.home i hi node hnode⟩
  · have hnd := hh.nodup
    rw [List.map_map, List.Nodup, List.pairwise_map] at hnd
    refine hnd.imp_of_mem ?_
    intro a b ha hb hab k hka hkb
    have hna := (hc.sound a ha).readsKey.unique hka
    have hnb := (hc.sound b hb).readsKey.unique hkb
    exact hab (hna.trans hnb.symm)
  · rw [h.count, hh.card, List.length_map]

end KvStore
