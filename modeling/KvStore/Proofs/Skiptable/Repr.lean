/-
What six interleaved chains in memory say about a list of towers.

`SkipRep S L` is the bridge between skiptable.c and a sorted list: the nodes of `L`, each
with the height of its tower, are the allocated nodes besides the header, and on every
level the pointers from the header lead through the nodes that are high enough.

Linking and unlinking change one pointer at a time and nothing else.  `Redirect` says
what that is, so that the parts of the representation that do not mention pointers are
carried along once and for all.
-/
import KvStore.Base.Chain
import KvStore.Engine.Skiptable
import KvStore.Proofs.Entry

namespace KvStore

/-- A node of the list and the height of its tower. -/
structure Tower extends Entry where
  height : Nat

/-- The pointer the node at `p` has on level `i`, if its tower is that high. -/
def forwardAt (m : Mem SkNode) (i : Nat) (p : Ptr) : Option Ptr :=
  (m.cells p).bind fun nd => nd.forward[i]?

/-- What a node keeps while its pointers change. -/
def SkNode.shape (nd : SkNode) : CharBuf maxKeyLen × CharBuf maxValueLen × Nat :=
  (nd.key, nd.value, nd.forward.length)

def shapeAt (m : Mem SkNode) (p : Ptr) : Option (CharBuf maxKeyLen × CharBuf maxValueLen × Nat) :=
  (m.cells p).map SkNode.shape

def Tower.shape (e : Tower) : CharBuf maxKeyLen × CharBuf maxValueLen × Nat :=
  (e.key, e.value, e.height)

/-! ### Lanes -/

/-- The nodes on level `i`. -/
def lane (i : Nat) (L : List Tower) : List Ptr :=
  (L.filter fun e => i < e.height).map fun e => e.ptr

section Lane

variable {i : Nat} {L A B : List Tower} {e : Tower}

theorem lane_append : lane i (A ++ B) = lane i A ++ lane i B := by
  simp [lane]

theorem lane_cons_pos (h : i < e.height) : lane i (e :: B) = e.ptr :: lane i B := by
  simp [lane, h]

theorem lane_cons_neg (h : ¬ i < e.height) : lane i (e :: B) = lane i B := by
  simp [lane, h]

theorem mem_lane {p : Ptr} : p ∈ lane i L ↔ ∃ e ∈ L, i < e.height ∧ e.ptr = p := by
  simp [lane, and_assoc]

theorem lane_sublist : (lane i L).Sublist (L.map fun e => e.ptr) :=
  List.filter_sublist.map _

/-- The nodes on a level are among those on the level below. -/
theorem lane_succ_sublist : (lane (i + 1) L).Sublist (lane i L) := by
  refine List.Sublist.map _ (List.monotone_filter_right L ?_)
  intro e he
  rw [decide_eq_true_eq] at he ⊢
  omega

/-- Every node is on level 0. -/
theorem lane_zero (h : ∀ e ∈ L, 1 ≤ e.height) : lane 0 L = L.map fun e => e.ptr := by
  unfold lane
  rw [List.filter_eq_self.mpr]
  intro e he
  exact decide_eq_true (h e he)

/-- No node is on a level above all towers. -/
theorem lane_eq_nil (h : ∀ e ∈ L, e.height ≤ i) : lane i L = [] := by
  unfold lane
  rw [List.filter_eq_nil_iff.mpr, List.map_nil]
  intro e he
  have := h e he
  simpa using this

end Lane

/-! ### The representation -/

structure SkipRep (S : SkipList) (L : List Tower) : Prop where
  header : ∃ key value, shapeAt S.mem S.header = some (key, value, maxLevel)
  nodes : ∀ e ∈ L, shapeAt S.mem e.ptr = some e.shape
  /-- what was allocated since the header is in the list -/
  only : ∀ p, S.header < p → (S.mem.cells p).isSome → p ∈ L.map fun e => e.ptr
  chains : ∀ i, i < maxLevel → ChainFrom (forwardAt S.mem i) S.header (lane i L)
  above : ∀ e ∈ L, S.header < e.ptr
  nodup : (L.map fun e => e.ptr).Nodup
  heights : ∀ e ∈ L, 1 ≤ e.height ∧ e.height ≤ S.level
  level_pos : 1 ≤ S.level
  level_le : S.level ≤ maxLevel
  ascending : L.Pairwise fun a b => a.name < b.name
  sound : ∀ e ∈ L, e.Sound

namespace SkipRep

variable {S : SkipList} {L A B : List Tower} {key : CString} {i : Nat} {e : Tower}

/-- The node of an entry. -/
theorem cell (h : SkipRep S L) (he : e ∈ L) :
    ∃ fs, S.mem.cells e.ptr = some ⟨e.key, e.value, fs⟩ ∧ fs.length = e.height := by
  have hshape := h.nodes e he
  rw [shapeAt, Option.map_eq_some_iff] at hshape
  obtain ⟨⟨k, v, fs⟩, hcell, hnd⟩ := hshape
  simp only [SkNode.shape, Tower.shape, Prod.mk.injEq] at hnd
  obtain ⟨rfl, rfl, hlen⟩ := hnd
  exact ⟨fs, hcell, hlen⟩

theorem nodup_header (h : SkipRep S L) : (S.header :: L.map fun e => e.ptr).Nodup := by
  refine List.nodup_cons.mpr ⟨?_, h.nodup⟩
  intro hmem
  obtain ⟨e, he, hptr⟩ := List.mem_map.mp hmem
  exact absurd hptr (Nat.ne_of_gt (h.above e he))

theorem length_le (h : SkipRep S L) : L.length ≤ S.mem.next := by
  have hlen := Mem.length_le_next (m := S.mem) h.nodup (by
    intro q hq
    obtain ⟨e, he, rfl⟩ := List.mem_map.mp hq
    obtain ⟨fs, hcell, -⟩ := h.cell he
    exact ⟨_, hcell⟩)
  simpa using hlen

end SkipRep

end KvStore
