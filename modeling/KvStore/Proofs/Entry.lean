/-
The nodes of the tree and of the skip list.

Both engines keep a key and a value in fixed arrays inside the node, one after the
other.  A node's key, as every comparison reads it, is the string that starts at its
key field.  `Entry.Sound` says that this string ends inside the node, and that the
arrays are padded the way `strncpy` pads them; nothing the engines maintain depends on the
value, so that it may be one that did not fit.  `Entry.Terminated` says that it did.
-/
import KvStore.Base.Memory
import KvStore.Engine.Call

namespace KvStore

/-- What a node carries: its address and the contents of its arrays. -/
structure Entry where
  ptr : Ptr
  key : CharBuf maxKeyLen
  value : CharBuf maxValueLen

namespace Entry

/-- What a node holds, apart from its address. -/
def data (e : Entry) : CharBuf maxKeyLen × CharBuf maxValueLen := (e.key, e.value)

/-- The string a pointer to a key field denotes. -/
def nameOf (d : CharBuf maxKeyLen × CharBuf maxValueLen) : CString :=
  match cstr (d.1.val ++ d.2.val) with
  | .ok s => s
  | .error _ => CString.empty

/-- The string a pointer to a value field denotes. -/
def textOf (d : CharBuf maxKeyLen × CharBuf maxValueLen) : CString :=
  match cstr d.2.val with
  | .ok s => s
  | .error _ => CString.empty

def name (e : Entry) : CString := nameOf e.data

def text (e : Entry) : CString := textOf e.data

/-- The pair a node stores. -/
def pair (e : Entry) : CString × CString := (e.name, e.text)

/-- The stored pairs depend on the buffers only. -/
theorem map_pair {l l' : List Entry} (h : l.map data = l'.map data) : l.map pair = l'.map pair := by
  have hpair : pair = (fun d => (nameOf d, textOf d)) ∘ data := rfl
  rw [hpair, ← List.map_map, h, List.map_map]

/-- The key ends inside the node, and the buffers are as `strncpy` leaves them. -/
structure Sound (e : Entry) : Prop where
  reads : Reads (e.key.val ++ e.value.val) e.name
  keyPadded : strncpy maxKeyLen e.key.val = e.key
  valuePadded : strncpy maxValueLen e.value.val = e.value

/-- The value ends inside its array. -/
def Terminated (e : Entry) : Prop := Reads e.value.val e.text

theorem Sound.congr {e e' : Entry} (hs : e.Sound) (h : e.data = e'.data) : e'.Sound := by
  have hname : e.name = e'.name := congrArg nameOf h
  simp only [data, Prod.mk.injEq] at h
  obtain ⟨hr, hk, hv⟩ := hs
  refine ⟨?_, ?_, ?_⟩
  · rw [← hname, ← h.1, ← h.2]; exact hr
  · rw [← h.1]; exact hk
  · rw [← h.2]; exact hv

theorem Terminated.congr {e e' : Entry} (ht : e.Terminated) (h : e.data = e'.data) :
    e'.Terminated := by
  have htext : e.text = e'.text := congrArg textOf h
  simp only [data, Prod.mk.injEq] at h
  unfold Terminated at ht ⊢
  rw [← htext, ← h.2]
  exact ht

/-- What is read from a value field that `v` was copied into, if the copy is terminated. -/
def fieldText (v : CString) : CString := textOf (zeroBuf maxKeyLen, strncpy maxValueLen v.bytes)

theorem fieldText_eq {v : CString} (hv : ValueFits v) : fieldText v = v := by
  unfold fieldText textOf
  rw [cstr_of_reads (reads_strncpy hv)]

/-- The entry a new node gets. -/
def make (p : Ptr) (k v : CString) : Entry :=
  ⟨p, strncpy maxKeyLen k.bytes, strncpy maxValueLen v.bytes⟩

theorem make_reads {p : Ptr} {k v : CString} (hk : KeyFits k) :
    Reads ((make p k v).key.val ++ (make p k v).value.val) k :=
  (reads_strncpy hk).append _

theorem make_name {p : Ptr} {k v : CString} (hk : KeyFits k) : (make p k v).name = k := by
  unfold name nameOf data
  rw [cstr_of_reads (make_reads hk)]

theorem make_pair {p : Ptr} {k v : CString} (hk : KeyFits k) :
    (make p k v).pair = (k, fieldText v) := by
  unfold pair
  rw [make_name hk]
  rfl

theorem make_sound {p : Ptr} {k v : CString} (hk : KeyFits k) : (make p k v).Sound := by
  refine ⟨?_, strncpy_strncpy _ _, strncpy_strncpy _ _⟩
  rw [make_name hk]
  exact make_reads hk

theorem make_terminated {p : Ptr} {k v : CString} (hv : ValueFits v) :
    (make p k v).Terminated := by
  have htext : (make p k v).text = v := fieldText_eq hv
  unfold Terminated
  rw [htext]
  exact reads_strncpy hv

/-- The entry with its value field overwritten. -/
def withValue (e : Entry) (v : CString) : Entry :=
  { e with value := strncpy maxValueLen v.bytes }

theorem withValue_reads {e : Entry} {v : CString} (hs : e.Sound) (hk : KeyFits e.name) :
    Reads ((e.withValue v).key.val ++ (e.withValue v).value.val) e.name :=
  (hs.reads.of_append (by rw [e.key.property]; exact hk)).append _

theorem withValue_name {e : Entry} {v : CString} (hs : e.Sound) (hk : KeyFits e.name) :
    (e.withValue v).name = e.name := by
  rw [name, nameOf, data]
  simp only
  rw [cstr_of_reads (withValue_reads hs hk)]

theorem withValue_pair {e : Entry} {v : CString} (hs : e.Sound) (hk : KeyFits e.name) :
    (e.withValue v).pair = (e.name, fieldText v) := by
  unfold pair
  rw [withValue_name hs hk]
  rfl

theorem withValue_sound {e : Entry} {v : CString} (hs : e.Sound) (hk : KeyFits e.name) :
    (e.withValue v).Sound := by
  refine ⟨?_, hs.keyPadded, strncpy_strncpy _ _⟩
  rw [withValue_name hs hk]
  exact withValue_reads hs hk

theorem withValue_terminated {e : Entry} {v : CString} (hv : ValueFits v) :
    (e.withValue v).Terminated := by
  have htext : (e.withValue v).text = v := fieldText_eq hv
  unfold Terminated
  rw [htext]
  exact reads_strncpy hv

end Entry

end KvStore
