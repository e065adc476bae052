/-
The calls an engine answers.

All engines offer the same five operations to the command dispatcher.  An answer is
the C return value: an `int`, or a `char *` that is null or points to a string.
-/
import KvStore.Base.CString

namespace KvStore

/-- One call of an engine's interface. -/
inductive Call
  | put (key value : CString)
  | get (key : CString)
  | count
  | exist (key : CString)
  | delete (key : CString)
  deriving DecidableEq

/-- What a call returns. -/
inductive Answer
  | int (i : Int)
  | str (s : Option CString)
  deriving DecidableEq

/-- The call is a put or a delete that reports success. -/
def Call.Succeeds : Call → Answer → Prop
  | .put _ _, .int i | .delete _, .int i => i = 0
  | _, _ => False

/-- The answer of a `get`: the string at the pointer it returns, if that is not null. -/
def readAnswer {σ : Type} : Option (List Byte) → Prog σ Answer
  | none => pure (.str none)
  | some m => do return .str (some (← liftE (cstr m)))

theorem readAnswer_run {σ : Type} {m : List Byte} {v : CString} (h : Reads m v) (s : σ) :
    (readAnswer (some m)).run s = .ok (.str (some v), s) := by
  rw [readAnswer, cstr_of_reads h]
  rfl

/-- `MAX_KEY_LEN` -/
def maxKeyLen : Nat := 128

/-- `MAX_VALUE_LEN` -/
def maxValueLen : Nat := 512

/-- The key leaves room for its terminator in a key field. -/
def KeyFits (k : CString) : Prop := k.length < maxKeyLen

/-- The value leaves room for its terminator in a value field. -/
def ValueFits (v : CString) : Prop := v.length < maxValueLen

instance (k : CString) : Decidable (KeyFits k) := inferInstanceAs (Decidable (_ < _))

instance (v : CString) : Decidable (ValueFits v) := inferInstanceAs (Decidable (_ < _))

/-- All bytes are below 0x80. -/
def Ascii (k : CString) : Prop := ∀ b ∈ k.bytes, b.toNat ≤ 0x7f

instance (k : CString) : Decidable (Ascii k) := List.decidableBAll _ k.bytes

/-- The call's key is ASCII. -/
def Call.AsciiKey : Call → Prop
  | .put k _ | .get k | .exist k | .delete k => Ascii k
  | .count => True

instance : DecidablePred Call.AsciiKey
  | .put k _ | .get k | .exist k | .delete k => inferInstanceAs (Decidable (Ascii k))
  | .count => inferInstanceAs (Decidable True)

/-- The call is about the key `k`. -/
def Call.Names (k : CString) : Call → Prop
  | .put k' _ | .get k' | .exist k' | .delete k' => k' = k
  | .count => False

/-- The call's strings fit the fixed-size fields with their terminators. -/
def Call.Fits : Call → Prop
  | .put k v => KeyFits k ∧ ValueFits v
  | .get k | .exist k | .delete k => KeyFits k
  | .count => True

instance : DecidablePred Call.Fits
  | .put _ _ => inferInstanceAs (Decidable (_ ∧ _))
  | .get k | .exist k | .delete k => inferInstanceAs (Decidable (KeyFits k))
  | .count => inferInstanceAs (Decidable True)

/-- The strings of a put fit; another call may ask for a key that does not. -/
def Call.PutFits : Call → Prop
  | .put k v => KeyFits k ∧ ValueFits v
  | .get _ | .count | .exist _ | .delete _ => True

instance : DecidablePred Call.PutFits
  | .put _ _ => inferInstanceAs (Decidable (_ ∧ _))
  | .get _ | .count | .exist _ | .delete _ => inferInstanceAs (Decidable True)

theorem Call.Fits.putFits {c : Call} (h : c.Fits) : c.PutFits := by
  cases c with
  | put k v => exact h
  | get | count | exist | delete => trivial

end KvStore
