/-
Printing the skip list (skiptable.c).

`print` goes along every level, from the highest down.  What it prints is its result here.
-/
import KvStore.Engine.Protocol
import KvStore.Engine.Skiptable

namespace KvStore

/-- `printf("Level %d: ", i)` -/
def levelText (i : Nat) : List Byte := literal "Level " ++ decimal i ++ literal ": "

/-- `printf("(%s, %s) ", key, value)` -/
def pairText (key value : CString) : List Byte :=
  literal "(" ++ key.bytes ++ literal ", " ++ value.bytes ++ literal ") "

/-- The body of the loop of `print` along level `i`, with what was printed so far. -/
def printStep (i : Nat) : Ptr × List Byte → Prog SkipList ((Ptr × List Byte) ⊕ List Byte)
  | (p, out) => do
      if p ≠ 0 then
        let nd ← deref p
        let key ← liftE (cstr nd.keyMem)
        let value ← liftE (cstr nd.valueMem)
        return .inl (← getForward p i, out ++ pairText key value)
      else return .inr out

/-- `for (i = n - 1; i >= 0; --i)` with that loop in its body. -/
def printLevels : Nat → List Byte → Prog SkipList (List Byte)
  | 0, out => return out
  | i + 1, out => do
      let S ← get
      let out := out ++ levelText i
      let p ← getForward S.header i
      let out ← loop (printStep i) S.fuel (p, out)
      printLevels i (out ++ literal "\n")

/-- `print` -/
def SkipList.print : Prog SkipList (List Byte) := do
  let out ← printLevels (← get).level []
  return out ++ literal "\n"

end KvStore
