/-
What a message asks for.

A message is any bytes a client sends.  Its tokens are the words of the text in front of the
first NUL; the first of them selects an engine and a verb, and the next two are the key and
the value.  Any of them may be missing, and then the engine is handed a null pointer:
`Store.op` is the engine's function with the arguments as they come.  A verb that has what it
needs makes one of the calls of `Engine/Call.lean`.
-/
import KvStore.Spec.Script

namespace KvStore

/-! ### Tokens -/

theorem notMem_takeWhile (m : List Byte) : (0 : Byte) ∉ m.takeWhile (· ≠ 0) := by
  intro h
  have hne := List.mem_takeWhile_imp h
  exact of_decide_eq_true hne rfl

/-- The bytes in front of the first NUL. -/
def CString.ofBytes (m : List Byte) : CString := ⟨m.takeWhile (· ≠ 0), notMem_takeWhile m⟩

def tokensOf (request : List Byte) : List CString :=
  (words 32 (CString.ofBytes request).bytes).map CString.ofBytes

/-- The cleared buffer of `server_reader` with the bytes that `recv` put into it. -/
def requestBuf (request : List Byte) : List Byte :=
  request ++ List.replicate (clinetMsgLength - request.length) 0

/-- `kvs_protocol` on the buffer that holds the request. -/
def kvsProtocolOn (request : List Byte) : Prog Store (Int × List Byte) :=
  kvsProtocol (requestBuf request)

/-! ### Requests -/

inductive Verb
  | set
  | get
  | count
  | delete
  | exist
  deriving DecidableEq, Repr

namespace Verb

def all : List Verb := [.set, .get, .count, .delete, .exist]

def name : Verb → String
  | .set => "SET"
  | .get => "GET"
  | .count => "COUNT"
  | .delete => "DELETE"
  | .exist => "EXIST"

/-- The verb can change an engine. -/
def Writes : Verb → Prop
  | .set | .delete => True
  | .get | .count | .exist => False

instance : DecidablePred Writes
  | .set | .delete => inferInstanceAs (Decidable True)
  | .get | .count | .exist => inferInstanceAs (Decidable False)

/-- The call the verb makes, if it has the arguments it needs. -/
def call : Verb → Option CString → Option CString → Option Call
  | .set, some k, some v => some (.put k v)
  | .get, some k, _ => some (.get k)
  | .count, _, _ => some .count
  | .delete, some k, _ => some (.delete k)
  | .exist, some k, _ => some (.exist k)
  | _, _, _ => none

theorem call_put {v : Verb} {key value : Option CString} {k a : CString}
    (h : v.call key value = some (.put k a)) : value = some a := by
  cases v <;> cases key <;> cases value <;> cases h
  rfl

/-- The text for what the engine's function returned to a command with this verb. -/
def text : Verb → Answer → List Byte
  | .set, .int i | .delete, .int i => resultText i
  | .count, .int i | .exist, .int i => numberText i
  | .get, .int _ => []
  | _, .str s => valueText s

end Verb

/-- The verb of the command that makes the call. -/
def Call.kind : Call → Verb
  | .put _ _ => .set
  | .get _ => .get
  | .count => .count
  | .exist _ => .exist
  | .delete _ => .delete

def Engine.all : List Engine := [.array, .rbtree, .hash, .dhash, .skiptable]

/-- The first token of a request. -/
def requestWord (p : Engine × Verb) : List Byte := literal p.1.letter ++ literal p.2.name

/-- What a first token asks for: nothing, if it is not one of the 25 words. -/
def requestOf (w : CString) : Option (Engine × Verb) :=
  (Engine.all.product Verb.all).find? fun p => requestWord p = w.bytes

/-- What a message asks for, if anything. -/
def requestIn (request : List Byte) : Option (Engine × Verb) :=
  (tokensOf request).head?.bind requestOf

theorem requestOf_eq_some {w : CString} {e : Engine} {v : Verb} :
    requestOf w = some (e, v) ↔ w.bytes = requestWord (e, v) := by
  constructor
  · intro h
    have hw := List.find?_some h
    rw [decide_eq_true_eq] at hw
    exact hw.symm
  · intro hw
    unfold requestOf
    rw [hw]
    cases e <;> cases v <;> decide

/-! ### The engines' functions -/

section Operations

variable (key value : Option CString)

def arrayOp : Verb → Prog ArrayTable Answer
  | .set => Answer.int <$> kvsArraySet true true key value
  | .get => Answer.str <$> kvsArrayGet key
  | .count => Answer.int <$> kvsArrayCount
  | .delete => Answer.int <$> kvsArrayDelete key
  | .exist => Answer.int <$> kvsArrayExist key

def rbtreeOp : Verb → Prog Rbtree Answer
  | .set => Answer.int <$> putKvRbtree true key value
  | .get => do readAnswer (← getKvRbtree key)
  | .count => Answer.int <$> countKvRbtree
  | .delete => Answer.int <$> deleteKvRbtree key
  | .exist => Answer.int <$> existKvRbtree key

def hashOp : Verb → Prog Hashtable Answer
  | .set => Answer.int <$> putKvHashtable true key value
  | .get => do readAnswer (← getKvHashtable key)
  | .count => Answer.int <$> countKvHashtable
  | .delete => Answer.int <$> deleteKvHashtable key
  | .exist => Answer.int <$> existKvHashtable key

def dhashOp : Verb → Prog DhashTable Answer
  | .set => Answer.int <$> putKvDhashtable true true true key value
  | .get => Answer.str <$> getKvDhashtable key
  | .count => Answer.int <$> countKvDhashtable
  | .delete => Answer.int <$> deleteKvDhashtable key
  | .exist => Answer.int <$> existKvDhashtable key

def skiptableOp : Verb → Prog SkipList Answer
  | .set => Answer.int <$> putKvSkiptable true true key value
  | .get => do readAnswer (← getKvSkiptable key)
  | .count => Answer.int <$> countKvSkiptable
  | .delete => Answer.int <$> deleteKvSkiptable key
  | .exist => Answer.int <$> existKvSkiptable key

/-- The function of the engine for the verb, with every allocation succeeding. -/
def Store.op : Engine → Verb → Prog Store Answer
  | .array, v => onArray (arrayOp key value v)
  | .rbtree, v => onTree (rbtreeOp key value v)
  | .hash, v => onHash (hashOp key value v)
  | .dhash, v => onDhash (dhashOp key value v)
  | .skiptable, v => onTable (skiptableOp key value v)

end Operations

/-- A verb that has its arguments makes the call. -/
theorem Store.op_call {key value : Option CString} {v : Verb} {c : Call}
    (h : v.call key value = some c) (e : Engine) : Store.op key value e v = Store.call e c := by
  cases v <;> cases key <;> cases value <;> cases h <;> cases e <;> rfl

theorem Call.kind_call (c : Call) : c.kind.call c.args[0]? c.args[1]? = some c := by
  cases c <;> rfl

theorem Call.kind_text (c : Call) (r : Answer) : c.kind.text r = answerText c r := by
  cases c <;> cases r <;> rfl

/--
What `kvs_protocol` does with the tokens of a message, and with the buffer `msg` that they
were cut out of.
-/
def dispatch (msg : List Byte) : List CString → Prog Store (Int × List Byte)
  | [] => return (kvsCmdError, msg)
  | w :: args =>
      match requestOf w with
      | none => return (0, msg)
      | some (e, v) =>
          if (e, v) = (.array, .set) ∧ args.length ≠ 2 then fault .assertFailed
          else do writeReply msg (v.text (← Store.op args[0]? args[1]? e v))

end KvStore
