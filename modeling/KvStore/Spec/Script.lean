/-
Scripts of requests.

A client talks to one engine by lines of text: a command with the letter of the engine in
front, and its arguments, with spaces between.  `Encodes e c msg` says that the message
`msg` asks the engine `e` for the call `c`.

On a store with all five engines the client can not tell from the replies which of them it
is talking to, as long as it stays clear of the cases in which they differ: it sets only
keys that are not stored and gets only keys that are, and there is never more than the
array can hold.  `Sampled` is a script of that kind, and `scriptStep` is the machine that
gives the replies.
-/
import KvStore.Base.Dict
import KvStore.Engine.Protocol

namespace KvStore

/-! ### Messages -/

/-- The letter in front of an engine's commands. -/
def Engine.letter : Engine → String
  | .array => ""
  | .rbtree => "R"
  | .hash => "H"
  | .dhash => "D"
  | .skiptable => "Z"

namespace Call

/-- The name of the command that makes the call, without the letter. -/
def verb : Call → String
  | .put _ _ => "SET"
  | .get _ => "GET"
  | .count => "COUNT"
  | .exist _ => "EXIST"
  | .delete _ => "DELETE"

def args : Call → List CString
  | .put k v => [k, v]
  | .get k | .exist k | .delete k => [k]
  | .count => []

end Call

/-- The first token of a request. -/
def commandWord (e : Engine) (c : Call) : List Byte := literal e.letter ++ literal c.verb

/-- The bytes are the words in this order, with one or more spaces between. -/
inductive Spells : List (List Byte) → List Byte → Prop
  | last (w : List Byte) : Spells [w] w
  | more (w : List Byte) (n : Nat) {ws : List (List Byte)} {msg : List Byte} :
      Spells ws msg → Spells (w :: ws) (w ++ List.replicate (n + 1) 32 ++ msg)

/-- The message asks the engine for the call, and leaves room for a NUL in the buffer. -/
def Encodes (e : Engine) (c : Call) (msg : List Byte) : Prop :=
  Spells (commandWord e c :: c.args.map CString.bytes) msg ∧ msg.length < clinetMsgLength

/-! ### Replies -/

/-- The text for the result of a `SET` or `DELETE` command. -/
def resultText (res : Int) : List Byte :=
  if res = 0 then literal "SUCCESS\x0d\n" else literal "FAILED\x0d\n"

/-- The text for the result of a `GET` command. -/
def valueText : Option CString → List Byte
  | some value => value.bytes ++ literal "\x0d\n"
  | none => literal "FAILED: NO EXIST\x0d\n"

/-- The text for the result of a `COUNT` or `EXIST` command. -/
def numberText (res : Int) : List Byte := decimal res ++ literal "\x0d\n"

/-- The text for an engine's answer to a call. -/
def answerText : Call → Answer → List Byte
  | .put _ _, .int i | .delete _, .int i => resultText i
  | .count, .int i | .exist _, .int i => numberText i
  | _, .int _ => []
  | _, .str s => valueText s

/-! ### Scripts -/

/-- The string can be a token. -/
def IsToken (s : CString) : Prop := s.bytes ≠ [] ∧ (32 : Byte) ∉ s.bytes

namespace Call

/-- The arguments are tokens that fit, and the key is ASCII. -/
structure Plain (c : Call) : Prop where
  tokens : ∀ s ∈ c.args, IsToken s
  fits : c.Fits
  ascii : c.AsciiKey

/-- The map after the call, if the call is one that all engines agree on. -/
def after (m : Dict CString CString) : Call → Dict CString CString
  | .put k v => m.insert k v
  | .delete k => m.erase k
  | _ => m

/-- All engines agree on the call. -/
def Agreed (m : Dict CString CString) : Call → Prop
  | .put k _ => k ∉ m ∧ m.keys.card < 1023
  | .get k => k ∈ m
  | _ => True

/-- The reply all engines give. -/
def reply (m : Dict CString CString) : Call → List Byte
  | .put _ _ => resultText 0
  | .get k => valueText (m.lookup k)
  | .count => numberText m.keys.card
  | .exist k => numberText (if k ∈ m then 1 else 0)
  | .delete k => resultText (if k ∈ m then 0 else 1)

end Call

/-- The machine behind a script. -/
def scriptStep (m : Dict CString CString) (c : Call) : List Byte × Dict CString CString :=
  (c.reply m, c.after m)

/-- Each call of the script is one that all engines agree on when its turn comes. -/
def Sampled : Dict CString CString → List Call → Prop
  | _, [] => True
  | m, c :: rest => c.Plain ∧ c.Agreed m ∧ Sampled (c.after m) rest

end KvStore
