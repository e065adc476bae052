/-
The text protocol (kvstore.c).

A message is a buffer of 1024 bytes.  `kvs_split_tokens` cuts it into tokens in place, the
first token selects a command, the next two are its key and value, and the reply is
formatted into the same buffer.  A token is null or an offset into the buffer.

The cases of the big switch come in three kinds, one for each way to format a result; the
case of `SET` differs from the others in an assertion.  What the functions print is left
out, and every allocation succeeds.
-/
import KvStore.Base.Tokens
import KvStore.Engine.Store

namespace KvStore

/-- `MAX_TOKENS` -/
def maxTokens : Nat := 32

/-- `CLINET_MSG_LENGTH` -/
def clinetMsgLength : Nat := 1024

/-- A string literal of the source. -/
def literal (s : String) : List Byte := s.toList.map Char.toUInt8

/-! ### Tokens -/

/-- `char *tokens[MAX_TOKENS]`, as offsets into the message. -/
abbrev Tokens := Vector (Option Nat) maxTokens

/-- The initializer `{0}`. -/
def Tokens.null : Tokens := Vector.replicate maxTokens none

/-- The loop of `kvs_split_tokens`; the call of `strtok` continues at `pos`. -/
def splitTokens : Nat → Tokens → Nat → List Byte → Nat → Except Fault (Nat × Tokens × List Byte)
  | 0, _, _, _, _ => .error .outOfFuel
  | fuel + 1, tokens, count, msg, pos => do
      match ← strtok 32 msg pos with
      | none => return (count, tokens, msg)
      | some (token, msg, pos) =>
          if h : count < maxTokens then
            splitTokens fuel (tokens.set count (some token)) (count + 1) msg pos
          else .error .outOfBounds

/-- `kvs_split_tokens`: the count, the tokens, and the message it has cut up. -/
def kvsSplitTokens (tokens : Tokens) (msg : List Byte) : Except Fault (Nat × Tokens × List Byte) :=
  splitTokens (msg.length + 1) tokens 0 msg 0

/-- The string a token denotes. -/
def tokenString (msg : List Byte) (token : Option Nat) : Except Fault (Option CString) :=
  match token with
  | none => return none
  | some offset => do return some (← cstr (msg.drop offset))

/-! ### Commands -/

/-- `kvs_cmd_t` up to `KVS_CMD_ZEXIST` -/
inductive KvsCmd
  | set | get | count | delete | exist
  | rset | rget | rcount | rdelete | rexist
  | bset | bget | bcount | bdelete | bexist
  | hset | hget | hcount | hdelete | hexist
  | dset | dget | dcount | ddelete | dexist
  | zset | zget | zcount | zdelete | zexist
  deriving DecidableEq, Repr

/-- `KVS_CMD_ERROR` -/
def kvsCmdError : Int := 30

/-- The table `commands`, with the enumerator that indexes each entry. -/
def commands : List (String × KvsCmd) :=
  [("SET", .set), ("GET", .get), ("COUNT", .count), ("DELETE", .delete), ("EXIST", .exist),
   ("RSET", .rset), ("RGET", .rget), ("RCOUNT", .rcount), ("RDELETE", .rdelete),
   ("REXIST", .rexist),
   ("BSET", .bset), ("BGET", .bget), ("BCOUNT", .bcount), ("BDELETE", .bdelete),
   ("BEXIST", .bexist),
   ("HSET", .hset), ("HGET", .hget), ("HCOUNT", .hcount), ("HDELETE", .hdelete),
   ("HEXIST", .hexist),
   ("DSET", .dset), ("DGET", .dget), ("DCOUNT", .dcount), ("DDELETE", .ddelete),
   ("DEXIST", .dexist),
   ("ZSET", .zset), ("ZGET", .zget), ("ZCOUNT", .zcount), ("ZDELETE", .zdelete),
   ("ZEXIST", .zexist)]

/-- The loop that compares the first token with the entries of the table. -/
def findCommand (word : List Byte) : List (String × KvsCmd) → Except Fault (Option KvsCmd)
  | [] => return none
  | (name, cmd) :: rest => do
      if (← strcmp word (literal name ++ [0])) = 0 then return some cmd
      else findCommand word rest

/-! ### Replies -/

/-- `%d` -/
def decimal (i : Int) : List Byte :=
  (if i < 0 then literal "-" else []) ++ (Nat.toDigits 10 i.natAbs).map Char.toUInt8

/--
`memset` of the message and `snprintf` of a text into it: the length of the text, and the
message with as much of the text as leaves room for a NUL.
-/
def writeReply (msg text : List Byte) : Prog Store (Int × List Byte) :=
  if clinetMsgLength ≤ msg.length then
    let written := text.take (clinetMsgLength - 1)
    return (text.length,
      written ++ List.replicate (clinetMsgLength - written.length) 0 ++ msg.drop clinetMsgLength)
  else fault .outOfBounds

/-- The cases of the `SET` and `DELETE` commands. -/
def resultReply (msg : List Byte) (x : Prog Store Int) : Prog Store (Int × List Byte) := do
  let res ← x
  if res = 0 then writeReply msg (literal "SUCCESS\x0d\n")
  else writeReply msg (literal "FAILED\x0d\n")

/-- The cases of the `GET` commands. -/
def valueReply (msg : List Byte) (x : Prog Store (Option (List Byte))) :
    Prog Store (Int × List Byte) := do
  match ← x with
  | some value => do
      let value ← liftE (cstr value)
      writeReply msg (value.bytes ++ literal "\x0d\n")
  | none => writeReply msg (literal "FAILED: NO EXIST\x0d\n")

/-- The cases of the `COUNT` and `EXIST` commands. -/
def numberReply (msg : List Byte) (x : Prog Store Int) : Prog Store (Int × List Byte) := do
  let res ← x
  writeReply msg (decimal res ++ literal "\x0d\n")

/-- The switch of `kvs_parser_protocol`. -/
def runCommand (msg : List Byte) (count : Nat) (key value : Option CString) :
    KvsCmd → Prog Store (Int × List Byte)
  | .set =>
      if count = 3 then resultReply msg (onArray (kvsArraySet true true key value))
      else fault .assertFailed
  | .get => valueReply msg (Option.map CString.mem <$> onArray (kvsArrayGet key))
  | .count => numberReply msg (onArray kvsArrayCount)
  | .delete => resultReply msg (onArray (kvsArrayDelete key))
  | .exist => numberReply msg (onArray (kvsArrayExist key))
  | .rset => resultReply msg (onTree (putKvRbtree true key value))
  | .rget => valueReply msg (onTree (getKvRbtree key))
  | .rcount => numberReply msg (onTree countKvRbtree)
  | .rdelete => resultReply msg (onTree (deleteKvRbtree key))
  | .rexist => numberReply msg (onTree (existKvRbtree key))
  | .bset | .bget | .bcount | .bdelete | .bexist => return (0, msg)
  | .hset => resultReply msg (onHash (putKvHashtable true key value))
  | .hget => valueReply msg (onHash (getKvHashtable key))
  | .hcount => numberReply msg (onHash countKvHashtable)
  | .hdelete => resultReply msg (onHash (deleteKvHashtable key))
  | .hexist => numberReply msg (onHash (existKvHashtable key))
  | .dset => resultReply msg (onDhash (putKvDhashtable true true true key value))
  | .dget => valueReply msg (Option.map CString.mem <$> onDhash (getKvDhashtable key))
  | .dcount => numberReply msg (onDhash countKvDhashtable)
  | .ddelete => resultReply msg (onDhash (deleteKvDhashtable key))
  | .dexist => numberReply msg (onDhash (existKvDhashtable key))
  | .zset => resultReply msg (onTable (putKvSkiptable true true key value))
  | .zget => valueReply msg (onTable (getKvSkiptable key))
  | .zcount => numberReply msg (onTable countKvSkiptable)
  | .zdelete => resultReply msg (onTable (deleteKvSkiptable key))
  | .zexist => numberReply msg (onTable (existKvSkiptable key))

/-- `kvs_parser_protocol`: what it returns, and the message it leaves. -/
def kvsParserProtocol (msg : List Byte) (tokens : Tokens) (count : Nat) :
    Prog Store (Int × List Byte) := do
  match tokens[0] with
  | none => return (kvsCmdError, msg)
  | some first =>
      if count = 0 then return (kvsCmdError, msg)
      else
        match ← liftE (findCommand (msg.drop first) commands) with
        | none => return (0, msg)
        | some cmd => do
            let key ← liftE (tokenString msg tokens[1])
            let value ← liftE (tokenString msg tokens[2])
            runCommand msg count key value cmd

/-- `kvs_protocol`: what it returns, and the message it leaves. -/
def kvsProtocol (msg : List Byte) : Prog Store (Int × List Byte) := do
  let (count, tokens, msg) ← liftE (kvsSplitTokens Tokens.null msg)
  kvsParserProtocol msg tokens count

/--
One round of `server_reader`: the bytes `recv` has put into the cleared buffer, and the
bytes `send` takes from it.
-/
def serveRequest (request : List Byte) : Prog Store (List Byte) := do
  let (ret, buf) ← kvsProtocol (request ++ List.replicate (clinetMsgLength - request.length) 0)
  if ret.toNat ≤ buf.length then return buf.take ret.toNat else fault .overrun

end KvStore
