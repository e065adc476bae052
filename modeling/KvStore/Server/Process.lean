/-
The whole server: what its readers do with the requests (kvstore.c and NtyCo/core).

`Server/Schedule.lean` has the coroutines as the scheduler runs them.  Here a reader receives
requests, has the store answer them, and sends the replies.  It yields in `recv`, and in `send`
when `send_f` has not taken all bytes; so `ReaderPlace` says in which of them, and what is left
to do there.

The sockets are outside: one step is given what `recv_f` and `send_f` do in it, and between
two yields a reader calls each of them at most once.  Both always return: the model has no
signals, so not the `SIGPIPE` either that ends the process if `send_f` is given a connection
which the client has reset.  The lists `exchanges`, `output` and `short` are a history for the
proofs, and the readers are numbered as they begin to run.
-/
import KvStore.Engine.Protocol
import KvStore.Server.Schedule

namespace KvStore

/-- The call in which a reader has yielded. -/
inductive ReaderPlace
  | recv (reader : Nat)
  /-- with the bytes that `send` was given, and how many of them have been sent -/
  | send (reader : Nat) (buf : List Byte) (sent : Nat)
  deriving DecidableEq

/-- The reader that has yielded there. -/
def ReaderPlace.number : ReaderPlace → Nat
  | .recv n => n
  | .send n _ _ => n

/-- What `send` has yet to send there. -/
def ReaderPlace.unsent : ReaderPlace → List Byte
  | .recv _ => []
  | .send _ buf sent => buf.drop sent

/-- A request that a reader has received from `fd`, and the reply that the store gave. -/
structure Exchange where
  reader : Nat
  fd : Int
  request : List Byte
  reply : List Byte

/-- A call of `send_f`, with the bytes that it has taken. -/
structure Chunk where
  reader : Nat
  fd : Int
  bytes : List Byte

/-- What the readers work on: the global variables of the engines, and the history. -/
structure Work where
  store : Store
  exchanges : List Exchange
  output : List Chunk
  /-- the readers for which a `send` has returned something else than what it was given -/
  short : List Nat

/-- What comes to a reader in one step. -/
structure Sockets where
  /-- the bytes that have come, none of them at the end; nothing if `recv_f` fails -/
  recv : Option (List Byte)
  /-- how many bytes `send_f` would take; nothing if it fails -/
  send : Option Nat
  deriving Inhabited

/-! ### `server_reader` -/

/-- `send_f` with the bytes that are left: what it returns. -/
def sendF (i : Sockets) (reader : Nat) (fd : Int) (rest : List Byte) : Prog Work Int := do
  let taken := match i.send with
    | none => []
    | some n => rest.take n
  modify fun w => { w with output := w.output ++ [⟨reader, fd, taken⟩] }
  return if i.send = none then -1 else taken.length

/-- `server_reader` from where `send` returns, until it waits in `recv` or ends. -/
def serverReaderSent (reader : Nat) (len : Nat) (ret : Int) : Prog Work (Option ReaderPlace) := do
  -- It looks for no other value than -1.
  whenever (ret ≠ len) (modify fun w => { w with short := w.short ++ [reader] })
  return if ret = -1 then none else some (.recv reader)

/-- The condition of the loop in `send`, and what follows if `send_f` has taken something. -/
def sendMore (reader : Nat) (buf : List Byte) (sent : Nat) : Prog Work (Option ReaderPlace) :=
  if sent < buf.length then return some (.send reader buf sent)
  else serverReaderSent reader buf.length sent

/-- `send`, and what `server_reader` does after it, up to the first yield. -/
def send (i : Sockets) (reader : Nat) (fd : Int) (buf : List Byte) :
    Prog Work (Option ReaderPlace) := do
  let ret ← sendF i reader fd buf
  if ret = 0 then serverReaderSent reader buf.length ret
  else if 0 < ret then sendMore reader buf ret.toNat
  -- Nothing is sent, and the loop is for what is left of nothing or of everything.
  else if 0 < buf.length then return some (.send reader buf 0)
  else serverReaderSent reader buf.length ret

/-- The same from inside the loop of `send`. -/
def sendLoop (i : Sockets) (reader : Nat) (fd : Int) (buf : List Byte) (sent : Nat) :
    Prog Work (Option ReaderPlace) := do
  let ret ← sendF i reader fd (buf.drop sent)
  if ret ≤ 0 then serverReaderSent reader buf.length (if sent = 0 then ret else sent)
  else sendMore reader buf (sent + ret.toNat)

/-- `kvs_protocol` on the cleared buffer with the request; no other coroutine runs meanwhile. -/
def answer (reader : Nat) (fd : Int) (request : List Byte) : Prog Work (List Byte) := do
  let reply ← zoom Work.store (fun w st => { w with store := st }) (serveRequest request)
  modify fun w => { w with exchanges := w.exchanges ++ [⟨reader, fd, request, reply⟩] }
  return reply

/-- `server_reader` from inside `recv`, until it yields again or ends. -/
def serverReaderRecv (i : Sockets) (reader : Nat) (fd : Int) : Prog Work (Option ReaderPlace) := do
  match i.recv with
  | none => return some (.recv reader)
  | some bytes =>
      let request := bytes.take clinetMsgLength
      if request = [] then return none
      else do
        let reply ← answer reader fd request
        send i reader fd reply

/-- `server_reader` -/
def serverReader : Reader ReaderPlace Work Sockets where
  first := .recv
  turn := fun i fd place =>
    match place with
    | .recv reader => serverReaderRecv i reader fd
    | .send reader buf sent => sendLoop i reader fd buf sent

/-! ### The process -/

/-- The process: the scheduler of the readers that work on the engines. -/
abbrev Process := Schedule ReaderPlace Work

namespace Process

/-- When `main` calls `nty_schedule_run`. -/
abbrev start (stack : Int) (store : Store) : Process := Schedule.start stack ⟨store, [], [], []⟩

/-- The process can go from one state to the other. -/
abbrev Step : Process → Process → Prop := Schedule.Step serverReader

/-- The next thing that `nty_schedule_run` does. -/
abbrev ntyScheduleRun (o : Outside Sockets) : Prog Process Unit :=
  Schedule.ntyScheduleRun serverReader o

end Process

/-! ### The history of a reader -/

namespace Work

/-- The replies of the store to the requests that the reader received, in order. -/
def replies (w : Work) (n : Nat) : List (List Byte) :=
  (w.exchanges.filter fun e => e.reader = n).map Exchange.reply

/-- The bytes that `send_f` has taken for the reader, in order. -/
def sentBy (w : Work) (n : Nat) : List Byte :=
  (w.output.filter fun c => c.reader = n).flatMap Chunk.bytes

end Work

end KvStore
