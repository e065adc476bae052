/-
The server and the scheduler of its coroutines (kvstore.c and NtyCo/core).

The coroutine `server` accepts connections and creates a coroutine `server_reader` for each.
Built with `_USE_UCONTEXT`, all coroutines run on one stack: `_save_stack` keeps the bytes of
a coroutine that yields, and `_load_stack` puts them back when it is resumed.  What `server`
hands to a reader is the address of its local variable `cli_fd` on this stack.  The model has
of the stack the `int` at this address.

`accept` and `recv` wait with the timeout 1, and with this one `nty_schedule_sched_wait` makes
no coroutine a sleeper.  So nothing happens in step 1 of `nty_schedule_run`, and the ready
queue only ever has coroutines that are new, which step 2 never finds at the end of a file.

The scheduler does not know what a reader does between two yields, only where it yields next or
that it has ended.  So the turn of a reader is a parameter (`Reader`).  The one of the server is
in `Server/Process.lean`; `anyReader` stands for them all, and works on nothing.
-/
import KvStore.Base.Prog
import KvStore.Base.Dict

namespace KvStore

/-- A coroutine that was created and has not run yet. -/
inductive NewCoroutine
  | server
  /-- its argument is `&cli_fd`, and this is what `accept` had returned -/
  | serverReader (cliFd : Int)
  deriving DecidableEq

/-- Where a coroutine has yielded: `server` in `accept`, and a reader at a place of its own. -/
inductive Place (P : Type)
  | accept
  | reader (place : P)
  deriving DecidableEq

/-- A coroutine that has yielded. -/
structure Coroutine (P : Type) where
  place : Place P
  /-- what its saved stack has at the address of `cli_fd` -/
  stack : Int
  deriving DecidableEq

/-- `nty_schedule`, with what the readers work on -/
structure Schedule (P W : Type) where
  /-- what the shared stack has at the address of `cli_fd` -/
  stack : Int
  /-- the queue `ready` -/
  ready : List NewCoroutine
  /-- the tree `waiting`, by the descriptors that the coroutines wait for -/
  waiting : Dict Int (Coroutine P)
  /-- the descriptors in `eventlist` with an index below `num_new_events` -/
  events : List Int
  /-- what `accept` has returned to `server` so far -/
  accepted : List Int
  /-- what the readers have read through their arguments so far -/
  read : List Int
  work : W

/-- What comes from outside in one step, and what the step does not determine. -/
structure Outside (I : Type) where
  /-- the descriptor that `socket` returns -/
  socket : Int
  /-- the descriptors that `epoll_wait` reports, if something waits for them -/
  reported : List Int
  /-- what `accept` returns, if it does not fail with `EAGAIN` -/
  accept : Option Int
  /-- what the frame of the coroutine that runs has at the address, if it has been written -/
  frame : Option Int
  /-- what comes to the reader that runs -/
  reader : I

/-- The coroutine `server_reader`, as the scheduler sees it. -/
structure Reader (P W I : Type) where
  /-- where the reader with this number yields first -/
  first : Nat → P
  /--
  What a reader of the descriptor does from a place on: where it yields next, waiting for the
  same descriptor, or nothing if it ends.
  -/
  turn : I → Int → P → Prog W (Option P)

/-- A reader that waits again or ends, whatever it has done. -/
def anyReader : Reader Unit Unit Bool where
  first := fun _ => ()
  turn := fun ends _ _ => return if ends then none else some ()

variable {P W I : Type}

namespace Schedule

/-- When `main` calls `nty_schedule_run`. -/
def start (stack : Int) (work : W) : Schedule P W := ⟨stack, [.server], ∅, [], [], [], work⟩

/-! ### Coroutines -/

/--
`nty_poll_inner` up to the yield: the coroutine waits for the descriptor, and its stack is
saved.
-/
def ntyPollInner (place : Place P) (fd : Int) : Prog (Schedule P W) Unit := do
  let sched ← get
  -- `RB_INSERT` gives back another coroutine that waits for it, and must not.
  if fd ∈ sched.waiting then fault .assertFailed
  else set { sched with waiting := sched.waiting.insert fd ⟨place, sched.stack⟩ }

/-- The running coroutine has used its frame. -/
def useFrame (o : Outside I) : Prog (Schedule P W) Unit :=
  modify fun sched => { sched with stack := o.frame.getD sched.stack }

/-- `server` up to the first `accept` -/
def serverStart (o : Outside I) : Prog (Schedule P W) Unit := do
  useFrame o
  whenever (0 ≤ o.socket) (ntyPollInner .accept o.socket)

/-- `server` from inside `accept`, until it is there again; also -1 is given to a reader. -/
def serverAccept (o : Outside I) (fd : Int) : Prog (Schedule P W) Unit := do
  match o.accept with
  | none => ntyPollInner .accept fd
  | some cliFd =>
      modify fun sched => { sched with
        stack := cliFd
        ready := sched.ready ++ [.serverReader cliFd]
        accepted := sched.accepted ++ [cliFd] }
      ntyPollInner .accept fd

section Scheduler

variable (R : Reader P W I) (o : Outside I)

/-- `server_reader` up to the first `recv` -/
def serverReaderStart : Prog (Schedule P W) Unit := do
  let sched ← get
  let fd := sched.stack
  set { sched with read := sched.read ++ [fd] }
  useFrame o
  ntyPollInner (.reader (R.first sched.read.length)) fd

/-- `server_reader` from where it has yielded, until it yields again or ends. -/
def serverReaderGoOn (fd : Int) (place : P) : Prog (Schedule P W) Unit := do
  useFrame o
  let next ← zoom work (fun sched w => { sched with work := w }) (R.turn o.reader fd place)
  match next with
  | none => return ()
  | some place' => ntyPollInner (.reader place') fd

/-! ### The scheduler -/

/-- A coroutine goes on from where it has yielded. -/
def continueAt (fd : Int) : Place P → Prog (Schedule P W) Unit
  | .accept => serverAccept o fd
  | .reader place => serverReaderGoOn R o fd place

/--
`nty_coroutine_resume` of the coroutine that waited for the descriptor; `nty_schedule_search_wait`
writes its status, and does so also if it has found none.
-/
def resumeWaiting (fd : Int) : Prog (Schedule P W) Unit := do
  let sched ← get
  match sched.waiting.lookup fd with
  | none => fault .nullDeref
  | some co =>
      set { sched with stack := co.stack, waiting := sched.waiting.erase fd }
      continueAt R o fd co.place

/-- `nty_coroutine_resume` of a new coroutine; the stack is left as it is. -/
def resumeNew : NewCoroutine → Prog (Schedule P W) Unit
  | .server => serverStart o
  | .serverReader _ => serverReaderStart R o

/--
The next thing that `nty_schedule_run` does: it resumes the coroutine of the last event that
is left, or else the first one that is ready, or else it waits for events.
-/
def ntyScheduleRun : Prog (Schedule P W) Unit := do
  let sched ← get
  match sched.events.getLast?, sched.ready with
  | some fd, _ =>
      set { sched with events := sched.events.dropLast }
      resumeWaiting R o fd
  | none, co :: rest =>
      set { sched with ready := rest }
      resumeNew R o co
  | none, [] =>
      set { sched with events := (o.reported.filter fun fd => fd ∈ sched.waiting).dedup }

end Scheduler

/-- `nty_schedule_isdone`; nobody sleeps, and nobody is busy. -/
def isDone (s : Schedule P W) : Prop := s.waiting = ∅ ∧ s.ready = []

/-- The scheduler can go from one state to the other. -/
def Step (R : Reader P W I) (s s' : Schedule P W) : Prop :=
  ∃ o, (ntyScheduleRun R o).run s = .ok ((), s')

/-- If a reader runs next, and for the first time, it reads what its `accept` has returned. -/
def OwnDescriptor (s : Schedule P W) : Prop :=
  s.events = [] → ∀ cliFd rest, s.ready = .serverReader cliFd :: rest → s.stack = cliFd

end Schedule

end KvStore
