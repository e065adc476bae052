/-
What a reader of the server can do between two yields.

`turn_inv` says it once: it is one of the `Round`s, in which the reader finds no request yet, the
end of its connection, or a request that it has answered, or goes on with a reply of which
something was left.  With the transitions of the scheduler this is all that the server can do
in a step.
-/
import KvStore.Proofs.Schedule
import KvStore.Server.Process

namespace KvStore

/-! ### The rounds -/

/--
What `send_f` takes of the bytes that are left, where the reader is then, and whether `send`
has returned something else than what it was given.
-/
inductive Sent (n : Nat) (rest : List Byte) : List Byte → Option ReaderPlace → List Nat → Prop
  | all : Sent n rest rest (some (.recv n)) []
  | part {piece buf : List Byte} {sent : Nat} (hrest : rest = piece ++ buf.drop sent)
      (hlt : sent < buf.length) : Sent n rest piece (some (.send n buf sent)) []
  | fails {next : Option ReaderPlace} (hnext : next = none ∨ next = some (.recv n)) :
      Sent n rest [] next [n]

/-- What a reader leaves between two yields. -/
structure Outcome where
  exchanges : List Exchange
  output : List Chunk
  next : Option ReaderPlace
  short : List Nat
  store : Store

/-- What a reader of the descriptor can do from a place until it yields again. -/
inductive Round (st : Store) (n : Nat) (fd : Int) : ReaderPlace → Outcome → Prop
  | failed : Round st n fd (.recv n) ⟨[], [], some (.recv n), [], st⟩
  | closed : Round st n fd (.recv n) ⟨[], [], none, [], st⟩
  | served {request reply piece : List Byte} {next : Option ReaderPlace} {short : List Nat}
      {st' : Store} (hne : request ≠ []) (hlen : request.length ≤ clinetMsgLength)
      (hrun : (serveRequest request).run st = .ok (reply, st'))
      (hsent : Sent n reply piece next short) :
      Round st n fd (.recv n) ⟨[⟨n, fd, request, reply⟩], [⟨n, fd, piece⟩], next, short, st'⟩
  | resumed {buf piece : List Byte} {sent : Nat} {next : Option ReaderPlace} {short : List Nat}
      (hsent : Sent n (buf.drop sent) piece next short) :
      Round st n fd (.send n buf sent) ⟨[], [⟨n, fd, piece⟩], next, short, st⟩

/-- A reader is a reader again, or has ended. -/
theorem Sent.number {n : Nat} {rest piece : List Byte} {next : Option ReaderPlace}
    {short : List Nat} (h : Sent n rest piece next short) : ∀ place ∈ next, place.number = n := by
  intro place hplace
  cases h with
  | all | part => cases hplace; rfl
  | fails hnext =>
      rcases hnext with rfl | rfl
      · cases hplace
      · cases hplace
        rfl

theorem Round.next_number {st : Store} {n : Nat} {fd : Int} {place : ReaderPlace} {r : Outcome}
    (h : Round st n fd place r) : ∀ place' ∈ r.next, place'.number = n := by
  cases h with
  | failed => rintro place ⟨⟩; rfl
  | closed => rintro place ⟨⟩
  | served _ _ _ hsent | resumed hsent => exact hsent.number

/-- What a reader has done to what it works on. -/
def Work.after (w : Work) (r : Outcome) : Work where
  store := r.store
  exchanges := w.exchanges ++ r.exchanges
  output := w.output ++ r.output
  short := w.short ++ r.short

/-! ### The turns -/

section Turns

variable {w w' : Work} {i : Sockets} {n : Nat} {fd : Int} {next : Option ReaderPlace}

/-- The bytes that `send_f` takes. -/
def taken (i : Sockets) (rest : List Byte) : List Byte :=
  match i.send with
  | none => []
  | some k => rest.take k

theorem taken_isPrefix (i : Sockets) (rest : List Byte) : taken i rest <+: rest := by
  unfold taken
  split
  · exact List.nil_prefix
  · exact List.take_prefix _ _

/-- What `send_f` returns. -/
def sendRet (i : Sockets) (rest : List Byte) : Int :=
  if i.send = none then -1 else (taken i rest).length

theorem sendF_run (i : Sockets) (n : Nat) (fd : Int) (rest : List Byte) (w : Work) :
    (sendF i n fd rest).run w =
      .ok (sendRet i rest, { w with output := w.output ++ [⟨n, fd, taken i rest⟩] }) := rfl

theorem taken_of_nonpos {rest : List Byte} (h : sendRet i rest ≤ 0) : taken i rest = [] := by
  unfold sendRet taken at *
  cases hsend : i.send with
  | none => rfl
  | some k =>
      rw [hsend, if_neg (by simp)] at h
      exact List.length_eq_zero_iff.mp (by omega)

theorem taken_of_pos {rest : List Byte} (h : 0 < sendRet i rest) :
    (sendRet i rest).toNat = (taken i rest).length := by
  unfold sendRet at *
  split at h
  · omega
  · rw [if_neg ‹_›, Int.toNat_natCast]

theorem sendRet_ne_length {rest : List Byte} (h : sendRet i rest ≤ 0)
    (hlen : sendRet i rest = rest.length) : rest = [] :=
  List.length_eq_zero_iff.mp (by omega)

/-- The reader after `send`: it looks for -1, and for no other value. -/
theorem serverReaderSent_inv {len : Nat} {ret : Int}
    (h : (serverReaderSent n len ret).run w = .ok (next, w')) :
    ∃ short, (ret = len ∧ next = some (.recv n) ∧ short = [] ∨
        ret ≠ len ∧ (next = none ∨ next = some (.recv n)) ∧ short = [n]) ∧
      w' = { w with short := w.short ++ short } := by
  obtain ⟨u, w₁, hshort, h⟩ := run_bind_inv h
  by_cases hlen : ret = len
  · rw [run_whenever_neg (not_not.mpr hlen)] at hshort
    cases hshort
    cases h
    exact ⟨[], Or.inl ⟨hlen, if_neg (by omega), rfl⟩, by simp⟩
  · rw [run_whenever_pos hlen (run_modify _ w)] at hshort
    cases hshort
    cases h
    refine ⟨[n], Or.inr ⟨hlen, ?_, rfl⟩, rfl⟩
    by_cases hone : ret = -1
    · exact Or.inl (if_pos hone)
    · exact Or.inr (if_neg hone)

/-- The loop of `send` is left when everything is sent. -/
theorem sendMore_inv {rest piece buf : List Byte} {sent : Nat} (hle : sent ≤ buf.length)
    (hrest : rest = piece ++ buf.drop sent) (h : (sendMore n buf sent).run w = .ok (next, w')) :
    ∃ short, Sent n rest piece next short ∧ w' = { w with short := w.short ++ short } := by
  unfold sendMore at h
  by_cases hlt : sent < buf.length
  · rw [if_pos hlt] at h
    cases h
    exact ⟨[], .part hrest hlt, by simp⟩
  · rw [if_neg hlt] at h
    have hsent : sent = buf.length := by omega
    obtain ⟨short, ⟨-, rfl, rfl⟩ | ⟨hne, -, -⟩, rfl⟩ := serverReaderSent_inv h
    · rw [hsent, List.drop_length, List.append_nil] at hrest
      subst hrest
      exact ⟨_, .all, rfl⟩
    · exact absurd (congrArg Nat.cast hsent) hne

/-- What is left after `send_f` has taken a piece. -/
theorem drop_taken {buf : List Byte} {sent : Nat} (hle : sent ≤ buf.length) :
    sent + (taken i (buf.drop sent)).length ≤ buf.length ∧
      buf.drop sent =
        taken i (buf.drop sent) ++ buf.drop (sent + (taken i (buf.drop sent)).length) := by
  obtain ⟨rest, hrest⟩ := taken_isPrefix i (buf.drop sent)
  have hlen := congrArg List.length hrest
  rw [List.length_append, List.length_drop] at hlen
  refine ⟨by omega, ?_⟩
  rw [← List.drop_drop]
  nth_rewrite 4 [← hrest]
  rw [List.drop_left, hrest]

theorem send_inv {buf : List Byte} (h : (send i n fd buf).run w = .ok (next, w')) :
    ∃ piece short, Sent n buf piece next short ∧ w' = { w with
      output := w.output ++ [⟨n, fd, piece⟩]
      short := w.short ++ short } := by
  obtain ⟨ret, w₁, hsend, h⟩ := run_bind_inv h
  rw [sendF_run] at hsend
  cases hsend
  refine ⟨taken i buf, ?_⟩
  by_cases hpos : 0 < sendRet i buf
  · rw [if_neg (by omega), if_pos hpos, taken_of_pos hpos] at h
    have hdrop := drop_taken (i := i) (Nat.zero_le buf.length)
    simp only [List.drop_zero, Nat.zero_add] at hdrop
    exact sendMore_inv hdrop.1 hdrop.2 h
  · have hnil := taken_of_nonpos (Int.not_lt.mp hpos)
    rw [hnil] at h ⊢
    by_cases hzero : sendRet i buf = 0
    · rw [if_pos hzero] at h
      obtain ⟨short, ⟨hlen, rfl, rfl⟩ | ⟨-, hnext, rfl⟩, rfl⟩ := serverReaderSent_inv h
      · have hbuf := sendRet_ne_length (Int.not_lt.mp hpos) hlen
        subst hbuf
        exact ⟨_, .all, rfl⟩
      · exact ⟨_, .fails hnext, rfl⟩
    · rw [if_neg hzero, if_neg hpos] at h
      by_cases hbuf : 0 < buf.length
      · rw [if_pos hbuf] at h
        cases h
        exact ⟨[], .part rfl hbuf, by simp⟩
      · rw [if_neg hbuf] at h
        obtain ⟨short, ⟨hlen, -, -⟩ | ⟨-, hnext, rfl⟩, rfl⟩ := serverReaderSent_inv h
        · omega
        · exact ⟨_, .fails hnext, rfl⟩

theorem sendLoop_inv {buf : List Byte} {sent : Nat}
    (h : (sendLoop i n fd buf sent).run w = .ok (next, w')) :
    ∃ piece short, Sent n (buf.drop sent) piece next short ∧ w' = { w with
      output := w.output ++ [⟨n, fd, piece⟩]
      short := w.short ++ short } := by
  obtain ⟨ret, w₁, hsend, h⟩ := run_bind_inv h
  rw [sendF_run] at hsend
  cases hsend
  refine ⟨taken i (buf.drop sent), ?_⟩
  by_cases hpos : sendRet i (buf.drop sent) ≤ 0
  · rw [if_pos hpos] at h
    rw [taken_of_nonpos hpos] at h ⊢
    obtain ⟨short, ⟨hlen, rfl, rfl⟩ | ⟨-, hnext, rfl⟩, rfl⟩ := serverReaderSent_inv h
    · have hdrop : buf.drop sent = [] := by
        refine List.drop_eq_nil_iff.mpr ?_
        split at hlen <;> omega
      rw [hdrop]
      exact ⟨_, .all, rfl⟩
    · exact ⟨_, .fails hnext, rfl⟩
  · have htaken := taken_of_pos (Int.not_le.mp hpos)
    rw [if_neg hpos, htaken] at h
    -- Something was taken, so something was left.
    have hle : sent ≤ buf.length := by
      have hprefix := (taken_isPrefix i (buf.drop sent)).length_le
      rw [List.length_drop] at hprefix
      omega
    obtain ⟨hle', hrest⟩ := drop_taken (i := i) hle
    exact sendMore_inv hle' hrest h

theorem answer_inv {request reply : List Byte}
    (h : (answer n fd request).run w = .ok (reply, w')) :
    ∃ st', (serveRequest request).run w.store = .ok (reply, st') ∧
      w' = { w with store := st', exchanges := w.exchanges ++ [⟨n, fd, request, reply⟩] } := by
  obtain ⟨reply', w₁, hzoom, h⟩ := run_bind_inv h
  obtain ⟨st', hserve, rfl⟩ := zoom_inv hzoom
  obtain ⟨u, w₂, hmodify, h⟩ := run_bind_inv h
  cases hmodify
  cases h
  exact ⟨st', hserve, rfl⟩

theorem turn_recv (i : Sockets) (n : Nat) (fd : Int) :
    serverReader.turn i fd (.recv n) = serverReaderRecv i n fd := rfl

theorem turn_send (i : Sockets) (n : Nat) (fd : Int) (buf : List Byte) (sent : Nat) :
    serverReader.turn i fd (.send n buf sent) = sendLoop i n fd buf sent := rfl

/-- **The turn of a reader is one of the rounds.** -/
theorem turn_inv {place : ReaderPlace}
    (h : (serverReader.turn i fd place).run w = .ok (next, w')) :
    ∃ r, Round w.store place.number fd place r ∧ next = r.next ∧ w' = w.after r := by
  cases place with
  | recv n =>
      rw [turn_recv] at h
      unfold serverReaderRecv at h
      split at h
      · cases h
        exact ⟨_, .failed, rfl, by simp [Work.after]⟩
      · rename_i bytes _
        by_cases hnil : bytes.take clinetMsgLength = []
        · rw [if_pos hnil] at h
          cases h
          exact ⟨_, .closed, rfl, by simp [Work.after]⟩
        · rw [if_neg hnil] at h
          obtain ⟨reply, w₁, hanswer, h⟩ := run_bind_inv h
          obtain ⟨st', hserve, rfl⟩ := answer_inv hanswer
          obtain ⟨piece, short, hsent, rfl⟩ := send_inv h
          exact ⟨_, .served hnil (List.length_take_le _ _) hserve hsent, rfl, rfl⟩
  | send n buf sent =>
      rw [turn_send] at h
      obtain ⟨piece, short, hsent, rfl⟩ := sendLoop_inv h
      refine ⟨⟨[], [⟨n, fd, piece⟩], next, short, w.store⟩, .resumed hsent, rfl, ?_⟩
      simp [Work.after]

/-! ### Turns that return -/

theorem serverReaderSent_returns (n len : Nat) (ret : Int) (w : Work) :
    ∃ r, (serverReaderSent n len ret).run w = .ok r := by
  by_cases hlen : ret ≠ len
  · exact ⟨_, run_bind_of (run_whenever_pos hlen (run_modify _ w)) rfl⟩
  · exact ⟨_, run_bind_of (run_whenever_neg hlen) rfl⟩

theorem sendMore_returns (n : Nat) (buf : List Byte) (sent : Nat) (w : Work) :
    ∃ r, (sendMore n buf sent).run w = .ok r := by
  unfold sendMore
  split
  · exact ⟨_, rfl⟩
  · exact serverReaderSent_returns _ _ _ w

theorem send_returns (i : Sockets) (n : Nat) (fd : Int) (buf : List Byte) (w : Work) :
    ∃ r, (send i n fd buf).run w = .ok r := by
  unfold send
  rw [run_bind_ok (sendF_run i n fd buf w)]
  split
  · exact serverReaderSent_returns _ _ _ _
  · split
    · exact sendMore_returns _ _ _ _
    · split
      · exact ⟨_, rfl⟩
      · exact serverReaderSent_returns _ _ _ _

theorem sendLoop_returns (i : Sockets) (n : Nat) (fd : Int) (buf : List Byte) (sent : Nat)
    (w : Work) : ∃ r, (sendLoop i n fd buf sent).run w = .ok r := by
  unfold sendLoop
  rw [run_bind_ok (sendF_run i n fd (buf.drop sent) w)]
  split
  · exact serverReaderSent_returns _ _ _ _
  · exact sendMore_returns _ _ _ _

/-- The reader receives the request in its turn. -/
def Gets (i : Sockets) (place : ReaderPlace) (request : List Byte) : Prop :=
  ∃ n bytes, place = .recv n ∧ i.recv = some bytes ∧ bytes.take clinetMsgLength = request ∧
    request ≠ []

/-- **A reader always comes to its next yield**, if the store has an answer. -/
theorem turn_returns {place : ReaderPlace} (hi : ∀ request, Gets i place request →
    ∃ r, (serveRequest request).run w.store = .ok r) :
    ∃ r, (serverReader.turn i fd place).run w = .ok r := by
  cases place with
  | recv n =>
      rw [turn_recv]
      unfold serverReaderRecv
      cases hrecv : i.recv with
      | none => exact ⟨_, rfl⟩
      | some bytes =>
          by_cases hnil : bytes.take clinetMsgLength = []
          · exact ⟨_, run_ite_pos hnil rfl⟩
          · obtain ⟨⟨reply, st'⟩, hrun⟩ := hi _ ⟨n, bytes, rfl, hrecv, rfl, hnil⟩
            obtain ⟨r, hr⟩ := send_returns i n fd reply { w with
              store := st'
              exchanges := w.exchanges ++ [⟨n, fd, bytes.take clinetMsgLength, reply⟩] }
            exact ⟨r, run_ite_neg hnil (run_bind_of (run_bind_of (zoom_run hrun) rfl) hr)⟩
  | send n buf sent => exact sendLoop_returns i n fd buf sent w

/-- If the store faults at the request, the reader does. -/
theorem Gets.run {place : ReaderPlace} {request : List Byte} (h : Gets i place request) {e : Fault}
    (hrun : (serveRequest request).run w.store = .error e) :
    (serverReader.turn i fd place).run w = .error e := by
  obtain ⟨n, bytes, rfl, hrecv, rfl, hne⟩ := h
  rw [turn_recv]
  simp only [serverReaderRecv, hrecv]
  exact run_ite_neg hne (run_bind_error (run_bind_error (zoom_error hrun)))

/-- A request comes, and the whole reply is taken at once. -/
theorem turn_serve {request reply : List Byte} {st' : Store} (hne : request ≠ [])
    (hlen : request.length ≤ clinetMsgLength)
    (hrun : (serveRequest request).run w.store = .ok (reply, st')) (hreply : reply ≠ []) :
    (serverReader.turn ⟨some request, some reply.length⟩ fd (.recv n)).run w =
      .ok (some (.recv n), w.after
        ⟨[⟨n, fd, request, reply⟩], [⟨n, fd, reply⟩], some (.recv n), [], st'⟩) := by
  have htake : request.take clinetMsgLength = request := List.take_of_length_le hlen
  have hpos : 0 < reply.length := List.length_pos_of_ne_nil hreply
  have htaken : taken ⟨some request, some reply.length⟩ reply = reply := List.take_length
  have hret : sendRet ⟨some request, some reply.length⟩ reply = reply.length := by
    rw [sendRet, if_neg (by simp), htaken]
  rw [turn_recv]
  simp only [serverReaderRecv, htake, if_neg hne]
  refine run_bind_of (run_bind_of (zoom_run hrun) rfl) ?_
  refine run_bind_of (sendF_run _ n fd reply _) ?_
  rw [hret, htaken, if_neg (by omega), if_pos (by omega), Int.toNat_natCast]
  refine run_ite_neg (Nat.lt_irrefl _) (run_bind_of (run_whenever_neg (not_not.mpr rfl)) ?_)
  rw [if_neg (by omega), Work.after, List.append_nil]
  rfl

end Turns

/-! ### Requests -/

namespace Process

variable {s : Process} {o : Outside Sockets} {request : List Byte}

/-- The next thing that happens is that a reader receives the request. -/
def Receives (s : Process) (o : Outside Sockets) (request : List Byte) : Prop :=
  ∃ fds fd place x, s.events = fds ++ [fd] ∧ s.waiting.lookup fd = some ⟨.reader place, x⟩ ∧
    Gets o.reader place request

/-- If the store faults at the request, the process does. -/
theorem Receives.run (h : Receives s o request) {e : Fault}
    (hrun : (serveRequest request).run s.work.store = .error e) :
    (ntyScheduleRun o).run s = .error e := by
  obtain ⟨fds, fd, place, x, hevents, hco, hgets⟩ := h
  exact Schedule.run_turn_error hevents hco (hgets.run hrun)

/-- **A step of the server returns**, if no reader is doubled and the store has an answer. -/
theorem step_returns (h : s.Sound) (hd : ¬ s.Doubled)
    (hi : ∀ request, Receives s o request →
      ∃ r, (serveRequest request).run s.work.store = .ok r) :
    ∃ s', (ntyScheduleRun o).run s = .ok ((), s') :=
  h.returns hd fun fds fd place x hevents hco =>
    turn_returns fun request hgets => hi request ⟨fds, fd, place, x, hevents, hco, hgets⟩

end Process

end KvStore
