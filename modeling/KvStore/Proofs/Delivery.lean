/-
What the clients get back.

A reader works on one descriptor, sends the replies to its requests one after the other, and
has `send_f` take them in pieces, while other readers run in between.  So what goes out for a
reader is a stream of its replies (`Sends`), of which a `send` that fails gives up the rest of
one.  The readers know each other apart by their descriptors: no two of them wait for the same
one, which is why a step of one leaves the streams of the others alone (`Outcome.Adds.others`).
-/
import KvStore.Base.Stream
import KvStore.Proofs.Process

namespace KvStore

/-- What goes out for the reader is a stream of its replies. -/
structure Work.Streams (w : Work) (n : Nat) (rest : List Byte) : Prop where
  sends : Sends (w.replies n) rest (w.sentBy n)
  whole : n ∉ w.short → w.sentBy n ++ rest = (w.replies n).flatten

/-! ### One round of a reader -/

/-- The replies and the bytes that a round adds. -/
structure Outcome.Adds (r : Outcome) (n : Nat) (fd : Int) : Prop where
  exchanges : ∀ e ∈ r.exchanges, e.reader = n ∧ e.fd = fd
  output : ∀ c ∈ r.output, c.reader = n ∧ c.fd = fd
  short : ∀ m ∈ r.short, m = n

theorem Sent.short_eq {n : Nat} {rest piece : List Byte} {next : Option ReaderPlace}
    {short : List Nat} (h : Sent n rest piece next short) : ∀ m ∈ short, m = n := by
  cases h <;> simp

theorem Round.adds {st : Store} {n : Nat} {fd : Int} {place : ReaderPlace} {r : Outcome}
    (h : Round st n fd place r) : r.Adds n fd := by
  cases h with
  | failed | closed => exact ⟨by simp, by simp, by simp⟩
  | served _ _ _ hsent => exact ⟨by simp, by simp, hsent.short_eq⟩
  | resumed hsent => exact ⟨by simp, by simp, hsent.short_eq⟩

section Append

variable {w : Work} {r : Outcome} {n : Nat}

theorem Work.replies_after (w : Work) (r : Outcome) (n : Nat) : (w.after r).replies n =
    w.replies n ++ (r.exchanges.filter fun e => e.reader = n).map Exchange.reply := by
  rw [Work.replies, Work.after, List.filter_append, List.map_append]
  rfl

theorem Work.sentBy_after (w : Work) (r : Outcome) (n : Nat) : (w.after r).sentBy n =
    w.sentBy n ++ (r.output.filter fun c => c.reader = n).flatMap Chunk.bytes := by
  rw [Work.sentBy, Work.after, List.filter_append, List.flatMap_append]
  rfl

theorem Work.notMem_short_after (h : n ∉ (w.after r).short) : n ∉ w.short ∧ n ∉ r.short :=
  not_or.mp (mt List.mem_append.mpr h)

/-- A round of one reader adds nothing to another one's stream. -/
theorem Outcome.Adds.others {fd : Int} (h : r.Adds n fd) {m : Nat} (hne : m ≠ n)
    {rest : List Byte} (hs : w.Streams m rest) : (w.after r).Streams m rest := by
  have hreplies : (w.after r).replies m = w.replies m := by
    have hnil : (r.exchanges.filter fun e => e.reader = m) = [] := by
      refine List.filter_eq_nil_iff.mpr fun e he => ?_
      simpa using fun hc : e.reader = m => hne (hc.symm.trans (h.exchanges e he).1)
    rw [Work.replies_after, hnil, List.map_nil, List.append_nil]
  have hsent : (w.after r).sentBy m = w.sentBy m := by
    have hnil : (r.output.filter fun c => c.reader = m) = [] := by
      refine List.filter_eq_nil_iff.mpr fun c hc => ?_
      simpa using fun he : c.reader = m => hne (he.symm.trans (h.output c hc).1)
    rw [Work.sentBy_after, hnil, List.flatMap_nil, List.append_nil]
  refine ⟨by rw [hreplies, hsent]; exact hs.sends, fun hm => ?_⟩
  rw [hreplies, hsent]
  exact hs.whole (Work.notMem_short_after hm).1

end Append

/-- What is left for the next place. -/
def nextUnsent (next : Option ReaderPlace) : List Byte := (next.map ReaderPlace.unsent).getD []

/-- A call of `send_f` moves the stream on, or gives up the rest. -/
theorem Sent.stream {n : Nat} {rest piece : List Byte} {next : Option ReaderPlace}
    {short : List Nat} (h : Sent n rest piece next short) {ms : List (List Byte)}
    {out : List Byte} (hs : Sends ms rest out) : Sends ms (nextUnsent next) (out ++ piece) := by
  cases h with
  | all => exact .take rest (by rw [nextUnsent]; simpa [ReaderPlace.unsent] using hs)
  | part hrest hlt =>
      subst hrest
      exact .take piece hs
  | fails hnext =>
      have hgive : Sends ms [] (out ++ []) := by
        rw [List.append_nil]
        exact hs.giveUp
      rcases hnext with rfl | rfl <;> exact hgive

theorem Sent.whole {n : Nat} {rest piece : List Byte} {next : Option ReaderPlace}
    {short : List Nat} (h : Sent n rest piece next short) (hn : n ∉ short) :
    piece ++ nextUnsent next = rest := by
  cases h with
  | all => exact List.append_nil rest
  | part hrest hlt => exact hrest.symm
  | fails => exact absurd (List.mem_singleton_self n) hn

/-- **A round of the reader moves its stream on.** -/
theorem Round.stream {w : Work} {n : Nat} {fd : Int} {place : ReaderPlace} {r : Outcome}
    (h : Round w.store n fd place r) (hs : w.Streams n place.unsent) :
    (w.after r).Streams n (nextUnsent r.next) := by
  have hreplies := w.replies_after r n
  have hsent := w.sentBy_after r n
  cases h with
  | failed | closed =>
      rw [List.filter_nil, List.map_nil, List.append_nil] at hreplies
      rw [List.filter_nil, List.flatMap_nil, List.append_nil] at hsent
      refine ⟨by rw [hreplies, hsent]; exact hs.sends, fun hn => ?_⟩
      rw [hreplies, hsent]
      exact hs.whole (Work.notMem_short_after hn).1
  | @served request reply piece next short st' hne hlen hrun hround =>
      simp only [List.filter_cons, decide_true, if_true, List.filter_nil, List.map_cons,
        List.map_nil, List.flatMap_singleton] at hreplies hsent
      refine ⟨?_, fun hn => ?_⟩
      · rw [hreplies, hsent]
        exact hround.stream (hs.sends.begin reply)
      · obtain ⟨hold, hnew⟩ := Work.notMem_short_after hn
        have hwhole : w.sentBy n ++ [] = (w.replies n).flatten := hs.whole hold
        rw [List.append_nil] at hwhole
        rw [hreplies, hsent, List.append_assoc, hround.whole hnew, hwhole]
        simp
  | @resumed buf piece sent next short hround =>
      simp only [List.filter_cons, decide_true, if_true, List.filter_nil, List.map_nil,
        List.append_nil, List.flatMap_singleton] at hreplies hsent
      refine ⟨?_, fun hn => ?_⟩
      · rw [hreplies, hsent]
        exact hround.stream hs.sends
      · obtain ⟨hold, hnew⟩ := Work.notMem_short_after hn
        rw [hreplies, hsent, List.append_assoc, hround.whole hnew]
        exact hs.whole hold

/-! ### Runs -/

namespace Process

/-- Everything that is done for a reader is done with the descriptor that it has read. -/
structure Numbered (s : Process) : Prop where
  waiting : ∀ fd place x, s.waiting.lookup fd = some ⟨.reader place, x⟩ →
    s.read[place.number]? = some fd
  exchanges : ∀ e ∈ s.work.exchanges, s.read[e.reader]? = some e.fd
  output : ∀ c ∈ s.work.output, s.read[c.reader]? = some c.fd
  short : ∀ n ∈ s.work.short, n < s.read.length

/-- The streams of the readers, those that have yielded and those that have not or have ended. -/
structure Delivering (s : Process) : Prop extends Numbered s where
  yielded : ∀ fd place x, s.waiting.lookup fd = some ⟨.reader place, x⟩ →
    s.work.Streams place.number place.unsent
  others : ∀ n, (∀ fd place x, s.waiting.lookup fd = some ⟨.reader place, x⟩ → place.number ≠ n) →
    s.work.Streams n []

theorem Delivering.start (x : Int) (st : Store) : Delivering (Process.start x st) := by
  refine ⟨⟨?_, ?_, ?_, ?_⟩, ?_, ?_⟩
  · simp [Schedule.start]
  · simp [Schedule.start]
  · simp [Schedule.start]
  · simp [Schedule.start]
  · simp [Schedule.start]
  · exact fun n _ => ⟨.start, fun _ => rfl⟩

section Steps

variable {s s' : Process}

theorem getElem?_of_prefix {l l' : List Int} (hl : l <+: l') {n : Nat} {fd : Int}
    (hn : l[n]? = some fd) : l'[n]? = some fd := by
  obtain ⟨hlt, hget⟩ := List.getElem?_eq_some_iff.mp hn
  rw [List.prefix_iff_getElem?.mp hl n hlt, hget]

/-- A step of the scheduler or of `server`: at most one reader more has yielded, in `recv`. -/
theorem Delivering.keep (h : Delivering s) (hwork : s'.work = s.work) (hread : s.read <+: s'.read)
    (hold : ∀ fd place x, s.waiting.lookup fd = some ⟨.reader place, x⟩ →
      s'.waiting.lookup fd = some ⟨.reader place, x⟩)
    (hnew : ∀ fd place x, s'.waiting.lookup fd = some ⟨.reader place, x⟩ →
      s.waiting.lookup fd = some ⟨.reader place, x⟩ ∨
        place = .recv s.read.length ∧ s'.read[s.read.length]? = some fd) : Delivering s' := by
  refine ⟨⟨?_, ?_, ?_, ?_⟩, ?_, ?_⟩
  · intro fd place x hco
    rcases hnew fd place x hco with hco | ⟨rfl, hget⟩
    · exact getElem?_of_prefix hread (h.waiting fd place x hco)
    · exact hget
  · rw [hwork]
    exact fun e he => getElem?_of_prefix hread (h.exchanges e he)
  · rw [hwork]
    exact fun c hc => getElem?_of_prefix hread (h.output c hc)
  · rw [hwork]
    exact fun n hn => Nat.lt_of_lt_of_le (h.short n hn) hread.length_le
  · intro fd place x hco
    rw [hwork]
    rcases hnew fd place x hco with hco | ⟨rfl, -⟩
    · exact h.yielded fd place x hco
    · -- Nobody had this number.
      refine h.others _ fun fd' place' x' hco' hn => ?_
      have hget := h.waiting fd' place' x' hco'
      rw [hn, ReaderPlace.number, List.getElem?_eq_none (Nat.le_refl _)] at hget
      cases hget
  · intro n hnone
    rw [hwork]
    exact h.others n fun fd place x hco => hnone fd place x (hold fd place x hco)

/-- A reader goes on. -/
theorem Delivering.reader (h : Delivering s) {fds : List Int} {fd x y : Int} {place : ReaderPlace}
    {r : Outcome} (hco : s.waiting.lookup fd = some ⟨.reader place, x⟩)
    (hround : Round s.work.store place.number fd place r) :
    Delivering { s with
      events := fds
      stack := y
      waiting := waitNext s.waiting fd y r.next
      work := s.work.after r } := by
  have hadds := hround.adds
  have hfd := h.waiting fd place x hco
  have hstream : (s.work.after r).Streams place.number (nextUnsent r.next) :=
    hround.stream (h.yielded fd place x hco)
  -- Who waits afterwards waited before, or is this reader.
  have hwho : ∀ fd' place' x',
      (waitNext s.waiting fd y r.next).lookup fd' = some ⟨.reader place', x'⟩ →
      (fd' ≠ fd ∧ s.waiting.lookup fd' = some ⟨.reader place', x'⟩) ∨
        fd' = fd ∧ r.next = some place' := by
    intro fd' place' x' hco'
    by_cases hne : fd' = fd
    · subst hne
      rw [lookup_waitNext, Option.map_eq_some_iff] at hco'
      obtain ⟨place₁, hnext, hco'⟩ := hco'
      cases hco'
      exact Or.inr ⟨rfl, hnext⟩
    · rw [lookup_waitNext_of_ne _ _ _ hne] at hco'
      exact Or.inl ⟨hne, hco'⟩
  -- Another reader has another descriptor.
  have hother : ∀ {fd' place' x'}, fd' ≠ fd →
      s.waiting.lookup fd' = some ⟨.reader place', x'⟩ → place'.number ≠ place.number := by
    intro fd' place' x' hne hco' hn
    have hget := h.waiting fd' place' x' hco'
    rw [hn, hfd] at hget
    exact hne (Option.some.inj hget).symm
  refine ⟨⟨?_, ?_, ?_, ?_⟩, ?_, ?_⟩
  · intro fd' place' x' hco'
    rcases hwho fd' place' x' hco' with ⟨-, hold⟩ | ⟨rfl, hnext⟩
    · exact h.waiting fd' place' x' hold
    · rw [hround.next_number place' hnext]
      exact hfd
  · intro e he
    rcases List.mem_append.mp he with he | he
    · exact h.exchanges e he
    · obtain ⟨hn, hfd'⟩ := hadds.exchanges e he
      rw [hn, hfd']
      exact hfd
  · intro c hc
    rcases List.mem_append.mp hc with hc | hc
    · exact h.output c hc
    · obtain ⟨hn, hfd'⟩ := hadds.output c hc
      rw [hn, hfd']
      exact hfd
  · intro m hm
    rcases List.mem_append.mp hm with hm | hm
    · exact h.short m hm
    · rw [hadds.short m hm]
      exact (List.getElem?_eq_some_iff.mp hfd).1
  · intro fd' place' x' hco'
    rcases hwho fd' place' x' hco' with ⟨hne, hold⟩ | ⟨rfl, hnext⟩
    · exact hadds.others (hother hne hold) (h.yielded fd' place' x' hold)
    · rw [hround.next_number place' hnext]
      rw [hnext] at hstream
      exact hstream
  · intro m hnone
    by_cases hm : m = place.number
    · subst hm
      cases hnext : r.next with
      | none =>
          rw [hnext] at hstream
          exact hstream
      | some place' =>
          refine absurd (hround.next_number place' hnext) (hnone fd place' y ?_)
          show (waitNext s.waiting fd y r.next).lookup fd = _
          rw [lookup_waitNext, hnext]
          rfl
    · refine hadds.others hm (h.others m fun fd' place' x' hco' hn => ?_)
      by_cases hne : fd' = fd
      · subst hne
        rw [hco] at hco'
        cases hco'
        exact hm hn.symm
      · exact hnone fd' place' x' ((lookup_waitNext_of_ne _ _ _ hne).trans hco') hn

/-- `server` waits, with nobody or itself at this descriptor before. -/
theorem lookup_insert_accept {m : Dict Int (Coroutine ReaderPlace)} {fd x : Int}
    (hfd : ∀ place y, m.lookup fd ≠ some ⟨.reader place, y⟩) {fd' y : Int} {place : ReaderPlace} :
    (m.insert fd ⟨.accept, x⟩).lookup fd' = some ⟨.reader place, y⟩ ↔
      m.lookup fd' = some ⟨.reader place, y⟩ := by
  by_cases hne : fd' = fd
  · subst hne
    rw [Finmap.lookup_insert]
    exact ⟨fun hc => (by cases hc), fun hc => absurd hc (hfd place y)⟩
  · rw [Finmap.lookup_insert_of_ne _ hne]

theorem Delivering.step (h : Delivering s) (hstep : Step s s') : Delivering s' := by
  -- Where `server` waits and nobody starts to read, the readers are left alone.
  have hserver : ∀ {fd x stack events ready accepted},
      (∀ place y, s.waiting.lookup fd ≠ some ⟨.reader place, y⟩) →
      Delivering { s with
        stack := stack, events := events, ready := ready, accepted := accepted
        waiting := s.waiting.insert fd ⟨.accept, x⟩ } := by
    intro fd x stack events ready accepted hfd
    exact h.keep rfl (List.prefix_refl _) (fun _ _ _ hco => (lookup_insert_accept hfd).mpr hco)
      (fun _ _ _ hco => Or.inl ((lookup_insert_accept hfd).mp hco))
  cases hstep.transition with
  | report fds | startServer rest x =>
      exact h.keep rfl (List.prefix_refl _) (fun _ _ _ hco => hco) (fun _ _ _ hco => Or.inl hco)
  | startServerWait rest x fd hevents hready hsocket hfd =>
      refine hserver fun place y hco => ?_
      rw [Finmap.lookup_eq_none.mpr hfd] at hco
      cases hco
  | again fds fd x hevents hco | accept fds fd x cliFd hevents hco =>
      refine hserver fun place y hco' => ?_
      rw [hco] at hco'
      cases hco'
  | reader fds fd x y place i next w hevents hco hturn =>
      obtain ⟨r, hround, rfl, rfl⟩ := turn_inv hturn
      exact h.reader hco hround
  | startReader cliFd rest x hevents hready hfd =>
      refine h.keep rfl (List.prefix_append _ _) ?_ ?_
      · intro fd' place y hco
        have hne : fd' ≠ s.stack := by
          rintro rfl
          rw [Finmap.lookup_eq_none.mpr hfd] at hco
          cases hco
        exact (Finmap.lookup_insert_of_ne _ hne).trans hco
      · intro fd' place y hco
        by_cases hne : fd' = s.stack
        · subst hne
          rw [Finmap.lookup_insert] at hco
          cases hco
          exact Or.inr ⟨rfl, by simp⟩
        · rw [Finmap.lookup_insert_of_ne _ hne] at hco
          exact Or.inl hco

end Steps

/-- What `send` has yet to send for the reader. -/
def unsent (s : Process) (n : Nat) : List Byte :=
  match (s.read[n]?).bind s.waiting.lookup with
  | some ⟨.reader place, _⟩ => if place.number = n then place.unsent else []
  | _ => []

theorem Delivering.streams {s : Process} (h : Delivering s) (n : Nat) :
    s.work.Streams n (unsent s n) := by
  by_cases hsome : ∃ fd place x, s.waiting.lookup fd = some ⟨.reader place, x⟩ ∧ place.number = n
  · obtain ⟨fd, place, x, hco, rfl⟩ := hsome
    have hunsent : unsent s place.number = place.unsent := by
      simp only [unsent, h.waiting fd place x hco, Option.bind_some, hco, if_true]
    rw [hunsent]
    exact h.yielded fd place x hco
  · have hunsent : unsent s n = [] := by
      unfold unsent
      split
      · rename_i place x hco
        obtain ⟨fd, -, hco⟩ := Option.bind_eq_some_iff.mp hco
        exact if_neg fun hn => hsome ⟨fd, place, x, hco, hn⟩
      · rfl
    rw [hunsent]
    exact h.others n fun fd place x hco hn => hsome ⟨fd, place, x, hco, hn⟩

end Process

end KvStore
