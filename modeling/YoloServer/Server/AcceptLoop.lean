import Mathlib.Data.List.Nodup
import Mathlib.Logic.Function.Basic
import YoloServer.Common.ThreadPoolWakeups

/-!
# The accept loop (`server/Server.cpp`)

`acceptLoop` hands each descriptor that `accept` returns to the thread pool.  The task builds a
`Connection` from it, whose destructor closes the descriptor, whether `handle` returns or throws.
The kernel gives a number out again as soon as it has been closed.  A descriptor that is closed
twice, or used after it has been closed, would be that of somebody else.

One thread runs the loop: it accepts the next connection when `submit` has returned, and the pool is
destroyed when the loop has been left.  Everything else in the process that opens and closes
descriptors (the storage, the Raft connections, forwarding) is `others`.

* `Owned` is the invariant: the open descriptors are those of `others` and of the connections that
  have not been closed, without repetition.  That the connection of a task is open until its worker
  destroys it follows from the pool, which gives each task to one worker (`open_of_serving`).
* `connections_closed_once` says what this means for the connections.
* `connections_served_in_order`: they are served in the order in which they were accepted, one for
  each worker at a time.
-/

namespace YoloServer

open Function Lib

/-- A connection that `accept` has returned.  The task captures `fd`; the number is not part of the
program and tells apart the connections that get the same descriptor one after the other. -/
structure Client where
  number : Nat
  fd : Nat
  deriving DecidableEq

/-- The accept loop, its pool and the descriptors of the process.  `destroyed i` says that the task
that worker `i` runs has destroyed its connection and is about to return.  `accepted` and `closed`
record the connections in the order of these events. -/
structure AcceptLoop where
  pool : ThreadPool Client
  looping : Bool
  destroyed : Nat → Bool
  fds : List Nat
  others : List Nat
  accepted : List Client
  closed : List Client

namespace AcceptLoop

def init (threadCount : Nat) : AcceptLoop where
  pool := ThreadPool.init Client threadCount
  looping := true
  destroyed _ := false
  fds := []
  others := []
  accepted := []
  closed := []

/-- The connections that have not been closed. -/
def alive (s : AcceptLoop) : List Client :=
  s.accepted.filter fun c => c ∉ s.closed

/-- The connection that `accept` returns next. -/
def nextClient (s : AcceptLoop) (fd : Nat) : Client :=
  ⟨s.accepted.length, fd⟩

inductive Event where
  /-- `accept` returns `fd`, and the loop calls `submit` -/
  | accept (fd : Nat)
  /-- the loop ends, because the server has been stopped or `epoll_wait` has failed -/
  | leave
  /-- a step of the pool -/
  | pool (e : ThreadPool.Event Client)
  /-- the destructor of the connection that worker `i` serves -/
  | close (i : Nat)
  | openOther (fd : Nat)
  | closeOther (fd : Nat)

/-- The steps of the pool that can come next: `submit` is called by the loop only, the destructor of
the pool begins after the loop, and a task ends after the destructor of its connection. -/
def allows (s : AcceptLoop) : ThreadPool.Event Client → Bool
  | .submit _ => false
  | .storeStopping => !s.looping
  | .worker i (.finish _) => s.destroyed i
  | _ => true

/-- The next task of a worker has a connection of its own. -/
def destroyedAfter (s : AcceptLoop) : ThreadPool.Event Client → Nat → Bool
  | .worker i (.finish _) => update s.destroyed i false
  | _ => s.destroyed

def step (s : AcceptLoop) : Event → Option AcceptLoop
  | .accept fd =>
      if s.looping = true ∧ s.pool.calls = [] ∧ fd ∉ s.fds then do
        let pool ← s.pool.step (.submit (s.nextClient fd))
        some { s with
          pool
          fds := fd :: s.fds
          accepted := s.accepted ++ [s.nextClient fd] }
      else
        none
  | .leave =>
      if s.looping = true ∧ s.pool.calls = [] then some { s with looping := false } else none
  | .pool e =>
      if s.allows e then do
        let pool ← s.pool.step e
        some { s with pool, destroyed := s.destroyedAfter e }
      else
        none
  | .close i =>
      match s.pool.workers[i]? with
      | some (.running c) =>
          if s.destroyed i then
            none
          else
            -- The kernel takes the number back, whoever it belongs to.
            some { s with
              destroyed := update s.destroyed i true
              fds := s.fds.erase c.fd
              closed := s.closed ++ [c] }
      | _ => none
  | .openOther fd =>
      if fd ∈ s.fds then none else some { s with fds := fd :: s.fds, others := fd :: s.others }
  | .closeOther fd =>
      if fd ∈ s.others then
        some { s with fds := s.fds.erase fd, others := s.others.erase fd }
      else
        none

/-- The transitions one by one. -/
inductive Step (s : AcceptLoop) : Event → AcceptLoop → Prop
  | accept (fd : Nat) (pool : ThreadPool Client) (hloop : s.looping = true)
      (hcalls : s.pool.calls = []) (hfree : fd ∉ s.fds)
      (hpool : s.pool.Step (.submit (s.nextClient fd)) pool) :
      Step s (.accept fd)
        { s with
          pool
          fds := fd :: s.fds
          accepted := s.accepted ++ [s.nextClient fd] }
  | leave (hloop : s.looping = true) (hcalls : s.pool.calls = []) :
      Step s .leave { s with looping := false }
  | pool (e : ThreadPool.Event Client) (pool : ThreadPool Client) (hallows : s.allows e = true)
      (hpool : s.pool.Step e pool) :
      Step s (.pool e) { s with pool, destroyed := s.destroyedAfter e }
  | close (i : Nat) (c : Client) (hw : s.pool.workers[i]? = some (.running c))
      (hserves : s.destroyed i = false) :
      Step s (.close i)
        { s with
          destroyed := update s.destroyed i true
          fds := s.fds.erase c.fd
          closed := s.closed ++ [c] }
  | openOther (fd : Nat) (hfree : fd ∉ s.fds) :
      Step s (.openOther fd) { s with fds := fd :: s.fds, others := fd :: s.others }
  | closeOther (fd : Nat) (hmem : fd ∈ s.others) :
      Step s (.closeOther fd) { s with fds := s.fds.erase fd, others := s.others.erase fd }

variable {s s' : AcceptLoop} {e : Event}

theorem step_sound (h : s.step e = some s') : Step s e s' := by
  cases e with
  | accept fd =>
      simp only [step] at h
      split_ifs at h with hcond
      obtain ⟨pool, hpool, hret⟩ := Option.bind_eq_some_iff.mp h
      cases hret
      exact .accept fd pool hcond.1 hcond.2.1 hcond.2.2 (ThreadPool.step_sound hpool)
  | leave =>
      simp only [step] at h
      split_ifs at h with hcond
      cases h
      exact .leave hcond.1 hcond.2
  | pool e =>
      simp only [step] at h
      split_ifs at h with hallows
      obtain ⟨pool, hpool, hret⟩ := Option.bind_eq_some_iff.mp h
      cases hret
      exact .pool e pool hallows (ThreadPool.step_sound hpool)
  | close i =>
      simp only [step] at h
      split at h
      · rename_i c hw
        split_ifs at h with hdestroyed
        cases h
        exact .close i c hw (by simpa using hdestroyed)
      · cases h
  | openOther fd =>
      simp only [step] at h
      split_ifs at h with hopen
      cases h
      exact .openOther fd hopen
  | closeOther fd =>
      simp only [step] at h
      split_ifs at h with hmem
      cases h
      exact .closeOther fd hmem

/-! ## The steps of the pool -/

/-- What a step of the pool that is not `submit` leaves to the accept loop. -/
structure PoolFrame (p p' : ThreadPool Client) (e : ThreadPool.Event Client) : Prop where
  asked : p'.asked = p.asked
  calls : p.calls = [] → p'.calls = []
  stopping : p'.stopping = true → p.stopping = true ∨ e = .storeStopping
  running : ∀ j c, p.workers[j]? = some (.running c) → (∀ threw, e ≠ .worker j (.finish threw)) →
    p'.workers[j]? = some (.running c)
  finished : (∀ i threw, e ≠ .worker i (.finish threw)) → p'.finished = p.finished
  finishes : ∀ i threw, e = .worker i (.finish threw) →
    ∃ c, p.workers[i]? = some (.running c) ∧ p'.finished = p.finished ++ [c]

/-- A worker that runs a task goes on with it when another worker moves. -/
theorem running_set {workers : List (Worker Client)} {i j : Nat} {w w' : Worker Client} {c : Client}
    (hw : workers[i]? = some w) (hidle : w.task? = none) (hj : workers[j]? = some (.running c)) :
    (workers.set i w')[j]? = some (.running c) := by
  have hne : i ≠ j := by
    rintro rfl
    cases hw.symm.trans hj
    cases hidle
  rw [List.getElem?_set_ne hne, hj]

theorem poolFrame_of_acts {p p' : ThreadPool Client} {i : Nat} {w w' : Worker Client}
    {a : ThreadPool.Act} (hw : p.workers[i]? = some w) (h : p.Acts w a p' w') :
    PoolFrame p { p' with workers := p.workers.set i w' } (.worker i a) := by
  cases h with
  | finish task threw =>
      refine
        { asked := rfl
          calls := id
          stopping := .inl
          running := fun j c hj hne => ?_
          finished := fun hne => absurd rfl (hne i threw)
          finishes := fun j threw' heq => ?_ }
      · have hij : i ≠ j := by
          rintro rfl
          exact hne threw rfl
        rw [List.getElem?_set_ne hij, hj]
      · cases heq
        exact ⟨task, hw, rfl⟩
  | _ =>
      exact ⟨rfl, id, .inl, fun j c hj _ => running_set hw rfl hj, fun _ => rfl,
        fun j threw heq => by cases heq⟩

theorem poolFrame_step {p p' : ThreadPool Client} {e : ThreadPool.Event Client}
    (h : p.Step e p') (hsubmit : ∀ c, e ≠ .submit c) : PoolFrame p p' e := by
  have hpending : ∀ {j : Nat} {call : SubmitCall Client}, p.calls[j]? = some call → p.calls ≠ [] :=
    fun hcall => List.ne_nil_of_mem (List.mem_of_getElem? hcall)
  cases h with
  | worker i w w' a t hw hact => exact poolFrame_of_acts hw hact
  | submitLate c hstop => exact absurd rfl (hsubmit c)
  | submit c hrun => exact absurd rfl (hsubmit c)
  | push j c hcall hfree =>
      exact ⟨rfl, fun hnone => absurd hnone (hpending hcall), .inl, fun _ _ hj _ => hj,
        fun _ => rfl, fun _ _ heq => by cases heq⟩
  | notifyOne j i hcall hw =>
      exact ⟨rfl, fun hnone => absurd hnone (hpending hcall), .inl,
        fun _ _ hj _ => running_set hw rfl hj, fun _ => rfl, fun _ _ heq => by cases heq⟩
  | notifyNone j hcall hnone =>
      exact ⟨rfl, fun hnone => absurd hnone (hpending hcall), .inl, fun _ _ hj _ => hj,
        fun _ => rfl, fun _ _ heq => by cases heq⟩
  | storeStopping hrun =>
      exact ⟨rfl, id, fun _ => .inr rfl, fun _ _ hj _ => hj, fun _ => rfl,
        fun _ _ heq => by cases heq⟩
  | notifyAll hstop honce =>
      refine ⟨rfl, id, .inl, fun j c hj _ => ?_, fun _ => rfl, fun _ _ heq => by cases heq⟩
      rw [List.getElem?_map, hj]
      rfl
  | join hnotified hexited =>
      exact ⟨rfl, id, .inl, fun _ _ hj _ => hj, fun _ => rfl, fun _ _ heq => by cases heq⟩

/-! ## The invariant -/

/-- The open descriptors are those of the others and of the connections that have not been closed.
Closed are those whose task has ended or has come behind the destructor. -/
structure Owned (s : AcceptLoop) : Prop where
  sound : s.pool.Sound
  left : s.looping = false → s.pool.calls = []
  stops : s.pool.stopping = true → s.looping = false
  asked : s.pool.asked = s.accepted
  numbers : ∀ c ∈ s.accepted, c.number < s.accepted.length
  nodup : s.accepted.Nodup
  busy : ∀ i, s.destroyed i = true → ∃ c, s.pool.workers[i]? = some (.running c)
  closed : ∀ c, c ∈ s.closed ↔ c ∈ s.pool.finished ∨
    ∃ i, s.destroyed i = true ∧ s.pool.workers[i]? = some (.running c)
  once : s.closed.Nodup
  distinct : s.fds.Nodup
  table : s.fds.Perm (s.others ++ s.alive.map Client.fd)

theorem owned_init (threadCount : Nat) : (init threadCount).Owned where
  sound := ThreadPool.sound_init threadCount
  left := by simp [init]
  stops := by simp [init, ThreadPool.init]
  asked := rfl
  numbers := by simp [init]
  nodup := List.nodup_nil
  busy := by simp [init]
  closed := by simp [init, ThreadPool.init]
  once := List.nodup_nil
  distinct := List.nodup_nil
  table := .refl _

theorem Owned.accepted_of_started (h : s.Owned) {c : Client} (hc : c ∈ s.pool.started) :
    c ∈ s.accepted := by
  rw [← h.asked]
  refine h.sound.calls.mem_iff.mpr (List.mem_append_left _ ?_)
  rw [h.sound.queue]
  exact List.mem_append_left _ hc

theorem Owned.started_of_running (h : s.Owned) {i : Nat} {c : Client}
    (hw : s.pool.workers[i]? = some (.running c)) : c ∈ s.pool.started := by
  refine h.sound.runs.mem_iff.mpr (List.mem_append_right _ ?_)
  exact List.mem_filterMap.mpr ⟨.running c, List.mem_of_getElem? hw, rfl⟩

/-- A connection that has been closed has been taken up. -/
theorem Owned.served (h : s.Owned) {c : Client} (hc : c ∈ s.closed) : c ∈ s.pool.started := by
  rcases (h.closed c).mp hc with hfinished | ⟨i, -, hw⟩
  · exact h.sound.runs.mem_iff.mpr (List.mem_append_left _ hfinished)
  · exact h.started_of_running hw

theorem Owned.finished (h : s.Owned) {c : Client} (hc : c ∈ s.pool.finished) : c ∈ s.closed :=
  (h.closed c).mpr (.inl hc)

/-- No task is taken up twice. -/
theorem Owned.started_nodup (h : s.Owned) : s.pool.started.Nodup := by
  have hasked := h.sound.calls.nodup_iff.mp (h.asked.symm ▸ h.nodup)
  rw [h.sound.queue, List.append_assoc] at hasked
  exact List.Nodup.of_append_left hasked

/-- No two workers run the same task. -/
theorem Owned.one_worker (h : s.Owned) {i j : Nat} {c : Client}
    (hi : s.pool.workers[i]? = some (.running c)) (hj : s.pool.workers[j]? = some (.running c)) :
    i = j := by
  by_contra hij
  have hrunning : s.pool.running.Nodup :=
    List.Nodup.of_append_right (h.sound.runs.nodup_iff.mp h.started_nodup)
  -- Without the task of worker `i` the one of worker `j` is still there.
  have hmove : (c :: (s.pool.workers.set i .locking).filterMap Worker.task?).Perm s.pool.running :=
    filterMap_set_perm Worker.task? .locking hi
  have hother : (s.pool.workers.set i .locking)[j]? = some (.running c) := by
    rw [List.getElem?_set_ne hij]
    exact hj
  have hnot := (List.nodup_cons.mp (hmove.nodup_iff.mpr hrunning)).1
  exact hnot (List.mem_filterMap.mpr ⟨.running c, List.mem_of_getElem? hother, rfl⟩)

/-- A connection is open until its own worker destroys it: no task has ended with it, and no other
worker serves it. -/
theorem Owned.open_of_serving (h : s.Owned) {i : Nat} {c : Client}
    (hw : s.pool.workers[i]? = some (.running c)) (hserves : s.destroyed i = false) :
    c ∉ s.closed := by
  intro hclosed
  rcases (h.closed c).mp hclosed with hfinished | ⟨j, hdestroyed, hj⟩
  · have hparts := h.sound.runs.nodup_iff.mp h.started_nodup
    exact List.disjoint_of_nodup_append hparts hfinished
      (List.mem_filterMap.mpr ⟨.running c, List.mem_of_getElem? hw, rfl⟩)
  · cases h.one_worker hw hj
    rw [hserves] at hdestroyed
    cases hdestroyed

theorem mem_alive {c : Client} : c ∈ s.alive ↔ c ∈ s.accepted ∧ c ∉ s.closed := by
  simp [alive]

/-- The connection that is closed leaves the others alive. -/
theorem alive_perm_close (hnodup : s.accepted.Nodup) {c : Client} (hc : c ∈ s.alive) :
    s.alive.Perm (c :: s.accepted.filter fun d => d ∉ s.closed ++ [c]) := by
  have herase : (s.accepted.filter fun d => d ∉ s.closed ++ [c]) = s.alive.erase c := by
    rw [alive, List.Nodup.erase_eq_filter (hnodup.filter _), List.filter_filter]
    refine List.filter_congr fun d _ => ?_
    by_cases hd : d = c
    · simp [hd]
    · simp [hd]
  rw [herase]
  exact List.perm_cons_erase hc

/-- The pool is not being destroyed while the loop goes on. -/
theorem Owned.running (h : s.Owned) (hloop : s.looping = true) : s.pool.stopping = false := by
  by_contra hstop
  rw [h.stops (by simpa using hstop)] at hloop
  cases hloop

theorem ne_submit_of_allows {e : ThreadPool.Event Client} (hallows : s.allows e = true) :
    ∀ c, e ≠ .submit c := by
  rintro c rfl
  cases hallows

/-- The destructor of the pool begins when no call of `submit` is under way. -/
theorem Owned.submitsFirst (h : s.Owned) {e : ThreadPool.Event Client}
    (hallows : s.allows e = true) : s.pool.SubmitsFirst e := by
  cases e with
  | submit c => exact absurd rfl (ne_submit_of_allows hallows c)
  | storeStopping => exact h.left (by simpa [allows] using hallows)
  | _ => trivial

theorem owned_accept (h : s.Owned) {fd : Nat} {pool : ThreadPool Client}
    (hloop : s.looping = true) (hfree : fd ∉ s.fds)
    (hpool : s.pool.Step (.submit (s.nextClient fd)) pool) :
    Owned { s with
      pool
      fds := fd :: s.fds
      accepted := s.accepted ++ [s.nextClient fd] } := by
  have hrun : s.pool.stopping = false := h.running hloop
  have hfirst : s.pool.SubmitsFirst (.submit (s.nextClient fd)) := hrun
  have hsound := ThreadPool.sound_step h.sound hfirst hpool
  have hnew : s.nextClient fd ∉ s.accepted := by
    intro hmem
    exact absurd (h.numbers _ hmem) (lt_irrefl _)
  have hopen : s.nextClient fd ∉ s.closed :=
    fun hmem => hnew (h.accepted_of_started (h.served hmem))
  cases hpool with
  | submitLate c hstop =>
      rw [hstop] at hrun
      cases hrun
  | submit c hstop =>
      refine
        { sound := hsound
          left := fun hleft => absurd (hloop.symm.trans hleft) (by decide)
          stops := h.stops
          asked := by simp [h.asked]
          numbers := ?_
          nodup := List.Nodup.append h.nodup (List.nodup_singleton _) (by simpa using hnew)
          busy := h.busy
          closed := h.closed
          once := h.once
          distinct := List.nodup_cons.mpr ⟨hfree, h.distinct⟩
          table := ?_ }
      · intro c hc
        rw [List.length_append, List.length_singleton]
        rcases List.mem_append.mp hc with hold | hlast
        · exact (h.numbers c hold).trans (Nat.lt_succ_self _)
        · rw [List.mem_singleton.mp hlast]
          exact Nat.lt_succ_self _
      · have halive : (s.accepted ++ [s.nextClient fd]).filter (fun c => c ∉ s.closed) =
            s.alive ++ [s.nextClient fd] := by
          simp [alive, List.filter_append, hopen]
        show (fd :: s.fds).Perm (s.others ++ List.map Client.fd (List.filter _ _))
        rw [halive, List.map_append, ← List.append_assoc]
        exact (h.table.cons fd).trans (List.perm_append_singleton _ _).symm

/-- After a step of the pool a worker is behind the destructor only if it was before and still runs
the same task. -/
theorem destroyed_of_after (h : s.Owned) {e : ThreadPool.Event Client} {pool : ThreadPool Client}
    (hframe : PoolFrame s.pool pool e) {i : Nat} (hi : s.destroyedAfter e i = true) :
    s.destroyed i = true ∧ ∃ c, s.pool.workers[i]? = some (.running c) ∧
      pool.workers[i]? = some (.running c) := by
  obtain ⟨hold, hne⟩ : s.destroyed i = true ∧ ∀ threw, e ≠ .worker i (.finish threw) := by
    refine ⟨?_, ?_⟩
    · cases e with
      | worker j a =>
          cases a with
          | finish threw =>
              by_cases hij : i = j
              · rw [hij, destroyedAfter, update_self] at hi
                cases hi
              · rwa [destroyedAfter, update_of_ne hij] at hi
          | _ => exact hi
      | _ => exact hi
    · rintro threw rfl
      rw [destroyedAfter, update_self] at hi
      cases hi
  obtain ⟨c, hc⟩ := h.busy i hold
  exact ⟨hold, c, hc, hframe.running i c hc hne⟩

/-- A step of the pool moves the connections behind the destructor, but closes none. -/
theorem closed_pool (h : s.Owned) {e : ThreadPool.Event Client} {pool : ThreadPool Client}
    (hallows : s.allows e = true) (hframe : PoolFrame s.pool pool e) (d : Client) :
    d ∈ s.closed ↔ d ∈ pool.finished ∨
      ∃ i, s.destroyedAfter e i = true ∧ pool.workers[i]? = some (.running d) := by
  have hback : (∃ i, s.destroyedAfter e i = true ∧ pool.workers[i]? = some (.running d)) →
      ∃ i, s.destroyed i = true ∧ s.pool.workers[i]? = some (.running d) := by
    rintro ⟨i, hi, hd⟩
    obtain ⟨hold, c, hc, hc'⟩ := destroyed_of_after h hframe hi
    cases hc'.symm.trans hd
    exact ⟨i, hold, hc⟩
  rw [h.closed d]
  by_cases hfinish : ∃ i threw, e = .worker i (.finish threw)
  · -- The connection at the worker is one of a task that has ended now.
    obtain ⟨i, threw, rfl⟩ := hfinish
    obtain ⟨c, hc, hfinished⟩ := hframe.finishes i threw rfl
    have hi : s.destroyed i = true := hallows
    rw [hfinished, List.mem_append, List.mem_singleton]
    constructor
    · rintro (hd | ⟨j, hj, hd⟩)
      · exact .inl (.inl hd)
      · by_cases hji : j = i
        · subst hji
          cases hc.symm.trans hd
          exact .inl (.inr rfl)
        · refine .inr ⟨j, ?_, hframe.running j d hd fun threw' heq => ?_⟩
          · rw [destroyedAfter, update_of_ne hji]
            exact hj
          · cases heq
            exact hji rfl
    · rintro ((hd | rfl) | hd)
      · exact .inl hd
      · exact .inr ⟨i, hi, hc⟩
      · exact .inr (hback hd)
  · have hother : ∀ i threw, e ≠ .worker i (.finish threw) :=
      fun i threw heq => hfinish ⟨i, threw, heq⟩
    have hsame : s.destroyedAfter e = s.destroyed := by
      cases e with
      | worker j a =>
          cases a with
          | finish threw => exact absurd rfl (hother j threw)
          | _ => rfl
      | _ => rfl
    rw [hframe.finished hother]
    refine or_congr_right ⟨?_, hback⟩
    rintro ⟨i, hi, hd⟩
    exact ⟨i, hsame ▸ hi, hframe.running i d hd (hother i)⟩

theorem owned_pool (h : s.Owned) {e : ThreadPool.Event Client} {pool : ThreadPool Client}
    (hallows : s.allows e = true) (hpool : s.pool.Step e pool) :
    Owned { s with pool, destroyed := s.destroyedAfter e } := by
  have hframe := poolFrame_step hpool (ne_submit_of_allows hallows)
  refine
    { h with
      sound := ThreadPool.sound_step h.sound (h.submitsFirst hallows) hpool
      left := fun hleft => hframe.calls (h.left hleft)
      stops := fun hstop => ?_
      asked := hframe.asked.trans h.asked
      busy := fun i hi => ?_
      closed := closed_pool h hallows hframe }
  · rcases hframe.stopping hstop with hold | rfl
    · exact h.stops hold
    · simpa [allows] using hallows
  · obtain ⟨-, c, -, hc⟩ := destroyed_of_after h hframe hi
    exact ⟨c, hc⟩

theorem owned_close (h : s.Owned) {i : Nat} {c : Client}
    (hw : s.pool.workers[i]? = some (.running c)) (hserves : s.destroyed i = false) :
    Owned { s with
      destroyed := update s.destroyed i true
      fds := s.fds.erase c.fd
      closed := s.closed ++ [c] } := by
  have hopen := h.open_of_serving hw hserves
  have halive : c ∈ s.alive :=
    mem_alive.mpr ⟨h.accepted_of_started (h.started_of_running hw), hopen⟩
  have hdestroyed : ∀ j, update s.destroyed i true j = true ↔ s.destroyed j = true ∨ j = i := by
    intro j
    by_cases hji : j = i
    · simp [hji]
    · simp [hji]
  refine
    { h with
      busy := fun j hj => ((hdestroyed j).mp hj).elim (h.busy j) fun heq => ⟨c, heq ▸ hw⟩
      closed := fun d => ?_
      once := List.Nodup.append h.once (List.nodup_singleton _) (by simpa using hopen)
      distinct := h.distinct.erase _
      table := ?_ }
  · show d ∈ s.closed ++ [c] ↔ d ∈ s.pool.finished ∨
      ∃ j, update s.destroyed i true j = true ∧ s.pool.workers[j]? = some (.running d)
    rw [List.mem_append, List.mem_singleton, h.closed d, or_assoc]
    refine or_congr_right ⟨?_, ?_⟩
    · rintro (⟨j, hj, hd⟩ | rfl)
      · exact ⟨j, (hdestroyed j).mpr (.inl hj), hd⟩
      · exact ⟨i, (hdestroyed i).mpr (.inr rfl), hw⟩
    · rintro ⟨j, hj, hd⟩
      rcases (hdestroyed j).mp hj with hold | rfl
      · exact .inl ⟨j, hold, hd⟩
      · cases hw.symm.trans hd
        exact .inr rfl
  · have hsplit := (h.table.trans
      (((alive_perm_close h.nodup halive).map Client.fd).append_left _)).trans List.perm_middle
    have herase := hsplit.erase c.fd
    rwa [List.erase_cons_head] at herase

/-- **The step lemma.** -/
theorem owned_step (h : s.Owned) (hstep : Step s e s') : s'.Owned := by
  cases hstep with
  | accept fd pool hloop hcalls hfree hpool => exact owned_accept h hloop hfree hpool
  | leave hloop hcalls => exact { h with left := fun _ => hcalls, stops := fun _ => rfl }
  | pool e pool hallows hpool => exact owned_pool h hallows hpool
  | close i c hw hserves => exact owned_close h hw hserves
  | openOther fd hfree =>
      exact { h with
        distinct := List.nodup_cons.mpr ⟨hfree, h.distinct⟩
        table := h.table.cons fd }
  | closeOther fd hmem =>
      refine { h with distinct := h.distinct.erase _, table := ?_ }
      have herase := h.table.erase fd
      rwa [List.erase_append_left _ hmem] at herase

/-! ## What becomes of the connections -/

/-- Each connection is closed once and by the worker that serves it; as long as it is not closed,
its descriptor is open and belongs to it alone; and when all workers have exited, every connection
that was accepted has been closed. -/
structure ClosesOnce (s : AcceptLoop) : Prop where
  once : s.closed.Nodup
  served : ∀ c ∈ s.closed, c ∈ s.pool.started
  is_open : ∀ c ∈ s.accepted, c ∉ s.closed → c.fd ∈ s.fds ∧ c.fd ∉ s.others
  apart : ∀ c ∈ s.accepted, ∀ d ∈ s.accepted, c ∉ s.closed → d ∉ s.closed → c.fd = d.fd → c = d
  one_worker : ∀ (i j : Nat) (c : Client), s.pool.workers[i]? = some (.running c) →
    s.pool.workers[j]? = some (.running c) → i = j
  others_open : ∀ fd ∈ s.others, fd ∈ s.fds
  none_left : (∀ w ∈ s.pool.workers, w = .exited) →
    s.closed.Perm s.accepted ∧ s.fds.Perm s.others

theorem Owned.closesOnce (h : s.Owned) : s.ClosesOnce := by
  have hparts := h.table.nodup_iff.mp h.distinct
  refine
    { once := h.once
      served := fun c => h.served
      is_open := fun c hc hopen => ?_
      apart := fun c hc d hd hopen hopen' heq => ?_
      one_worker := fun i j c => h.one_worker
      others_open := fun fd hfd => h.table.mem_iff.mpr (List.mem_append_left _ hfd)
      none_left := fun hall => ?_ }
  · have hfd : c.fd ∈ s.alive.map Client.fd := List.mem_map_of_mem (mem_alive.mpr ⟨hc, hopen⟩)
    refine ⟨h.table.mem_iff.mpr (List.mem_append_right _ hfd), fun hother => ?_⟩
    exact List.disjoint_of_nodup_append hparts hother hfd
  · exact List.inj_on_of_nodup_map (List.Nodup.of_append_right hparts) (mem_alive.mpr ⟨hc, hopen⟩)
      (mem_alive.mpr ⟨hd, hopen'⟩) heq
  · have hfinished := h.sound.orderly.all_run hall
    rw [h.asked] at hfinished
    have hclosed : ∀ c ∈ s.accepted, c ∈ s.closed :=
      fun c hc => h.finished (hfinished.mem_iff.mpr hc)
    have halive : s.alive = [] := by
      simpa [alive] using hclosed
    refine ⟨(List.perm_ext_iff_of_nodup h.once h.nodup).mpr fun c => ?_, ?_⟩
    · exact ⟨fun hc => h.accepted_of_started (h.served hc), hclosed c⟩
    · have htable := h.table
      rwa [halive, List.map_nil, List.append_nil] at htable

/-- **Every connection is closed exactly once.**  In every run of the accept loop with any number of
workers, in which connections are accepted, served and closed while the rest of the process opens
and closes descriptors, and tasks return or throw: a descriptor is that of at most one connection
at a time, nobody closes a descriptor that is not its own, and none is left when the pool has been
destroyed. -/
theorem connections_closed_once (threadCount : Nat) (es : List Event) (s : AcceptLoop)
    (hrun : run step (init threadCount) es = some s) : s.ClosesOnce := by
  have howned : s.Owned :=
    run_preserves Owned (fun _ _ _ h hstep => owned_step h (step_sound hstep))
      (owned_init threadCount) hrun
  exact howned.closesOnce

/-- One worker takes the task of its queue. -/
def takeUp : List Event :=
  [.pool (.worker 0 .lock), .pool (.worker 0 .test), .pool (.worker 0 .check),
    .pool (.worker 0 .take)]

/-- The kernel gives the descriptor of the first connection out again before the task of this
connection has ended, and this task throws. -/
def reusedDescriptor : List Event :=
  [.accept 5, .pool (.push 0), .pool (.notifyOne 0 none)] ++ takeUp ++
    [.close 0, .accept 5, .pool (.push 0), .pool (.notifyOne 0 none), .openOther 6,
      .pool (.worker 0 (.finish true))] ++ takeUp ++
    [.close 0, .pool (.worker 0 (.finish false)), .leave, .pool .storeStopping, .pool .notifyAll,
      .pool (.worker 0 .lock), .pool (.worker 0 .test), .pool (.worker 0 .check), .pool .join]

/-- Both connections with descriptor 5 have been closed, and descriptor 6 of the rest of the process
is open. -/
theorem reused_descriptor_closed :
    ∃ s, run step (init 1) reusedDescriptor = some s ∧ s.accepted = [⟨0, 5⟩, ⟨1, 5⟩] ∧
      s.closed.Perm s.accepted ∧ s.fds.Perm [6] := by
  obtain ⟨s, hrun, haccepted, hexited, hothers⟩ := exists_run_of_check step (init 1)
    reusedDescriptor
    (fun t => t.accepted = [⟨0, 5⟩, ⟨1, 5⟩] ∧ (∀ w ∈ t.pool.workers, w = .exited) ∧
      t.others = [6]) (by decide)
  obtain ⟨hclosed, hfds⟩ := (connections_closed_once 1 reusedDescriptor s hrun).none_left hexited
  exact ⟨s, hrun, haccepted, hclosed, hothers ▸ hfds⟩

/-! ## The order of the connections -/

/-- The pool moves as a pool does, one call of `submit` after the other. -/
theorem Owned.pool_step (h : s.Owned) (hstep : Step s e s') :
    s'.pool = s.pool ∨ ∃ e', s.pool.Step e' s'.pool ∧
      s.pool.SubmitsFirst e' ∧ s.pool.OneCallAtATime e' := by
  cases hstep with
  | accept fd pool hloop hcalls hfree hpool =>
      exact .inr ⟨_, hpool, h.running hloop, hcalls⟩
  | pool e' pool hallows hpool =>
      refine .inr ⟨e', hpool, h.submitsFirst hallows, ?_⟩
      cases e' with
      | submit c => exact absurd rfl (ne_submit_of_allows hallows c)
      | _ => trivial
  | leave hloop hcalls => exact .inl rfl
  | close i c hw hserves => exact .inl rfl
  | openOther fd hfree => exact .inl rfl
  | closeOther fd hmem => exact .inl rfl

theorem length_workers_step {p p' : ThreadPool Client} {e : ThreadPool.Event Client}
    (h : p.Step e p') : p'.workers.length = p.workers.length := by
  cases h with
  | worker i w w' a t hw hact => exact List.length_set
  | notifyOne j i hcall hw => exact List.length_set
  | notifyAll hstop honce => exact List.length_map _
  | _ => rfl

/-- The connections wait in the order in which they were accepted, and no wake-up is lost. -/
structure Queued (threadCount : Nat) (s : AcceptLoop) : Prop where
  owned : s.Owned
  order : s.pool.InCallOrder
  attended : s.pool.Attended
  threads : s.pool.workers.length = max 1 threadCount

theorem queued_init (threadCount : Nat) : (init threadCount).Queued threadCount where
  owned := owned_init threadCount
  order := ⟨rfl, Nat.zero_le _⟩
  attended := ThreadPool.attended_init threadCount
  threads := by
    simp only [init, ThreadPool.init, List.length_replicate]
    split_ifs with hzero <;> omega

theorem queued_step {threadCount : Nat} (h : s.Queued threadCount) (hstep : Step s e s') :
    s'.Queued threadCount := by
  have howned := owned_step h.owned hstep
  rcases h.owned.pool_step hstep with heq | ⟨e', hpool, hfirst, hone⟩
  · exact ⟨howned, heq ▸ h.order, heq ▸ h.attended, heq ▸ h.threads⟩
  · exact ⟨howned, ThreadPool.inCallOrder_step h.order ⟨hfirst, hone⟩ hpool,
      ThreadPool.attended_step h.attended hpool, (length_workers_step hpool).trans h.threads⟩

/-- Connections are taken up in order, and the workers serve one connection each.  When the pool is
at rest, all connections have been taken up or all workers are busy. -/
structure ServesInOrder (threadCount : Nat) (s : AcceptLoop) : Prop where
  in_order : s.pool.started <+: s.accepted
  capacity : s.pool.started.length ≤ s.closed.length + max 1 threadCount
  conserving : s.pool.stopping = false → s.pool.calls = [] → s.pool.AtRest →
    s.pool.started = s.accepted ∨ ∀ w ∈ s.pool.workers, ∃ c, w = .running c

theorem Queued.servesInOrder {threadCount : Nat} (h : s.Queued threadCount) :
    s.ServesInOrder threadCount := by
  have hsound := h.owned.sound
  have haccepted : s.accepted = s.pool.started ++ (s.pool.tasks ++ s.pool.pending) := by
    rw [← h.owned.asked, h.order.1, hsound.queue, List.append_assoc]
  refine
    { in_order := ⟨_, haccepted.symm⟩
      capacity := ?_
      conserving := ?_ }
  · -- What was started is being served or has ended, and then its connection is closed.
    have hfinished : s.pool.finished.Nodup := by
      have hnodup := h.owned.nodup
      rw [haccepted] at hnodup
      exact List.Nodup.of_append_left
        (hsound.runs.nodup_iff.mp (List.Nodup.of_append_left hnodup))
    have hclosed : s.pool.finished.length ≤ s.closed.length :=
      (List.subperm_of_subset hfinished fun _ hc => h.owned.finished hc).length_le
    have hrunning : s.pool.running.length ≤ s.pool.workers.length :=
      List.length_filterMap_le _ _
    have hlength := hsound.runs.length_eq
    rw [List.length_append] at hlength
    have hthreads := h.threads
    omega
  · intro hrun hcalls hrest
    rcases ThreadPool.idle_or_busy_of_atRest hsound h.attended hrun hrest with hidle | hbusy
    · have hpending : s.pool.pending = [] := by
        rw [ThreadPool.pending, hcalls]
        rfl
      rw [hidle, hpending, List.append_nil, List.append_nil] at haccepted
      exact .inl haccepted.symm
    · exact .inr hbusy

/-- **Connections are served in the order of `accept`.**  In every run of the accept loop the
workers have taken up a beginning of the accepted connections, and at most as many more than have
been closed as there are threads: a connection waits while every worker serves one that stays open.
And it waits for nothing else: at rest every connection has been taken up or every worker is busy.
-/
theorem connections_served_in_order (threadCount : Nat) (es : List Event) (s : AcceptLoop)
    (hrun : run step (init threadCount) es = some s) : s.ServesInOrder threadCount := by
  have hqueued : s.Queued threadCount :=
    run_preserves (Queued threadCount) (fun _ _ _ h hstep => queued_step h (step_sound hstep))
      (queued_init threadCount) hrun
  exact hqueued.servesInOrder

/-- The only worker serves a client that stays, and a second client is accepted. -/
def secondClient : List Event :=
  [.accept 5, .pool (.push 0), .pool (.notifyOne 0 none)] ++ takeUp ++
    [.accept 6, .pool (.push 0), .pool (.notifyOne 0 none)]

theorem second_client_waits :
    ∃ s, run step (init 1) secondClient = some s ∧ s.accepted = [⟨0, 5⟩, ⟨1, 6⟩] ∧
      s.pool.started.length ≤ 1 := by
  obtain ⟨s, hrun, haccepted, hclosed⟩ := exists_run_of_check step (init 1) secondClient
    (fun t => t.accepted = [⟨0, 5⟩, ⟨1, 6⟩] ∧ t.closed = []) (by decide)
  have hcapacity := (connections_served_in_order 1 secondClient s hrun).capacity
  rw [hclosed] at hcapacity
  exact ⟨s, hrun, haccepted, hcapacity⟩

end AcceptLoop
end YoloServer
