import Mathlib.Data.List.Perm.Basic
import YoloServer.Lib.Run

/-!
# The thread pool (`common/thread/ThreadPool.cpp`)

The workers, the calls of `submit` that are under way and the destructor, as parties
that take turns in any order.  A step of a party is what it does between two points at
which others can notice it:

* a worker locks `m_mutex`, evaluates the predicate of `wait`, goes to sleep (which
  releases the mutex), wakes up, makes the test after `wait`, takes a task and releases
  the mutex, and runs the task;
* `submit` reads `m_stopping`, pushes the task under the mutex, and calls `notify_one`;
* the destructor stores `m_stopping`, calls `notify_all`, and joins the workers.

The lists `asked`, `submitted`, `started` and `finished` are not part of the program:
they record the tasks in the order of these events.
-/

namespace YoloServer

/-- Where a worker is in `workerLoop`; `τ` is the type of the tasks. -/
inductive Worker (τ : Type) where
  /-- about to lock the mutex, at the top of the loop or after a wake-up -/
  | locking
  /-- about to evaluate the predicate of `wait`, with the mutex -/
  | testing
  /-- about to go to sleep, with the mutex -/
  | waiting
  /-- asleep on `m_cv`; the flag tells whether it has been notified -/
  | asleep (notified : Bool)
  /-- back from `wait`, with the mutex -/
  | ready
  /-- about to take a task, with the mutex -/
  | taking
  | running (task : τ)
  | exited
  deriving DecidableEq

namespace Worker

variable {τ : Type}

/-- The worker holds `m_mutex`. -/
def holdsMutex : Worker τ → Bool
  | .testing | .waiting | .ready | .taking => true
  | _ => false

/-- The task that the worker is running. -/
def task? : Worker τ → Option τ
  | .running task => some task
  | _ => none

/-- The effect of `notify_all` on a worker. -/
def notify : Worker τ → Worker τ
  | .asleep _ => .asleep true
  | w => w

end Worker

/-- A call of `submit` that has found `m_stopping` false. -/
inductive SubmitCall (τ : Type) where
  | loaded (task : τ)
  /-- about to call `notify_one` -/
  | pushed
  deriving DecidableEq

/-- The task that a call of `submit` has not pushed yet. -/
def SubmitCall.task? {τ : Type} : SubmitCall τ → Option τ
  | .loaded task => some task
  | .pushed => none

structure ThreadPool (τ : Type) where
  workers : List (Worker τ)
  tasks : List τ
  stopping : Bool
  calls : List (SubmitCall τ)
  notifiedAll : Bool
  joined : Bool
  asked : List τ
  submitted : List τ
  started : List τ
  finished : List τ

namespace ThreadPool

variable {τ : Type}

/-- `ThreadPool::ThreadPool`. -/
def init (τ : Type) (threadCount : Nat) : ThreadPool τ where
  workers := List.replicate (if threadCount = 0 then 1 else threadCount) .locking
  tasks := []
  stopping := false
  calls := []
  notifiedAll := false
  joined := false
  asked := []
  submitted := []
  started := []
  finished := []

/-- Some worker holds `m_mutex`. -/
def locked (s : ThreadPool τ) : Bool :=
  s.workers.any Worker.holdsMutex

/-- The predicate of `wait`. -/
def hasWork (s : ThreadPool τ) : Bool :=
  s.stopping || !s.tasks.isEmpty

/-- The steps of a worker. -/
inductive Act where
  | lock
  | test
  | sleep
  | wake
  | check
  | take
  | finish (threw : Bool)
  deriving DecidableEq

/-- One step of a worker: the pool and the worker after it. -/
def act (s : ThreadPool τ) : Worker τ → Act → Option (ThreadPool τ × Worker τ)
  | .locking, .lock => if s.locked then none else some (s, .testing)
  | .testing, .test => some (s, if s.hasWork then .ready else .waiting)
  | .waiting, .sleep => some (s, .asleep false)
  -- A worker can also wake up without having been notified.
  | .asleep _, .wake => some (s, .locking)
  | .ready, .check =>
      some (s, if s.stopping && s.tasks.isEmpty then .exited else .taking)
  | .taking, .take =>
      match s.tasks with
      | [] => none
      | task :: rest =>
          some ({ s with tasks := rest, started := s.started ++ [task] }, .running task)
  -- An exception of the task is caught.
  | .running task, .finish _ => some ({ s with finished := s.finished ++ [task] }, .locking)
  | _, _ => none

inductive Event (τ : Type) where
  | worker (i : Nat) (a : Act)
  | submit (task : τ)
  | push (j : Nat)
  /-- `target` is the worker that `notify_one` picks, if one is asleep -/
  | notifyOne (j : Nat) (target : Option Nat)
  | storeStopping
  | notifyAll
  | join

/-- `m_cv.notify_one()`: one of the workers that sleep unnotified is notified, if there
are any. -/
def notifyOne [DecidableEq τ] (s : ThreadPool τ) : Option Nat → Option (List (Worker τ))
  | some i =>
      if s.workers[i]? = some (.asleep false) then some (s.workers.set i (.asleep true)) else none
  | none => if .asleep false ∈ s.workers then none else some s.workers

/-- One step of one of the parties. -/
def step [DecidableEq τ] (s : ThreadPool τ) : Event τ → Option (ThreadPool τ)
  | .worker i a => do
      let w ← s.workers[i]?
      let (s', w') ← s.act w a
      some { s' with workers := s.workers.set i w' }
  | .submit task =>
      let s' := { s with asked := s.asked ++ [task] }
      -- `submit` returns at once when the pool is being destroyed.
      some (if s.stopping then s' else { s' with calls := s.calls ++ [.loaded task] })
  | .push j =>
      match s.calls[j]? with
      | some (.loaded task) =>
          if s.locked then
            none
          else
            some { s with
              tasks := s.tasks ++ [task]
              calls := s.calls.set j .pushed
              submitted := s.submitted ++ [task] }
      | _ => none
  | .notifyOne j target =>
      match s.calls[j]? with
      | some .pushed => do
          let workers ← s.notifyOne target
          some { s with workers := workers, calls := s.calls.eraseIdx j }
      | _ => none
  | .storeStopping => if s.stopping then none else some { s with stopping := true }
  | .notifyAll =>
      if s.stopping = true ∧ s.notifiedAll = false then
        some { s with workers := s.workers.map Worker.notify, notifiedAll := true }
      else
        none
  | .join =>
      if s.notifiedAll = true ∧ s.joined = false ∧ ∀ w ∈ s.workers, w = .exited then
        some { s with joined := true }
      else
        none

/-! ## The transitions one by one -/

/-- The steps of a worker. -/
inductive Acts (s : ThreadPool τ) : Worker τ → Act → ThreadPool τ → Worker τ → Prop
  | lock (hfree : s.locked = false) : Acts s .locking .lock s .testing
  | testTrue (hwork : s.stopping = true ∨ s.tasks ≠ []) : Acts s .testing .test s .ready
  | testFalse (hrun : s.stopping = false) (hempty : s.tasks = []) :
      Acts s .testing .test s .waiting
  | sleep : Acts s .waiting .sleep s (.asleep false)
  | wake (notified : Bool) : Acts s (.asleep notified) .wake s .locking
  | exit (hstop : s.stopping = true) (hempty : s.tasks = []) : Acts s .ready .check s .exited
  | goOn (hwork : s.stopping = false ∨ s.tasks ≠ []) : Acts s .ready .check s .taking
  | take (task : τ) (rest : List τ) (htasks : s.tasks = task :: rest) :
      Acts s .taking .take
        { s with tasks := rest, started := s.started ++ [task] } (.running task)
  | finish (task : τ) (threw : Bool) :
      Acts s (.running task) (.finish threw)
        { s with finished := s.finished ++ [task] } .locking

/-- The transitions of the pool. -/
inductive Step (s : ThreadPool τ) : Event τ → ThreadPool τ → Prop
  | worker (i : Nat) (w w' : Worker τ) (a : Act) (s' : ThreadPool τ)
      (hw : s.workers[i]? = some w) (hact : Acts s w a s' w') :
      Step s (.worker i a) { s' with workers := s.workers.set i w' }
  | submitLate (task : τ) (hstop : s.stopping = true) :
      Step s (.submit task) { s with asked := s.asked ++ [task] }
  | submit (task : τ) (hrun : s.stopping = false) :
      Step s (.submit task)
        { s with asked := s.asked ++ [task], calls := s.calls ++ [.loaded task] }
  | push (j : Nat) (task : τ) (hcall : s.calls[j]? = some (.loaded task))
      (hfree : s.locked = false) :
      Step s (.push j)
        { s with
          tasks := s.tasks ++ [task]
          calls := s.calls.set j .pushed
          submitted := s.submitted ++ [task] }
  | notifyOne (j i : Nat) (hcall : s.calls[j]? = some .pushed)
      (hw : s.workers[i]? = some (.asleep false)) :
      Step s (.notifyOne j (some i))
        { s with workers := s.workers.set i (.asleep true), calls := s.calls.eraseIdx j }
  | notifyNone (j : Nat) (hcall : s.calls[j]? = some .pushed)
      (hnone : .asleep false ∉ s.workers) :
      Step s (.notifyOne j none) { s with calls := s.calls.eraseIdx j }
  | storeStopping (hrun : s.stopping = false) : Step s .storeStopping { s with stopping := true }
  | notifyAll (hstop : s.stopping = true) (honce : s.notifiedAll = false) :
      Step s .notifyAll { s with workers := s.workers.map Worker.notify, notifiedAll := true }
  | join (hnotified : s.notifiedAll = true) (hexited : ∀ w ∈ s.workers, w = .exited) :
      Step s .join { s with joined := true }

variable {s s' : ThreadPool τ}

theorem acts_of_act {w w' : Worker τ} {a : Act} (h : s.act w a = some (s', w')) :
    Acts s w a s' w' := by
  cases w with
  | locking =>
      cases a with
      | lock =>
          simp only [act] at h
          split_ifs at h with hlocked
          cases h
          exact .lock (by simpa using hlocked)
      | _ => cases h
  | testing =>
      cases a with
      | test =>
          rw [act, Option.some.injEq, Prod.mk.injEq] at h
          obtain ⟨rfl, rfl⟩ := h
          by_cases hwork : s.hasWork = true
          · rw [if_pos hwork]
            exact .testTrue (by simpa [hasWork] using hwork)
          · rw [if_neg hwork]
            have hnone : s.stopping = false ∧ s.tasks = [] := by simpa [hasWork] using hwork
            exact .testFalse hnone.1 hnone.2
      | _ => cases h
  | waiting =>
      cases a with
      | sleep =>
          cases h
          exact .sleep
      | _ => cases h
  | asleep notified =>
      cases a with
      | wake =>
          cases h
          exact .wake notified
      | _ => cases h
  | ready =>
      cases a with
      | check =>
          simp only [act, Option.some.injEq, Prod.mk.injEq] at h
          obtain ⟨rfl, rfl⟩ := h
          split_ifs with hexit
          · have hboth : s.stopping = true ∧ s.tasks = [] := by simpa using hexit
            exact .exit hboth.1 hboth.2
          · refine .goOn ?_
            by_cases hstop : s.stopping = true
            · exact .inr (by simpa [hstop] using hexit)
            · exact .inl (by simpa using hstop)
      | _ => cases h
  | taking =>
      cases a with
      | take =>
          simp only [act] at h
          split at h
          · cases h
          · rename_i task rest htasks
            cases h
            exact .take task rest htasks
      | _ => cases h
  | running task =>
      cases a with
      | finish threw =>
          cases h
          exact .finish task threw
      | _ => cases h
  | exited => cases h

theorem step_sound [DecidableEq τ] {e : Event τ} (h : s.step e = some s') : Step s e s' := by
  cases e with
  | worker i a =>
      obtain ⟨w, hw, hrest⟩ := Option.bind_eq_some_iff.mp h
      obtain ⟨⟨t, w'⟩, hact, hret⟩ := Option.bind_eq_some_iff.mp hrest
      cases hret
      exact .worker i w w' a t hw (acts_of_act hact)
  | submit task =>
      simp only [step, Option.some.injEq] at h
      subst h
      split_ifs with hstop
      · exact .submitLate task hstop
      · exact .submit task (by simpa using hstop)
  | push j =>
      simp only [step] at h
      split at h
      · rename_i task hcall
        split_ifs at h with hlocked
        cases h
        exact .push j task hcall (by simpa using hlocked)
      · cases h
  | notifyOne j target =>
      simp only [step] at h
      split at h
      · rename_i hcall
        obtain ⟨workers, hworkers, hret⟩ := Option.bind_eq_some_iff.mp h
        cases hret
        cases target with
        | none =>
            simp only [ThreadPool.notifyOne] at hworkers
            split_ifs at hworkers with hnone
            cases hworkers
            exact .notifyNone j hcall hnone
        | some i =>
            simp only [ThreadPool.notifyOne] at hworkers
            split_ifs at hworkers with hw
            cases hworkers
            exact .notifyOne j i hcall hw
      · cases h
  | storeStopping =>
      simp only [step] at h
      split_ifs at h with hstop
      cases h
      exact .storeStopping (by simpa using hstop)
  | notifyAll =>
      simp only [step] at h
      split_ifs at h with hcond
      cases h
      exact .notifyAll hcond.1 hcond.2
  | join =>
      simp only [step] at h
      split_ifs at h with hcond
      cases h
      exact .join hcond.1 hcond.2.2

end ThreadPool
end YoloServer
