import YoloServer.Common.ThreadPool
import YoloServer.Lib.Slots

/-!
# Shutting the thread pool down

The destructor stores `m_stopping` without locking `m_mutex`.  A worker that has found the
predicate of `wait` false, and has not gone to sleep yet, misses both the store and the
`notify_all`, and then sleeps with nobody left to wake it up.

* `worker_stranded` is the shortest such run.
* `shutdown_strands_nobody` shows that this is the only way: if no worker is at this point
  when `notify_all` is called, none is ever left asleep.
* `strands_of_waiting` shows that the condition cannot be relaxed, and `stranded_forever`
  that the destructor then waits until the worker wakes up by itself.
-/

namespace YoloServer
namespace ThreadPool

open Lib

variable {τ : Type} {s s' : ThreadPool τ}

/-- `notify_all` has been called, and a worker is asleep and not notified. -/
def Stranded (s : ThreadPool τ) : Prop :=
  s.stopping = true ∧ s.notifiedAll = true ∧ .asleep false ∈ s.workers

instance [DecidableEq τ] (s : ThreadPool τ) : Decidable s.Stranded :=
  inferInstanceAs (Decidable (_ ∧ _))

/-- When `notify_all` is called, no worker is between a test of the predicate that has
failed and its going to sleep. -/
def NobodyFallingAsleep (s : ThreadPool τ) : Event τ → Prop
  | .notifyAll => .waiting ∉ s.workers
  | _ => True

instance [DecidableEq τ] (s : ThreadPool τ) : ∀ e, Decidable (s.NobodyFallingAsleep e)
  | .notifyAll => inferInstanceAs (Decidable (_ ∉ _))
  | .worker _ _ => isTrue trivial
  | .submit _ => isTrue trivial
  | .push _ => isTrue trivial
  | .notifyOne _ _ => isTrue trivial
  | .storeStopping => isTrue trivial
  | .join => isTrue trivial

/-- What a step of a worker leaves alone. -/
theorem Acts.frame {w w' : Worker τ} {a : Act} (h : Acts s w a s' w') :
    s'.stopping = s.stopping ∧ s'.notifiedAll = s.notifiedAll ∧ s'.joined = s.joined ∧
      s'.calls = s.calls ∧ s'.asked = s.asked ∧ s'.submitted = s.submitted := by
  cases h with
  | _ => exact ⟨rfl, rfl, rfl, rfl, rfl, rfl⟩

/-! ## The invariant -/

/-- Nobody sleeps, or is about to, once all have been notified. -/
def Roused (s : ThreadPool τ) : Prop :=
  s.notifiedAll = true →
    s.stopping = true ∧ ∀ w ∈ s.workers, w ≠ .waiting ∧ w ≠ .asleep false

/-- While the pool is stopping, a worker that is awake stays awake. -/
theorem Acts.stays_awake {w w' : Worker τ} {a : Act} (h : Acts s w a s' w')
    (hstop : s.stopping = true) (hw : w ≠ .waiting) : w' ≠ .waiting ∧ w' ≠ .asleep false := by
  cases h with
  | testFalse hrun hempty =>
      rw [hstop] at hrun
      cases hrun
  | sleep => exact absurd rfl hw
  | _ => simp

/-- A notified worker is not asleep without a notification. -/
theorem notify_spec {w : Worker τ} (hw : w ≠ .waiting) :
    w.notify ≠ .waiting ∧ w.notify ≠ .asleep false := by
  cases w with
  | waiting => exact absurd rfl hw
  | _ => simp [Worker.notify]

theorem roused_step {e : Event τ} (h : s.Roused) (hcond : s.NobodyFallingAsleep e)
    (hstep : Step s e s') : s'.Roused := by
  cases hstep with
  | worker i w w' a t hw hact =>
      obtain ⟨hstopping, hnotified, -⟩ := hact.frame
      intro hall
      obtain ⟨hstop, hawake⟩ := h (hnotified ▸ hall)
      refine ⟨hstopping.trans hstop, forall_mem_set hawake ?_⟩
      exact hact.stays_awake hstop (hawake w (List.mem_of_getElem? hw)).1
  | notifyOne j i hcall hw =>
      intro hall
      obtain ⟨hstop, hawake⟩ := h hall
      exact ⟨hstop, forall_mem_set hawake (by simp)⟩
  | storeStopping hrun =>
      intro hall
      obtain ⟨hstop, -⟩ := h hall
      rw [hstop] at hrun
      cases hrun
  | notifyAll hstop honce =>
      intro _
      refine ⟨hstop, fun v hv => ?_⟩
      obtain ⟨w, hw, rfl⟩ := List.mem_map.mp hv
      exact notify_spec fun heq => hcond (heq ▸ hw)
  | submitLate task hstop => exact h
  | submit task hrun => exact h
  | push j task hcall hfree => exact h
  | notifyNone j hcall hnone => exact h
  | join hnotified hexited => exact h

section Runs

variable [DecidableEq τ]

/-- **Shutdown strands no worker**, in every run of any number of workers, calls of
`submit` and the destructor in which no worker is falling asleep at the moment of
`notify_all`. -/
theorem shutdown_strands_nobody (threadCount : Nat) (es : List (Event τ)) (s : ThreadPool τ)
    (hmeets : Meets step NobodyFallingAsleep (init τ threadCount) es)
    (hrun : run step (init τ threadCount) es = some s) : ¬ s.Stranded := by
  have hinit : (init τ threadCount).Roused := by
    intro hall
    cases hall
  have hroused : s.Roused :=
    run_invariant Roused (fun _ _ _ h hcond hstep => roused_step h hcond (step_sound hstep)) hinit
      hmeets hrun
  rintro ⟨-, hall, hasleep⟩
  exact ((hroused hall).2 _ hasleep).2 rfl

/-- Two workers, one of them asleep and one running a task, when the pool is shut down. -/
theorem two_workers_shut_down :
    ∃ s, run step (init Nat 2)
        [.worker 0 .lock, .worker 0 .test, .worker 0 .sleep, .submit 7, .push 0,
          .worker 1 .lock, .worker 1 .test, .worker 1 .check, .worker 1 .take,
          .notifyOne 0 (some 0), .storeStopping, .notifyAll] = some s ∧
      s.workers = [.asleep true, .running 7] ∧ ¬ s.Stranded := by
  obtain ⟨s, hrun, hworkers⟩ := exists_run_of_check step (init Nat 2)
    [.worker 0 .lock, .worker 0 .test, .worker 0 .sleep, .submit 7, .push 0,
      .worker 1 .lock, .worker 1 .test, .worker 1 .check, .worker 1 .take,
      .notifyOne 0 (some 0), .storeStopping, .notifyAll]
    (fun s => s.workers = [.asleep true, .running 7]) (by decide)
  exact ⟨s, hrun, hworkers, shutdown_strands_nobody 2 _ s (by decide) hrun⟩

/-- The only worker tests the predicate; the destructor stores the flag and notifies; the
worker goes to sleep. -/
theorem worker_stranded :
    ∃ s, run step (init Nat 1)
        [.worker 0 .lock, .worker 0 .test, .storeStopping, .notifyAll, .worker 0 .sleep] = some s ∧
      s.Stranded :=
  exists_run_of_check step (init Nat 1)
    [.worker 0 .lock, .worker 0 .test, .storeStopping, .notifyAll, .worker 0 .sleep]
    Stranded (by decide)

/-! ## The condition cannot be relaxed -/

/-- If a worker is falling asleep when the destructor is about to call `notify_all`, it may
be stranded. -/
theorem strands_of_waiting (hstop : s.stopping = true) (honce : s.notifiedAll = false)
    {i : Nat} (hw : s.workers[i]? = some .waiting) :
    ∃ t, run step s [.notifyAll, .worker i .sleep] = some t ∧ t.Stranded := by
  obtain ⟨hi, -⟩ := List.getElem?_eq_some_iff.mp hw
  refine ⟨{ s with
    workers := (s.workers.map Worker.notify).set i (.asleep false), notifiedAll := true }, ?_, ?_⟩
  · simp [run, step, hstop, honce, hw, Worker.notify, act]
  · exact ⟨hstop, rfl, List.mem_set (by simpa using hi) _⟩

/-- No worker wakes up without having been notified. -/
def NoSpuriousWake (s : ThreadPool τ) : Event τ → Prop
  | .worker i .wake => s.workers[i]? ≠ some (.asleep false)
  | _ => True

omit [DecidableEq τ] in
theorem stranded_step {e : Event τ} (h : s.Stranded) (hcalls : s.calls = [])
    (hcond : s.NoSpuriousWake e) (hstep : Step s e s') :
    s'.Stranded ∧ s'.calls = [] ∧ s'.joined = s.joined := by
  obtain ⟨hstop, hall, hasleep⟩ := h
  cases hstep with
  | worker i w w' a t hw hact =>
      obtain ⟨hstopping, hnotified, hjoined, hcalls', -⟩ := hact.frame
      refine ⟨⟨hstopping.trans hstop, hnotified.trans hall, ?_⟩, hcalls'.trans hcalls, hjoined⟩
      -- Another worker has moved, or this one was woken up.
      obtain ⟨k, hk⟩ := List.mem_iff_getElem?.mp hasleep
      have hki : i ≠ k := by
        rintro rfl
        rw [hk, Option.some.injEq] at hw
        subst hw
        cases hact
        exact hcond hk
      refine List.mem_of_getElem? (i := k) ?_
      rw [List.getElem?_set_ne hki]
      exact hk
  | submitLate task _ => exact ⟨⟨hstop, hall, hasleep⟩, hcalls, rfl⟩
  | submit task hrun =>
      rw [hstop] at hrun
      cases hrun
  | push j task hcall _ =>
      rw [hcalls] at hcall
      cases hcall
  | notifyOne j i hcall _ =>
      rw [hcalls] at hcall
      cases hcall
  | notifyNone j hcall _ =>
      rw [hcalls] at hcall
      cases hcall
  | storeStopping hrun =>
      rw [hstop] at hrun
      cases hrun
  | notifyAll _ honce =>
      rw [hall] at honce
      cases honce
  | join _ hexited => cases hexited _ hasleep

/-- A stranded worker stays asleep, so that `join` does not return, as long as no call of
`submit` is under way and the worker does not wake up by itself. -/
theorem stranded_forever {es : List (Event τ)} {t : ThreadPool τ} (h : s.Stranded)
    (hcalls : s.calls = []) (hmeets : Meets step NoSpuriousWake s es)
    (hrun : run step s es = some t) : t.Stranded ∧ t.joined = s.joined := by
  have hstep : ∀ (u : ThreadPool τ) (e : Event τ) (u' : ThreadPool τ),
      (u.Stranded ∧ u.calls = [] ∧ u.joined = s.joined) → u.NoSpuriousWake e →
        step u e = some u' → u'.Stranded ∧ u'.calls = [] ∧ u'.joined = s.joined := by
    rintro u e u' ⟨hu, hnone, hjoined⟩ hcond hstep
    obtain ⟨hu', hnone', hjoined'⟩ := stranded_step hu hnone hcond (step_sound hstep)
    exact ⟨hu', hnone', hjoined'.trans hjoined⟩
  obtain ⟨hstranded, -, hjoined⟩ := run_invariant
    (fun u => u.Stranded ∧ u.calls = [] ∧ u.joined = s.joined) hstep ⟨h, hcalls, rfl⟩ hmeets hrun
  exact ⟨hstranded, hjoined⟩

end Runs

end ThreadPool
end YoloServer
