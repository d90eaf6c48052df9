import Mathlib.Algebra.Order.BigOperators.Group.List
import YoloServer.Common.ThreadPoolTasks

/-!
# Waking the workers up

`submit` calls `notify_one` after it has released the mutex, and wakes one worker up for each task.
Between the push and the notification other workers may take the task, go to sleep or wake up,
and a notification that finds nobody asleep has no effect.

* `Attended` is the invariant that no wake-up is lost: while a worker sleeps, there are at least
  as many workers and notifications on their way to the queue as there are tasks in it.
* `stepsLeft` bounds what the workers and the calls of `submit` can do without a new task, the end
  of a task or a spurious wake-up.
* `work_conserving` puts both together: left to itself the pool comes to rest, and at rest there is
  no task in the queue or every worker is running one.
-/

namespace YoloServer

namespace Worker

variable {τ : Type}

/-- The worker will look at the queue before it sleeps again. -/
def approaching : Worker τ → Nat
  | .locking | .testing | .ready | .taking | .asleep true => 1
  | _ => 0

/-- The steps that the worker can make until it sleeps or runs a task. -/
def stepsLeft : Worker τ → Nat
  | .asleep true => 5
  | .locking => 4
  | .testing => 3
  | .ready => 2
  | .taking => 1
  | .waiting => 1
  | _ => 0

theorem stepsLeft_le (w : Worker τ) : w.stepsLeft ≤ 5 := by
  cases w with
  | asleep notified => cases notified <;> simp [stepsLeft]
  | _ => simp [stepsLeft]

end Worker

namespace SubmitCall

variable {τ : Type}

/-- The call is about to notify a worker. -/
def notifying : SubmitCall τ → Nat
  | .pushed => 1
  | .loaded _ => 0

/-- A notification, and the steps of the worker that it wakes up. -/
def stepsLeft : SubmitCall τ → Nat
  | .pushed => 6
  | .loaded _ => 0

theorem stepsLeft_le (c : SubmitCall τ) : c.stepsLeft ≤ 6 := by
  cases c with
  | _ => simp [stepsLeft]

end SubmitCall

namespace ThreadPool

open Lib

variable {τ : Type} {s s' : ThreadPool τ}

/-! ## No lost wake-up -/

/-- The workers and the notifications on their way to the queue. -/
def coming (s : ThreadPool τ) : Nat :=
  (s.workers.map Worker.approaching).sum + (s.calls.map SubmitCall.notifying).sum

structure Attended (s : ThreadPool τ) : Prop where
  waiting : .waiting ∈ s.workers → s.tasks = []
  asleep : .asleep false ∈ s.workers → s.tasks.length ≤ s.coming

theorem attended_init (threadCount : Nat) : (init τ threadCount).Attended where
  waiting _ := rfl
  asleep _ := Nat.zero_le _

/-- A worker that holds the mutex keeps everybody else from the queue. -/
theorem not_mem_of_free {w : Worker τ} (hfree : s.locked = false) (hw : w.holdsMutex = true) :
    w ∉ s.workers := by
  intro hmem
  have hnot := List.any_eq_false.mp hfree w hmem
  exact hnot hw

/-- A worker gives up its way to the queue only with a task, or when there is none. -/
theorem Acts.coming_le {w w' : Worker τ} {a : Act} {i : Nat} (h : Acts s w a s' w')
    (hw : s.workers[i]? = some w) (hattended : s.Attended)
    (hasleep : .asleep false ∈ s.workers.set i w') :
    s'.tasks.length ≤ ((s.workers.set i w').map Worker.approaching).sum +
      (s.calls.map SubmitCall.notifying).sum := by
  have hsum := sum_map_set_add (y := w') Worker.approaching hw
  have hold : w' ≠ .asleep false → s.tasks.length ≤ s.coming := by
    intro hne
    apply hattended.asleep
    rcases List.mem_or_eq_of_mem_set hasleep with hmem | heq
    · exact hmem
    · exact absurd heq.symm hne
  unfold coming at hold
  cases h with
  | lock hfree =>
      have hle := hold (by simp)
      simp only [Worker.approaching] at hsum
      omega
  | testTrue hwork =>
      have hle := hold (by simp)
      simp only [Worker.approaching] at hsum
      omega
  | testFalse hrun hempty =>
      rw [hempty]
      exact Nat.zero_le _
  | sleep =>
      rw [hattended.waiting (List.mem_of_getElem? hw)]
      exact Nat.zero_le _
  | wake notified =>
      have hle := hold (by simp)
      cases notified with
      | false =>
          simp only [Worker.approaching] at hsum
          omega
      | true =>
          simp only [Worker.approaching] at hsum
          omega
  | exit hstop hempty =>
      rw [hempty]
      exact Nat.zero_le _
  | goOn hwork =>
      have hle := hold (by simp)
      simp only [Worker.approaching] at hsum
      omega
  | take task rest htasks =>
      have hle := hold (by simp)
      rw [htasks, List.length_cons] at hle
      simp only [Worker.approaching] at hsum
      show rest.length ≤ _
      omega
  | finish task threw =>
      have hle := hold (by simp)
      simp only [Worker.approaching] at hsum
      show s.tasks.length ≤ _
      omega

/-- A worker that is falling asleep has found the queue empty. -/
theorem Acts.waiting_empty {w w' : Worker τ} {a : Act} {i : Nat} (h : Acts s w a s' w')
    (hattended : s.Attended) (hwaiting : .waiting ∈ s.workers.set i w') : s'.tasks = [] := by
  rcases List.mem_or_eq_of_mem_set hwaiting with hmem | heq
  · have hempty := hattended.waiting hmem
    cases h with
    | take task rest htasks =>
        rw [hempty] at htasks
        cases htasks
    | _ => exact hempty
  · subst heq
    cases h with
    | testFalse hrun hempty => exact hempty

theorem attended_step {e : Event τ} (h : s.Attended) (hstep : Step s e s') : s'.Attended := by
  cases hstep with
  | worker i w w' a t hw hact =>
      obtain ⟨-, -, -, hcalls, -⟩ := hact.frame
      refine ⟨hact.waiting_empty h, fun hasleep => ?_⟩
      have hle := hact.coming_le hw h hasleep
      unfold coming
      dsimp only
      rwa [hcalls]
  | submitLate task hstop => exact ⟨h.waiting, h.asleep⟩
  | submit task hrun =>
      refine ⟨h.waiting, fun hasleep => ?_⟩
      have hle := h.asleep hasleep
      unfold coming at hle ⊢
      simp only [List.map_append, List.map_cons, List.map_nil, List.sum_append, List.sum_cons,
        List.sum_nil, SubmitCall.notifying]
      omega
  | push j task hcall hfree =>
      refine ⟨fun hwaiting => absurd hwaiting (not_mem_of_free hfree rfl), fun hasleep => ?_⟩
      have hle := h.asleep hasleep
      have hsum := sum_map_set_add (y := .pushed) SubmitCall.notifying hcall
      unfold coming at hle ⊢
      simp only [SubmitCall.notifying] at hsum
      simp only [List.length_append, List.length_singleton]
      omega
  | notifyOne j i hcall hw =>
      have hworkers := sum_map_set_add (y := .asleep true) Worker.approaching hw
      have hcalls := sum_map_eraseIdx_add SubmitCall.notifying hcall
      have hle := h.asleep (List.mem_of_getElem? hw)
      refine ⟨fun hwaiting => ?_, fun _ => ?_⟩
      · rcases List.mem_or_eq_of_mem_set hwaiting with hmem | heq
        · exact h.waiting hmem
        · cases heq
      · unfold coming at hle ⊢
        simp only [Worker.approaching] at hworkers
        simp only [SubmitCall.notifying] at hcalls
        dsimp only
        omega
  | notifyNone j hcall hnone => exact ⟨h.waiting, fun hasleep => absurd hasleep hnone⟩
  | storeStopping hrun => exact ⟨h.waiting, h.asleep⟩
  | notifyAll hstop honce =>
      refine ⟨fun hwaiting => ?_, fun hasleep => ?_⟩
      · obtain ⟨w, hw, heq⟩ := List.mem_map.mp hwaiting
        cases w with
        | waiting => exact h.waiting hw
        | _ => cases heq
      · obtain ⟨w, -, heq⟩ := List.mem_map.mp hasleep
        cases w with
        | _ => cases heq
  | join hnotified hexited => exact ⟨h.waiting, h.asleep⟩

/-! ## The pool left to itself -/

/-- A step of a worker or of `submit` that needs no new task, no end of a task and no spurious
wake-up. -/
def Internal (s : ThreadPool τ) : Event τ → Prop
  | .worker i .wake => s.workers[i]? = some (.asleep true)
  | .worker _ (.finish _) => False
  | .worker _ _ => True
  | .notifyOne _ _ => True
  | _ => False

/-- What the workers and the calls can still do. -/
def stepsLeft (s : ThreadPool τ) : Nat :=
  (s.workers.map Worker.stepsLeft).sum + (s.calls.map SubmitCall.stepsLeft).sum

theorem stepsLeft_le (s : ThreadPool τ) :
    s.stepsLeft ≤ 5 * s.workers.length + 6 * s.calls.length := by
  have hworkers := List.sum_le_card_nsmul (s.workers.map Worker.stepsLeft) 5 (by
    intro n hn
    obtain ⟨w, -, rfl⟩ := List.mem_map.mp hn
    exact w.stepsLeft_le)
  have hcalls := List.sum_le_card_nsmul (s.calls.map SubmitCall.stepsLeft) 6 (by
    intro n hn
    obtain ⟨c, -, rfl⟩ := List.mem_map.mp hn
    exact c.stepsLeft_le)
  rw [List.length_map, nsmul_eq_mul, Nat.cast_id] at hworkers hcalls
  unfold stepsLeft
  omega

theorem stepsLeft_step {e : Event τ} (hinternal : s.Internal e) (hstep : Step s e s') :
    s'.stepsLeft + 1 ≤ s.stepsLeft := by
  cases hstep with
  | worker i w w' a t hw hact =>
      obtain ⟨-, -, -, hcalls, -⟩ := hact.frame
      have hsum := sum_map_set_add (y := w') Worker.stepsLeft hw
      unfold stepsLeft
      dsimp only
      rw [hcalls]
      cases hact with
      | wake notified =>
          have hnotified : s.workers[i]? = some (.asleep true) := hinternal
          rw [hw] at hnotified
          cases hnotified
          simp only [Worker.stepsLeft] at hsum
          omega
      | finish task threw => exact hinternal.elim
      | _ =>
          simp only [Worker.stepsLeft] at hsum
          omega
  | notifyOne j i hcall hw =>
      have hworkers := sum_map_set_add (y := .asleep true) Worker.stepsLeft hw
      have hcalls := sum_map_eraseIdx_add SubmitCall.stepsLeft hcall
      simp only [Worker.stepsLeft] at hworkers
      simp only [SubmitCall.stepsLeft] at hcalls
      unfold stepsLeft
      dsimp only
      omega
  | notifyNone j hcall hnone =>
      have hcalls := sum_map_eraseIdx_add SubmitCall.stepsLeft hcall
      simp only [SubmitCall.stepsLeft] at hcalls
      unfold stepsLeft
      dsimp only
      omega
  | submitLate task hstop => exact hinternal.elim
  | submit task hrun => exact hinternal.elim
  | push j task hcall hfree => exact hinternal.elim
  | storeStopping hrun => exact hinternal.elim
  | notifyAll hstop honce => exact hinternal.elim
  | join hnotified hexited => exact hinternal.elim

theorem stopping_of_internal {e : Event τ} (hinternal : s.Internal e) (hstep : Step s e s') :
    s'.stopping = s.stopping := by
  cases hstep with
  | worker i w w' a t hw hact => exact hact.frame.1
  | storeStopping hrun => exact hinternal.elim
  | _ => rfl

section Runs

variable [DecidableEq τ]

/-- No internal step is possible. -/
def AtRest (s : ThreadPool τ) : Prop :=
  ∀ e, s.Internal e → s.step e = none

/-- At rest nobody holds the mutex. -/
theorem locked_of_atRest (hsound : s.Sound) (hrest : s.AtRest) : s.locked = false := by
  rw [locked, List.any_eq_false]
  intro w hw hholds
  obtain ⟨i, hi⟩ := List.mem_iff_getElem?.mp hw
  cases w with
  | testing =>
      have hnone := hrest (.worker i .test) trivial
      simp [step, hi, act] at hnone
  | waiting =>
      have hnone := hrest (.worker i .sleep) trivial
      simp [step, hi, act] at hnone
  | ready =>
      have hnone := hrest (.worker i .check) trivial
      simp [step, hi, act] at hnone
  | taking =>
      -- The worker has found a task, which nobody can have taken.
      obtain ⟨task, rest, htasks⟩ := List.exists_cons_of_ne_nil (hsound.found _ hw)
      have hnone := hrest (.worker i .take) trivial
      simp [step, hi, act, htasks] at hnone
  | _ => cases hholds

/-- A worker at rest is asleep, running a task, or gone. -/
theorem resting_worker (hsound : s.Sound) (hrest : s.AtRest) {w : Worker τ} (hw : w ∈ s.workers) :
    w = .asleep false ∨ (∃ task, w = .running task) ∨ w = .exited := by
  have hfree := locked_of_atRest hsound hrest
  obtain ⟨i, hi⟩ := List.mem_iff_getElem?.mp hw
  cases w with
  | locking =>
      have hnone := hrest (.worker i .lock) trivial
      simp [step, hi, act, hfree] at hnone
  | asleep notified =>
      cases notified with
      | false => exact .inl rfl
      | true =>
          have hnone := hrest (.worker i .wake) hi
          simp [step, hi, act] at hnone
  | running task => exact .inr (.inl ⟨task, rfl⟩)
  | exited => exact .inr (.inr rfl)
  | _ => exact absurd hw (not_mem_of_free hfree rfl)

/-- At rest every notification has been made. -/
theorem resting_call (hrest : s.AtRest) {c : SubmitCall τ} (hc : c ∈ s.calls) : c ≠ .pushed := by
  rintro rfl
  obtain ⟨j, hj⟩ := List.mem_iff_getElem?.mp hc
  by_cases hasleep : .asleep false ∈ s.workers
  · obtain ⟨i, hi⟩ := List.mem_iff_getElem?.mp hasleep
    have hnone := hrest (.notifyOne j (some i)) trivial
    simp [step, hj, ThreadPool.notifyOne, hi] at hnone
  · have hnone := hrest (.notifyOne j none) trivial
    simp [step, hj, ThreadPool.notifyOne, hasleep] at hnone

theorem coming_of_atRest (hsound : s.Sound) (hrest : s.AtRest) : s.coming = 0 := by
  rw [coming, Nat.add_eq_zero_iff, List.sum_eq_zero_iff, List.sum_eq_zero_iff]
  constructor
  · intro n hn
    obtain ⟨w, hw, rfl⟩ := List.mem_map.mp hn
    obtain rfl | ⟨task, rfl⟩ | rfl := resting_worker hsound hrest hw
    · rfl
    · rfl
    · rfl
  · intro n hn
    obtain ⟨c, hc, rfl⟩ := List.mem_map.mp hn
    cases c with
    | pushed => exact absurd rfl (resting_call hrest hc)
    | loaded task => rfl

theorem idle_or_busy_of_atRest (hsound : s.Sound) (hattended : s.Attended)
    (halive : s.stopping = false) (hrest : s.AtRest) :
    s.tasks = [] ∨ ∀ w ∈ s.workers, ∃ task, w = .running task := by
  by_cases hasleep : .asleep false ∈ s.workers
  · have hle := hattended.asleep hasleep
    rw [coming_of_atRest hsound hrest, Nat.le_zero, List.length_eq_zero_iff] at hle
    exact .inl hle
  · refine .inr fun w hw => ?_
    obtain rfl | hrunning | rfl := resting_worker hsound hrest hw
    · exact absurd hw hasleep
    · exact hrunning
    · have hstop := (hsound.found _ hw).1
      rw [halive] at hstop
      cases hstop

/-- Before the destructor begins, the tasks are in order and no wake-up is lost. -/
theorem sound_and_attended {threadCount : Nat} {es : List (Event τ)}
    (hrun : run step (init τ threadCount) es = some s) (halive : s.stopping = false) :
    s.Sound ∧ s.Attended := by
  have hinv : (s.stopping = false → s.Sound) ∧ s.Attended := by
    refine run_preserves (fun s => (s.stopping = false → s.Sound) ∧ s.Attended) ?_
      ⟨fun _ => sound_init threadCount, attended_init threadCount⟩ hrun
    rintro t e t' ⟨hsound, hattended⟩ hstep
    have hstep := step_sound hstep
    refine ⟨fun halive' => ?_, attended_step hattended hstep⟩
    -- The flag is never reset, so the destructor has not begun before the step either.
    cases hstep with
    | worker i w w' a u hw hact =>
        have halive : t.stopping = false := hact.frame.1.symm.trans halive'
        exact sound_worker (hsound halive) hw hact
    | submitLate task hstop =>
        have halive : t.stopping = false := halive'
        rw [halive] at hstop
        cases hstop
    | submit task hrun => exact sound_submit (hsound hrun) hrun task
    | push j task hcall hfree => exact sound_push (hsound halive') hcall
    | notifyOne j i hcall hw => exact sound_return (sound_rouse (hsound halive') hw) hcall
    | notifyNone j hcall hnone => exact sound_return (hsound halive') hcall
    | storeStopping hrun => cases halive'
    | notifyAll hstop honce => exact sound_notifyAll (hsound halive')
    | join hnotified hexited => exact { hsound halive' with }
  exact ⟨hinv.1 halive, hinv.2⟩

/-- **The pool is work conserving.**  In every state that is reached before the destructor begins,
the workers and the calls under way come to rest after at most five steps a worker and six a
call, unless a task is submitted or ends, or a worker wakes up by itself; and when they are
at rest, no task is queued or all workers are running one. -/
theorem work_conserving (threadCount : Nat) (es : List (Event τ)) (s : ThreadPool τ)
    (hrun : run step (init τ threadCount) es = some s) (halive : s.stopping = false)
    (es' : List (Event τ)) (s' : ThreadPool τ) (hinternal : Meets step Internal s es')
    (hrun' : run step s es' = some s') :
    es'.length ≤ 5 * s.workers.length + 6 * s.calls.length ∧
      (s'.AtRest → s'.tasks = [] ∨ ∀ w ∈ s'.workers, ∃ task, w = .running task) := by
  have hshrinks : ∀ (t : ThreadPool τ) (e : Event τ) (t' : ThreadPool τ), True → t.Internal e →
      t.step e = some t' → True ∧ t'.stepsLeft + 1 ≤ t.stepsLeft :=
    fun t e t' _ hcond hstep => ⟨trivial, stepsLeft_step hcond (step_sound hstep)⟩
  have hlength : hits step (fun _ _ => true) s es' + s'.stepsLeft ≤ s.stepsLeft :=
    run_hits_add_le hshrinks trivial hinternal hrun'
  have halive' : s'.stopping = false := by
    refine run_invariant (fun t => t.stopping = false) ?_ halive hinternal hrun'
    intro t e t' ht hcond hstep
    exact (stopping_of_internal hcond (step_sound hstep)).trans ht
  have hreach : run step (init τ threadCount) (es ++ es') = some s' := by
    rw [run_append hrun, hrun']
  obtain ⟨hsound, hattended⟩ := sound_and_attended hreach halive'
  refine ⟨?_, fun hrest => idle_or_busy_of_atRest hsound hattended halive' hrest⟩
  have hbound := s.stepsLeft_le
  rw [hits_eq_countP hrun', List.countP_true] at hlength
  omega

/-- The only worker runs a task while another one is submitted. -/
def busyRun : List (Event Nat) :=
  [.submit 7, .push 0, .notifyOne 0 none, .worker 0 .lock, .worker 0 .test, .worker 0 .check,
    .worker 0 .take, .submit 8, .push 0]

theorem busy_worker_at_rest :
    ∃ s s', run step (init Nat 1) busyRun = some s ∧ run step s [.notifyOne 0 none] = some s' ∧
      s'.AtRest ∧ s'.tasks = [8] ∧ ∀ w ∈ s'.workers, ∃ task, w = .running task := by
  obtain ⟨s, hrun, halive, hmeets, hrest⟩ := exists_run_of_check step (init Nat 1) busyRun
    (fun s => s.stopping = false ∧ (s.step (.notifyOne 0 none)).isSome ∧
      (run step s [.notifyOne 0 none]).any fun s' =>
        s'.workers = [.running 7] ∧ s'.calls = [] ∧ s'.tasks = [8]) (by decide)
  obtain ⟨s', hrun', hworkers, hcalls, htasks⟩ := exists_run_of_check step s [.notifyOne 0 none]
    (fun s' => s'.workers = [.running 7] ∧ s'.calls = [] ∧ s'.tasks = [8]) hrest
  have hatRest : s'.AtRest := by
    intro e hinternal
    cases e with
    | worker i a =>
        cases i with
        | zero =>
            cases a with
            | finish threw => exact hinternal.elim
            | _ => simp [step, hworkers, act]
        | succ i => simp [step, hworkers]
    | notifyOne j target => simp [step, hcalls]
    | _ => exact hinternal.elim
  have hinternal : Meets step Internal s [.notifyOne 0 none] := by
    obtain ⟨t, ht⟩ := Option.isSome_iff_exists.mp hmeets
    exact (meets_cons ht).mpr ⟨trivial, trivial⟩
  obtain ⟨-, hbusy⟩ := work_conserving 1 busyRun s hrun halive _ s' hinternal hrun'
  refine ⟨s, s', hrun, hrun', hatRest, htasks, ?_⟩
  refine (hbusy hatRest).resolve_left ?_
  simp [htasks]

end Runs

end ThreadPool
end YoloServer
