import YoloServer.Common.ThreadPoolShutdown
import YoloServer.Lib.Slots

/-!
# The tasks of the thread pool

What becomes of the tasks whose calls of `submit` return before the destructor begins.

* `Sound` is the invariant: the queue holds what was submitted and not started, what was
  started is finished or running, and a worker with the mutex has found what it acts on.
* `tasks_run_exactly_once`: tasks are started in the order in which they were submitted,
  no worker exits while a task is queued, and when all workers have exited every task has
  been run exactly once.
-/

namespace YoloServer
namespace ThreadPool

open Lib

variable {τ : Type} {s s' : ThreadPool τ}

/-- The destructor begins when no call of `submit` is under way, and none begins after
that. -/
def SubmitsFirst (s : ThreadPool τ) : Event τ → Prop
  | .storeStopping => s.calls = []
  | .submit _ => s.stopping = false
  | _ => True

instance [DecidableEq τ] (s : ThreadPool τ) : ∀ e, Decidable (s.SubmitsFirst e)
  | .storeStopping => inferInstanceAs (Decidable (_ = _))
  | .submit _ => inferInstanceAs (Decidable (_ = _))
  | .worker _ _ => isTrue trivial
  | .push _ => isTrue trivial
  | .notifyOne _ _ => isTrue trivial
  | .notifyAll => isTrue trivial
  | .join => isTrue trivial

/-- A call of `submit` begins when the one before it has returned. -/
def OneCallAtATime (s : ThreadPool τ) : Event τ → Prop
  | .submit _ => s.calls = []
  | _ => True

/-- The tasks that the workers are running. -/
def running (s : ThreadPool τ) : List τ :=
  s.workers.filterMap Worker.task?

/-- The tasks that calls of `submit` have not pushed yet. -/
def pending (s : ThreadPool τ) : List τ :=
  s.calls.filterMap SubmitCall.task?

/-! ## The invariant -/

/-- What a worker at this point of the loop has found. -/
def Finds (s : ThreadPool τ) : Worker τ → Prop
  | .ready => s.stopping = true ∨ s.tasks ≠ []
  | .taking => s.tasks ≠ []
  | .exited => s.stopping = true ∧ s.tasks = []
  | _ => True

structure Sound (s : ThreadPool τ) : Prop where
  nonempty : s.workers ≠ []
  queue : s.submitted = s.started ++ s.tasks
  runs : s.started.Perm (s.finished ++ s.running)
  calls : s.asked.Perm (s.submitted ++ s.pending)
  mutex : s.workers.countP Worker.holdsMutex ≤ 1
  found : ∀ w ∈ s.workers, s.Finds w
  closed : s.stopping = true → s.calls = []

theorem sound_init (threadCount : Nat) : (init τ threadCount).Sound where
  nonempty := by
    simp only [init, ne_eq, List.replicate_eq_nil_iff]
    split_ifs
    · simp
    · assumption
  queue := rfl
  runs := by simp [init, running, List.filterMap_replicate, Worker.task?]
  calls := .refl _
  mutex := by simp [init, List.countP_replicate, Worker.holdsMutex]
  found := by
    intro w hw
    rw [List.eq_of_mem_replicate hw]
    trivial
  closed := by simp [init]

/-! ## Steps of a worker -/

section Acts

variable {i : Nat} {w w' : Worker τ} {a : Act}

theorem Acts.queue (h : Acts s w a s' w') (hqueue : s.submitted = s.started ++ s.tasks) :
    s'.submitted = s'.started ++ s'.tasks := by
  cases h with
  | take task rest htasks =>
      show s.submitted = s.started ++ [task] ++ rest
      rw [hqueue, htasks, List.append_assoc, List.singleton_append]
  | _ => exact hqueue

/-- A worker takes up a task when it starts it and drops it when it finishes it. -/
theorem Acts.runs (h : Acts s w a s' w') (hw : s.workers[i]? = some w)
    (hruns : s.started.Perm (s.finished ++ s.running)) :
    s'.started.Perm (s'.finished ++ (s.workers.set i w').filterMap Worker.task?) := by
  have hmove := filterMap_set_perm Worker.task? w' hw
  cases h with
  | take task rest htasks =>
      have hrunning : ((s.workers.set i (.running task)).filterMap Worker.task?).Perm
          (task :: s.running) := hmove
      calc s.started ++ [task]
        List.Perm _ (task :: s.started) := List.perm_append_singleton _ _
        List.Perm _ (task :: (s.finished ++ s.running)) := hruns.cons _
        List.Perm _ (s.finished ++ task :: s.running) := List.perm_middle.symm
        List.Perm _ _ := hrunning.symm.append_left _
  | finish task threw =>
      have hrunning : (task :: (s.workers.set i .locking).filterMap Worker.task?).Perm
          s.running := hmove
      calc s.started
        List.Perm _ (s.finished ++ s.running) := hruns
        List.Perm _ (s.finished ++ task :: (s.workers.set i .locking).filterMap Worker.task?) :=
          hrunning.symm.append_left _
        List.Perm _ (s.finished ++ [task] ++ (s.workers.set i .locking).filterMap Worker.task?) :=
          by rw [List.append_assoc, List.singleton_append]
  | _ => exact hruns.trans (hmove.symm.append_left _)

/-- Nobody else holds the mutex while a worker does. -/
theorem Acts.mutex (h : Acts s w a s' w') (hw : s.workers[i]? = some w)
    (hone : s.workers.countP Worker.holdsMutex ≤ 1) :
    (s.workers.set i w').countP Worker.holdsMutex ≤ 1 := by
  have hcount := countP_set_add (y := w') Worker.holdsMutex hw
  cases h with
  | lock hfree =>
      have hzero : s.workers.countP Worker.holdsMutex = 0 := by
        rw [List.countP_eq_zero]
        intro v hv
        simpa using List.any_eq_false.mp hfree v hv
      simp [Worker.holdsMutex] at hcount
      omega
  | _ =>
      simp [Worker.holdsMutex] at hcount
      omega

/-- What the others have found stays, because they have to wait for the mutex. -/
theorem Acts.found (h : Acts s w a s' w') (hw : s.workers[i]? = some w)
    (hone : s.workers.countP Worker.holdsMutex ≤ 1) (hfound : ∀ v ∈ s.workers, s.Finds v) :
    ∀ v ∈ s.workers.set i w', s'.Finds v := by
  have hself : s.Finds w := hfound w (List.mem_of_getElem? hw)
  cases h with
  | take task rest htasks =>
      -- The queue gets shorter, so nobody else may rely on it.
      have hnone := none_of_countP_le_one hone hw (y := .running task) rfl rfl
      intro v hv
      cases v with
      | ready => cases hnone _ hv
      | taking => cases hnone _ hv
      | exited =>
          have hold : .exited ∈ s.workers := by
            rcases List.mem_or_eq_of_mem_set hv with hv | heq
            · exact hv
            · cases heq
          have hempty := (hfound _ hold).2
          rw [htasks] at hempty
          cases hempty
      | _ => trivial
  | testTrue hwork => exact forall_mem_set hfound hwork
  | exit hstop hempty => exact forall_mem_set hfound ⟨hstop, hempty⟩
  | goOn hwork =>
      refine forall_mem_set hfound ?_
      -- The predicate was true, and the queue is as it was.
      rcases hself with hstop | hne
      · rcases hwork with hrun | hne
        · rw [hstop] at hrun
          cases hrun
        · exact hne
      · exact hne
  | finish task threw => exact forall_mem_set hfound trivial
  | _ => exact forall_mem_set hfound trivial

end Acts

/-! ## Steps of `submit` -/

theorem sound_submit (h : s.Sound) (hrun : s.stopping = false) (task : τ) :
    Sound { s with asked := s.asked ++ [task], calls := s.calls ++ [.loaded task] } where
  nonempty := h.nonempty
  queue := h.queue
  runs := h.runs
  calls := by
    have hpending : (s.calls ++ [SubmitCall.loaded task]).filterMap SubmitCall.task? =
        s.pending ++ [task] := List.filterMap_append
    rw [pending, hpending, ← List.append_assoc]
    exact h.calls.append_right _
  mutex := h.mutex
  found := h.found
  closed := by simp [hrun]

/-- What a worker has found is still there when there are more tasks. -/
theorem finds_of_more {w : Worker τ} (h : s.Finds w) (hrun : s.stopping = false)
    (hne : s'.tasks ≠ []) : s'.Finds w := by
  cases w with
  | ready => exact .inr hne
  | taking => exact hne
  | exited =>
      rw [Finds, hrun] at h
      cases h.1
  | _ => trivial

/-- A task gets from its call to the end of the queue. -/
theorem sound_push (h : s.Sound) {j : Nat} {task : τ}
    (hcall : s.calls[j]? = some (.loaded task)) :
    Sound { s with
      tasks := s.tasks ++ [task]
      calls := s.calls.set j .pushed
      submitted := s.submitted ++ [task] } := by
  have hrun : s.stopping = false := by
    by_contra hstop
    rw [h.closed (by simpa using hstop)] at hcall
    cases hcall
  have hmove : (task :: (s.calls.set j .pushed).filterMap SubmitCall.task?).Perm s.pending :=
    filterMap_set_perm SubmitCall.task? .pushed hcall
  refine
    { h with
      queue := ?_
      calls := ?_
      found := fun w hw => finds_of_more (h.found w hw) hrun (by simp)
      closed := by simp [hrun] }
  · show s.submitted ++ [task] = s.started ++ (s.tasks ++ [task])
    rw [h.queue, List.append_assoc]
  · calc s.asked
      List.Perm _ (s.submitted ++ s.pending) := h.calls
      List.Perm _ (s.submitted ++ task :: (s.calls.set j .pushed).filterMap SubmitCall.task?) :=
        hmove.symm.append_left _
      List.Perm _ (s.submitted ++ [task] ++
          (s.calls.set j .pushed).filterMap SubmitCall.task?) := by
        rw [List.append_assoc, List.singleton_append]

/-- A call of `submit` returns. -/
theorem sound_return (h : s.Sound) {j : Nat} (hcall : s.calls[j]? = some .pushed) :
    Sound { s with calls := s.calls.eraseIdx j } := by
  refine
    { h with
      calls := ?_
      closed := fun hstop => ?_ }
  · rw [pending, filterMap_eraseIdx hcall rfl]
    exact h.calls
  · rw [h.closed hstop] at hcall
    cases hcall

/-! ## Notifications and the destructor -/

/-- A worker that is asleep is notified. -/
theorem sound_rouse (h : s.Sound) {i : Nat} {notified : Bool}
    (hw : s.workers[i]? = some (.asleep notified)) :
    Sound { s with workers := s.workers.set i (.asleep true) } := by
  have hcount := countP_set_add (y := .asleep true) Worker.holdsMutex hw
  have hmove := filterMap_set_perm Worker.task? (.asleep true) hw
  exact
    { h with
      nonempty := by simpa using h.nonempty
      runs := h.runs.trans (hmove.symm.append_left _)
      mutex := hcount.le.trans h.mutex
      found := forall_mem_set h.found trivial }

theorem sound_storeStopping (h : s.Sound) (hrun : s.stopping = false) (hcalls : s.calls = []) :
    Sound { s with stopping := true } := by
  refine
    { h with
      found := fun w hw => ?_
      closed := fun _ => hcalls }
  have hfound := h.found w hw
  cases w with
  | ready => exact .inl rfl
  | taking => exact hfound
  | exited =>
      rw [Finds, hrun] at hfound
      cases hfound.1
  | _ => trivial

/-- A notification takes nothing from a worker. -/
theorem notify_keeps (w : Worker τ) :
    w.notify.task? = w.task? ∧ w.notify.holdsMutex = w.holdsMutex ∧
      (s.Finds w → s.Finds w.notify) := by
  cases w with
  | asleep notified => exact ⟨rfl, rfl, fun _ => trivial⟩
  | _ => exact ⟨rfl, rfl, id⟩

theorem sound_notifyAll (h : s.Sound) :
    Sound { s with workers := s.workers.map Worker.notify, notifiedAll := true } := by
  refine
    { h with
      nonempty := by simpa using h.nonempty
      runs := ?_
      mutex := ?_
      found := ?_ }
  · have hsame : Worker.task? ∘ Worker.notify = (Worker.task? : Worker τ → Option τ) :=
      funext fun w => (notify_keeps (s := s) w).1
    rw [running, List.filterMap_map, hsame]
    exact h.runs
  · have hsame : Worker.holdsMutex ∘ Worker.notify = (Worker.holdsMutex : Worker τ → Bool) :=
      funext fun w => (notify_keeps (s := s) w).2.1
    rw [List.countP_map, hsame]
    exact h.mutex
  · intro v hv
    obtain ⟨w, hw, rfl⟩ := List.mem_map.mp hv
    exact (notify_keeps w).2.2 (h.found w hw)

/-! ## Whole runs -/

theorem sound_worker (h : s.Sound) {i : Nat} {w w' : Worker τ} {a : Act} {t : ThreadPool τ}
    (hw : s.workers[i]? = some w) (hact : Acts s w a t w') :
    Sound { t with workers := s.workers.set i w' } := by
  obtain ⟨hstop, -, -, hcalls, hasked, hsubmitted⟩ := hact.frame
  refine
    { nonempty := by simpa using h.nonempty
      queue := hact.queue h.queue
      runs := hact.runs hw h.runs
      calls := ?_
      mutex := hact.mutex hw h.mutex
      found := hact.found hw h.mutex h.found
      closed := ?_ }
  · show t.asked.Perm (t.submitted ++ t.calls.filterMap SubmitCall.task?)
    rw [hasked, hsubmitted, hcalls]
    exact h.calls
  · show t.stopping = true → t.calls = []
    rw [hstop, hcalls]
    exact h.closed

theorem sound_step {e : Event τ} (h : s.Sound) (hcond : s.SubmitsFirst e) (hstep : Step s e s') :
    s'.Sound := by
  cases hstep with
  | worker i w w' a t hw hact => exact sound_worker h hw hact
  | submitLate task hstop =>
      rw [SubmitsFirst, hstop] at hcond
      cases hcond
  | submit task hrun => exact sound_submit h hrun task
  | push j task hcall hfree => exact sound_push h hcall
  | notifyOne j i hcall hw => exact sound_return (sound_rouse h hw) hcall
  | notifyNone j hcall hnone => exact sound_return h hcall
  | storeStopping hrun => exact sound_storeStopping h hrun hcond
  | notifyAll hstop honce => exact sound_notifyAll h
  | join hnotified hexited => exact { h with }

/-- The order of the calls is that of the queue if no two calls overlap. -/
def InCallOrder (s : ThreadPool τ) : Prop :=
  s.asked = s.submitted ++ s.pending ∧ s.calls.length ≤ 1

theorem inCallOrder_step {e : Event τ} (h : s.InCallOrder)
    (hcond : s.SubmitsFirst e ∧ s.OneCallAtATime e) (hstep : Step s e s') : s'.InCallOrder := by
  obtain ⟨horder, hone⟩ := h
  -- The only call under way is the one that moves.
  have honly : ∀ {j : Nat} {c : SubmitCall τ}, s.calls[j]? = some c → j = 0 ∧ s.calls = [c] := by
    intro j c hcall
    obtain ⟨hj, hget⟩ := List.getElem?_eq_some_iff.mp hcall
    obtain ⟨d, hd⟩ := List.length_eq_one_iff.mp (show s.calls.length = 1 by omega)
    have hzero : j = 0 := by omega
    subst hzero
    rw [hd] at hcall
    cases hcall
    exact ⟨rfl, hd⟩
  have hreturn : ∀ {j : Nat}, s.calls[j]? = some .pushed →
      s.asked = s.submitted ++ (s.calls.eraseIdx j).filterMap SubmitCall.task? ∧
        (s.calls.eraseIdx j).length ≤ 1 := by
    intro j hcall
    obtain ⟨rfl, hcalls⟩ := honly hcall
    rw [horder, pending, hcalls]
    simp [SubmitCall.task?]
  cases hstep with
  | worker i w w' a t hw hact =>
      obtain ⟨-, -, -, hcalls, hasked, hsubmitted⟩ := hact.frame
      show t.asked = t.submitted ++ t.calls.filterMap SubmitCall.task? ∧ t.calls.length ≤ 1
      rw [hasked, hsubmitted, hcalls]
      exact ⟨horder, hone⟩
  | submitLate task hstop =>
      have hrun := hcond.1
      rw [SubmitsFirst, hstop] at hrun
      cases hrun
  | submit task hrun =>
      have hnone : s.calls = [] := hcond.2
      rw [pending, hnone] at horder
      refine ⟨?_, by simp [hnone]⟩
      show s.asked ++ [task] =
        s.submitted ++ (s.calls ++ [SubmitCall.loaded task]).filterMap SubmitCall.task?
      rw [horder, hnone]
      simp [SubmitCall.task?]
  | push j task hcall hfree =>
      obtain ⟨rfl, hcalls⟩ := honly hcall
      refine ⟨?_, by simpa using hone⟩
      show s.asked = s.submitted ++ [task] ++ (s.calls.set 0 .pushed).filterMap SubmitCall.task?
      rw [horder, pending, hcalls]
      simp [SubmitCall.task?]
  | notifyOne j i hcall hw => exact hreturn hcall
  | notifyNone j hcall hnone => exact hreturn hcall
  | storeStopping hrun => exact ⟨horder, hone⟩
  | notifyAll hstop honce => exact ⟨horder, hone⟩
  | join hnotified hexited => exact ⟨horder, hone⟩

/-- The tasks are in order: they are started as they were submitted, and each of them is
finished or running; a worker that is about to take a task finds one; no worker exits
while a task is queued; and if all have exited, every task has been run once. -/
structure Orderly (s : ThreadPool τ) : Prop where
  in_order : s.started <+: s.submitted
  once : s.started.Perm (s.finished ++ s.running)
  finds_task : .taking ∈ s.workers → s.tasks ≠ []
  no_early_exit : .exited ∈ s.workers → s.tasks = []
  all_run : (∀ w ∈ s.workers, w = .exited) → s.finished.Perm s.asked

theorem Sound.orderly (h : s.Sound) : s.Orderly where
  in_order := ⟨s.tasks, h.queue.symm⟩
  once := h.runs
  finds_task htaking := h.found _ htaking
  no_early_exit hexited := (h.found _ hexited).2
  all_run hall := by
    obtain ⟨w, hw⟩ := List.exists_mem_of_ne_nil s.workers h.nonempty
    obtain ⟨hstop, hempty⟩ : s.Finds .exited := hall w hw ▸ h.found w hw
    have hrunning : s.running = [] := by
      rw [running, List.filterMap_eq_nil_iff]
      intro v hv
      rw [hall v hv]
      rfl
    have hpending : s.pending = [] := by
      rw [pending, h.closed hstop]
      rfl
    have hruns := h.runs
    have hcalls := h.calls
    rw [hrunning, List.append_nil] at hruns
    rw [hpending, List.append_nil, h.queue, hempty, List.append_nil] at hcalls
    exact hruns.symm.trans hcalls.symm

section Runs

variable [DecidableEq τ]

/-- **Every task is run exactly once**, for any number of threads and in every run in which
the calls of `submit` return before the destructor begins.  If these calls do not overlap,
the tasks are started in the order of the calls. -/
theorem tasks_run_exactly_once (threadCount : Nat) (es : List (Event τ)) (s : ThreadPool τ)
    (hmeets : Meets step SubmitsFirst (init τ threadCount) es)
    (hrun : run step (init τ threadCount) es = some s) :
    s.Orderly ∧ (Meets step OneCallAtATime (init τ threadCount) es → s.started <+: s.asked) := by
  have hsound : s.Sound :=
    run_invariant Sound (fun _ _ _ h hcond hstep => sound_step h hcond (step_sound hstep))
      (sound_init threadCount) hmeets hrun
  refine ⟨hsound.orderly, fun hone => ?_⟩
  have hinit : (init τ threadCount).InCallOrder := ⟨rfl, by simp [init]⟩
  have hcalls : s.InCallOrder :=
    run_invariant InCallOrder
      (fun _ _ _ h hcond hstep => inCallOrder_step h hcond (step_sound hstep)) hinit
      (hmeets.and hone) hrun
  rw [hcalls.1, hsound.queue, List.append_assoc]
  exact List.prefix_append _ _

/-- A pool of no threads gets one.  It runs two tasks, one of which throws, and exits. -/
def sampleRun : List (Event Nat) :=
  [.submit 7, .push 0, .notifyOne 0 none, .worker 0 .lock, .worker 0 .test, .worker 0 .check,
    .worker 0 .take, .submit 8, .push 0, .notifyOne 0 none, .storeStopping, .notifyAll,
    .worker 0 (.finish true), .worker 0 .lock, .worker 0 .test, .worker 0 .check, .worker 0 .take,
    .worker 0 (.finish false), .worker 0 .lock, .worker 0 .test, .worker 0 .check, .join]

theorem two_tasks_run_once :
    ∃ s, run step (init Nat 0) sampleRun = some s ∧ s.workers = [.exited] ∧
      s.finished.Perm [7, 8] := by
  obtain ⟨s, hrun, hworkers, hasked⟩ := exists_run_of_check step (init Nat 0) sampleRun
    (fun s => s.workers = [.exited] ∧ s.asked = [7, 8]) (by decide)
  obtain ⟨horderly, -⟩ := tasks_run_exactly_once 0 sampleRun s (by decide) hrun
  refine ⟨s, hrun, hworkers, ?_⟩
  rw [← hasked]
  refine horderly.all_run fun w hw => ?_
  rw [hworkers] at hw
  exact List.mem_singleton.mp hw

end Runs

end ThreadPool
end YoloServer
