import YoloServer.Raft.CommitCompleteness
import YoloServer.Raft.IndexInvariant

/-!
# Elections and heartbeat rounds come to an end

A node holds its mutex for a whole election or heartbeat round, and the peers it calls can be
inside such a task themselves.  Nobody waits for ever: an RPC can fail, and a task has a number of
steps that is known from the start (`tasks_end`).

A leader whose heartbeat is refused goes back by one position.  At the first position every log
holds the dummy entry, so a peer that still refuses has a higher term.  Hence the number of
refusals is bounded (`refusals_bounded`).

An RPC that does not fail returns the answer to its own request, as `Cluster` has it.
-/

namespace YoloServer
namespace Raft

open Function Lib

namespace Task

/-- The steps of a task: two for each peer, and the last one. -/
def stepsLeft : Task → Nat
  | .idle => 0
  | .election rest _ => 2 * rest.length + 1
  | .awaitVote _ rest _ _ => 2 * rest.length + 2
  | .heartbeat rest => 2 * rest.length + 1
  | .awaitAppend _ rest _ _ => 2 * rest.length + 2

theorem stepsLeft_pos {task : Task} (h : task ≠ .idle) : 0 < task.stepsLeft := by
  cases task with
  | idle => exact absurd rfl h
  | election rest votes => exact Nat.succ_pos _
  | awaitVote peer rest votes rpc => exact Nat.succ_pos _
  | heartbeat rest => exact Nat.succ_pos _
  | awaitAppend peer rest out rpc => exact Nat.succ_pos _

/-- The task is an election. -/
def IsElection : Task → Prop
  | .election _ _ => True
  | .awaitVote _ _ _ _ => True
  | _ => False

end Task

namespace RaftNode

variable {n m : RaftNode} {p : String}

/-- The position from which a leader would send to a peer. -/
def leadIndex (n : RaftNode) (p : String) : Nat :=
  if n.state = .Leader then n.nextIndex.at p else 0

theorem StillLeads.leadIndex_le (h : StillLeads n m) (p : String) :
    m.leadIndex p ≤ n.leadIndex p := by
  by_cases hlead : m.state = .Leader
  · obtain ⟨vote, next, hnext, rfl⟩ := h hlead
    have hwas : n.state = .Leader := hlead
    simpa [leadIndex, hwas] using hnext p
  · simp [leadIndex, hlead]

/-- A refusal takes a leader back, or ends its leadership.  At the first position it must be of the
second kind. -/
theorem leadIndex_refused {out : Outgoing} {reply : AppendEntriesReply} {goOn : Bool}
    (hbook : n.BookInv) (hlead : n.state = .Leader) (hpeer : p ∈ n.peers)
    (hout : n.prepareAppend p = .ok out) (hfail : reply.success = false)
    (hfirst : out.args.prevLogIndex = 0 → out.args.term < reply.term)
    (h : n.onAppendReply p out reply = .ok (m, goOn)) : m.leadIndex p + 1 ≤ n.leadIndex p := by
  obtain ⟨hlow, -⟩ := hbook.next hlead p hpeer
  have hindex : n.leadIndex p = n.nextIndex.at p := if_pos hlead
  unfold onAppendReply at h
  split_ifs at h with hsucc hhigher hback
  · simp [hfail] at hsucc
  · cases h
    have hzero : (n.stepDown reply.term).leadIndex p = 0 := by simp [leadIndex, stepDown]
    omega
  · cases h
    simp only [leadIndex, hlead, if_true, IndexMap.at_insert_self]
    omega
  · obtain ⟨prev, -, rfl⟩ := prepareAppend_spec hout
    have hone : n.nextIndex.at p = 1 := by omega
    exact absurd (hfirst (by simp [hone, sub64])) hhigher

end RaftNode

namespace Cluster

open RaftNode

variable {M : Membership} {s s' : Cluster} {e : Event} {i : String}

/-- A step of the task of node `i`. -/
def ownStep (i : String) : Event → Bool
  | .send j | .fail j | .receive j | .finish j => j = i
  | _ => false

theorem ownStep_of_ne {j : String} (h : i ≠ j) :
    ownStep i (.send j) = false ∧ ownStep i (.fail j) = false ∧
      ownStep i (.receive j) = false ∧ ownStep i (.finish j) = false := by
  simp [ownStep, Ne.symm h]

theorem ne_of_busy {j : String} (hbusy : s.task i ≠ .idle) (hidle : s.task j = .idle) : i ≠ j := by
  rintro rfl
  exact hbusy hidle

/-! ## What a step does to the task of a node -/

/-- The task of node `i` in a step from `s` to `s'`: it stays as it is, begins with all peers of a
free node, asks the next peer, is done with a peer, or ends.  A busy node changes only by an answer
to its task. -/
inductive Turns (s s' : Cluster) (i : String) : Event → Prop
  | stays {e : Event} (hother : ownStep i e = false) (htask : s'.task i = s.task i)
      (hnode : s.task i ≠ .idle → s'.node i = s.node i) : Turns s s' i e
  | startElection (hidle : s.task i = .idle) (htask : s'.task i = .election (s.node i).peers 1)
      (hnode : s'.node i = (s.node i).beginElection) : Turns s s' i (.startElection i)
  | heartbeat (hidle : s.task i = .idle) (htask : s'.task i = .heartbeat (s.node i).peers) :
      Turns s s' i (.heartbeat i)
  | sendVote {peer : String} {rest : List String} {votes rpc : Nat}
      (hwas : s.task i = .election (peer :: rest) votes)
      (htask : s'.task i = .awaitVote peer rest votes rpc) (hnode : s'.node i = s.node i) :
      Turns s s' i (.send i)
  | sendAppend {peer : String} {rest : List String} {out : Outgoing} {rpc : Nat}
      (hwas : s.task i = .heartbeat (peer :: rest))
      (htask : s'.task i = .awaitAppend peer rest out rpc) : Turns s s' i (.send i)
  | voteDone {e : Event} {peer : String} {rest : List String} {votes votes' rpc : Nat}
      (hown : ownStep i e = true) (hwas : s.task i = .awaitVote peer rest votes rpc)
      (htask : s'.task i = .election rest votes') (hnode : s'.node i = s.node i) : Turns s s' i e
  | appendDone {e : Event} {peer : String} {rest : List String} {out : Outgoing} {rpc : Nat}
      (hown : ownStep i e = true) (hwas : s.task i = .awaitAppend peer rest out rpc)
      (htask : s'.task i = .heartbeat rest) : Turns s s' i e
  | ends {e : Event} (hown : ownStep i e = true) (hbusy : s.task i ≠ .idle)
      (htask : s'.task i = .idle) : Turns s s' i e

theorem turns_of_step (h : Step M s e s') (i : String) : Turns s s' i e := by
  cases h with
  | startElection j hj hidle hstate =>
      by_cases hij : i = j
      · subst hij
        exact .startElection hidle (update_self ..) (update_self ..)
      · exact .stays rfl (update_of_ne hij ..) fun _ => update_of_ne hij ..
  | heartbeat j hj hidle hstate =>
      by_cases hij : i = j
      · subst hij
        exact .heartbeat hidle (update_self ..)
      · exact .stays rfl (update_of_ne hij ..) fun _ => rfl
  | sendVote j peer rest votes htask =>
      by_cases hij : i = j
      · subst hij
        exact .sendVote htask (update_self ..) rfl
      · exact .stays (ownStep_of_ne hij).1 (update_of_ne hij ..) fun _ => rfl
  | sendAppend j peer rest out htask hout =>
      by_cases hij : i = j
      · subst hij
        exact .sendAppend htask (update_self ..)
      · exact .stays (ownStep_of_ne hij).1 (update_of_ne hij ..) fun _ => rfl
  | failVote j peer rest votes rpc htask =>
      by_cases hij : i = j
      · subst hij
        exact .voteDone (by simp [ownStep]) htask (update_self ..) rfl
      · exact .stays (ownStep_of_ne hij).2.1 (update_of_ne hij ..) fun _ => rfl
  | failAppend j peer rest out rpc htask =>
      by_cases hij : i = j
      · subst hij
        exact .appendDone (by simp [ownStep]) htask (update_self ..)
      · exact .stays (ownStep_of_ne hij).2.1 (update_of_ne hij ..) fun _ => rfl
  | receiveVote j peer rest votes rpc reply a n next htask hanswer hresponse hreply =>
      by_cases hij : i = j
      · subst hij
        rcases onVoteReply_spec hreply with ⟨rfl, rfl | ⟨r, -, -, rfl⟩⟩ | ⟨r, -, -, rfl, rfl⟩
        · exact .voteDone (by simp [ownStep]) htask (update_self ..) (update_self ..)
        · exact .voteDone (by simp [ownStep]) htask (update_self ..) (update_self ..)
        · exact .ends (by simp [ownStep]) (by simp [htask]) (update_self ..)
      · exact .stays (ownStep_of_ne hij).2.2.1 (update_of_ne hij ..) fun _ => update_of_ne hij ..
  | receiveAppend j peer rest out rpc reply a n goOn htask hanswer hresponse hreply =>
      by_cases hij : i = j
      · subst hij
        cases goOn with
        | true => exact .appendDone (by simp [ownStep]) htask (update_self ..)
        | false => exact .ends (by simp [ownStep]) (by simp [htask]) (update_self ..)
      · exact .stays (ownStep_of_ne hij).2.2.1 (update_of_ne hij ..) fun _ => update_of_ne hij ..
  | finishElection j votes htask =>
      by_cases hij : i = j
      · subst hij
        exact .ends (by simp [ownStep]) (by simp [htask]) (update_self ..)
      · exact .stays (ownStep_of_ne hij).2.2.2 (update_of_ne hij ..) fun _ => update_of_ne hij ..
  | finishHeartbeat j htask =>
      by_cases hij : i = j
      · subst hij
        exact .ends (by simp [ownStep]) (by simp [htask]) (update_self ..)
      · exact .stays (ownStep_of_ne hij).2.2.2 (update_of_ne hij ..) fun _ => rfl
  -- The handlers and `submitLog` are for free nodes.
  | handleVote rpc src dst args n reply hsent hidle hfresh hhandle =>
      exact .stays rfl rfl fun hbusy => update_of_ne (ne_of_busy hbusy hidle) ..
  | handleAppend rpc src dst args n reply hsent hidle hfresh hhandle =>
      exact .stays rfl rfl fun hbusy => update_of_ne (ne_of_busy hbusy hidle) ..
  | submitLog j key value hj hidle =>
      exact .stays rfl rfl fun hbusy => update_of_ne (ne_of_busy hbusy hidle) ..

/-! ## The length of a task -/

/-- Each step of a task makes it shorter, and nobody else touches it. -/
theorem stepsLeft_step (h : Step M s e s') (hbusy : s.task i ≠ .idle) :
    (s'.task i).stepsLeft + (if ownStep i e then 1 else 0) ≤ (s.task i).stepsLeft := by
  cases turns_of_step h i with
  | stays hother htask hnode => simp [hother, htask]
  | startElection hidle htask hnode => exact absurd hidle hbusy
  | heartbeat hidle htask => exact absurd hidle hbusy
  | sendVote hwas htask hnode =>
      simp only [hwas, htask, ownStep, decide_true, if_true, Task.stepsLeft, List.length_cons]
      omega
  | sendAppend hwas htask =>
      simp only [hwas, htask, ownStep, decide_true, if_true, Task.stepsLeft, List.length_cons]
      omega
  | voteDone hown hwas htask hnode =>
      simp only [hwas, htask, hown, if_true, Task.stepsLeft]
      omega
  | appendDone hown hwas htask =>
      simp only [hwas, htask, hown, if_true, Task.stepsLeft]
      omega
  | ends hown hbusy' htask =>
      have hpos := Task.stepsLeft_pos hbusy
      rw [htask, if_pos hown]
      show 0 + 1 ≤ (s.task i).stepsLeft
      omega

/-- A task has two steps for each peer and the last one. -/
theorem stepsLeft_le_step (hinv : Inv M s)
    (hle : (s.task i).stepsLeft ≤ 2 * (M.peers i).length + 1) (h : Step M s e s') :
    (s'.task i).stepsLeft ≤ 2 * (M.peers i).length + 1 := by
  by_cases hidle : s.task i = .idle
  · have hpeers := (hinv.ident i).2
    cases turns_of_step h i with
    | stays hother htask hnode => rwa [htask]
    | startElection hidle' htask hnode => simp [htask, Task.stepsLeft, hpeers]
    | heartbeat hidle' htask => simp [htask, Task.stepsLeft, hpeers]
    | sendVote hwas => simp [hidle] at hwas
    | sendAppend hwas => simp [hidle] at hwas
    | voteDone hown hwas => simp [hidle] at hwas
    | appendDone hown hwas => simp [hidle] at hwas
    | ends hown hbusy => exact absurd hidle hbusy
  · have hstep := stepsLeft_step h hidle
    omega

/-! ## A busy node can go on -/

/-- The bookkeeping of every leader stays inside its log. -/
theorem book_step (hinv : Inv M s) (hbook : ∀ i, (s.node i).BookInv) (h : Step M s e s')
    (i : String) : (s'.node i).BookInv := by
  have hi := hbook i
  cases moves_of_step h i with
  | stays hnode hacks => rwa [hnode]
  | startElection hnode hacks =>
      rw [hnode]
      exact ⟨hi.nonempty, hi.keys, by simp [beginElection], by simp [beginElection]⟩
  | voteReply hreply hnode hacks =>
      rw [hnode]
      exact (onVoteReply_book hi hreply).1
  | @appendReply peer rest out rpc reply a n goOn htask hanswer hresponse hreply hnode hacks =>
      obtain ⟨-, hlead, hpeers, -, hout, -⟩ := hinv.taskOk htask
      have hpeer : peer ∈ (s.node i).peers := by
        rw [(hinv.ident i).2]
        exact hpeers peer List.mem_cons_self
      obtain ⟨m, goOn', heq, hm, -⟩ := onAppendReply_book hi hlead hpeer hout reply
      rw [hreply] at heq
      cases heq
      rwa [hnode]
  | finishElection htask hnode hacks =>
      rw [hnode]
      exact (finishElection_book hi _).1
  | @handleVote rpc args n reply hhandle hnode hacks =>
      have hm := (handleRequestVote_book hi args).1
      rw [hhandle] at hm
      rwa [hnode]
  | handleAppend hsent hhandle hnode hacks =>
      rw [hnode]
      exact handleAppendEntries_book hi hhandle
  | @submitLog key value hmem hnode hacks =>
      rw [hnode]
      exact submitLog_book hi key value

/-- A node inside a task has a step of its own, whatever the others do: an RPC that is not answered
can fail. -/
theorem exists_ownStep (hinv : Inv M s) (hbook : ∀ i, (s.node i).BookInv)
    (hbusy : s.task i ≠ .idle) :
    ∃ e s', ownStep i e = true ∧ NoTermOverflow s e ∧ step M s e = some s' := by
  cases htask : s.task i with
  | idle => exact absurd htask hbusy
  | election rest votes =>
      cases rest with
      | nil => exact ⟨.finish i, _, by simp [ownStep], trivial, by rw [step, finishTask, htask]⟩
      | cons peer rest =>
          exact ⟨.send i, _, by simp [ownStep], trivial, by rw [step, sendNext, htask]⟩
  | awaitVote peer rest votes rpc =>
      exact ⟨.fail i, _, by simp [ownStep], trivial, by rw [step, failRpc, htask]⟩
  | heartbeat rest =>
      cases rest with
      | nil => exact ⟨.finish i, _, by simp [ownStep], trivial, by rw [step, finishTask, htask]⟩
      | cons peer rest =>
          -- The index of the peer lies inside the log, so the message can be built.
          obtain ⟨-, hlead, hpeers⟩ := hinv.taskOk htask
          have hpeer : peer ∈ (s.node i).peers := by
            rw [(hinv.ident i).2]
            exact hpeers peer List.mem_cons_self
          obtain ⟨out, hout⟩ := prepareAppend_ok (hbook i) hlead hpeer
          obtain ⟨s', hsend⟩ : ∃ s', s.sendNext i = some s' := by
            simp [sendNext, htask, hout]
          exact ⟨.send i, s', by simp [ownStep], trivial, hsend⟩
  | awaitAppend peer rest out rpc =>
      exact ⟨.fail i, _, by simp [ownStep], trivial, by rw [step, failRpc, htask]⟩

/-- The node ends its task by its own steps alone. -/
theorem ends_alone (hinv : Inv M s) (hbook : ∀ i, (s.node i).BookInv) (i : String) :
    ∃ own t, (∀ e ∈ own, ownStep i e = true) ∧ own.length ≤ (s.task i).stepsLeft ∧
      run (step M) s own = some t ∧ t.task i = .idle := by
  induction hk : (s.task i).stepsLeft using Nat.strong_induction_on generalizing s with
  | _ k ih =>
      by_cases hidle : s.task i = .idle
      · exact ⟨[], s, by simp, by simp, rfl, hidle⟩
      · obtain ⟨e, s', hown, hterm, hstep⟩ := exists_ownStep hinv hbook hidle
        have hsound := step_sound hstep
        have hless := stepsLeft_step hsound hidle
        rw [if_pos hown] at hless
        obtain ⟨own, t, hall, hlen, hrun, ht⟩ := ih _ (by omega)
          (inv_step hinv hterm hstep).1 (book_step hinv hbook hsound) rfl
        refine ⟨e :: own, t, ?_, ?_, ?_, ht⟩
        · intro e' he'
          rcases List.mem_cons.mp he' with rfl | he'
          · exact hown
          · exact hall e' he'
        · rw [List.length_cons]
          omega
        · rw [run_cons_of_step hstep, hrun]

/-! ## What refusals mean -/

/-- A refusal of a message for the first position names a higher term. -/
def RefusalOk (s : Cluster) (a : Answer) : Prop :=
  ∀ src dst args reply, s.sent[a.rpc]? = some ⟨src, dst, .append args⟩ →
    a.response = .append reply → reply.success = false → args.prevLogIndex = 0 →
    args.term < reply.term

theorem refusals_step (hinv : Inv M s) (hev : Evolves s s') (hold : ∀ a ∈ s.answers, s.RefusalOk a)
    (h : Step M s e s') : ∀ a ∈ s'.answers, s'.RefusalOk a := by
  have hkeep : ∀ a ∈ s.answers, s'.RefusalOk a := by
    intro a ha src dst args reply hsent
    obtain ⟨r, hr, -⟩ := hinv.answers a ha
    rw [hev.sent _ _ hr] at hsent
    exact hold a ha src dst args reply (hr.trans hsent)
  cases h with
  | handleVote rpc src dst args n reply hsent hidle hfresh hhandle =>
      refine forall_mem_concat rfl hkeep ?_
      rintro _ _ _ _ - hresponse
      cases hresponse
  | handleAppend rpc src dst args n reply hsent hidle hfresh hhandle =>
      refine forall_mem_concat rfl hkeep ?_
      intro src' dst' args' reply' hsent' hresponse hfail hfirst
      simp only at hsent' hresponse
      rw [hsent] at hsent'
      cases hsent'
      cases hresponse
      rcases handleAppendEntries_spec hhandle with
        ⟨hstale, -, rfl⟩ | ⟨-, hprev, -, -⟩ | ⟨-, -, -, rfl⟩
      · exact hstale
      · -- Both logs begin with the dummy entry.
        obtain ⟨-, -, -, prev, hat, hterm⟩ := hinv.requests _ (List.mem_of_getElem? hsent)
        simp only [hfirst, logs_zero hinv, Option.some.injEq] at hat
        refine absurd ⟨dummyEntry, ?_, hat ▸ hterm⟩ hprev
        rw [hfirst, logs_zero hinv]
      · cases hfail
  | _ => exact hkeep

/-- A node inside an election does not lead. -/
theorem election_step (hold : ∀ i, (s.task i).IsElection → (s.node i).state ≠ .Leader)
    (h : Step M s e s') (i : String) (helects : (s'.task i).IsElection) :
    (s'.node i).state ≠ .Leader := by
  have hwas := hold i
  cases turns_of_step h i with
  | stays hother htask hnode =>
      rw [htask] at helects
      have hbusy : s.task i ≠ .idle := by
        intro hidle
        rw [hidle] at helects
        exact helects
      rw [hnode hbusy]
      exact hwas helects
  | startElection hidle htask hnode =>
      rw [hnode]
      simp [beginElection]
  | heartbeat hidle htask => simp [htask, Task.IsElection] at helects
  | sendVote hsame htask hnode =>
      rw [hnode]
      exact hwas (by rw [hsame]; trivial)
  | sendAppend hsame htask => simp [htask, Task.IsElection] at helects
  | voteDone hown hsame htask hnode =>
      rw [hnode]
      exact hwas (by rw [hsame]; trivial)
  | appendDone hown hsame htask => simp [htask, Task.IsElection] at helects
  | ends hown hbusy htask => simp [htask, Task.IsElection] at helects

/-- In this step node `i` takes the answer of a peer to a heartbeat, and the answer says whether
the peer accepts. -/
def hears (s : Cluster) (i p : String) (success : Bool) : Event → Bool
  | .receive j =>
      j = i &&
        match s.task i with
        | .awaitAppend peer _ _ rpc =>
            peer = p &&
              match s.answerTo rpc with
              | some ⟨_, .append reply, _, _⟩ => reply.success = success
              | _ => false
        | _ => false
  | _ => false

theorem hears_of_reply {success : Bool} {peer : String} {rest : List String} {out : Outgoing}
    {rpc : Nat} {a : Answer} {reply : AppendEntriesReply}
    (htask : s.task i = .awaitAppend peer rest out rpc) (hanswer : s.answerTo rpc = some a)
    (hresponse : a.response = .append reply) (hsucc : reply.success = success) :
    s.hears i peer success (.receive i) = true := by
  obtain ⟨rpc', response, dstLogs, srcLogs⟩ := a
  simp only at hresponse
  subst hresponse
  simp [hears, htask, hanswer, hsucc]

theorem exists_reply_of_hears {success : Bool} {p : String} (h : s.hears i p success e = true) :
    e = .receive i ∧ ∃ rest out rpc a reply, s.task i = .awaitAppend p rest out rpc ∧
      s.answerTo rpc = some a ∧ a.response = .append reply ∧ reply.success = success := by
  unfold hears at h
  split at h
  · rename_i j
    obtain ⟨hj, hreply⟩ := (Bool.and_eq_true ..).mp h
    split at hreply
    · rename_i peer rest out rpc htask
      obtain ⟨hp, hsays⟩ := (Bool.and_eq_true ..).mp hreply
      split at hsays
      · rename_i k reply dstLogs srcLogs hanswer
        obtain rfl := of_decide_eq_true hj
        obtain rfl := of_decide_eq_true hp
        exact ⟨rfl, rest, out, rpc, _, reply, htask, hanswer, rfl, of_decide_eq_true hsays⟩
      · cases hsays
    · cases hreply
  · cases h

/-! ## The invariant -/

structure Steady (M : Membership) (s : Cluster) : Prop where
  inv : Inv M s
  book : ∀ i, (s.node i).BookInv
  steps : ∀ i, (s.task i).stepsLeft ≤ 2 * (M.peers i).length + 1
  elections : ∀ i, (s.task i).IsElection → (s.node i).state ≠ .Leader
  refusals : ∀ a ∈ s.answers, s.RefusalOk a

theorem steady_init (M : Membership) : Steady M (init M) where
  inv := inv_init M
  book := fun i => bookInv_new i (M.peers i)
  steps := fun _ => Nat.zero_le _
  elections := fun _ helects => helects.elim
  refusals := by simp [init]

/-- **The step lemma.** -/
theorem steady_step (h : Steady M s) (hterm : NoTermOverflow s e) (hstep : s.step M e = some s') :
    Steady M s' := by
  have hsound := step_sound hstep
  obtain ⟨hinv, hev⟩ := inv_step h.inv hterm hstep
  exact
    { inv := hinv
      book := book_step h.inv h.book hsound
      steps := fun i => stepsLeft_le_step h.inv (h.steps i) hsound
      elections := election_step h.elections hsound
      refusals := refusals_step h.inv hev h.refusals hsound }

/-- **The run lemma.** -/
theorem steady_run {es : List Event} (hterms : Meets (step M) NoTermOverflow (init M) es)
    (hrun : run (step M) (init M) es = some s) : Steady M s :=
  run_invariant (Steady M) (fun _ _ _ => steady_step) (steady_init M) hterms hrun

/-- A leader that hears no success of a peer never moves forward for it. -/
theorem leadIndex_step {p : String} (h : Steady M s) (hlead : (s.node i).state = .Leader)
    (hsucc : s.hears i p true e = false) (hstep : Step M s e s') :
    (s'.node i).leadIndex p ≤ (s.node i).leadIndex p := by
  cases moves_of_step hstep i with
  | stays hnode hacks => rw [hnode]
  | startElection hnode hacks =>
      rw [hnode]
      simp [leadIndex, beginElection]
  | voteReply hreply hnode hacks =>
      rw [hnode]
      exact (stillLeads_onVoteReply hreply).leadIndex_le p
  | @appendReply peer rest out rpc reply a n goOn htask hanswer hresponse hreply hnode hacks =>
      rw [hnode]
      rcases onAppendReply_cases hreply with hleads | ⟨htrue, hack⟩
      · exact hleads.leadIndex_le p
      · -- The success comes from another peer.
        have hne : p ≠ peer := by
          rintro rfl
          rw [hears_of_reply htask hanswer hresponse htrue] at hsucc
          cases hsucc
        refine le_of_eq ?_
        rcases advanceCommit_spec hack with rfl | ⟨_, _, _, _, _, rfl, _⟩
        · simp [leadIndex, acknowledge, IndexMap.at_insert_ne _ hne]
        · simp [leadIndex, acknowledge, IndexMap.at_insert_ne _ hne]
  | finishElection htask hnode hacks =>
      exact absurd hlead (h.elections i (by rw [htask]; trivial))
  | handleVote hhandle hnode hacks =>
      rw [hnode]
      exact (stillLeads_handleRequestVote hhandle).leadIndex_le p
  | handleAppend hsent hhandle hnode hacks =>
      rw [hnode]
      exact (stillLeads_handleAppendEntries hhandle).leadIndex_le p
  | @submitLog key value hi hnode hacks =>
      rw [hnode]
      rcases submitLog_spec (s.node i) key value with heq | ⟨-, heq⟩
      · rw [heq]
      · rw [heq]
        exact le_rfl

/-- A refusal moves the leader back. -/
theorem leadIndex_hears {p : String} (h : Steady M s) (hheard : s.hears i p false e = true)
    (hstep : Step M s e s') : (s'.node i).leadIndex p + 1 ≤ (s.node i).leadIndex p := by
  obtain ⟨rfl, rest, out, rpc, a, reply, htask, hanswer, hresponse, hfail⟩ :=
    exists_reply_of_hears hheard
  obtain ⟨-, hlead, hpeers, hsent, hout, -⟩ := h.inv.taskOk htask
  have hpeer : p ∈ (s.node i).peers := by
    rw [(h.inv.ident i).2]
    exact hpeers p List.mem_cons_self
  have hrpc : a.rpc = rpc := by simpa using List.find?_some hanswer
  have hfirst := h.refusals a (List.mem_of_find?_eq_some hanswer) i p out.args reply
    (hrpc ▸ hsent) hresponse hfail
  cases hstep with
  | receiveVote _ peer' rest' votes' rpc' reply' a' n next htask' =>
      rw [htask] at htask'
      cases htask'
  | receiveAppend _ peer' rest' out' rpc' reply' a' n goOn htask' hanswer' hresponse' hreply' =>
      rw [htask] at htask'
      cases htask'
      rw [hanswer] at hanswer'
      cases hanswer'
      rw [hresponse] at hresponse'
      cases hresponse'
      simp only [setNode, update_self]
      exact leadIndex_refused (h.book i) hlead hpeer hout hfail hfirst hreply'

/-! ## The results -/

/-- **Elections and heartbeat rounds end.**  In every state of every run in which no term
overflows, a node that is inside a task can end it by steps of its own, without any step of another
node; and however the others go on, it makes at most two steps for each peer and one more before
the task ends. -/
theorem tasks_end (M : Membership) (es : List Event) (s : Cluster)
    (hterms : Meets (step M) NoTermOverflow (init M) es)
    (hrun : run (step M) (init M) es = some s) (i : String) :
    (∃ own t, (∀ e ∈ own, ownStep i e = true) ∧ own.length ≤ 2 * (M.peers i).length + 1 ∧
        run (step M) s own = some t ∧ t.task i = .idle) ∧
      ∀ es' t, run (step M) s es' = some t →
        Meets (step M) (fun u _ => u.task i ≠ .idle) s es' →
        es'.countP (ownStep i) ≤ 2 * (M.peers i).length + 1 := by
  have hsteady := steady_run hterms hrun
  have hsteps := hsteady.steps i
  constructor
  · obtain ⟨own, t, hown, hlen, hrest, ht⟩ := ends_alone hsteady.inv hsteady.book i
    exact ⟨own, t, hown, hlen.trans hsteps, hrest, ht⟩
  · intro es' t hrest hbusy
    have hstep : ∀ u e u', True → u.task i ≠ .idle → step M u e = some u' →
        True ∧ (u'.task i).stepsLeft + (if ownStep i e then 1 else 0) ≤ (u.task i).stepsLeft :=
      fun u e u' _ hu hsome => ⟨trivial, stepsLeft_step (step_sound hsome) hu⟩
    have hcount := run_hits_add_le (μ := fun u => (u.task i).stepsLeft)
      (p := fun _ e => ownStep i e) hstep trivial hbusy hrest
    rw [hits_eq_countP hrest] at hcount
    omega

/-- Two nodes start an election and ask each other first.  Each holds its own mutex while it waits
for the other. -/
def crossedElections : List Event :=
  [.startElection "a", .startElection "b", .send "a", .send "b"]

/-- Neither of the two requests can be handled, and yet `a` ends its election by itself. -/
theorem crossed_elections_end :
    ∃ s, run (step trio) (init trio) crossedElections = some s ∧
      ((step trio s (.handle 0)).isNone ∧ (step trio s (.handle 1)).isNone) ∧
      ∃ own t, (∀ e ∈ own, ownStep "a" e = true) ∧ own.length ≤ 5 ∧
        run (step trio) s own = some t ∧ t.task "a" = .idle := by
  obtain ⟨s, hrun, hblocked⟩ := exists_run_of_check (step trio) (init trio) crossedElections
    (fun t => (step trio t (.handle 0)).isNone ∧ (step trio t (.handle 1)).isNone) (by decide)
  exact ⟨s, hrun, hblocked, (tasks_end trio crossedElections s (by decide) hrun "a").1⟩

/-- **Refusals are bounded.**  In every run in which no term overflows, a leader takes at most as
many refusals of a peer as its next index for this peer says, unless it loses its leadership or
the peer accepts a heartbeat in between. -/
theorem refusals_bounded (M : Membership) (es es' : List Event) (s s' : Cluster)
    (hterms : Meets (step M) NoTermOverflow (init M) (es ++ es'))
    (hrun : run (step M) (init M) es = some s) (hrun' : run (step M) s es' = some s')
    (i p : String)
    (hlead : Meets (step M)
      (fun t e => (t.node i).state = .Leader ∧ t.hears i p true e = false) s es') :
    hits (step M) (fun t e => t.hears i p false e) s es' ≤ (s.node i).nextIndex.at p := by
  obtain ⟨hterms₁, hterms₂⟩ := (meets_append hrun es').mp hterms
  have hstep : ∀ t e t', Steady M t →
      (NoTermOverflow t e ∧ (t.node i).state = .Leader ∧ t.hears i p true e = false) →
      step M t e = some t' → Steady M t' ∧
        (t'.node i).leadIndex p + (if t.hears i p false e then 1 else 0) ≤
          (t.node i).leadIndex p := by
    rintro t e t' ht ⟨hterm, hleads, hnone⟩ hsome
    have hsound := step_sound hsome
    refine ⟨steady_step ht hterm hsome, ?_⟩
    split_ifs with hheard
    · exact leadIndex_hears ht hheard hsound
    · exact leadIndex_step ht hleads hnone hsound
  have hcount := run_hits_add_le (μ := fun t => (t.node i).leadIndex p)
    (p := fun t e => t.hears i p false e) hstep (steady_run hterms₁ hrun) (hterms₂.and hlead) hrun'
  have hstart : (s.node i).leadIndex p ≤ (s.node i).nextIndex.at p := by
    unfold leadIndex
    split_ifs
    · exact le_rfl
    · exact Nat.zero_le _
  omega

/-- The leader `a` of three nodes has heard a success of `b` for an entry that it never sent.  The
next heartbeat is refused, and takes the index back. -/
theorem refused_heartbeat_goes_back :
    ∃ s s', run (step trio) (init trio)
        (electA ++ [.submitLog "a" "k" "v"] ++ heartbeatToB 2) = some s ∧
      run (step trio) s (heartbeatToB 4) = some s' ∧
      (s.node "a").nextIndex.at "b" = 2 ∧ (s'.node "a").nextIndex.at "b" = 1 ∧
      hits (step trio) (fun t e => t.hears "a" "b" false e) s (heartbeatToB 4) ≤ 2 := by
  obtain ⟨s, hrun, hnext, hlead⟩ := exists_run_of_check (step trio) (init trio)
    (electA ++ [.submitLog "a" "k" "v"] ++ heartbeatToB 2)
    (fun t => (t.node "a").nextIndex.at "b" = 2 ∧ Meets (step trio)
      (fun u e => (u.node "a").state = .Leader ∧ u.hears "a" "b" true e = false) t
      (heartbeatToB 4)) (by decide)
  obtain ⟨s', hrun', hback⟩ := exists_run_of_check (step trio) (init trio)
    (electA ++ [.submitLog "a" "k" "v"] ++ heartbeatToB 2 ++ heartbeatToB 4)
    (fun t => (t.node "a").nextIndex.at "b" = 1) (by decide)
  rw [run_append hrun] at hrun'
  refine ⟨s, s', hrun, hrun', hnext, hback, ?_⟩
  rw [← hnext]
  exact refusals_bounded trio _ (heartbeatToB 4) s s' (by decide) hrun hrun' "a" "b" hlead

end Cluster
end Raft
end YoloServer
