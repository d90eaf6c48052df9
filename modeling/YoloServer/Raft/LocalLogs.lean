import YoloServer.Raft.AppliedFold
import YoloServer.Raft.StateMachineSafety

/-!
# What reaches the log of a node

A leader collects the entries that a peer lacks and then sends a message without them.  So the
messages of a cluster change no log, whatever is elected, lost, delayed or committed.  As everywhere
over `Cluster`, an RPC that does not fail returns the answer to its own request.

* `acceptedIn` lists what the clients of a node have submitted to it in a run, as far as
  `submitLog` took it.
* `raft_stores_own_submissions`: this is the log of the node, and what the node has applied is a
  beginning of it.
-/

namespace YoloServer
namespace Raft

open Function Lib

/-- What the state machine gets of an entry. -/
def LogEntry.payload (entry : LogEntry) : String × String :=
  (entry.key, entry.value)

namespace Cluster

open RaftNode

variable {M : Membership} {s s' : Cluster} {e : Event} {i : String}

/-- What node `i` takes from its clients in one step. -/
def accepts (s : Cluster) (i : String) : Event → List (String × String)
  | .submitLog j key value =>
      if j = i ∧ ((s.node i).submitLog key value).2 = true then [(key, value)] else []
  | _ => []

/-- What node `i` takes from its clients in a run. -/
def acceptedIn (M : Membership) (i : String) : Cluster → List Event → List (String × String)
  | _, [] => []
  | s, e :: es =>
      match step M s e with
      | some s' => s.accepts i e ++ acceptedIn M i s' es
      | none => []

/-! ## The messages -/

/-- No message carries an entry. -/
def CarriesNothing (s : Cluster) : Prop :=
  ∀ r ∈ s.sent, ∀ args, r.request = .append args → args.entries = []

theorem carriesNothing_step (h : s.CarriesNothing) (hstep : Step M s e s') : s'.CarriesNothing := by
  cases hstep with
  | sendVote j peer rest votes htask =>
      intro r hr args hargs
      rcases List.mem_append.mp hr with hr | hr
      · exact h r hr args hargs
      · rw [List.mem_singleton.mp hr] at hargs
        cases hargs
  | sendAppend j peer rest out htask hout =>
      intro r hr args hargs
      rcases List.mem_append.mp hr with hr | hr
      · exact h r hr args hargs
      · rw [List.mem_singleton.mp hr] at hargs
        cases hargs
        obtain ⟨prev, -, rfl⟩ := prepareAppend_spec hout
        rfl
  | _ => exact h

/-! ## One step -/

/-- Entries are applied in order, and the log stays unless a client submits one. -/
theorem extends_of_moves (hnothing : s.CarriesNothing) (h : Moves M s s' i e) :
    Extends (s.node i) (s'.node i) ∧
      ((∀ key value, e ≠ .submitLog i key value) → (s'.node i).logs = (s.node i).logs) := by
  have hkeeps : AppliesInOrder (s.node i) (s'.node i) →
      Extends (s.node i) (s'.node i) ∧
        ((∀ key value, e ≠ .submitLog i key value) → (s'.node i).logs = (s.node i).logs) := by
    intro happlies
    refine ⟨⟨?_, happlies.puts⟩, fun _ => happlies.logs⟩
    rw [happlies.logs]
  cases h with
  | stays hnode hacks =>
      apply hkeeps
      rw [hnode]
      exact .refl _
  | startElection hnode hacks =>
      apply hkeeps
      rw [hnode]
      exact .of_eq rfl rfl rfl
  | voteReply hreply hnode hacks =>
      apply hkeeps
      rw [hnode]
      exact appliesInOrder_onVoteReply hreply
  | appendReply htask hanswer hresponse hreply hnode hacks =>
      apply hkeeps
      rw [hnode]
      exact appliesInOrder_onAppendReply hreply
  | finishElection htask hnode hacks =>
      apply hkeeps
      rw [hnode]
      exact appliesInOrder_finishElection _ _
  | @handleVote rpc args n reply hhandle hnode hacks =>
      apply hkeeps
      have happlies := appliesInOrder_handleRequestVote (s.node i) args
      rw [hhandle] at happlies
      rw [hnode]
      exact happlies
  | handleAppend hsent hhandle hnode hacks =>
      apply hkeeps
      have hempty := hnothing _ hsent _ rfl
      rw [hnode]
      exact ⟨(quiet_handleAppendEntries hhandle hempty).logs,
        putsInOrder_handleAppendEntries hhandle⟩
  | @submitLog key value hi hnode hacks =>
      refine ⟨⟨?_, ?_⟩, fun hother => absurd rfl (hother key value)⟩
      · rw [hnode]
        rcases submitLog_spec (s.node i) key value with heq | ⟨-, heq⟩
        · rw [heq]
        · rw [heq]
          exact List.prefix_append _ _
      · rw [hnode]
        exact putsInOrder_submitLog _ key value

theorem payloads_submitLog (n : RaftNode) (key value : String) :
    (n.submitLog key value).1.logs.map LogEntry.payload =
      n.logs.map LogEntry.payload ++
        if (n.submitLog key value).2 = true then [(key, value)] else [] := by
  by_cases hleads : n.state = .Leader
  · simp [RaftNode.submitLog, hleads, LogEntry.payload]
  · simp [RaftNode.submitLog, hleads]

/-- The log of a node grows by what it takes from its clients. -/
theorem payloads_step (hnothing : s.CarriesNothing) (h : Step M s e s') (i : String) :
    (s'.node i).logs.map LogEntry.payload =
      (s.node i).logs.map LogEntry.payload ++ s.accepts i e := by
  have hmoves := moves_of_step h i
  by_cases hsubmits : ∃ key value, e = .submitLog i key value
  · obtain ⟨key, value, rfl⟩ := hsubmits
    cases h with
    | submitLog _ _ _ hi hidle =>
        simp only [update_self, accepts, true_and]
        exact payloads_submitLog (s.node i) key value
  · push Not at hsubmits
    have hnone : s.accepts i e = [] := by
      cases e with
      | submitLog j key value =>
          have hother : j ≠ i := by
            rintro rfl
            exact hsubmits key value rfl
          simp [accepts, hother]
      | _ => rfl
    rw [hnone, List.append_nil, (extends_of_moves hnothing hmoves).2 hsubmits]

/-! ## Whole runs -/

theorem payloads_run {es : List Event} (hnothing : s.CarriesNothing)
    (hrun : run (step M) s es = some s') (i : String) :
    (s'.node i).logs.map LogEntry.payload =
      (s.node i).logs.map LogEntry.payload ++ acceptedIn M i s es := by
  induction es generalizing s with
  | nil =>
      cases hrun
      simp [acceptedIn]
  | cons e es ih =>
      obtain ⟨t, hstep, hrest⟩ := run_cons hrun
      have hsound := step_sound hstep
      rw [ih (carriesNothing_step hnothing hsound) hrest, payloads_step hnothing hsound i,
        List.append_assoc, acceptedIn, hstep]

theorem extends_node_run {es : List Event} (hnothing : s.CarriesNothing)
    (hrun : run (step M) s es = some s') (i : String) : Extends (s.node i) (s'.node i) := by
  have hstep : ∀ (t : Cluster) (e : Event) (t' : Cluster), t.CarriesNothing → True →
      step M t e = some t' → t'.CarriesNothing ∧ Extends (t.node i) (t'.node i) := by
    intro t e t' ht _ hstep
    have hsound := step_sound hstep
    exact ⟨carriesNothing_step ht hsound, (extends_of_moves ht (moves_of_step hsound i)).1⟩
  have hmeets : Meets (step M) (fun _ _ => True) s es :=
    meets_of_split hrun fun _ _ _ _ _ _ _ _ => trivial
  exact (run_related (R := fun t t' => Extends (t.node i) (t'.node i)) (fun t => .refl _)
    (fun _ _ _ => Extends.trans) hstep hnothing hmeets hrun).2

/-- **The Raft layer replicates nothing.**  In every run of a cluster of any size, with any
elections, commits and failures of messages, the log of a node holds behind the dummy entry
exactly what the node itself took from its clients, and what it has handed to its storage is
a beginning of this. -/
theorem raft_stores_own_submissions (M : Membership) (es : List Event) (s : Cluster)
    (hrun : run (step M) (init M) es = some s) (i : String) :
    (s.node i).logs.map LogEntry.payload =
        dummyEntry.payload :: acceptedIn M i (init M) es ∧
      (s.node i).puts.map (fun call => call.2.payload) <+: acceptedIn M i (init M) es := by
  have hnothing : (init M).CarriesNothing := by
    intro r hr
    cases hr
  have hlogs := payloads_run hnothing hrun i
  obtain ⟨-, p, hp, -, hsnd⟩ := (extends_node_run hnothing hrun i).puts
  refine ⟨hlogs, ?_⟩
  -- A new node has made no calls, and the calls follow the log.
  have hputs : (s.node i).puts = p := hp
  have hcalls : p.map (fun call => call.2.payload) =
      ((s.node i).logs.map LogEntry.payload).tail.take (s.node i).lastApplied := by
    have hpayloads := congrArg (List.map LogEntry.payload) hsnd
    rw [List.map_map, List.map_take, List.map_drop] at hpayloads
    rw [← List.drop_one]
    exact hpayloads
  rw [hputs, hcalls, hlogs]
  exact List.take_prefix _ _

/-- Node `a` commits an entry and stores it, and `b`, whose vote and whose answer to the heartbeat
counted for this, has not got it. -/
theorem committed_entry_not_at_peer :
    ∃ s, run (step pair) (init pair) commitAlone = some s ∧
      (s.node "a").puts.map (fun call => call.2.payload) = [("k", "v")] ∧
      (s.node "b").logs.map LogEntry.payload = [dummyEntry.payload] := by
  obtain ⟨s, hrun, hputs⟩ := exists_run_of_check (step pair) (init pair) commitAlone
    (fun t => (t.node "a").puts.map (fun call => call.2.payload) = [("k", "v")]) (by decide)
  refine ⟨s, hrun, hputs, ?_⟩
  rw [(raft_stores_own_submissions pair commitAlone s hrun "b").1]
  decide

end Cluster
end Raft
end YoloServer
