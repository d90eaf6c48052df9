import YoloServer.Raft.NodeSpec

/-!
# Runs of a single node

A node driven by an arbitrary environment: requests with arbitrary arguments,
elections and heartbeat rounds with arbitrary outcomes of the RPCs, client
submissions, and restarts.  `exec` executes one event and fails where the
source would access `m_logs` out of range; `step` is `exec` as a partial
transition function.

Votes leave no trace in the state of a node once its term has moved on, so a
`History` keeps beside the node the list of all votes it has cast, over all of
its incarnations.
-/

namespace YoloServer
namespace Raft

open Lib

/-- What can happen to a node. -/
inductive NodeEvent where
  | startElection (replies : List (Option RequestVoteReply))
  | heartbeat (replies : List (Option AppendEntriesReply))
  | handleRequestVote (args : RequestVoteArgs)
  | handleAppendEntries (args : AppendEntriesArgs)
  | submitLog (key value : String)
  | restart

namespace RaftNode

/-- One event at a node.  A restart constructs a new `RaftNode` with the same id
and peers; the constructor reads nothing back from the data directory. -/
def exec (n : RaftNode) : NodeEvent → Except OutOfRange RaftNode
  | .startElection replies => .ok (n.startElection replies)
  | .heartbeat replies => n.heartbeatRound replies
  | .handleRequestVote args => .ok (n.handleRequestVote args).1
  | .handleAppendEntries args => do
      let (m, _) ← n.handleAppendEntries args
      pure m
  | .submitLog key value => .ok (n.submitLog key value).1
  | .restart => .ok (new n.nodeId n.peers)

/-- `exec` as a partial transition function. -/
def step (n : RaftNode) (e : NodeEvent) : Option RaftNode :=
  (n.exec e).toOption

theorem step_eq_some {n m : RaftNode} {e : NodeEvent} :
    n.step e = some m ↔ n.exec e = .ok m := by
  unfold step
  cases n.exec e with
  | error err => simp [Except.toOption]
  | ok r => simp [Except.toOption]

/-- The event of an AppendEntries, without its answer. -/
theorem exec_handleAppendEntries {n m : RaftNode} {args : AppendEntriesArgs} :
    n.exec (.handleAppendEntries args) = .ok m ↔
      ∃ reply, n.handleAppendEntries args = .ok (m, reply) := by
  constructor
  · intro h
    obtain ⟨⟨m', reply⟩, hhandle, hret⟩ := bind_eq_ok.mp h
    cases hret
    exact ⟨reply, hhandle⟩
  · rintro ⟨reply, hhandle⟩
    exact bind_eq_ok.mpr ⟨(m, reply), hhandle, rfl⟩

/-- A vote: the term and the id of the candidate. -/
structure Vote where
  term : Nat
  candidate : String
  deriving DecidableEq, Repr

/-- The votes a node casts in one event: `startElection` votes for the node
itself, `handleRequestVote` for the candidate if it answers `voteGranted`. -/
def votesCast (n : RaftNode) : NodeEvent → List Vote
  | .startElection _ => [⟨n.beginElection.currentTerm, n.nodeId⟩]
  | .handleRequestVote args =>
      if (n.handleRequestVote args).2.voteGranted then
        [⟨(n.handleRequestVote args).2.term, args.candidateId⟩]
      else
        []
  | _ => []

/-- An event casts at most one vote. -/
theorem votesCast_unique {n : RaftNode} {e : NodeEvent} {v w : Vote} (hv : v ∈ n.votesCast e)
    (hw : w ∈ n.votesCast e) : v = w := by
  cases e with
  | startElection replies =>
      rw [votesCast, List.mem_singleton] at hv hw
      rw [hv, hw]
  | handleRequestVote args =>
      simp only [votesCast] at hv hw
      split_ifs at hv hw
      · rw [List.mem_singleton.mp hv, List.mem_singleton.mp hw]
      · cases hv
  | _ => cases hv

/-- Every event but a restart and an overflowing election keeps the vote. -/
theorem voteKeep_exec {n m : RaftNode} {e : NodeEvent} (h : n.exec e = .ok m)
    (hrestart : e ≠ .restart)
    (hterm : ∀ replies, e = .startElection replies → n.currentTerm + 1 < 2 ^ 64) :
    VoteKeep n m := by
  cases e with
  | startElection replies =>
      cases h
      exact voteKeep_startElection (hterm replies rfl) replies
  | heartbeat replies => exact voteKeep_heartbeatRound h
  | handleRequestVote args =>
      cases h
      exact voteKeep_handleRequestVote (Prod.eta (n.handleRequestVote args)).symm
  | handleAppendEntries args =>
      obtain ⟨reply, hhandle⟩ := exec_handleAppendEntries.mp h
      exact voteKeep_handleAppendEntries hhandle
  | submitLog key value =>
      cases h
      exact voteKeep_submitLog n key value
  | restart => exact absurd rfl hrestart

/-- Every event keeps the id and the peers of the node. -/
theorem exec_identity {n m : RaftNode} {e : NodeEvent} (h : n.exec e = .ok m) :
    m.nodeId = n.nodeId ∧ m.peers = n.peers := by
  cases e with
  | startElection replies =>
      cases h
      have hkeep := voteKeep_electionRound n.beginElection 1 n.peers replies
      exact ⟨hkeep.nodeId, hkeep.peers⟩
  | restart =>
      cases h
      exact ⟨rfl, rfl⟩
  | _ =>
      have hkeep := voteKeep_exec h (by simp) (by simp)
      exact ⟨hkeep.nodeId, hkeep.peers⟩

/-- A vote cast by an event is for a term in which the node was free to vote,
and is recorded in `votedFor` as long as the term lasts. -/
theorem votesCast_spec {n m : RaftNode} {e : NodeEvent} {v : Vote} (h : n.exec e = .ok m)
    (hterm : ∀ replies, e = .startElection replies → n.currentTerm + 1 < 2 ^ 64)
    (hv : v ∈ n.votesCast e) (hne : v.candidate ≠ "") :
    n.currentTerm ≤ v.term ∧ v.term ≤ m.currentTerm ∧
      (v.term = m.currentTerm → m.votedFor = v.candidate) ∧
      (v.term = n.currentTerm → n.votedFor = "" ∨ n.votedFor = v.candidate) := by
  cases e with
  | startElection replies =>
      cases h
      simp only [votesCast, List.mem_singleton] at hv
      subst hv
      have hbegin : n.beginElection.currentTerm = n.currentTerm + 1 :=
        u64_of_lt (hterm replies rfl)
      have hkeep := voteKeep_electionRound n.beginElection 1 n.peers replies
      refine ⟨by simp only; omega, hkeep.term, ?_, ?_⟩
      · intro heq
        exact hkeep.vote heq.symm hne
      · intro heq
        simp only at heq
        omega
  | handleRequestVote args =>
      cases h
      simp only [votesCast] at hv
      split_ifs at hv with hgrant
      · simp only [List.mem_singleton] at hv
        subst hv
        rcases handleRequestVote_spec (Prod.eta (n.handleRequestVote args)).symm with
          ⟨-, -, hreply⟩ | ⟨-, -, hreply⟩ | ⟨hle, hfree, -, hm, hreply⟩
        · simp [hreply] at hgrant
        · simp [hreply] at hgrant
        · rw [hm, hreply]
          refine ⟨hle, by simp [hle], fun _ => rfl, ?_⟩
          intro heq
          have hsame : n.adoptTerm args.term = n := by
            simp only at heq
            simp [adoptTerm, heq]
          rwa [hsame] at hfree
      · simp at hv
  | _ => cases hv

end RaftNode

/-- A node together with all the votes it has ever cast. -/
structure History where
  node : RaftNode
  votes : List RaftNode.Vote

namespace History

def step (h : History) (e : NodeEvent) : Option History :=
  (h.node.step e).map fun n => ⟨n, h.votes ++ h.node.votesCast e⟩

/-- A node that is started for the first time. -/
def init (nodeId : String) (peers : List String) : History :=
  ⟨RaftNode.new nodeId peers, []⟩

theorem step_spec {h h' : History} {e : NodeEvent} (hstep : h.step e = some h') :
    h.node.exec e = .ok h'.node ∧ h'.votes = h.votes ++ h.node.votesCast e := by
  obtain ⟨n, hn, rfl⟩ := Option.map_eq_some_iff.mp hstep
  exact ⟨RaftNode.step_eq_some.mp hn, rfl⟩

end History
end Raft
end YoloServer
