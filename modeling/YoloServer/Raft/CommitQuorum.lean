import YoloServer.Lib.Rank
import YoloServer.Raft.IndexInvariant
import YoloServer.Raft.Replication

/-!
# The quorum of the commit test

`heartbeatLoop` sorts the replicated indices of all nodes in descending order and
commits the one at position `(size - 1) / 2`, which is meant to be the highest
index that a majority of the nodes has replicated.

* `le_newCommitIndex_iff` says what the position stands for: the picked index is
  the highest one that more than `peers / 2` nodes have replicated.
* `majority_le_replicas_iff` compares that with the majority of `startElection`.
  In a cluster of even size the commit test is content with half of the nodes.
* `leader_tracksPeers` shows that in every run a leader counts each peer once.
* `half_of_four_commits` is a leader of four nodes that commits on two of them.
-/

namespace YoloServer
namespace Raft
namespace RaftNode

open Lib

variable {n m : RaftNode}

/-- The replicated index of each node: the last index of the leader, and the match
index of each peer. -/
def replicatedIndices (n : RaftNode) : List Nat :=
  (n.logs.length - 1) :: n.peers.map n.matchIndex.at

/-- The number of nodes that have replicated the index `k`. -/
def replicas (n : RaftNode) (k : Nat) : Nat :=
  n.replicatedIndices.countP (k ≤ ·)

/-- The map of match indices has one entry for each peer. -/
structure TracksPeers (n : RaftNode) : Prop where
  nodup : n.peers.Nodup
  keys : ∀ p, p ∈ n.matchIndex ↔ p ∈ n.peers

theorem length_replicatedIndices (n : RaftNode) :
    n.replicatedIndices.length = n.peers.length + 1 := by
  rw [replicatedIndices, List.length_cons, List.length_map]

/-- A larger index is replicated on fewer nodes. -/
theorem replicas_anti (n : RaftNode) {j k : Nat} (h : j ≤ k) : n.replicas k ≤ n.replicas j := by
  apply List.countP_mono_left
  intro i _ hk
  simp only [decide_eq_true_eq] at hk ⊢
  exact h.trans hk

/-- The picked index is the highest one that more than `peers / 2` nodes have
replicated. -/
theorem le_newCommitIndex_iff (h : n.TracksPeers) (k : Nat) :
    k ≤ n.newCommitIndex ↔ n.peers.length / 2 < n.replicas k := by
  -- The loop over the map visits the peers in some order.
  have hperm : ((n.logs.length - 1) :: n.matchIndex.values).Perm n.replicatedIndices :=
    (IndexMap.values_perm h.nodup h.keys).cons _
  have hlength := hperm.length_eq.trans n.length_replicatedIndices
  have hcount : ((n.logs.length - 1) :: n.matchIndex.values).countP (k ≤ ·) = n.replicas k :=
    hperm.countP_eq _
  rw [newCommitIndex, le_getD_insertionSort_iff (by omega), hcount, hlength,
    Nat.add_sub_cancel]

/-- More than `peers / 2` nodes have replicated the picked index. -/
theorem lt_replicas_newCommitIndex (h : n.TracksPeers) :
    n.peers.length / 2 < n.replicas n.newCommitIndex :=
  (le_newCommitIndex_iff h _).mp le_rfl

/-! ## Every leader counts all of its peers -/

/-- A leader has a match index for each of its peers. -/
def LeaderTracks (n : RaftNode) : Prop :=
  n.state = .Leader → ∀ p ∈ n.peers, p ∈ n.matchIndex

/-- A step that leads no new term and forgets no match index. -/
theorem LeaderTracks.quiet (h : n.LeaderTracks) (hquiet : Quiet n m)
    (hkeys : ∀ p ∈ n.matchIndex, p ∈ m.matchIndex) : m.LeaderTracks := by
  intro hlead p hp
  rw [hquiet.keep.peers] at hp
  exact hkeys p (h (hquiet.leader hlead).1 p hp)

theorem leaderTracks_finishElection (h : n.LeaderTracks) (votes : Nat) :
    (n.finishElection votes).LeaderTracks := by
  rcases finishElection_spec n votes with heq | ⟨-, heq⟩
  · rwa [heq]
  · rw [heq]
    intro _ p hp
    rw [← AList.lookup_isSome, IndexMap.lookup_foldl_insert, if_pos hp]
    rfl

theorem leaderTracks_onVoteReply (h : n.LeaderTracks) {votes : Nat}
    {reply : Option RequestVoteReply} {next : Option Nat}
    (hreply : n.onVoteReply votes reply = (m, next)) : m.LeaderTracks := by
  refine h.quiet (quiet_onVoteReply hreply) fun p hp => ?_
  rwa [matchIndex_onVoteReply hreply]

theorem leaderTracks_onAppendReply (h : n.LeaderTracks) {peer : String} {out : Outgoing}
    {reply : AppendEntriesReply} {goOn : Bool}
    (hon : n.onAppendReply peer out reply = .ok (m, goOn)) : m.LeaderTracks := by
  refine h.quiet (quiet_onAppendReply hon) fun p hp => ?_
  rcases onAppendReply_spec hon with
    ⟨-, -, hack⟩ | ⟨-, -, -, rfl⟩ | ⟨-, -, -, rfl⟩ | ⟨-, -, rfl⟩
  · rw [(matchIndex_advanceCommit hack).1, AList.mem_insert]
    exact .inr hp
  · exact hp
  · exact hp
  · exact hp

theorem leaderTracks_exec (h : n.LeaderTracks) {e : NodeEvent} (hexec : n.exec e = .ok m) :
    m.LeaderTracks := by
  cases e with
  | startElection replies =>
      cases hexec
      -- The candidate is no leader, so the loop may start with any match indices.
      have hbegin : n.beginElection.LeaderTracks := by simp [LeaderTracks, beginElection]
      exact electionRound_related (R := fun n m => n.LeaderTracks → m.LeaderTracks)
        (fun _ _ _ h₁ h₂ h => h₂ (h₁ h))
        (fun _ _ _ _ _ hreply h => leaderTracks_onVoteReply h hreply)
        (fun _ votes h => leaderTracks_finishElection h votes) _ 1 n.peers replies hbegin
  | heartbeat replies =>
      exact heartbeatRound_related (R := fun n m => n.LeaderTracks → m.LeaderTracks)
        (fun _ h => h) (fun _ _ _ h₁ h₂ h => h₂ (h₁ h))
        (fun _ _ _ _ _ _ hon h => leaderTracks_onAppendReply h hon) hexec h
  | handleRequestVote args =>
      cases hexec
      have hhandle := (Prod.eta (n.handleRequestVote args)).symm
      refine h.quiet (quiet_handleRequestVote hhandle) fun p hp => ?_
      rwa [matchIndex_handleRequestVote hhandle]
  | handleAppendEntries args =>
      obtain ⟨reply, hhandle⟩ := exec_handleAppendEntries.mp hexec
      rcases handleAppendEntries_spec hhandle with
        ⟨-, rfl, -⟩ | ⟨-, -, rfl, -⟩ | ⟨-, -, hfollow, -⟩
      · exact h
      · simp [LeaderTracks, follow]
      · obtain ⟨c, a, p, rfl, -⟩ := followCommit_spec hfollow
        simp [LeaderTracks, merge, follow]
  | submitLog key value =>
      cases hexec
      rcases submitLog_spec n key value with heq | ⟨-, heq⟩
      · rwa [heq]
      · rw [heq]
        exact h
  | restart =>
      cases hexec
      simp [LeaderTracks, new]

/-- In every run of a node, whatever the other nodes answer, a leader counts each of
its peers once. -/
theorem leader_tracksPeers {nodeId : String} {peers : List String} (hnodup : peers.Nodup)
    {es : List NodeEvent} {n : RaftNode} (hrun : run step (new nodeId peers) es = some n)
    (hlead : n.state = .Leader) : n.TracksPeers := by
  have hinv : (n.BookInv ∧ n.LeaderTracks) ∧ n.peers = peers := by
    refine run_preserves (fun n => (n.BookInv ∧ n.LeaderTracks) ∧ n.peers = peers) ?_
      ⟨⟨bookInv_new nodeId peers, by simp [LeaderTracks, new]⟩, rfl⟩ hrun
    intro s e s' hs hstep
    have hexec := step_eq_some.mp hstep
    exact ⟨⟨bookInv_exec hs.1.1 hexec, leaderTracks_exec hs.1.2 hexec⟩,
      (exec_identity hexec).2.trans hs.2⟩
  refine ⟨hinv.2 ▸ hnodup, fun p => ⟨fun hp => ?_, hinv.1.2 hlead p⟩⟩
  obtain ⟨v, hv⟩ := Option.isSome_iff_exists.mp (AList.lookup_isSome.mpr hp)
  exact hinv.1.1.keys p v hv

/-! ## The commit quorum and the election quorum -/

/-- **The commit quorum against the election quorum.**  The index that the leader
picks is replicated on a majority of the nodes exactly if no index is replicated on
exactly half of them.  In a cluster of odd size there is no such index. -/
theorem majority_le_replicas_iff (n : RaftNode) (h : n.TracksPeers) :
    majority n.peers ≤ n.replicas n.newCommitIndex ↔
      ∀ k, 2 * n.replicas k ≠ n.peers.length + 1 := by
  have hpicked := lt_replicas_newCommitIndex h
  unfold majority
  constructor
  · intro hmajority k hhalf
    -- An index on half of the nodes is below the picked one, which is on no fewer.
    have hle : k ≤ n.newCommitIndex := (le_newCommitIndex_iff h k).mpr (by omega)
    have hfewer := n.replicas_anti hle
    omega
  · intro hhalf
    have hne := hhalf n.newCommitIndex
    omega

/-- A node is elected by two peers, takes an entry and gets an answer from the first
of its peers. -/
def firstAnswer : List NodeEvent :=
  [.startElection [some ⟨1, true⟩, some ⟨1, true⟩], .submitLog "k" "v",
    .heartbeat [some ⟨1, true⟩]]

/-- In a cluster of three the first answer makes a majority. -/
theorem commit_quorum_of_three :
    ∃ n, run step (new "n1" ["n2", "n3"]) firstAnswer = some n ∧ n.commitIndex = 1 ∧
      majority n.peers ≤ n.replicas n.newCommitIndex := by
  obtain ⟨n, hrun, hlead, hpeers, hcommit⟩ :=
    exists_run_of_check step (new "n1" ["n2", "n3"]) firstAnswer
      (fun n => n.state = .Leader ∧ n.peers = ["n2", "n3"] ∧ n.commitIndex = 1) (by decide)
  refine ⟨n, hrun, hcommit, ?_⟩
  refine (majority_le_replicas_iff n (leader_tracksPeers (by decide) hrun hlead)).mpr ?_
  intro k
  -- Twice a number is not 3.
  rw [hpeers, List.length_cons, List.length_singleton]
  omega

/-- In a cluster of four the leader commits after the same answer, when two nodes have
the entry. -/
theorem half_of_four_commits :
    ∃ n, run step (new "n1" ["n2", "n3", "n4"]) firstAnswer = some n ∧ n.TracksPeers ∧
      n.commitIndex = 1 ∧ ¬ majority n.peers ≤ n.replicas n.newCommitIndex := by
  obtain ⟨n, hrun, hlead, hrest⟩ :=
    exists_run_of_check step (new "n1" ["n2", "n3", "n4"]) firstAnswer
      (fun n => n.state = .Leader ∧ n.commitIndex = 1 ∧
        ¬ majority n.peers ≤ n.replicas n.newCommitIndex) (by decide)
  exact ⟨n, hrun, leader_tracksPeers (by decide) hrun hlead, hrest⟩

end RaftNode
end Raft
end YoloServer
