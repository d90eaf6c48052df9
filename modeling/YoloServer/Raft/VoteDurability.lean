import YoloServer.Raft.NodeRun

/-!
# Votes across restarts

`RaftNode.h` declares `m_currentTerm`, `m_votedFor` and `m_logs` as persistent
state, but nothing writes them to the data directory and the constructor starts
from term 0 without a vote.  A node that is started again can therefore vote a
second time in a term in which it has already voted.

* `votes_conflict_after_restart` is the shortest such run.
* `one_vote_per_term_of_no_restart_after_vote` shows that the restart is the
  only reason: as long as the node is not started again once it has voted, and
  no election wraps the term around, it never votes for two candidates in one
  term.
* `restart_forgets_vote` shows that the condition on restarts cannot be relaxed:
  after a restart, one request suffices to get a second vote out of the node.
-/

namespace YoloServer
namespace Raft

open Lib RaftNode

namespace History

/-- No two different non-empty candidates got a vote in the same term. -/
def OneVotePerTerm (h : History) : Prop :=
  ∀ v ∈ h.votes, ∀ w ∈ h.votes, v.term = w.term →
    v.candidate ≠ "" → w.candidate ≠ "" → v.candidate = w.candidate

instance (h : History) : Decidable h.OneVotePerTerm :=
  inferInstanceAs (Decidable (∀ _ ∈ _, ∀ _ ∈ _, _))

/-- The node is started again only while it has not voted for anybody, and it
starts an election only while its term can be incremented. -/
def NoRestartAfterVote (h : History) : NodeEvent → Prop
  | .restart => ∀ v ∈ h.votes, v.candidate = ""
  | .startElection _ => h.node.currentTerm + 1 < 2 ^ 64
  | _ => True

instance (h : History) : ∀ e, Decidable (h.NoRestartAfterVote e)
  | .restart => inferInstanceAs (Decidable (∀ _ ∈ _, _))
  | .startElection _ => inferInstanceAs (Decidable (_ < _))
  | .heartbeat _ => isTrue trivial
  | .handleRequestVote _ => isTrue trivial
  | .handleAppendEntries _ => isTrue trivial
  | .submitLog _ _ => isTrue trivial

/-- The invariant behind `OneVotePerTerm`: a vote of the current term is the one
in `votedFor`, and no vote is of a later term. -/
structure VotesHeld (h : History) : Prop where
  unique : h.OneVotePerTerm
  term : ∀ v ∈ h.votes, v.candidate ≠ "" → v.term ≤ h.node.currentTerm
  held : ∀ v ∈ h.votes, v.candidate ≠ "" → v.term = h.node.currentTerm →
    h.node.votedFor = v.candidate

theorem votesHeld_init (nodeId : String) (peers : List String) :
    (init nodeId peers).VotesHeld where
  unique := by simp [OneVotePerTerm, init]
  term := by simp [init]
  held := by simp [init]

/-- A restart of a node that has voted for nobody leaves nothing to remember. -/
theorem votesHeld_restart {h h' : History} (hnone : ∀ v ∈ h.votes, v.candidate = "")
    (hvotes : h'.votes = h.votes) : h'.VotesHeld where
  unique := by
    intro v hv w _ _ hne
    rw [hvotes] at hv
    exact absurd (hnone v hv) hne
  term := by
    intro v hv hne
    rw [hvotes] at hv
    exact absurd (hnone v hv) hne
  held := by
    intro v hv hne
    rw [hvotes] at hv
    exact absurd (hnone v hv) hne

/-- An old vote is still held if its term is the current one. -/
theorem VotesHeld.old {h : History} (hinv : h.VotesHeld) {m : RaftNode}
    (hkeep : VoteKeep h.node m) {v : Vote} (hv : v ∈ h.votes) (hne : v.candidate ≠ "") :
    v.term ≤ m.currentTerm ∧ (v.term = m.currentTerm → m.votedFor = v.candidate) := by
  have hle := hinv.term v hv hne
  refine ⟨hle.trans hkeep.term, ?_⟩
  intro heq
  have hback : m.currentTerm = h.node.currentTerm := le_antisymm (heq ▸ hle) hkeep.term
  have hvoted := hinv.held v hv hne (heq.trans hback)
  rw [hkeep.vote hback (hvoted ▸ hne), hvoted]

/-- A new vote agrees with every old vote of its term. -/
theorem VotesHeld.agrees {h : History} (hinv : h.VotesHeld) {e : NodeEvent} {m : RaftNode}
    (hexec : h.node.exec e = .ok m)
    (hterm : ∀ replies, e = .startElection replies → h.node.currentTerm + 1 < 2 ^ 64)
    {v w : Vote} (hv : v ∈ h.votes) (hw : w ∈ h.node.votesCast e) (heq : v.term = w.term)
    (hne : v.candidate ≠ "") (hne' : w.candidate ≠ "") : v.candidate = w.candidate := by
  obtain ⟨hlow, -, -, hfree⟩ := votesCast_spec hexec hterm hw hne'
  have hat : v.term = h.node.currentTerm := le_antisymm (hinv.term v hv hne) (heq ▸ hlow)
  have hvoted := hinv.held v hv hne hat
  -- The old vote is in `votedFor`, so the node was free for its candidate only.
  rcases hfree (heq ▸ hat) with hempty | hsame
  · exact absurd (hvoted.symm.trans hempty) hne
  · exact hvoted.symm.trans hsame

/-- The step lemma for all other events. -/
theorem votesHeld_exec {h h' : History} {e : NodeEvent} (hinv : h.VotesHeld)
    (hexec : h.node.exec e = .ok h'.node)
    (hvotes : h'.votes = h.votes ++ h.node.votesCast e)
    (hrestart : e ≠ .restart)
    (hterm : ∀ replies, e = .startElection replies → h.node.currentTerm + 1 < 2 ^ 64) :
    h'.VotesHeld := by
  have hkeep := voteKeep_exec hexec hrestart hterm
  have hall : ∀ v ∈ h'.votes, v.candidate ≠ "" → v.term ≤ h'.node.currentTerm ∧
      (v.term = h'.node.currentTerm → h'.node.votedFor = v.candidate) := by
    intro v hv hne
    rw [hvotes] at hv
    rcases List.mem_append.mp hv with hold | hnew
    · exact hinv.old hkeep hold hne
    · obtain ⟨-, hle, hheld, -⟩ := votesCast_spec hexec hterm hnew hne
      exact ⟨hle, hheld⟩
  refine ⟨?_, fun v hv hne => (hall v hv hne).1, fun v hv hne => (hall v hv hne).2⟩
  intro v hv w hw heq hne hne'
  rw [hvotes] at hv hw
  rcases List.mem_append.mp hv with hv | hv <;> rcases List.mem_append.mp hw with hw | hw
  · exact hinv.unique v hv w hw heq hne hne'
  · exact hinv.agrees hexec hterm hv hw heq hne hne'
  · exact (hinv.agrees hexec hterm hw hv heq.symm hne' hne).symm
  · rw [votesCast_unique hv hw]

theorem votesHeld_step {h h' : History} {e : NodeEvent} (hinv : h.VotesHeld)
    (hcond : h.NoRestartAfterVote e) (hstep : h.step e = some h') : h'.VotesHeld := by
  obtain ⟨hexec, hvotes⟩ := step_spec hstep
  by_cases hrestart : e = .restart
  · subst hrestart
    exact votesHeld_restart hcond (by simpa [votesCast] using hvotes)
  · apply votesHeld_exec hinv hexec hvotes hrestart
    rintro replies rfl
    exact hcond

/-- **Votes survive as long as the process does.**  In every run in which the
node is not started again once it has voted for somebody, and in which no
election wraps the term around, it never votes for two different non-empty
candidates in the same term. -/
theorem one_vote_per_term_of_no_restart_after_vote (nodeId : String) (peers : List String)
    (es : List NodeEvent) (h : History)
    (hmeets : Meets step NoRestartAfterVote (init nodeId peers) es)
    (hrun : run step (init nodeId peers) es = some h) : h.OneVotePerTerm :=
  (run_invariant VotesHeld (fun _ _ _ => votesHeld_step) (votesHeld_init nodeId peers) hmeets
    hrun).unique

/-- A run that satisfies the condition: the node is started again before it has
voted, and then votes in two terms. -/
theorem one_vote_per_term_restart_first :
    ∃ h, run step (init "n1" ["n2", "n3"])
        [.restart, .handleRequestVote ⟨1, "n2", 0, 0⟩, .startElection []] = some h ∧
      h.votes = [⟨1, "n2"⟩, ⟨2, "n1"⟩] ∧ h.OneVotePerTerm := by
  refine ⟨_, rfl, by decide, ?_⟩
  exact one_vote_per_term_of_no_restart_after_vote "n1" ["n2", "n3"]
    [.restart, .handleRequestVote ⟨1, "n2", 0, 0⟩, .startElection []] _ (by decide) rfl

/-- The node grants its vote of term 1 to `n2`, is started again, and grants its
vote of term 1 to `n3`. -/
theorem votes_conflict_after_restart :
    ∃ es h, run step (init "n1" ["n2", "n3"]) es = some h ∧ ¬ h.OneVotePerTerm := by
  refine ⟨[.handleRequestVote ⟨1, "n2", 0, 0⟩, .restart,
    .handleRequestVote ⟨1, "n3", 0, 0⟩], _, rfl, ?_⟩
  decide

/-- After a restart the node grants its vote of any term to any candidate,
whatever votes it has cast before. -/
theorem restart_forgets_vote {h h' : History} (hstep : h.step .restart = some h')
    (term : Nat) (candidate : String) :
    ∃ h'', h'.step (.handleRequestVote ⟨term, candidate, 0, 0⟩) = some h'' ∧
      h''.votes = h.votes ++ [⟨term, candidate⟩] := by
  obtain ⟨n', votes'⟩ := h'
  obtain ⟨hexec, hvotes⟩ := step_spec hstep
  simp only [votesCast, List.append_nil] at hvotes
  cases hexec
  refine ⟨_, rfl, ?_⟩
  rw [hvotes]
  by_cases hzero : 0 < term
  · simp [votesCast, handleRequestVote, castVote, adoptTerm, stepDown, logIsUpToDate, back,
      dummyEntry, hzero]
  · have hterm : term = 0 := by omega
    simp [votesCast, handleRequestVote, castVote, adoptTerm, logIsUpToDate, back,
      dummyEntry, hterm]

end History
end Raft
end YoloServer
