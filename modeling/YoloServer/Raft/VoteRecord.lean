import YoloServer.Raft.VoteDurability

/-!
# The record of the vote

`m_votedFor` holds the id of the candidate that got the vote of the current term, and
the empty string stands for no vote.  The record can go wrong in two ways.

* A candidate may have the empty id.  A vote for it leaves no trace, and the node
  votes again in the same term.  `one_candidate_per_term` shows that nothing else
  makes a running node vote twice, and `second_vote_after_empty_id` that a vote for
  the empty id always makes it possible.
* `handleAppendEntries` raises the term and keeps the vote of the old one.
  `vote_of_current_term` shows that nothing else separates the record from the term,
  and `stale_vote_of_raise` that this does as soon as there is a vote.
-/

namespace YoloServer
namespace Raft

open Lib RaftNode

namespace RaftNode

variable {n m l : RaftNode}

/-! ## The record across a step -/

/-- The vote and its term stay, or the record is cleared. -/
def RecordKept (n m : RaftNode) : Prop :=
  (m.currentTerm = n.currentTerm ∧ m.votedFor = n.votedFor) ∨ m.votedFor = ""

theorem RecordKept.refl (n : RaftNode) : RecordKept n n :=
  .inl ⟨rfl, rfl⟩

theorem RecordKept.trans (h₁ : RecordKept l n) (h₂ : RecordKept n m) : RecordKept l m := by
  rcases h₂ with ⟨hterm, hvote⟩ | hclear
  · rcases h₁ with ⟨hterm', hvote'⟩ | hclear'
    · exact .inl ⟨hterm.trans hterm', hvote.trans hvote'⟩
    · exact .inr (hvote.trans hclear')
  · exact .inr hclear

theorem recordKept_onVoteReply {votes : Nat} {reply : Option RequestVoteReply}
    {next : Option Nat} (h : n.onVoteReply votes reply = (m, next)) : RecordKept n m := by
  rcases onVoteReply_spec h with ⟨rfl, -⟩ | ⟨r, -, -, rfl, -⟩
  · exact .refl _
  · exact .inr rfl

theorem recordKept_finishElection (n : RaftNode) (votes : Nat) :
    RecordKept n (n.finishElection votes) := by
  rcases finishElection_spec n votes with heq | ⟨-, heq⟩
  · rw [heq]
    exact .refl n
  · rw [heq]
    exact .inl ⟨rfl, rfl⟩

/-- The loop of `startElection` keeps the vote of the candidate for itself. -/
theorem recordKept_startElection (n : RaftNode) (replies : List (Option RequestVoteReply)) :
    RecordKept n.beginElection (n.startElection replies) :=
  electionRound_related (R := RecordKept) (fun _ _ _ => RecordKept.trans)
    (fun _ _ _ _ _ => recordKept_onVoteReply) recordKept_finishElection
    n.beginElection 1 n.peers replies

theorem recordKept_onAppendReply {peer : String} {out : Outgoing} {reply : AppendEntriesReply}
    {goOn : Bool} (h : n.onAppendReply peer out reply = .ok (m, goOn)) : RecordKept n m := by
  rcases onAppendReply_spec h with
    ⟨-, -, hack⟩ | ⟨-, -, -, rfl⟩ | ⟨-, -, -, rfl⟩ | ⟨-, -, rfl⟩
  · rcases advanceCommit_spec hack with rfl | ⟨_, _, _, _, _, rfl, _⟩
    · exact .inl ⟨rfl, rfl⟩
    · exact .inl ⟨rfl, rfl⟩
  · exact .inr rfl
  · exact .inl ⟨rfl, rfl⟩
  · exact .refl _

theorem recordKept_heartbeatRound {replies : List (Option AppendEntriesReply)}
    (h : n.heartbeatRound replies = .ok m) : RecordKept n m :=
  heartbeatRound_related (R := RecordKept) RecordKept.refl (fun _ _ _ => RecordKept.trans)
    (fun _ _ _ _ _ _ => recordKept_onAppendReply) h

theorem recordKept_adoptTerm (n : RaftNode) (term : Nat) : RecordKept n (n.adoptTerm term) := by
  unfold adoptTerm
  split_ifs
  · exact .inr rfl
  · exact .refl n

/-- A request is granted if it is not stale, comes from an up-to-date candidate, and
finds no vote for another one in the record of its term. -/
theorem voteGranted_iff {args : RequestVoteArgs} :
    (n.handleRequestVote args).2.voteGranted = true ↔
      n.currentTerm ≤ args.term ∧ n.logIsUpToDate args ∧
        (n.currentTerm < args.term ∨ n.votedFor = "" ∨ n.votedFor = args.candidateId) := by
  unfold handleRequestVote
  by_cases hstale : args.term < n.currentTerm
  · simp only [if_pos hstale, Bool.false_eq_true, false_iff]
    omega
  · rw [if_neg hstale, castVote]
    by_cases hlt : n.currentTerm < args.term
    · simp only [adoptTerm, if_pos hlt, stepDown, logIsUpToDate]
      split_ifs with hgrant
      · simpa [hlt, hlt.le] using hgrant
      · simpa [hlt, hlt.le] using hgrant
    · have hle : n.currentTerm ≤ args.term := by omega
      simp only [adoptTerm, if_neg hlt]
      split_ifs with hgrant
      · simpa [hlt, hle, and_comm] using hgrant
      · simpa [hlt, hle, and_comm] using hgrant

/-- A granted request is recorded as the vote of its term. -/
theorem handleRequestVote_granted {args : RequestVoteArgs}
    (h : (n.handleRequestVote args).2.voteGranted = true) :
    (n.handleRequestVote args).1.currentTerm = args.term ∧
      (n.handleRequestVote args).1.votedFor = args.candidateId ∧
      (n.handleRequestVote args).1.logs = n.logs ∧
      n.votesCast (.handleRequestVote args) = [⟨args.term, args.candidateId⟩] := by
  rcases handleRequestVote_spec (Prod.eta (n.handleRequestVote args)).symm with
    ⟨-, -, hreply⟩ | ⟨-, -, hreply⟩ | ⟨hle, -, -, hm, hreply⟩
  · simp [hreply] at h
  · simp [hreply] at h
  · refine ⟨?_, ?_, ?_, ?_⟩
    · rw [hm]
      exact adoptTerm_currentTerm hle
    · rw [hm]
    · rw [hm]
      exact adoptTerm_logs n args.term
    · rw [votesCast, if_pos h, hreply]

/-- `handleAppendEntries` keeps the vote, and takes over the term of a leader. -/
theorem handleAppendEntries_record {args : AppendEntriesArgs} {reply : AppendEntriesReply}
    (h : n.handleAppendEntries args = .ok (m, reply)) :
    m.votedFor = n.votedFor ∧ m.currentTerm = max n.currentTerm args.term := by
  rcases handleAppendEntries_spec h with
    ⟨hstale, rfl, -⟩ | ⟨hle, -, rfl, -⟩ | ⟨hle, -, hfollow, -⟩
  · exact ⟨rfl, by omega⟩
  · exact ⟨rfl, (max_eq_right hle).symm⟩
  · obtain ⟨c, a, p, rfl, -⟩ := followCommit_spec hfollow
    exact ⟨rfl, (max_eq_right hle).symm⟩

theorem recordKept_submitLog (n : RaftNode) (key value : String) :
    RecordKept n (n.submitLog key value).1 := by
  rcases submitLog_spec n key value with heq | ⟨-, heq⟩
  · rw [heq]
    exact .refl n
  · rw [heq]
    exact .inl ⟨rfl, rfl⟩

end RaftNode

namespace History

variable {h h' : History} {e : NodeEvent}

/-! ## Votes for the empty id -/

/-- No two different candidates got a vote in the same term. -/
def OneCandidatePerTerm (h : History) : Prop :=
  ∀ v ∈ h.votes, ∀ w ∈ h.votes, v.term = w.term → v.candidate = w.candidate

instance (h : History) : Decidable h.OneCandidatePerTerm :=
  inferInstanceAs (Decidable (∀ _ ∈ _, ∀ _ ∈ _, _))

/-- The node goes on running, and starts an election only while its term can be
incremented. -/
def Running (h : History) : NodeEvent → Prop
  | .restart => False
  | .startElection _ => h.node.currentTerm + 1 < 2 ^ 64
  | _ => True

/-- A request of a candidate with the empty id is refused: it is stale, or the vote of
its term is gone, or the candidate's log is not up to date. -/
def EmptyIdRefused (h : History) : NodeEvent → Prop
  | .handleRequestVote args => args.candidateId = "" →
      args.term < h.node.currentTerm ∨
        (args.term = h.node.currentTerm ∧ h.node.votedFor ≠ "") ∨ ¬ h.node.logIsUpToDate args
  | _ => True

instance (h : History) : ∀ e, Decidable (h.Running e)
  | .restart => isFalse id
  | .startElection _ => inferInstanceAs (Decidable (_ < _))
  | .heartbeat _ => isTrue trivial
  | .handleRequestVote _ => isTrue trivial
  | .handleAppendEntries _ => isTrue trivial
  | .submitLog _ _ => isTrue trivial

instance (h : History) : ∀ e, Decidable (h.EmptyIdRefused e)
  | .handleRequestVote _ => inferInstanceAs (Decidable (_ → _))
  | .restart => isTrue trivial
  | .startElection _ => isTrue trivial
  | .heartbeat _ => isTrue trivial
  | .handleAppendEntries _ => isTrue trivial
  | .submitLog _ _ => isTrue trivial

/-- The step lemma: no vote is for the empty id. -/
theorem named_votesCast (hid : h.node.nodeId ≠ "") (hcond : h.EmptyIdRefused e)
    {v : Vote} (hv : v ∈ h.node.votesCast e) : v.candidate ≠ "" := by
  cases e with
  | startElection replies =>
      rw [votesCast, List.mem_singleton] at hv
      rw [hv]
      exact hid
  | handleRequestVote args =>
      simp only [votesCast] at hv
      split_ifs at hv with hgrant
      · rw [List.mem_singleton] at hv
        rw [hv]
        intro hempty
        obtain ⟨hle, huptodate, hfree⟩ := voteGranted_iff.mp hgrant
        rcases hcond hempty with hstale | ⟨hterm, hvoted⟩ | hold
        · omega
        · rcases hfree with hlt | hnone | hsame
          · omega
          · exact hvoted hnone
          · exact hvoted (hsame.trans hempty)
        · exact hold huptodate
      · cases hv
  | _ => cases hv

/-- The invariant: the votes are held, and they are for candidates with a name. -/
structure NamedVotes (h : History) : Prop where
  held : h.VotesHeld
  nodeId : h.node.nodeId ≠ ""
  named : ∀ v ∈ h.votes, v.candidate ≠ ""

theorem namedVotes_step (hinv : h.NamedVotes) (hrunning : h.Running e)
    (hcond : h.EmptyIdRefused e) (hstep : h.step e = some h') : h'.NamedVotes := by
  obtain ⟨hexec, hvotes⟩ := step_spec hstep
  have hrestart : e ≠ .restart := by
    rintro rfl
    exact hrunning
  have hterm : ∀ replies, e = .startElection replies → h.node.currentTerm + 1 < 2 ^ 64 := by
    rintro replies rfl
    exact hrunning
  refine ⟨votesHeld_exec hinv.held hexec hvotes hrestart hterm, ?_, ?_⟩
  · rw [(exec_identity hexec).1]
    exact hinv.nodeId
  · intro v hv
    rw [hvotes] at hv
    rcases List.mem_append.mp hv with hold | hnew
    · exact hinv.named v hold
    · exact named_votesCast hinv.nodeId hcond hnew

/-- **One vote per term.**  A node with a name that goes on running, and whose term is
not wrapped around, votes for one candidate at most in each term, in every run in which
requests with the empty id are refused. -/
theorem one_candidate_per_term (n : RaftNode) (hid : n.nodeId ≠ "") (es : List NodeEvent)
    (h : History) (hrunning : Meets step Running ⟨n, []⟩ es)
    (hmeets : Meets step EmptyIdRefused ⟨n, []⟩ es) (hrun : run step ⟨n, []⟩ es = some h) :
    h.OneCandidatePerTerm := by
  have hinit : NamedVotes ⟨n, []⟩ :=
    ⟨⟨by simp [OneVotePerTerm], by simp, by simp⟩, hid, by simp⟩
  have hinv : h.NamedVotes :=
    run_invariant NamedVotes (fun _ _ _ h hcond hstep => namedVotes_step h hcond.1 hcond.2 hstep)
      hinit (hrunning.and hmeets) hrun
  intro v hv w hw heq
  exact hinv.held.unique v hv w hw heq (hinv.named v hv) (hinv.named w hw)

/-- A request with the empty id comes after the vote of its term. -/
theorem empty_id_after_vote :
    ∃ h, run step ⟨new "n1" ["n2", "n3"], []⟩
        [.handleRequestVote ⟨1, "n2", 0, 0⟩, .handleRequestVote ⟨1, "", 0, 0⟩,
          .startElection []] = some h ∧
      h.votes = [⟨1, "n2"⟩, ⟨2, "n1"⟩] ∧ h.OneCandidatePerTerm := by
  refine ⟨_, rfl, by decide, ?_⟩
  exact one_candidate_per_term (new "n1" ["n2", "n3"]) (by decide)
    [.handleRequestVote ⟨1, "n2", 0, 0⟩, .handleRequestVote ⟨1, "", 0, 0⟩,
      .startElection []] _ (by decide) (by decide) rfl

/-- The node votes for the empty id, which leaves the record empty, and then for `n2`. -/
theorem two_votes_with_empty_id :
    ∃ es h, Meets step Running ⟨new "n1" ["n2", "n3"], []⟩ es ∧
      run step ⟨new "n1" ["n2", "n3"], []⟩ es = some h ∧ ¬ h.OneCandidatePerTerm :=
  ⟨[.handleRequestVote ⟨1, "", 0, 0⟩, .handleRequestVote ⟨1, "n2", 0, 0⟩], _, by decide, rfl,
    by decide⟩

/-- A request with the empty id that is not refused always makes a second vote possible,
for any other candidate. -/
theorem second_vote_after_empty_id {args : RequestVoteArgs}
    (hgrant : ¬ h.EmptyIdRefused (.handleRequestVote args)) {candidate : String}
    (hname : candidate ≠ "") :
    ∃ h', run step h [.handleRequestVote args,
        .handleRequestVote { args with candidateId := candidate }] = some h' ∧
      ¬ h'.OneCandidatePerTerm := by
  simp only [EmptyIdRefused, Classical.not_imp, not_or, not_and, not_not, not_lt] at hgrant
  obtain ⟨hempty, hle, hfree, huptodate⟩ := hgrant
  have hfirst : (h.node.handleRequestVote args).2.voteGranted = true := by
    refine voteGranted_iff.mpr ⟨hle, huptodate, ?_⟩
    rcases hle.lt_or_eq with hlt | heq
    · exact .inl hlt
    · exact .inr (.inl (hfree heq.symm))
  obtain ⟨hterm, hvoted, hlogs, hcast⟩ := handleRequestVote_granted hfirst
  -- The record is empty again, and the log is the same.
  have hsecond : ((h.node.handleRequestVote args).1.handleRequestVote
      { args with candidateId := candidate }).2.voteGranted = true := by
    refine voteGranted_iff.mpr ⟨hterm.le, ?_, .inr (.inl (hvoted.trans hempty))⟩
    simpa only [logIsUpToDate, hlogs] using huptodate
  obtain ⟨-, -, -, hcast'⟩ := handleRequestVote_granted hsecond
  refine ⟨_, rfl, fun hone => hname ?_⟩
  have heq := hone ⟨args.term, ""⟩ ?_ ⟨args.term, candidate⟩ ?_ rfl
  · exact heq.symm
  · simp [hcast, hempty]
  · simp [hcast']

/-! ## Votes of an earlier term -/

/-- The record is empty or holds a vote that the node has cast in its current term. -/
def VoteCurrent (h : History) : Prop :=
  h.node.votedFor = "" ∨ ⟨h.node.currentTerm, h.node.votedFor⟩ ∈ h.votes

instance (h : History) : Decidable h.VoteCurrent :=
  inferInstanceAs (Decidable (_ ∨ _))

/-- A node that has not voted in its current term grants its vote to every candidate of
that term whose log is up to date. -/
def FreeToVote (h : History) : Prop :=
  (∀ v ∈ h.votes, v.term ≠ h.node.currentTerm) →
    ∀ args : RequestVoteArgs, args.term = h.node.currentTerm → h.node.logIsUpToDate args →
      (h.node.handleRequestVote args).2.voteGranted = true

/-- An AppendEntries that raises the term finds no vote in the record. -/
def RaisedUnvoted (h : History) : NodeEvent → Prop
  | .handleAppendEntries args => args.term ≤ h.node.currentTerm ∨ h.node.votedFor = ""
  | _ => True

instance (h : History) : ∀ e, Decidable (h.RaisedUnvoted e)
  | .handleAppendEntries _ => inferInstanceAs (Decidable (_ ∨ _))
  | .handleRequestVote _ => isTrue trivial
  | .restart => isTrue trivial
  | .startElection _ => isTrue trivial
  | .heartbeat _ => isTrue trivial
  | .submitLog _ _ => isTrue trivial

theorem VoteCurrent.freeToVote (hcurrent : h.VoteCurrent) : h.FreeToVote := by
  intro hnone args hterm huptodate
  have hempty : h.node.votedFor = "" := by
    rcases hcurrent with hempty | hvote
    · exact hempty
    · exact absurd rfl (hnone _ hvote)
  exact voteGranted_iff.mpr ⟨hterm.ge, huptodate, .inr (.inl hempty)⟩

theorem VoteCurrent.kept (hcurrent : h.VoteCurrent) (hkept : RecordKept h.node h'.node)
    (hvotes : ∀ v ∈ h.votes, v ∈ h'.votes) : h'.VoteCurrent := by
  rcases hkept with ⟨hterm, hvoted⟩ | hclear
  · rw [VoteCurrent, hterm, hvoted]
    exact hcurrent.imp_right (hvotes _)
  · exact .inl hclear

/-- The step lemma: every event but an AppendEntries that raises the term keeps the
record in step with the term. -/
theorem voteCurrent_step (hcurrent : h.VoteCurrent) (hcond : h.RaisedUnvoted e)
    (hstep : h.step e = some h') : h'.VoteCurrent := by
  obtain ⟨hexec, hvotes⟩ := step_spec hstep
  have hold : ∀ v ∈ h.votes, v ∈ h'.votes := by
    intro v hv
    rw [hvotes]
    exact List.mem_append_left _ hv
  have hnew : ∀ v ∈ h.node.votesCast e, v ∈ h'.votes := by
    intro v hv
    rw [hvotes]
    exact List.mem_append_right _ hv
  cases e with
  | startElection replies =>
      have hkept := recordKept_startElection h.node replies
      rw [Except.ok.inj hexec] at hkept
      rcases hkept with ⟨hterm, hvoted⟩ | hclear
      · -- The node has voted for itself.
        right
        rw [hterm, hvoted]
        exact hnew _ (List.mem_singleton.mpr rfl)
      · exact .inl hclear
  | heartbeat replies => exact hcurrent.kept (recordKept_heartbeatRound hexec) hold
  | handleRequestVote args =>
      have hnode : h'.node = (h.node.handleRequestVote args).1 := (Except.ok.inj hexec).symm
      by_cases hgrant : (h.node.handleRequestVote args).2.voteGranted = true
      · obtain ⟨hterm, hvoted, -, hcast⟩ := handleRequestVote_granted hgrant
        right
        rw [hnode, hterm, hvoted]
        exact hnew _ (by rw [hcast]; exact List.mem_singleton.mpr rfl)
      · refine hcurrent.kept ?_ hold
        rcases handleRequestVote_spec (Prod.eta (h.node.handleRequestVote args)).symm with
          ⟨-, hm, -⟩ | ⟨-, hm, -⟩ | ⟨-, -, -, -, hreply⟩
        · rw [hnode, hm]
          exact .refl _
        · rw [hnode, hm]
          exact recordKept_adoptTerm h.node args.term
        · exact absurd (by rw [hreply]) hgrant
  | handleAppendEntries args =>
      obtain ⟨reply, hhandle⟩ := exec_handleAppendEntries.mp hexec
      obtain ⟨hvoted, hterm⟩ := handleAppendEntries_record hhandle
      rcases hcond with hle | hempty
      · exact hcurrent.kept (.inl ⟨by rw [hterm, max_eq_left hle], hvoted⟩) hold
      · exact .inl (hvoted.trans hempty)
  | submitLog key value =>
      have hkept := recordKept_submitLog h.node key value
      rw [Except.ok.inj hexec] at hkept
      exact hcurrent.kept hkept hold
  | restart =>
      left
      rw [← Except.ok.inj hexec]
      rfl

/-- **The vote belongs to the current term.**  In every run in which each AppendEntries
that raises the term finds no vote in the record, the record is empty or holds the vote
that the node has cast in its current term, and a node that has not voted in this term
refuses no up-to-date candidate. -/
theorem vote_of_current_term (nodeId : String) (peers : List String) (es : List NodeEvent)
    (h : History) (hmeets : Meets step RaisedUnvoted (init nodeId peers) es)
    (hrun : run step (init nodeId peers) es = some h) : h.VoteCurrent ∧ h.FreeToVote := by
  have hcurrent : h.VoteCurrent :=
    run_invariant VoteCurrent (fun _ _ _ => voteCurrent_step) (.inl rfl) hmeets hrun
  exact ⟨hcurrent, hcurrent.freeToVote⟩

/-- The leader of term 1 gives the node an entry, so that it refuses the candidate of
term 2, which clears the record for the leader of term 3. -/
def clearedRecord : List NodeEvent :=
  [.handleRequestVote ⟨1, "n2", 0, 0⟩,
    .handleAppendEntries ⟨1, "n2", 0, 0, [⟨1, 1, "k", "v"⟩], 0⟩,
    .handleRequestVote ⟨2, "n3", 0, 0⟩,
    .handleAppendEntries ⟨3, "n2", 1, 1, [], 0⟩]

theorem vote_cleared_before_raise :
    ∃ h, run step (init "n1" ["n2", "n3"]) clearedRecord = some h ∧ h.node.currentTerm = 3 ∧
      h.VoteCurrent ∧ h.FreeToVote := by
  refine ⟨_, rfl, rfl, ?_⟩
  exact vote_of_current_term "n1" ["n2", "n3"] clearedRecord _ (by decide) rfl

/-- The node votes for `n2` in term 1 and hears from the leader `n4` of term 2.  It has cast no
vote in term 2, and refuses `n3` in that term. -/
theorem vote_carried_into_next_term :
    ∃ es h, run step (init "n1" ["n2", "n3", "n4"]) es = some h ∧ ¬ h.VoteCurrent ∧
      (∀ v ∈ h.votes, v.term ≠ h.node.currentTerm) ∧ h.node.logIsUpToDate ⟨2, "n3", 0, 0⟩ ∧
      h.node.currentTerm = 2 ∧
      (h.node.handleRequestVote ⟨2, "n3", 0, 0⟩).2.voteGranted = false :=
  ⟨[.handleRequestVote ⟨1, "n2", 0, 0⟩, .handleAppendEntries ⟨2, "n4", 0, 0, [], 0⟩], _, rfl,
    by decide, by decide, by decide, by decide, by decide⟩

/-- As long as no vote is of a later term, an AppendEntries that raises the term over a
vote leaves a record that does not belong to the term. -/
theorem stale_vote_of_raise {args : AppendEntriesArgs}
    (hpast : ∀ v ∈ h.votes, v.term ≤ h.node.currentTerm)
    (hraise : ¬ h.RaisedUnvoted (.handleAppendEntries args))
    (hstep : h.step (.handleAppendEntries args) = some h') : ¬ h'.VoteCurrent := by
  simp only [RaisedUnvoted, not_or, not_le] at hraise
  obtain ⟨hlt, hvote⟩ := hraise
  obtain ⟨hexec, hvotes⟩ := step_spec hstep
  obtain ⟨reply, hhandle⟩ := exec_handleAppendEntries.mp hexec
  obtain ⟨hvoted, hterm⟩ := handleAppendEntries_record hhandle
  rintro (hempty | hmem)
  · exact hvote (hvoted.symm.trans hempty)
  · simp only [votesCast, List.append_nil] at hvotes
    rw [hvotes] at hmem
    have hle := hpast _ hmem
    simp only at hle
    omega

end History
end Raft
end YoloServer
