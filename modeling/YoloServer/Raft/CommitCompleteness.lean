import YoloServer.Raft.CommitQuorum

/-!
# Does the leader commit all it can?

The commit test of `heartbeatLoop` stands in the branch for a successful answer, and looks
at one position of the sorted indices and at the term of that one entry.  This misses
nothing as long as there are peers:

* the terms in a log never decrease (`Ordered`), so if an entry of the current term is on a
  majority, the entry at the picked position is of the current term as well;
* an index on a majority of two nodes or more is the match index of a peer, and the last
  success of that peer was followed by the test (`Counts`).

`commit_complete` is the result for all runs.  A leader without peers has no answers, so it
commits nothing: `lone_leader_commits_nothing`.
-/

namespace YoloServer
namespace Raft

open Function Lib

namespace RaftNode

variable {n m : RaftNode}

/-- Every entry of the current term that is on a majority of the nodes is committed. -/
def CommitComplete (n : RaftNode) : Prop :=
  ∀ (k : Nat) (entry : LogEntry), n.logs[k]? = some entry → entry.term = n.currentTerm →
    majority n.peers ≤ n.replicas k → k ≤ n.commitIndex

/-- The terms in the log do not decrease, and none is above the current one. -/
structure Ordered (n : RaftNode) : Prop where
  sorted : n.logs.Pairwise fun a b => a.term ≤ b.term
  bounded : ∀ entry ∈ n.logs, entry.term ≤ n.currentTerm

/-- What a leader knows about its peers stays within its log, and has been acted on. -/
structure Counts (n : RaftNode) : Prop where
  tracks : n.TracksPeers
  next : ∀ p ∈ n.peers, n.nextIndex.at p ≤ n.logs.length
  matched : ∀ p ∈ n.peers, n.matchIndex.at p < n.logs.length
  complete : n.CommitComplete

/-! ## Counting -/

theorem two_le_majority {peers : List String} (h : peers ≠ []) : 2 ≤ majority peers := by
  have hpos := List.length_pos_of_ne_nil h
  unfold majority
  omega

/-- An index that no peer has reached is on the leader at most. -/
theorem replicas_le_one {k : Nat} (h : ∀ p ∈ n.peers, n.matchIndex.at p < k) :
    n.replicas k ≤ 1 := by
  have hpeers : (n.peers.map n.matchIndex.at).countP (k ≤ ·) = 0 := by
    rw [List.countP_eq_zero]
    intro x hx
    obtain ⟨p, hp, rfl⟩ := List.mem_map.mp hx
    simpa using h p hp
  rw [replicas, replicatedIndices, List.countP_cons, hpeers]
  split_ifs
  · exact le_rfl
  · exact Nat.zero_le _

/-- A later entry has no smaller term. -/
theorem Ordered.term_le (h : n.Ordered) {j k : Nat} {a b : LogEntry} (hjk : j ≤ k)
    (ha : n.logs[j]? = some a) (hb : n.logs[k]? = some b) : a.term ≤ b.term := by
  rcases Nat.lt_or_eq_of_le hjk with hlt | rfl
  · obtain ⟨hj, rfl⟩ := List.getElem?_eq_some_iff.mp ha
    obtain ⟨hk, rfl⟩ := List.getElem?_eq_some_iff.mp hb
    exact List.pairwise_iff_getElem.mp h.sorted j k hj hk hlt
  · rw [ha, Option.some.injEq] at hb
    rw [hb]

/-- Nothing happens to the terms of the log while the current term grows. -/
theorem Ordered.mono (h : n.Ordered) (hlogs : m.logs = n.logs)
    (hterm : n.currentTerm ≤ m.currentTerm) : m.Ordered := by
  refine ⟨hlogs ▸ h.sorted, ?_⟩
  intro entry hentry
  exact (h.bounded entry (hlogs ▸ hentry)).trans hterm

theorem ordered_submitLog (h : n.Ordered) (key value : String) :
    (n.submitLog key value).1.Ordered := by
  rcases submitLog_spec n key value with heq | ⟨-, heq⟩
  · rwa [heq]
  · rw [heq]
    refine ⟨List.pairwise_append.mpr ⟨h.sorted, List.pairwise_singleton _ _, ?_⟩, ?_⟩
    · intro a ha b hb
      rw [List.mem_singleton.mp hb]
      exact h.bounded a ha
    · intro entry hentry
      rcases List.mem_append.mp hentry with hold | hnew
      · exact h.bounded entry hold
      · rw [List.mem_singleton.mp hnew]

/-! ## The commit test -/

/-- If the entry at the picked position is of the current term, the position is committed
after the test. -/
theorem newCommitIndex_le_of_advanceCommit (h : n.advanceCommit = .ok m)
    (hterm : ∀ entry, n.logs[n.newCommitIndex]? = some entry → entry.term = n.currentTerm) :
    n.newCommitIndex ≤ m.commitIndex := by
  unfold advanceCommit at h
  split_ifs at h with hlt
  · obtain ⟨entry, hentry, hrest⟩ := bind_eq_ok.mp h
    rw [if_pos (hterm entry (logAt_eq_ok.mp hentry))] at hrest
    obtain ⟨p, rfl, -⟩ := applyCommittedLogs_spec hrest
    exact le_rfl
  · cases h
    exact Nat.not_lt.mp hlt

/-- What the commit test leaves alone. -/
theorem advanceCommit_keeps (h : n.advanceCommit = .ok m) :
    m.peers = n.peers ∧ m.logs = n.logs ∧ m.currentTerm = n.currentTerm ∧
      m.nextIndex = n.nextIndex ∧ m.matchIndex = n.matchIndex ∧ n.commitIndex ≤ m.commitIndex := by
  rcases advanceCommit_spec h with rfl | ⟨_, _, hlt, _, _, rfl, _⟩
  · exact ⟨rfl, rfl, rfl, rfl, rfl, le_rfl⟩
  · exact ⟨rfl, rfl, rfl, rfl, rfl, hlt.le⟩

/-- After the test, everything that can be committed is committed. -/
theorem commitComplete_advanceCommit (hordered : n.Ordered) (htracks : n.TracksPeers)
    (h : n.advanceCommit = .ok m) : m.CommitComplete := by
  obtain ⟨hpeers, hlogs, hterm, -, hmatch, -⟩ := advanceCommit_keeps h
  intro k entry hentry hcurrent hmajority
  have hreplicas : m.replicas k = n.replicas k := by
    rw [replicas, replicas, replicatedIndices, replicatedIndices, hpeers, hlogs, hmatch]
  rw [hlogs] at hentry
  rw [hterm] at hcurrent
  rw [hpeers, hreplicas] at hmajority
  have hpicked : k ≤ n.newCommitIndex := by
    rw [le_newCommitIndex_iff htracks]
    unfold majority at hmajority
    omega
  -- The entry at the picked position is between an entry of the current term and that term.
  refine hpicked.trans (newCommitIndex_le_of_advanceCommit h fun picked hat => ?_)
  have hlower := hordered.term_le hpicked hentry hat
  have hupper := hordered.bounded picked (List.mem_of_getElem? hat)
  omega

/-! ## The steps of a leader -/

theorem tracksPeers_acknowledge (h : n.TracksPeers) {peer : String} (hpeer : peer ∈ n.peers)
    (next : Nat) : (n.acknowledge peer next).TracksPeers := by
  refine ⟨h.nodup, fun p => ?_⟩
  show p ∈ n.matchIndex.insert peer (sub64 next 1) ↔ p ∈ n.peers
  rw [AList.mem_insert, h.keys]
  constructor
  · rintro (rfl | hp)
    · exact hpeer
    · exact hp
  · exact .inr

/-- A success, with the commit test that follows it. -/
theorem counts_success (hordered : n.Ordered) (h : n.Counts) {peer : String}
    (hpeer : peer ∈ n.peers) {out : Outgoing} (hout : n.prepareAppend peer = .ok out)
    (hack : (n.acknowledge peer (out.nextIndex + out.entries.length)).advanceCommit = .ok m) :
    m.Counts := by
  rw [prepareAppend_next hout (h.next peer hpeer)] at hack
  have htracks := tracksPeers_acknowledge h.tracks hpeer n.logs.length
  have hordered' : (n.acknowledge peer n.logs.length).Ordered := hordered.mono rfl le_rfl
  obtain ⟨hpeers, hlogs, -, hnext, hmatch, -⟩ := advanceCommit_keeps hack
  refine ⟨⟨hpeers ▸ htracks.nodup, fun p => ?_⟩, ?_, ?_,
    commitComplete_advanceCommit hordered' htracks hack⟩
  · rw [hmatch, hpeers]
    exact htracks.keys p
  · rw [hpeers, hlogs, hnext]
    intro p hp
    exact IndexMap.at_insert_elim (P := (· ≤ n.logs.length)) (fun _ => le_rfl) (h.next p hp)
  · rw [hpeers, hlogs, hmatch]
    intro p hp
    have hlt := h.matched p hp
    have hsub : sub64 n.logs.length 1 ≤ n.logs.length - 1 := sub64_le_of_le (by omega)
    exact IndexMap.at_insert_elim (P := (· < n.logs.length)) (fun _ => by omega) hlt

/-- A won election: no peer is known to have anything. -/
theorem counts_finishElection {votes : Nat} (hmajority : majority n.peers ≤ votes)
    (hnodup : n.peers.Nodup) (hkeys : ∀ p ∈ n.matchIndex, p ∈ n.peers) (hlogs : 0 < n.logs.length)
    (hlone : n.peers = [] → n.logs.length ≤ 1) : (n.finishElection votes).Counts := by
  rw [finishElection, if_pos hmajority]
  have hzero : ∀ p ∈ n.peers, (n.peers.foldl (fun m p => m.insert p 0) n.matchIndex).at p = 0 :=
    fun p hp => IndexMap.at_foldl_insert hp 0 _
  refine ⟨⟨hnodup, fun p => ?_⟩, ?_, ?_, ?_⟩
  · rw [← AList.lookup_isSome, IndexMap.lookup_foldl_insert]
    split_ifs with hp
    · simp [hp]
    · rw [AList.lookup_isSome]
      exact ⟨hkeys p, fun h => absurd h hp⟩
  · intro p hp
    exact (IndexMap.at_foldl_insert hp n.logs.length n.nextIndex).le
  · intro p hp
    show (n.peers.foldl (fun m p => m.insert p 0) n.matchIndex).at p < n.logs.length
    rw [hzero p hp]
    exact hlogs
  · intro k entry hentry _ hcount
    by_contra hk
    by_cases hpeers : n.peers = []
    · have hlt := (List.getElem?_eq_some_iff.mp hentry).1
      have hlen := hlone hpeers
      simp only at hlt
      omega
    · have htwo : 2 ≤ majority n.peers := two_le_majority hpeers
      have hone := (htwo.trans hcount).trans (replicas_le_one fun p hp =>
        (hzero p hp).trans_lt (Nat.zero_lt_of_lt (Nat.not_le.mp hk)))
      omega

/-- A submission: only the leader has the new entry. -/
theorem counts_submitLog (h : n.Counts) (hpeers : n.peers ≠ []) (key value : String) :
    (n.submitLog key value).1.Counts := by
  rcases submitLog_spec n key value with heq | ⟨-, heq⟩
  · rwa [heq]
  · rw [heq]
    refine ⟨⟨h.tracks.nodup, h.tracks.keys⟩, ?_, ?_, ?_⟩
    · intro p hp
      rw [List.length_append]
      exact (h.next p hp).trans (Nat.le_add_right _ _)
    · intro p hp
      rw [List.length_append]
      exact (h.matched p hp).trans_le (Nat.le_add_right _ _)
    · intro k entry hentry hterm hcount
      by_cases hk : k < n.logs.length
      · rw [List.getElem?_append_left hk] at hentry
        refine h.complete k entry hentry hterm (hcount.trans_eq ?_)
        have hold : (k ≤ n.logs.length - 1) = True := by simp; omega
        have hnew : (k ≤ n.logs.length + 1 - 1) = True := by simp; omega
        simp only [replicas, replicatedIndices, List.length_append, List.length_singleton,
          List.countP_cons, hold, hnew]
      · have htwo : 2 ≤ majority n.peers := two_le_majority hpeers
        have hone := (htwo.trans hcount).trans (replicas_le_one fun p hp =>
          (h.matched p hp).trans_le (Nat.not_lt.mp hk))
        omega

/-- The node does not lead after the step, or has led before and has changed at most its
vote and its next indices, and these only downwards. -/
def StillLeads (n m : RaftNode) : Prop :=
  m.state = .Leader →
    ∃ vote next, (∀ p, IndexMap.at next p ≤ n.nextIndex.at p) ∧
      m = { n with votedFor := vote, nextIndex := next }

theorem StillLeads.refl (n : RaftNode) : StillLeads n n :=
  fun _ => ⟨n.votedFor, n.nextIndex, fun _ => le_rfl, rfl⟩

theorem StillLeads.counts (h : StillLeads n m) (hlead : m.state = .Leader)
    (hcounts : n.state = .Leader → n.Counts) : m.Counts := by
  obtain ⟨vote, next, hnext, rfl⟩ := h hlead
  obtain ⟨⟨hnodup, hkeys⟩, hle, hmatched, hcomplete⟩ := hcounts hlead
  exact ⟨⟨hnodup, hkeys⟩, fun p hp => (hnext p).trans (hle p hp), hmatched, hcomplete⟩

theorem stillLeads_onVoteReply {votes : Nat} {reply : Option RequestVoteReply} {next : Option Nat}
    (h : n.onVoteReply votes reply = (m, next)) : StillLeads n m := by
  rcases onVoteReply_spec h with ⟨rfl, -⟩ | ⟨r, -, -, rfl, -⟩
  · exact StillLeads.refl _
  · simp [StillLeads, stepDown]

theorem stillLeads_handleRequestVote {args : RequestVoteArgs} {reply : RequestVoteReply}
    (h : n.handleRequestVote args = (m, reply)) : StillLeads n m := by
  have hadopt : StillLeads n (n.adoptTerm args.term) := by
    unfold adoptTerm
    split_ifs
    · simp [StillLeads, stepDown]
    · exact StillLeads.refl n
  rcases handleRequestVote_spec h with ⟨-, rfl, -⟩ | ⟨-, rfl, -⟩ | ⟨-, -, -, rfl, -⟩
  · exact StillLeads.refl _
  · exact hadopt
  · intro hlead
    obtain ⟨vote, next, hnext, heq⟩ := hadopt hlead
    exact ⟨args.candidateId, next, hnext, by rw [heq]⟩

theorem stillLeads_handleAppendEntries {args : AppendEntriesArgs} {reply : AppendEntriesReply}
    (h : n.handleAppendEntries args = .ok (m, reply)) : StillLeads n m := by
  rcases handleAppendEntries_spec h with ⟨-, rfl, -⟩ | ⟨-, -, rfl, -⟩ | ⟨-, -, hfollow, -⟩
  · exact StillLeads.refl _
  · simp [StillLeads, follow]
  · obtain ⟨c, a, p, rfl, -⟩ := followCommit_spec hfollow
    simp [StillLeads, merge, follow]

/-- An answer is a success, or the leader goes on as before. -/
theorem onAppendReply_cases {peer : String} {out : Outgoing} {reply : AppendEntriesReply}
    {goOn : Bool} (h : n.onAppendReply peer out reply = .ok (m, goOn)) :
    StillLeads n m ∨ (reply.success = true ∧
      (n.acknowledge peer (out.nextIndex + out.entries.length)).advanceCommit = .ok m) := by
  rcases onAppendReply_spec h with
    ⟨hsucc, -, hack⟩ | ⟨-, -, -, rfl⟩ | ⟨-, -, -, rfl⟩ | ⟨-, -, rfl⟩
  · exact .inr ⟨hsucc, hack⟩
  · exact .inl (by simp [StillLeads, stepDown])
  · refine .inl fun _ => ⟨n.votedFor, _, fun p => ?_, rfl⟩
    refine IndexMap.at_insert_elim (P := (· ≤ n.nextIndex.at p)) ?_ le_rfl
    rintro rfl
    exact Nat.sub_le _ _
  · exact .inl (StillLeads.refl _)

end RaftNode

namespace Cluster

open RaftNode

variable {M : Membership} {s s' : Cluster} {e : Event}

/-! ## The steps of a cluster -/

/-- How a leader changes in a step: hardly, or by winning an election, by a success or by
a submission. -/
theorem leader_step (h : Step M s e s') (i : String) :
    StillLeads (s.node i) (s'.node i) ∨
      (∃ votes, majority (s.node i).peers ≤ votes ∧
        s'.node i = (s.node i).finishElection votes) ∨
      (∃ peer out a, TakesSuccess s s' i peer out a) ∨
      (∃ key value, e = .submitLog i key value ∧
        s'.node i = ((s.node i).submitLog key value).1) := by
  cases moves_of_step h i with
  | stays hnode =>
      rw [hnode]
      exact .inl (StillLeads.refl _)
  | startElection hnode =>
      rw [hnode]
      exact .inl (by simp [StillLeads, beginElection])
  | voteReply hreply hnode =>
      rw [hnode]
      exact .inl (stillLeads_onVoteReply hreply)
  | @appendReply peer _ out _ _ a _ _ htask hanswer hresponse hreply hnode hacks =>
      rcases onAppendReply_cases hreply with hleads | ⟨hsucc, hack⟩
      · rw [hnode]
        exact .inl hleads
      · exact .inr (.inr (.inl ⟨peer, out, a,
          takesSuccess_of_reply htask hanswer hresponse hsucc (hnode ▸ hack) hacks⟩))
  | @finishElection votes htask hnode =>
      by_cases hmaj : majority (s.node i).peers ≤ votes
      · exact .inr (.inl ⟨votes, hmaj, hnode⟩)
      · rw [hnode, RaftNode.finishElection, if_neg hmaj]
        exact .inl (StillLeads.refl _)
  | handleVote hhandle hnode =>
      rw [hnode]
      exact .inl (stillLeads_handleRequestVote hhandle)
  | handleAppend hsent hhandle hnode =>
      rw [hnode]
      exact .inl (stillLeads_handleAppendEntries hhandle)
  | @submitLog key value hi hnode => exact .inr (.inr (.inr ⟨key, value, rfl, hnode⟩))

/-! ## The invariant -/

/-- No entry is submitted to a leader that has nobody to replicate it to. -/
def Replicable (s : Cluster) : Event → Prop
  | .submitLog i _ _ => (s.node i).state = .Leader → (s.node i).peers ≠ []
  | _ => True

instance (s : Cluster) : (e : Event) → Decidable (Replicable s e)
  | .submitLog .. => inferInstanceAs (Decidable (_ → _))
  | .startElection _ | .heartbeat _ | .send _ | .fail _ | .receive _ | .finish _
  | .handle _ => inferInstanceAs (Decidable True)

/-- Every log is ordered, a node without peers has taken no entry, and every leader has acted
on what it knows. -/
structure Ledger (s : Cluster) : Prop where
  ordered : ∀ i, (s.node i).Ordered
  unshared : ∀ i, (s.node i).peers = [] → (s.node i).logs.length ≤ 1
  keys : ∀ i, ∀ p ∈ (s.node i).matchIndex, p ∈ (s.node i).peers
  counts : ∀ i, (s.node i).state = .Leader → (s.node i).Counts

theorem ledger_init (M : Membership) : Ledger (init M) where
  ordered := fun _ => ⟨by simp [init, new], by simp [init, new, dummyEntry]⟩
  unshared := by simp [init, new]
  keys := by simp [init, new]
  counts := by simp [init, new]

theorem ordered_step (hinv : Inv M s) (hterm : NoTermOverflow s e) (hledger : Ledger s)
    (h : Step M s e s') (i : String) : (s'.node i).Ordered := by
  rcases node_step hinv hterm h i with hquiet | ⟨votes, -, hnode⟩ | ⟨key, value, -, -, hnode⟩
  · exact (hledger.ordered i).mono hquiet.logs hquiet.keep.term
  · rw [hnode]
    refine (hledger.ordered i).mono (logs_finishElection _ votes) (le_of_eq ?_)
    rcases finishElection_spec (s.node i) votes with heq | ⟨-, heq⟩ <;> rw [heq]
  · rw [hnode]
    exact ordered_submitLog (hledger.ordered i) key value

theorem unshared_step (hinv : Inv M s) (hterm : NoTermOverflow s e) (hreplicable : Replicable s e)
    (hledger : Ledger s) (h : Step M s e s') (i : String) (hpeers : (s'.node i).peers = []) :
    (s'.node i).logs.length ≤ 1 := by
  rw [((evolves_step hinv hterm h).keep i).peers] at hpeers
  rcases node_step hinv hterm h i with hquiet | ⟨votes, -, hnode⟩ | ⟨key, value, rfl, -, hnode⟩
  · rw [hquiet.logs]
    exact hledger.unshared i hpeers
  · rw [hnode, logs_finishElection]
    exact hledger.unshared i hpeers
  · rcases submitLog_spec (s.node i) key value with heq | ⟨hlead, -⟩
    · rw [hnode, heq]
      exact hledger.unshared i hpeers
    · exact absurd hpeers (hreplicable hlead)

theorem keys_step (hinv : Inv M s) (hterm : NoTermOverflow s e) (hledger : Ledger s)
    (h : Step M s e s') (i p : String) (hp : p ∈ (s'.node i).matchIndex) :
    p ∈ (s'.node i).peers := by
  rw [((evolves_step hinv hterm h).keep i).peers]
  rcases matchIndex_step hinv h i with ⟨hmatch, -⟩ | ⟨votes, hmaj, hnode, -⟩ |
    ⟨peer, out, a, -, hack⟩
  · rw [hmatch] at hp
    exact hledger.keys i p hp
  · rw [hnode, RaftNode.finishElection, if_pos hmaj] at hp
    by_contra hnot
    rw [← AList.lookup_isSome, IndexMap.lookup_foldl_insert, if_neg hnot, AList.lookup_isSome] at hp
    exact hnot (hledger.keys i p hp)
  · rw [(matchIndex_advanceCommit hack.node).1, AList.mem_insert] at hp
    rcases hp with rfl | hp
    · rw [(hinv.ident i).2]
      exact (hack.facts hinv).1.2.1
    · exact hledger.keys i p hp

theorem counts_step (hinv : Inv M s) (hreplicable : Replicable s e) (hledger : Ledger s)
    (h : Step M s e s') (i : String) (hi : i ∈ M.ids) (hlead : (s'.node i).state = .Leader) :
    (s'.node i).Counts := by
  have hpeers := (hinv.ident i).2
  rcases leader_step h i with hleads | ⟨votes, hmaj, hnode⟩ | ⟨peer, out, a, hack⟩ |
    ⟨key, value, rfl, hnode⟩
  · exact hleads.counts hlead (hledger.counts i)
  · obtain ⟨tail, hlogs, -⟩ := hinv.entries i
    rw [hnode]
    exact counts_finishElection hmaj (hpeers ▸ M.peers_nodup i hi) (hledger.keys i)
      (by simp [hlogs]) (hledger.unshared i)
  · obtain ⟨⟨-, hpeer, hwas⟩, hout, -⟩ := hack.facts hinv
    exact counts_success (hledger.ordered i) (hledger.counts i hwas) (hpeers ▸ hpeer) hout
      hack.node
  · rw [hnode] at hlead ⊢
    rw [(matchIndex_submitLog (s.node i) key value).2] at hlead
    exact counts_submitLog (hledger.counts i hlead) (hreplicable hlead) key value

/-- **The step lemma.** -/
theorem ledger_step (hinv : Inv M s) (hterm : NoTermOverflow s e) (hreplicable : Replicable s e)
    (hledger : Ledger s) (hstep : s.step M e = some s') : Ledger s' := by
  have h := step_sound hstep
  have hnext := (inv_step hinv hterm hstep).1
  exact
    { ordered := ordered_step hinv hterm hledger h
      unshared := unshared_step hinv hterm hreplicable hledger h
      keys := keys_step hinv hterm hledger h
      counts := fun i hlead =>
        counts_step hinv hreplicable hledger h i (hnext.leaders i hlead).1 hlead }

/-- **The run lemma.** -/
theorem ledger_run {es : List Event} (hterms : Meets (step M) NoTermOverflow (init M) es)
    (hreplicable : Meets (step M) Replicable (init M) es)
    (hrun : run (step M) (init M) es = some s) : Inv M s ∧ Ledger s := by
  refine run_invariant (fun s => Inv M s ∧ Ledger s) ?_ ⟨inv_init M, ledger_init M⟩
    (hterms.and hreplicable) hrun
  intro t e t' ht hcond hstep
  exact ⟨(inv_step ht.1 hcond.1 hstep).1, ledger_step ht.1 hcond.1 hcond.2 ht.2 hstep⟩

/-- **Commit completeness.**  In every run in which no term overflows and no entry is
submitted to a leader without peers, every leader has committed every entry of its term
that is on a majority, in every state, and so at the end of every heartbeat round. -/
theorem commit_complete (M : Membership) (es : List Event) (s : Cluster)
    (hterms : Meets (step M) NoTermOverflow (init M) es)
    (hreplicable : Meets (step M) Replicable (init M) es)
    (hrun : run (step M) (init M) es = some s) (i : String)
    (hlead : (s.node i).state = .Leader) : (s.node i).CommitComplete :=
  ((ledger_run hterms hreplicable hrun).2.counts i hlead).complete

/-- The leader of three nodes takes an entry, and commits it when `b` has answered. -/
theorem entry_committed_in_trio :
    ∃ s, run (step trio) (init trio)
        (electA ++ [.submitLog "a" "k" "v"] ++ heartbeatToB 2) = some s ∧
      majority (s.node "a").peers ≤ (s.node "a").replicas 1 ∧ 1 ≤ (s.node "a").commitIndex := by
  obtain ⟨s, hrun, hlead, hentry, hcount⟩ := exists_run_of_check (step trio) (init trio)
    (electA ++ [.submitLog "a" "k" "v"] ++ heartbeatToB 2)
    (fun t => (t.node "a").state = .Leader ∧
      ((t.node "a").logs[1]?).map LogEntry.term = some (t.node "a").currentTerm ∧
      majority (t.node "a").peers ≤ (t.node "a").replicas 1) (by decide)
  obtain ⟨entry, hat, hterm⟩ := Option.map_eq_some_iff.mp hentry
  exact ⟨s, hrun, hcount,
    commit_complete trio _ s (by decide) (by decide) hrun "a" hlead 1 entry hat hterm hcount⟩

/-- A single node elects itself, takes an entry and goes through a heartbeat round.  It is
all there is to a majority, but it commits nothing. -/
theorem lone_leader_commits_nothing :
    ∃ s, run (step (Membership.ofIds ["a"] (by decide) (by decide)))
        (init (Membership.ofIds ["a"] (by decide) (by decide)))
        [.startElection "a", .finish "a", .submitLog "a" "k" "v", .heartbeat "a", .finish "a"] =
          some s ∧
      (s.node "a").state = .Leader ∧ ¬ (s.node "a").CommitComplete := by
  obtain ⟨s, hrun, hlead, hentry, hcount, hcommit⟩ := exists_run_of_check
    (step (Membership.ofIds ["a"] (by decide) (by decide)))
    (init (Membership.ofIds ["a"] (by decide) (by decide)))
    [.startElection "a", .finish "a", .submitLog "a" "k" "v", .heartbeat "a", .finish "a"]
    (fun t => (t.node "a").state = .Leader ∧
      ((t.node "a").logs[1]?).map LogEntry.term = some (t.node "a").currentTerm ∧
      majority (t.node "a").peers ≤ (t.node "a").replicas 1 ∧ (t.node "a").commitIndex = 0)
    (by decide)
  refine ⟨s, hrun, hlead, fun hcomplete => ?_⟩
  obtain ⟨entry, hat, hterm⟩ := Option.map_eq_some_iff.mp hentry
  have hle := hcomplete 1 entry hat hterm hcount
  omega

end Cluster
end Raft
end YoloServer
