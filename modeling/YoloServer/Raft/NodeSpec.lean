import YoloServer.Lib.Run
import YoloServer.Raft.RaftNode

/-!
# What each function of a node can do

One inversion lemma for each function of `RaftNode`: the result is the old
state with the listed fields replaced.  Every invariant of the development is
proved from these lemmas and never unfolds a function again.

`VoteKeep n m` collects what all functions share as far as votes are concerned:
the identity of the node stays, the term does not go back, and within a term a
vote that has been cast stays recorded in `votedFor`.
-/

namespace YoloServer
namespace Raft

open Lib

/-! ## Index maps -/

namespace IndexMap

theorem at_insert_self (m : IndexMap) (peer : String) (v : Nat) :
    IndexMap.at (m.insert peer v) peer = v := by
  simp [IndexMap.at]

theorem at_insert_ne (m : IndexMap) {peer q : String} (h : q ≠ peer) (v : Nat) :
    IndexMap.at (m.insert peer v) q = IndexMap.at m q := by
  simp [IndexMap.at, AList.lookup_insert_ne h]

/-- What holds of the old index of a peer and of the one that is set. -/
theorem at_insert_elim {P : Nat → Prop} {m : IndexMap} {peer q : String} {v : Nat}
    (hnew : q = peer → P v) (hold : P (m.at q)) : P (IndexMap.at (m.insert peer v) q) := by
  by_cases hq : q = peer
  · have hv := hnew hq
    rwa [hq, at_insert_self]
  · rwa [at_insert_ne _ hq]

theorem lookup_foldl_insert {q : String} (ps : List String) (v : Nat) (m : IndexMap) :
    (ps.foldl (fun m p => m.insert p v) m).lookup q =
      if q ∈ ps then some v else m.lookup q := by
  induction ps generalizing m with
  | nil => simp
  | cons p ps ih =>
      rw [List.foldl_cons, ih]
      by_cases hmem : q ∈ ps
      · simp [hmem]
      · by_cases hq : q = p
        · subst hq
          simp [hmem]
        · simp [hmem, hq, AList.lookup_insert_ne hq]

theorem at_foldl_insert {q : String} {ps : List String} (h : q ∈ ps) (v : Nat)
    (m : IndexMap) : IndexMap.at (ps.foldl (fun m p => m.insert p v) m) q = v := by
  simp [IndexMap.at, lookup_foldl_insert, h]

/-- Every value of the map is the value of some key. -/
theorem exists_key_of_mem_values {m : IndexMap} {v : Nat} (h : v ∈ m.values) :
    ∃ q, m.lookup q = some v := by
  obtain ⟨⟨q, w⟩, hmem, rfl⟩ := List.mem_map.mp h
  exact ⟨q, AList.mem_lookup_iff.mpr hmem⟩

/-- The values of a map whose keys are the members of a duplicate-free list. -/
theorem values_perm {m : IndexMap} {ps : List String} (hnodup : ps.Nodup)
    (hkeys : ∀ p, p ∈ m ↔ p ∈ ps) : m.values.Perm (ps.map m.at) := by
  have hperm : m.keys.Perm ps := (List.perm_ext_iff_of_nodup m.nodupKeys hnodup).mpr hkeys
  have hvalues : m.values = m.keys.map m.at := by
    rw [IndexMap.values, AList.keys, List.keys, List.map_map]
    refine List.map_congr_left fun entry hentry => ?_
    have hlookup : m.lookup entry.1 = some entry.2 := AList.mem_lookup_iff.mpr hentry
    simp [IndexMap.at, hlookup]
  rw [hvalues]
  exact hperm.map _

end IndexMap

namespace RaftNode

variable {n m : RaftNode}

theorem logAt_eq_ok {logs : List LogEntry} {x : Nat} {entry : LogEntry} :
    logAt logs x = .ok entry ↔ logs[x]? = some entry := by
  unfold logAt
  cases h : logs[x]? with
  | none => simp
  | some e => simp

theorem logAt_of_lt {logs : List LogEntry} {x : Nat} (h : x < logs.length) :
    ∃ entry, logAt logs x = .ok entry :=
  ⟨logs[x], logAt_eq_ok.mpr (List.getElem?_eq_getElem h)⟩

/-! ## Applying committed entries -/

/-- The loop moves `lastApplied` by the number of its iterations and hands the
entries it passes to the store. -/
theorem applyLoop_spec {k : Nat} (h : applyLoop k n = .ok m) :
    ∃ p, m = { n with lastApplied := n.lastApplied + k, puts := n.puts ++ p } ∧
      ∀ q ∈ p, n.lastApplied < q.1 ∧ q.1 ≤ n.lastApplied + k ∧
        n.logs[q.1]? = some q.2 := by
  induction k generalizing n with
  | zero =>
      cases h
      exact ⟨[], by simp, by simp⟩
  | succ k ih =>
      -- One put of the first iteration, and those of the remaining ones.
      obtain ⟨entry, hentry, hrest⟩ := bind_eq_ok.mp h
      obtain ⟨p, hm, hp⟩ := ih hrest
      refine ⟨(n.lastApplied + 1, entry) :: p, ?_, ?_⟩
      · rw [hm]
        simp [Nat.add_assoc, Nat.add_comm 1 k]
      · intro q hq
        rcases List.mem_cons.mp hq with rfl | hq
        · exact ⟨by simp, by simp, logAt_eq_ok.mp hentry⟩
        · obtain ⟨hlow, hhigh, hlog⟩ := hp q hq
          simp only at hlow hhigh
          exact ⟨by omega, by omega, hlog⟩

/-- The loop fails exactly if one of its accesses is beyond the end of the log. -/
theorem applyLoop_ok_iff {k : Nat} :
    (∃ m, applyLoop k n = .ok m) ↔ k = 0 ∨ n.lastApplied + k < n.logs.length := by
  induction k generalizing n with
  | zero => exact ⟨fun _ => .inl rfl, fun _ => ⟨n, rfl⟩⟩
  | succ k ih =>
      have hnext := fun entry => @ih
        { n with
          lastApplied := n.lastApplied + 1
          puts := n.puts ++ [(n.lastApplied + 1, entry)] }
      simp only at hnext
      constructor
      · rintro ⟨m, hm⟩
        obtain ⟨entry, hentry, hrest⟩ := bind_eq_ok.mp hm
        obtain ⟨hlt, -⟩ := List.getElem?_eq_some_iff.mp (logAt_eq_ok.mp hentry)
        rcases (hnext entry).mp ⟨m, hrest⟩ with hzero | hlast
        · exact .inr (by omega)
        · exact .inr (by omega)
      · intro h
        obtain ⟨entry, hentry⟩ := logAt_of_lt (show n.lastApplied + 1 < n.logs.length by omega)
        obtain ⟨m, hm⟩ := (hnext entry).mpr (.inr (by omega))
        exact ⟨m, bind_eq_ok.mpr ⟨entry, hentry, hm⟩⟩

/-- `applyCommittedLogs` catches up with `commitIndex`, entry by entry. -/
theorem applyCommittedLogs_spec (h : n.applyCommittedLogs = .ok m) :
    ∃ p, m = { n with lastApplied := max n.lastApplied n.commitIndex, puts := n.puts ++ p } ∧
      ∀ q ∈ p, n.lastApplied < q.1 ∧ q.1 ≤ n.commitIndex ∧ n.logs[q.1]? = some q.2 := by
  obtain ⟨p, hm, hp⟩ := applyLoop_spec h
  refine ⟨p, ?_, ?_⟩
  · rw [hm]
    congr 1
    omega
  · intro q hq
    obtain ⟨hlow, hhigh, hlog⟩ := hp q hq
    exact ⟨hlow, by omega, hlog⟩

/-- The only access of `applyCommittedLogs` that can be out of range is the one
at `commitIndex`, and only if there is something to apply. -/
theorem applyCommittedLogs_ok_iff :
    (∃ m, n.applyCommittedLogs = .ok m) ↔
      n.commitIndex ≤ n.lastApplied ∨ n.commitIndex < n.logs.length := by
  rw [applyCommittedLogs, applyLoop_ok_iff]
  omega

/-! ## The handlers -/

@[simp] theorem adoptTerm_currentTerm {term : Nat} (h : n.currentTerm ≤ term) :
    (n.adoptTerm term).currentTerm = term := by
  unfold adoptTerm
  split_ifs
  · rfl
  · omega

@[simp] theorem adoptTerm_logs (n : RaftNode) (term : Nat) :
    (n.adoptTerm term).logs = n.logs := by
  unfold adoptTerm
  split_ifs <;> rfl

/-- The outcomes of `handleRequestVote`: the stale request is ignored, the term
is adopted without a vote, or it is adopted and the vote is cast. -/
theorem handleRequestVote_spec {args : RequestVoteArgs} {reply : RequestVoteReply}
    (h : n.handleRequestVote args = (m, reply)) :
    (args.term < n.currentTerm ∧ m = n ∧ reply = ⟨n.currentTerm, false⟩) ∨
      (n.currentTerm ≤ args.term ∧ m = n.adoptTerm args.term ∧
        reply = ⟨args.term, false⟩) ∨
      (n.currentTerm ≤ args.term ∧
        ((n.adoptTerm args.term).votedFor = "" ∨
          (n.adoptTerm args.term).votedFor = args.candidateId) ∧
        n.logIsUpToDate args ∧
        m = { n.adoptTerm args.term with votedFor := args.candidateId } ∧
        reply = ⟨args.term, true⟩) := by
  unfold handleRequestVote castVote at h
  split_ifs at h with hstale hgrant
  · cases h
    exact .inl ⟨hstale, rfl, rfl⟩
  · have hle : n.currentTerm ≤ args.term := by omega
    cases h
    refine .inr (.inr ⟨hle, hgrant.1, ?_, rfl, by rw [adoptTerm_currentTerm hle]⟩)
    simpa only [logIsUpToDate, adoptTerm_logs] using hgrant.2
  · have hle : n.currentTerm ≤ args.term := by omega
    cases h
    exact .inr (.inl ⟨hle, rfl, by rw [adoptTerm_currentTerm hle]⟩)

/-- Step 5 of `handleAppendEntries` changes the cursors and the store only. -/
theorem followCommit_spec {leaderCommit : Nat} (h : n.followCommit leaderCommit = .ok m) :
    ∃ c a p, m = { n with commitIndex := c, lastApplied := a, puts := n.puts ++ p } ∧
      ((leaderCommit ≤ n.commitIndex ∧ c = n.commitIndex ∧ a = n.lastApplied ∧ p = []) ∨
        (n.commitIndex < leaderCommit ∧ c = min leaderCommit (back n.logs).index ∧
          a = max n.lastApplied c)) ∧
      ∀ q ∈ p, n.lastApplied < q.1 ∧ q.1 ≤ c ∧ n.logs[q.1]? = some q.2 := by
  unfold followCommit at h
  split_ifs at h with hlt
  · obtain ⟨p, hm, hp⟩ := applyCommittedLogs_spec h
    exact ⟨_, _, p, hm, .inr ⟨hlt, rfl, rfl⟩, hp⟩
  · cases h
    exact ⟨_, _, [], by simp, .inl ⟨by omega, rfl, rfl, rfl⟩, by simp⟩

/-- The three outcomes of `handleAppendEntries`. -/
theorem handleAppendEntries_spec {args : AppendEntriesArgs} {reply : AppendEntriesReply}
    (h : n.handleAppendEntries args = .ok (m, reply)) :
    (args.term < n.currentTerm ∧ m = n ∧ reply = ⟨n.currentTerm, false⟩) ∨
      (n.currentTerm ≤ args.term ∧ ¬ n.prevMatches args ∧ m = n.follow args.term ∧
        reply = ⟨n.currentTerm, false⟩) ∨
      (n.currentTerm ≤ args.term ∧ n.prevMatches args ∧
        ((n.follow args.term).merge args).followCommit args.leaderCommit = .ok m ∧
        reply = ⟨args.term, true⟩) := by
  unfold handleAppendEntries at h
  split_ifs at h with hstale hprev
  · cases h
    exact .inl ⟨hstale, rfl, rfl⟩
  · obtain ⟨applied, hfollow, hret⟩ := bind_eq_ok.mp h
    -- The term of the reply is read after step 5, which does not touch it.
    have hterm : applied.currentTerm = args.term := by
      obtain ⟨c, a, p, happ, -⟩ := followCommit_spec hfollow
      rw [happ]
      rfl
    cases hret
    exact .inr (.inr ⟨by omega, hprev, hfollow, by rw [hterm]⟩)
  · cases h
    exact .inr (.inl ⟨by omega, hprev, rfl, rfl⟩)

/-- If an AppendEntries that is taken up raises the commit index, there is an entry at
the new commit index, or nothing to apply. -/
def AppliesInRange (n : RaftNode) (args : AppendEntriesArgs) : Prop :=
  n.currentTerm ≤ args.term → n.prevMatches args → n.commitIndex < args.leaderCommit →
    min args.leaderCommit (back (n.merge args).logs).index ≤ n.lastApplied ∨
      min args.leaderCommit (back (n.merge args).logs).index < (n.merge args).logs.length

/-- `handleAppendEntries` returns exactly if it applies entries of the log only. -/
theorem handleAppendEntries_ok_iff {args : AppendEntriesArgs} :
    (∃ r, n.handleAppendEntries args = .ok r) ↔ n.AppliesInRange args := by
  unfold handleAppendEntries AppliesInRange
  split_ifs with hstale hprev
  · exact ⟨fun _ hle => by omega, fun _ => ⟨_, rfl⟩⟩
  · have hfollow : (∃ m, ((n.follow args.term).merge args).followCommit args.leaderCommit = .ok m) ↔
        (n.commitIndex < args.leaderCommit →
          min args.leaderCommit (back (n.merge args).logs).index ≤ n.lastApplied ∨
            min args.leaderCommit (back (n.merge args).logs).index <
              (n.merge args).logs.length) := by
      unfold followCommit
      split_ifs with hcommit
      · rw [applyCommittedLogs_ok_iff]
        exact ⟨fun h _ => h, fun h => h hcommit⟩
      · exact ⟨fun _ h => absurd h hcommit, fun _ => ⟨_, rfl⟩⟩
    constructor
    · rintro ⟨r, hr⟩ - -
      obtain ⟨m, hm, -⟩ := bind_eq_ok.mp hr
      exact hfollow.mp ⟨m, hm⟩
    · intro h
      obtain ⟨m, hm⟩ := hfollow.mpr (h (by omega) hprev)
      exact ⟨_, bind_eq_ok.mpr ⟨m, hm, rfl⟩⟩
  · exact ⟨fun _ _ hmatch => absurd hmatch hprev, fun _ => ⟨_, rfl⟩⟩

/-! ## Elections and heartbeats -/

theorem onVoteReply_spec {votes : Nat} {reply : Option RequestVoteReply}
    {next : Option Nat} (h : n.onVoteReply votes reply = (m, next)) :
    (m = n ∧ (next = some votes ∨
        ∃ r, reply = some r ∧ r.voteGranted = true ∧ next = some (votes + 1))) ∨
      (∃ r, reply = some r ∧ n.currentTerm < r.term ∧ m = n.stepDown r.term ∧
        next = none) := by
  cases reply with
  | none =>
      simp only [onVoteReply, Prod.mk.injEq] at h
      exact .inl ⟨h.1.symm, .inl h.2.symm⟩
  | some r =>
      simp only [onVoteReply] at h
      split_ifs at h with hgrant hterm
      · cases h
        exact .inl ⟨rfl, .inr ⟨r, rfl, hgrant, rfl⟩⟩
      · cases h
        exact .inr ⟨r, rfl, hterm, rfl, rfl⟩
      · cases h
        exact .inl ⟨rfl, .inl rfl⟩

theorem prepareAppend_spec {peer : String} {out : Outgoing}
    (h : n.prepareAppend peer = .ok out) :
    ∃ prev, n.logs[sub64 (n.nextIndex.at peer) 1]? = some prev ∧
      out =
        { nextIndex := n.nextIndex.at peer
          entries := n.logs.drop (n.nextIndex.at peer)
          args :=
            { term := n.currentTerm
              leaderId := n.nodeId
              prevLogIndex := sub64 (n.nextIndex.at peer) 1
              prevLogTerm := prev.term
              entries := []
              leaderCommit := n.commitIndex } } := by
  obtain ⟨prev, hprev, hout⟩ := bind_eq_ok.mp h
  cases hout
  exact ⟨prev, logAt_eq_ok.mp hprev, rfl⟩

/-- The commit test either changes nothing or commits the picked index, whose
entry is of the current term. -/
theorem advanceCommit_spec (h : n.advanceCommit = .ok m) :
    m = n ∨
      ∃ entry p, n.commitIndex < n.newCommitIndex ∧
        n.logs[n.newCommitIndex]? = some entry ∧ entry.term = n.currentTerm ∧
        m = { n with
          commitIndex := n.newCommitIndex
          lastApplied := max n.lastApplied n.newCommitIndex
          puts := n.puts ++ p } ∧
        ∀ q ∈ p, n.lastApplied < q.1 ∧ q.1 ≤ n.newCommitIndex ∧
          n.logs[q.1]? = some q.2 := by
  unfold advanceCommit at h
  split_ifs at h with hlt
  · obtain ⟨entry, hentry, hrest⟩ := bind_eq_ok.mp h
    split_ifs at hrest with hterm
    · obtain ⟨p, hm, hp⟩ := applyCommittedLogs_spec hrest
      exact .inr ⟨entry, p, hlt, logAt_eq_ok.mp hentry, hterm, hm, hp⟩
    · cases hrest
      exact .inl rfl
  · cases h
    exact .inl rfl

theorem onAppendReply_spec {peer : String} {out : Outgoing} {reply : AppendEntriesReply}
    {goOn : Bool} (h : n.onAppendReply peer out reply = .ok (m, goOn)) :
    (reply.success = true ∧ goOn = true ∧
        (n.acknowledge peer (out.nextIndex + out.entries.length)).advanceCommit = .ok m) ∨
      (reply.success = false ∧ n.currentTerm < reply.term ∧ goOn = false ∧
        m = n.stepDown reply.term) ∨
      (reply.success = false ∧ goOn = true ∧ 1 < n.nextIndex.at peer ∧
        m = { n with nextIndex := n.nextIndex.insert peer (n.nextIndex.at peer - 1) }) ∨
      (reply.success = false ∧ goOn = true ∧ m = n) := by
  unfold onAppendReply at h
  split_ifs at h with hsucc hterm hnext
  · obtain ⟨acked, hack, hret⟩ := bind_eq_ok.mp h
    cases hret
    exact .inl ⟨hsucc, rfl, hack⟩
  · cases h
    exact .inr (.inl ⟨by simpa using hsucc, hterm, rfl, rfl⟩)
  · cases h
    exact .inr (.inr (.inl ⟨by simpa using hsucc, rfl, hnext, rfl⟩))
  · cases h
    exact .inr (.inr (.inr ⟨by simpa using hsucc, rfl, rfl⟩))

theorem finishElection_spec (n : RaftNode) (votes : Nat) :
    n.finishElection votes = n ∨
      (majority n.peers ≤ votes ∧
        n.finishElection votes =
          { n with
            state := .Leader
            nextIndex := n.peers.foldl (fun m p => m.insert p n.logs.length) n.nextIndex
            matchIndex := n.peers.foldl (fun m p => m.insert p 0) n.matchIndex }) := by
  unfold finishElection
  split_ifs with h
  · exact .inr ⟨h, rfl⟩
  · exact .inl rfl

theorem submitLog_spec (n : RaftNode) (key value : String) :
    (n.submitLog key value).1 = n ∨
      (n.state = .Leader ∧
        (n.submitLog key value).1 =
          { n with
            logs := n.logs ++
              [{ term := n.currentTerm, index := u64 ((back n.logs).index + 1), key, value }] }) := by
  unfold submitLog
  split_ifs with h
  · exact .inl rfl
  · exact .inr ⟨by simpa using h, rfl⟩

/-! ## The loops over the peers -/

/-- The rule for the loop of `startElection`: a reflexive and transitive relation that
each reply and the end of the loop respect relates the state before to the state
after. -/
theorem electionRound_related {R : RaftNode → RaftNode → Prop}
    (htrans : ∀ l n m, R l n → R n m → R l m)
    (hreply : ∀ n m votes reply next, n.onVoteReply votes reply = (m, next) → R n m)
    (hfinish : ∀ n votes, R n (n.finishElection votes)) (n : RaftNode) (votes : Nat)
    (rest : List String) (replies : List (Option RequestVoteReply)) :
    R n (n.electionRound votes rest replies) := by
  induction rest generalizing n votes replies with
  | nil => exact hfinish n votes
  | cons peer rest ih =>
      rw [electionRound]
      cases hcase : n.onVoteReply votes replies.head?.join with
      | mk n' next =>
          have hstep := hreply n n' votes _ next hcase
          cases next with
          | none => exact hstep
          | some votes' => exact htrans n n' _ hstep (ih n' votes' replies.tail)

/-- The rule for the loop of one heartbeat round. -/
theorem heartbeatPeers_related {R : RaftNode → RaftNode → Prop} (hrefl : ∀ n, R n n)
    (htrans : ∀ l n m, R l n → R n m → R l m)
    (hreply : ∀ n m peer out reply goOn,
      n.onAppendReply peer out reply = .ok (m, goOn) → R n m)
    {rest : List String} {replies : List (Option AppendEntriesReply)}
    (h : n.heartbeatPeers rest replies = .ok m) : R n m := by
  induction rest generalizing n replies with
  | nil =>
      cases h
      exact hrefl _
  | cons peer rest ih =>
      obtain ⟨out, -, hafter⟩ := bind_eq_ok.mp h
      cases hcase : replies.head?.join with
      | none =>
          -- After a failed RPC the loop goes on with the next peer.
          rw [hcase] at hafter
          exact ih hafter
      | some reply =>
          rw [hcase] at hafter
          obtain ⟨⟨n', goOn⟩, hon, hrest⟩ := bind_eq_ok.mp hafter
          have hstep := hreply n n' peer out reply goOn hon
          cases goOn with
          | true => exact htrans n n' m hstep (ih hrest)
          | false =>
              cases hrest
              exact hstep

theorem heartbeatRound_related {R : RaftNode → RaftNode → Prop} (hrefl : ∀ n, R n n)
    (htrans : ∀ l n m, R l n → R n m → R l m)
    (hreply : ∀ n m peer out reply goOn,
      n.onAppendReply peer out reply = .ok (m, goOn) → R n m)
    {replies : List (Option AppendEntriesReply)}
    (h : n.heartbeatRound replies = .ok m) : R n m := by
  unfold heartbeatRound at h
  split_ifs at h
  · exact heartbeatPeers_related hrefl htrans hreply h
  · cases h
    exact hrefl _

/-! ## Votes across a step -/

/-- What every function of a node keeps of its identity and its vote. -/
structure VoteKeep (n m : RaftNode) : Prop where
  nodeId : m.nodeId = n.nodeId
  peers : m.peers = n.peers
  term : n.currentTerm ≤ m.currentTerm
  vote : m.currentTerm = n.currentTerm → n.votedFor ≠ "" → m.votedFor = n.votedFor

theorem VoteKeep.refl (n : RaftNode) : VoteKeep n n :=
  ⟨rfl, rfl, le_rfl, fun _ _ => rfl⟩

theorem VoteKeep.trans {l : RaftNode} (h₁ : VoteKeep l n) (h₂ : VoteKeep n m) :
    VoteKeep l m where
  nodeId := h₂.nodeId.trans h₁.nodeId
  peers := h₂.peers.trans h₁.peers
  term := h₁.term.trans h₂.term
  vote := by
    intro hterm hvote
    have hmid : n.currentTerm = l.currentTerm :=
      le_antisymm (hterm ▸ h₂.term) h₁.term
    have hfirst := h₁.vote hmid hvote
    rw [h₂.vote (hterm.trans hmid.symm) (hfirst ▸ hvote), hfirst]

/-- A step that leaves identity, term and vote alone. -/
theorem VoteKeep.of_eq (hid : m.nodeId = n.nodeId) (hpeers : m.peers = n.peers)
    (hterm : m.currentTerm = n.currentTerm) (hvote : m.votedFor = n.votedFor) :
    VoteKeep n m :=
  ⟨hid, hpeers, hterm.ge, fun _ _ => hvote⟩

theorem voteKeep_stepDown {term : Nat} (h : n.currentTerm < term) :
    VoteKeep n (n.stepDown term) where
  nodeId := rfl
  peers := rfl
  term := h.le
  vote := fun hterm => absurd hterm (by simp only [stepDown]; omega)

theorem voteKeep_beginElection (h : n.currentTerm + 1 < 2 ^ 64) :
    VoteKeep n n.beginElection where
  nodeId := rfl
  peers := rfl
  term := by
    show n.currentTerm ≤ u64 (n.currentTerm + 1)
    rw [u64_of_lt h]
    omega
  vote := by
    intro hterm
    have hnew : n.beginElection.currentTerm = n.currentTerm + 1 := u64_of_lt h
    omega

theorem voteKeep_onVoteReply {votes : Nat} {reply : Option RequestVoteReply}
    {next : Option Nat} (h : n.onVoteReply votes reply = (m, next)) : VoteKeep n m := by
  rcases onVoteReply_spec h with ⟨rfl, -⟩ | ⟨r, -, hterm, rfl, -⟩
  · exact VoteKeep.refl _
  · exact voteKeep_stepDown hterm

theorem voteKeep_finishElection (n : RaftNode) (votes : Nat) :
    VoteKeep n (n.finishElection votes) := by
  rcases finishElection_spec n votes with h | ⟨-, h⟩
  · rw [h]
    exact VoteKeep.refl n
  · rw [h]
    exact VoteKeep.of_eq rfl rfl rfl rfl

theorem voteKeep_electionRound (n : RaftNode) (votes : Nat) (rest : List String)
    (replies : List (Option RequestVoteReply)) :
    VoteKeep n (n.electionRound votes rest replies) :=
  electionRound_related (R := VoteKeep) (fun _ _ _ => VoteKeep.trans) (fun _ _ _ _ _ => voteKeep_onVoteReply)
    voteKeep_finishElection n votes rest replies

theorem voteKeep_startElection (h : n.currentTerm + 1 < 2 ^ 64)
    (replies : List (Option RequestVoteReply)) : VoteKeep n (n.startElection replies) :=
  (voteKeep_beginElection h).trans (voteKeep_electionRound _ _ _ _)

theorem voteKeep_advanceCommit (h : n.advanceCommit = .ok m) : VoteKeep n m := by
  rcases advanceCommit_spec h with rfl | ⟨_, _, _, _, _, rfl, _⟩
  · exact VoteKeep.refl _
  · exact VoteKeep.of_eq rfl rfl rfl rfl

theorem voteKeep_onAppendReply {peer : String} {out : Outgoing} {reply : AppendEntriesReply}
    {goOn : Bool} (h : n.onAppendReply peer out reply = .ok (m, goOn)) : VoteKeep n m := by
  rcases onAppendReply_spec h with
    ⟨-, -, hack⟩ | ⟨-, hterm, -, rfl⟩ | ⟨-, -, -, rfl⟩ | ⟨-, -, rfl⟩
  · have hkeep : VoteKeep n (n.acknowledge peer (out.nextIndex + out.entries.length)) :=
      VoteKeep.of_eq rfl rfl rfl rfl
    exact hkeep.trans (voteKeep_advanceCommit hack)
  · exact voteKeep_stepDown hterm
  · exact VoteKeep.of_eq rfl rfl rfl rfl
  · exact VoteKeep.refl _

theorem voteKeep_heartbeatRound {replies : List (Option AppendEntriesReply)}
    (h : n.heartbeatRound replies = .ok m) : VoteKeep n m :=
  heartbeatRound_related (R := VoteKeep) VoteKeep.refl (fun _ _ _ => VoteKeep.trans)
    (fun _ _ _ _ _ _ => voteKeep_onAppendReply) h

theorem voteKeep_adoptTerm (n : RaftNode) (term : Nat) : VoteKeep n (n.adoptTerm term) := by
  unfold adoptTerm
  split_ifs with hlt
  · exact voteKeep_stepDown hlt
  · exact VoteKeep.refl n

theorem voteKeep_handleRequestVote {args : RequestVoteArgs} {reply : RequestVoteReply}
    (h : n.handleRequestVote args = (m, reply)) : VoteKeep n m := by
  rcases handleRequestVote_spec h with
    ⟨-, rfl, -⟩ | ⟨-, rfl, -⟩ | ⟨-, hfree, -, rfl, -⟩
  · exact VoteKeep.refl _
  · exact voteKeep_adoptTerm n args.term
  · refine (voteKeep_adoptTerm n args.term).trans ⟨rfl, rfl, le_rfl, fun _ hvote => ?_⟩
    -- A vote that has been cast is only overwritten by itself.
    rcases hfree with hempty | hsame
    · exact absurd hempty hvote
    · exact hsame.symm

theorem voteKeep_handleAppendEntries {args : AppendEntriesArgs} {reply : AppendEntriesReply}
    (h : n.handleAppendEntries args = .ok (m, reply)) : VoteKeep n m := by
  have adopt : ∀ m', m'.nodeId = n.nodeId → m'.peers = n.peers →
      m'.currentTerm = args.term → m'.votedFor = n.votedFor →
      n.currentTerm ≤ args.term → VoteKeep n m' := by
    intro m' hid hpeers hterm hvote hle
    exact ⟨hid, hpeers, hterm ▸ hle, fun _ _ => hvote⟩
  rcases handleAppendEntries_spec h with
    ⟨-, rfl, -⟩ | ⟨hle, -, rfl, -⟩ | ⟨hle, -, hfollow, -⟩
  · exact VoteKeep.refl _
  · exact adopt _ rfl rfl rfl rfl hle
  · obtain ⟨c, a, p, rfl, -⟩ := followCommit_spec hfollow
    exact adopt _ rfl rfl rfl rfl hle

theorem voteKeep_submitLog (n : RaftNode) (key value : String) :
    VoteKeep n (n.submitLog key value).1 := by
  rcases submitLog_spec n key value with h | ⟨-, h⟩
  · rw [h]
    exact VoteKeep.refl n
  · rw [h]
    exact VoteKeep.of_eq rfl rfl rfl rfl

/-! ## Steps that touch neither the log nor the leadership -/

/-- A step after which the log is the same and the node leads no term that it
did not lead before.  Every function of a node is of this kind, except
`submitLog`, `finishElection` and an AppendEntries that carries entries. -/
structure Quiet (n m : RaftNode) : Prop where
  keep : VoteKeep n m
  logs : m.logs = n.logs
  leader : m.state = .Leader → n.state = .Leader ∧ m.currentTerm = n.currentTerm

theorem Quiet.refl (n : RaftNode) : Quiet n n :=
  ⟨VoteKeep.refl n, rfl, fun h => ⟨h, rfl⟩⟩

theorem quiet_stepDown {term : Nat} (h : n.currentTerm < term) : Quiet n (n.stepDown term) :=
  ⟨voteKeep_stepDown h, rfl, by simp [stepDown]⟩

theorem quiet_beginElection (h : n.currentTerm + 1 < 2 ^ 64) : Quiet n n.beginElection :=
  ⟨voteKeep_beginElection h, rfl, by simp [beginElection]⟩

theorem quiet_onVoteReply {votes : Nat} {reply : Option RequestVoteReply}
    {next : Option Nat} (h : n.onVoteReply votes reply = (m, next)) : Quiet n m := by
  rcases onVoteReply_spec h with ⟨rfl, -⟩ | ⟨r, -, hterm, rfl, -⟩
  · exact Quiet.refl _
  · exact quiet_stepDown hterm

theorem quiet_onAppendReply {peer : String} {out : Outgoing} {reply : AppendEntriesReply}
    {goOn : Bool} (h : n.onAppendReply peer out reply = .ok (m, goOn)) : Quiet n m := by
  refine ⟨voteKeep_onAppendReply h, ?_, ?_⟩
  all_goals
    rcases onAppendReply_spec h with
      ⟨-, -, hack⟩ | ⟨-, hterm, -, rfl⟩ | ⟨-, -, -, rfl⟩ | ⟨-, -, rfl⟩
    · rcases advanceCommit_spec hack with rfl | ⟨_, _, _, _, _, rfl, _⟩ <;> simp [acknowledge]
    all_goals simp [stepDown]

theorem quiet_handleRequestVote {args : RequestVoteArgs} {reply : RequestVoteReply}
    (h : n.handleRequestVote args = (m, reply)) : Quiet n m := by
  have hadopt : (n.adoptTerm args.term).state = .Leader →
      n.state = .Leader ∧ (n.adoptTerm args.term).currentTerm = n.currentTerm := by
    unfold adoptTerm
    split_ifs
    · simp [stepDown]
    · exact fun hlead => ⟨hlead, rfl⟩
  refine ⟨voteKeep_handleRequestVote h, ?_, ?_⟩
  all_goals
    rcases handleRequestVote_spec h with
      ⟨-, rfl, -⟩ | ⟨-, rfl, -⟩ | ⟨-, -, -, rfl, -⟩
  · rfl
  · exact adoptTerm_logs n args.term
  · exact adoptTerm_logs n args.term
  · exact fun hlead => ⟨hlead, rfl⟩
  · exact hadopt
  · exact hadopt

theorem quiet_handleAppendEntries {args : AppendEntriesArgs} {reply : AppendEntriesReply}
    (h : n.handleAppendEntries args = .ok (m, reply)) (hempty : args.entries = []) :
    Quiet n m := by
  refine ⟨voteKeep_handleAppendEntries h, ?_, ?_⟩
  all_goals
    rcases handleAppendEntries_spec h with
      ⟨-, rfl, -⟩ | ⟨-, -, rfl, -⟩ | ⟨-, -, hfollow, -⟩
  · rfl
  · rfl
  · obtain ⟨c, a, p, rfl, -⟩ := followCommit_spec hfollow
    simp [merge, hempty, mergeEntries, follow]
  · exact fun hlead => ⟨hlead, rfl⟩
  · simp [follow]
  · obtain ⟨c, a, p, rfl, -⟩ := followCommit_spec hfollow
    simp [merge, follow]

end RaftNode
end Raft
end YoloServer
