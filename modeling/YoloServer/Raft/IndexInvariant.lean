import YoloServer.Raft.NodeRun

/-!
# Positions in the log of a node

The vector `m_logs` is addressed by position, while `handleAppendEntries` bounds
the commit index by the `index` field of its last entry, which came over the
wire.  This module shows when the two agree.

* `BookInv` says that the bookkeeping of a leader stays inside its log.  It
  needs nothing of the entries and survives every event (`bookInv_exec`).
* `exec_ok_iff`: an event accesses the log out of range exactly if it is an
  AppendEntries that raises the commit index beyond the merged log.  So the runs
  without such an access are those of `runs_in_range_iff`.
* `no_access_out_of_range` derives from this a condition on the messages: those
  that matter are among those whose last entry carries an index beyond its position;
  `remote_index_drives_log_out_of_range` is one of them.
* `log_and_leader_index_invariant` is the full invariant for a node that
  receives consecutive indices only.
-/

namespace YoloServer
namespace Raft

open Lib

namespace RaftNode

variable {n m : RaftNode}

/-! ## The bookkeeping of a leader -/

/-- A leader's `nextIndex` and `matchIndex` stay inside its log, and its map of
match indices has no key but its peers. -/
structure BookInv (n : RaftNode) : Prop where
  nonempty : 0 < n.logs.length
  keys : ∀ p v, n.matchIndex.lookup p = some v → p ∈ n.peers
  next : n.state = .Leader → ∀ p ∈ n.peers,
    1 ≤ n.nextIndex.at p ∧ n.nextIndex.at p ≤ n.logs.length
  matched : n.state = .Leader → ∀ p ∈ n.peers, n.matchIndex.at p < n.logs.length

theorem bookInv_new (nodeId : String) (peers : List String) :
    (new nodeId peers).BookInv where
  nonempty := by simp [new]
  keys := by simp [new]
  next := by simp [new]
  matched := by simp [new]

/-- Every index of the commit test lies inside the log. -/
theorem newCommitIndex_lt (h : n.BookInv) (hlead : n.state = .Leader) :
    n.newCommitIndex < n.logs.length := by
  have hpos := h.nonempty
  have hall : ∀ v ∈ (n.logs.length - 1) :: n.matchIndex.values, v < n.logs.length := by
    intro v hv
    rcases List.mem_cons.mp hv with rfl | hv
    · omega
    · obtain ⟨q, hq⟩ := IndexMap.exists_key_of_mem_values hv
      have hbound := h.matched hlead q (h.keys q v hq)
      simpa [IndexMap.at, hq] using hbound
  unfold newCommitIndex
  simp only [List.getD_eq_getElem?_getD]
  -- The picked value is one of the indices, wherever the sort has put it.
  cases hget : (((n.logs.length - 1) :: n.matchIndex.values).insertionSort
      (· ≥ ·))[(((n.logs.length - 1) :: n.matchIndex.values).length - 1) / 2]? with
  | none => simpa using hpos
  | some v =>
      have hmem := List.mem_of_getElem? hget
      rw [List.mem_insertionSort] at hmem
      simpa using hall v hmem

/-- The commit test only moves the cursors. -/
theorem bookInv_advanceCommit (h : n.BookInv) (hadv : n.advanceCommit = .ok m) :
    m.BookInv ∧ m.state = n.state ∧ m.peers = n.peers ∧ m.logs = n.logs := by
  rcases advanceCommit_spec hadv with rfl | ⟨_, _, _, _, _, rfl, _⟩
  · exact ⟨h, rfl, rfl, rfl⟩
  · exact ⟨⟨h.nonempty, h.keys, h.next, h.matched⟩, rfl, rfl, rfl⟩

theorem advanceCommit_ok (h : n.BookInv) (hlead : n.state = .Leader) :
    ∃ m, n.advanceCommit = .ok m := by
  unfold advanceCommit
  split_ifs with hlt
  · obtain ⟨entry, hentry⟩ := logAt_of_lt (newCommitIndex_lt h hlead)
    rw [hentry]
    by_cases hterm : entry.term = n.currentTerm
    · obtain ⟨m, hm⟩ := (applyCommittedLogs_ok_iff
        (n := { n with commitIndex := n.newCommitIndex })).mpr (.inr (newCommitIndex_lt h hlead))
      exact ⟨m, by simpa [bind, Except.bind, hterm] using hm⟩
    · exact ⟨n, by simp [bind, Except.bind, hterm, pure, Except.pure]⟩
  · exact ⟨n, rfl⟩

/-- Any in-range value may be stored for a peer. -/
theorem bookInv_insertNext (h : n.BookInv) {peer : String} {v : Nat}
    (hlow : 1 ≤ v) (hhigh : v ≤ n.logs.length) :
    BookInv { n with nextIndex := n.nextIndex.insert peer v } where
  nonempty := h.nonempty
  keys := h.keys
  next := by
    intro hlead p hp
    exact IndexMap.at_insert_elim (P := fun i => 1 ≤ i ∧ i ≤ n.logs.length)
      (fun _ => ⟨hlow, hhigh⟩) (h.next hlead p hp)
  matched := h.matched

theorem bookInv_acknowledge (h : n.BookInv) {peer : String} (hpeer : peer ∈ n.peers)
    {next : Nat} (hlow : 1 ≤ next) (hhigh : next ≤ n.logs.length) :
    (n.acknowledge peer next).BookInv where
  nonempty := h.nonempty
  keys := by
    intro p v hlookup
    by_cases hp : p = peer
    · exact hp ▸ hpeer
    · rw [acknowledge, AList.lookup_insert_ne hp] at hlookup
      exact h.keys p v hlookup
  next := (bookInv_insertNext h hlow hhigh).next
  matched := by
    intro hlead p hp
    have hsub := sub64_le_of_le hlow
    exact IndexMap.at_insert_elim (P := (· < n.logs.length)) (fun _ => by omega)
      (h.matched hlead p hp)

/-- The slice collected for a peer reaches to the end of the log. -/
theorem prepareAppend_next {peer : String} {out : Outgoing}
    (h : n.prepareAppend peer = .ok out) (hnext : n.nextIndex.at peer ≤ n.logs.length) :
    out.nextIndex + out.entries.length = n.logs.length := by
  obtain ⟨prev, -, rfl⟩ := prepareAppend_spec h
  simp only [List.length_drop]
  omega

theorem prepareAppend_ok (h : n.BookInv) (hlead : n.state = .Leader) {peer : String}
    (hpeer : peer ∈ n.peers) : ∃ out, n.prepareAppend peer = .ok out := by
  obtain ⟨hlow, hhigh⟩ := h.next hlead peer hpeer
  have hsub := sub64_le_of_le hlow
  obtain ⟨prev, hprev⟩ := logAt_of_lt
    (show sub64 (n.nextIndex.at peer) 1 < n.logs.length by omega)
  exact ⟨_, bind_eq_ok.mpr ⟨prev, hprev, rfl⟩⟩

theorem bookInv_stepDown (h : n.BookInv) (term : Nat) : (n.stepDown term).BookInv where
  nonempty := h.nonempty
  keys := h.keys
  next := by simp [stepDown]
  matched := by simp [stepDown]

/-- One reply inside a heartbeat round: the leader's bookkeeping survives, and
the loop goes on only while the node is still leader. -/
theorem onAppendReply_book (h : n.BookInv) (hlead : n.state = .Leader) {peer : String}
    (hpeer : peer ∈ n.peers) {out : Outgoing} (hout : n.prepareAppend peer = .ok out)
    (reply : AppendEntriesReply) :
    ∃ m goOn, n.onAppendReply peer out reply = .ok (m, goOn) ∧ m.BookInv ∧
      m.logs = n.logs ∧ m.peers = n.peers ∧ (goOn = true → m.state = .Leader) := by
  obtain ⟨hlow, hhigh⟩ := h.next hlead peer hpeer
  have hend := prepareAppend_next hout hhigh
  unfold onAppendReply
  split_ifs with hsucc hterm hdec
  · have hpos := h.nonempty
    have hack : (n.acknowledge peer (out.nextIndex + out.entries.length)).BookInv :=
      bookInv_acknowledge h hpeer (by omega) (by omega)
    obtain ⟨m, hm⟩ := advanceCommit_ok hack hlead
    obtain ⟨hbook, hstate, hpeers, hlogs⟩ := bookInv_advanceCommit hack hm
    exact ⟨m, true, bind_eq_ok.mpr ⟨m, hm, rfl⟩, hbook, hlogs, hpeers,
      fun _ => hstate.trans hlead⟩
  · exact ⟨_, _, rfl, bookInv_stepDown h reply.term, rfl, rfl, by simp⟩
  · exact ⟨_, _, rfl, bookInv_insertNext h (by omega) (by omega), rfl, rfl, fun _ => hlead⟩
  · exact ⟨_, _, rfl, h, rfl, rfl, fun _ => hlead⟩

/-- A heartbeat round never fails at a node with sound bookkeeping, and does not
touch the log. -/
theorem heartbeatPeers_book {rest : List String} (h : n.BookInv) (hlead : n.state = .Leader)
    (hrest : ∀ p ∈ rest, p ∈ n.peers) (replies : List (Option AppendEntriesReply)) :
    ∃ m, n.heartbeatPeers rest replies = .ok m ∧ m.BookInv ∧ m.logs = n.logs ∧
      m.peers = n.peers := by
  induction rest generalizing n replies with
  | nil => exact ⟨n, rfl, h, rfl, rfl⟩
  | cons peer rest ih =>
      have hpeer := hrest peer List.mem_cons_self
      have hrest' : ∀ p ∈ rest, p ∈ n.peers := fun p hp => hrest p (List.mem_cons_of_mem _ hp)
      obtain ⟨out, hout⟩ := prepareAppend_ok h hlead hpeer
      cases hreply : replies.head?.join with
      | none =>
          obtain ⟨m, hm, hbook, hlogs, hpeers⟩ := ih h hlead hrest' replies.tail
          refine ⟨m, bind_eq_ok.mpr ⟨out, hout, ?_⟩, hbook, hlogs, hpeers⟩
          rw [hreply]
          exact hm
      | some reply =>
          obtain ⟨n', goOn, hon, hbook, hlogs, hpeers, hgo⟩ :=
            onAppendReply_book h hlead hpeer hout reply
          cases goOn with
          | false =>
              -- The node has stepped down and leaves the loop.
              refine ⟨n', bind_eq_ok.mpr ⟨out, hout, ?_⟩, hbook, hlogs, hpeers⟩
              rw [hreply]
              exact bind_eq_ok.mpr ⟨(n', false), hon, rfl⟩
          | true =>
              obtain ⟨m, hm, hbook', hlogs', hpeers'⟩ :=
                ih hbook (hgo rfl) (by rw [hpeers]; exact hrest') replies.tail
              refine ⟨m, bind_eq_ok.mpr ⟨out, hout, ?_⟩, hbook', hlogs'.trans hlogs,
                hpeers'.trans hpeers⟩
              rw [hreply]
              exact bind_eq_ok.mpr ⟨(n', true), hon, hm⟩

theorem heartbeatRound_book (h : n.BookInv) (replies : List (Option AppendEntriesReply)) :
    ∃ m, n.heartbeatRound replies = .ok m ∧ m.BookInv ∧ m.logs = n.logs ∧
      m.peers = n.peers := by
  unfold heartbeatRound
  split_ifs with hlead
  · exact heartbeatPeers_book h hlead (fun p hp => hp) replies
  · exact ⟨n, rfl, h, rfl, rfl⟩

/-! ## Elections -/

theorem finishElection_book (h : n.BookInv) (votes : Nat) :
    (n.finishElection votes).BookInv ∧ (n.finishElection votes).logs = n.logs := by
  rcases finishElection_spec n votes with heq | ⟨-, heq⟩
  · rw [heq]
    exact ⟨h, rfl⟩
  · rw [heq]
    refine ⟨⟨h.nonempty, ?_, ?_, ?_⟩, rfl⟩
    · intro p v hlookup
      simp only [IndexMap.lookup_foldl_insert] at hlookup
      split_ifs at hlookup with hmem
      · exact hmem
      · exact h.keys p v hlookup
    · intro _ p hp
      simp only [IndexMap.at_foldl_insert hp]
      exact ⟨h.nonempty, le_rfl⟩
    · intro _ p hp
      simp only [IndexMap.at_foldl_insert hp]
      exact h.nonempty

theorem onVoteReply_book (h : n.BookInv) {votes : Nat} {reply : Option RequestVoteReply}
    {next : Option Nat} (hreply : n.onVoteReply votes reply = (m, next)) :
    m.BookInv ∧ m.logs = n.logs := by
  rcases onVoteReply_spec hreply with ⟨rfl, -⟩ | ⟨r, -, -, rfl, -⟩
  · exact ⟨h, rfl⟩
  · exact ⟨bookInv_stepDown h r.term, rfl⟩

theorem electionRound_book (h : n.BookInv) (votes : Nat) (rest : List String)
    (replies : List (Option RequestVoteReply)) :
    (n.electionRound votes rest replies).BookInv ∧
      (n.electionRound votes rest replies).logs = n.logs := by
  have htrans : ∀ l n m : RaftNode, (l.BookInv → n.BookInv ∧ n.logs = l.logs) →
      (n.BookInv → m.BookInv ∧ m.logs = n.logs) → l.BookInv → m.BookInv ∧ m.logs = l.logs := by
    intro l n m h₁ h₂ hl
    obtain ⟨hn, hlogs⟩ := h₁ hl
    obtain ⟨hm, hlogs'⟩ := h₂ hn
    exact ⟨hm, hlogs'.trans hlogs⟩
  exact electionRound_related (R := fun n m => n.BookInv → m.BookInv ∧ m.logs = n.logs) htrans
    (fun _ _ _ _ _ hreply h => onVoteReply_book h hreply)
    (fun _ votes h => finishElection_book h votes) n votes rest replies h

theorem startElection_book (h : n.BookInv) (replies : List (Option RequestVoteReply)) :
    (n.startElection replies).BookInv ∧ (n.startElection replies).logs = n.logs := by
  have hbegin : n.beginElection.BookInv :=
    ⟨h.nonempty, h.keys, by simp [beginElection], by simp [beginElection]⟩
  exact electionRound_book hbegin 1 n.peers replies

/-! ## The handlers -/

/-- The merge keeps the log as it is, or keeps a part of it and appends the rest
of the message right behind. -/
theorem mergeEntries_cases {logs : List LogEntry} {k : Nat} (entries : List LogEntry)
    (hk : k ≤ logs.length) :
    mergeEntries logs k entries = logs ∨
      ∃ j, j < entries.length ∧ k + j ≤ logs.length ∧
        mergeEntries logs k entries = logs.take (k + j) ++ entries.drop j := by
  induction entries generalizing k with
  | nil => exact .inl rfl
  | cons entry rest ih =>
      rw [mergeEntries]
      cases hget : logs[k]? with
      | none =>
          -- Behind the end of the log: the rest of the message is appended.
          have hlen : logs.length ≤ k := List.getElem?_eq_none_iff.mp hget
          exact .inr ⟨0, by simp, by omega, by simp [List.take_of_length_le hlen]⟩
      | some mine =>
          simp only
          split_ifs with hterm
          -- A conflict cuts the log here; otherwise the comparison goes on.
          · exact .inr ⟨0, by simp, by omega, by simp⟩
          · obtain ⟨hlt, -⟩ := List.getElem?_eq_some_iff.mp hget
            rcases ih (k := k + 1) (by omega) with hsame | ⟨j, hj, hkj, heq⟩
            · exact .inl hsame
            · refine .inr ⟨j + 1, by simp; omega, by omega, ?_⟩
              rw [heq, Nat.add_assoc, Nat.add_comm 1 j]
              rfl

/-- The loop does not touch what is before its first position. -/
theorem getElem?_mergeEntries {logs : List LogEntry} {i k : Nat} (entries : List LogEntry)
    (hk : k ≤ logs.length) (hi : i < k) : (mergeEntries logs k entries)[i]? = logs[i]? := by
  rcases mergeEntries_cases entries hk with hsame | ⟨j, -, hkj, heq⟩
  · rw [hsame]
  · rw [heq, List.getElem?_append_left (by rw [List.length_take]; omega),
      List.getElem?_take_of_lt (by omega)]

theorem prevMatches_lt {args : AppendEntriesArgs} (h : n.prevMatches args) :
    args.prevLogIndex < n.logs.length := by
  obtain ⟨entry, hentry, -⟩ := h
  exact (List.getElem?_eq_some_iff.mp hentry).1

/-- A merge after a successful check of `prevLogIndex` leaves the dummy entry
where it is. -/
theorem merge_nonempty {args : AppendEntriesArgs} (h : n.prevMatches args) :
    0 < (n.merge args).logs.length ∧ (n.merge args).logs[0]? = n.logs[0]? := by
  have hlt : args.prevLogIndex + 1 ≤ n.logs.length := prevMatches_lt h
  have hhead : (n.merge args).logs[0]? = n.logs[0]? :=
    getElem?_mergeEntries args.entries hlt (Nat.succ_pos _)
  have hsome : n.logs[0]? = some n.logs[0] := List.getElem?_eq_getElem (by omega)
  exact ⟨(List.getElem?_eq_some_iff.mp (hhead.trans hsome)).1, hhead⟩

theorem bookInv_adoptTerm (h : n.BookInv) (term : Nat) : (n.adoptTerm term).BookInv := by
  unfold adoptTerm
  split_ifs
  · exact bookInv_stepDown h term
  · exact h

theorem handleRequestVote_book (h : n.BookInv) (args : RequestVoteArgs) :
    (n.handleRequestVote args).1.BookInv ∧
      (n.handleRequestVote args).1.logs = n.logs := by
  have hadopt := bookInv_adoptTerm h args.term
  rcases handleRequestVote_spec (Prod.eta (n.handleRequestVote args)).symm with
    ⟨-, hm, -⟩ | ⟨-, hm, -⟩ | ⟨-, -, -, hm, -⟩
  · rw [hm]
    exact ⟨h, rfl⟩
  · rw [hm]
    exact ⟨hadopt, adoptTerm_logs n args.term⟩
  · rw [hm]
    exact ⟨⟨hadopt.nonempty, hadopt.keys, hadopt.next, hadopt.matched⟩,
      adoptTerm_logs n args.term⟩

/-- `handleAppendEntries` leaves the node a follower with the merged log, unless
it refuses the message. -/
theorem handleAppendEntries_logs {args : AppendEntriesArgs} {reply : AppendEntriesReply}
    (h : n.handleAppendEntries args = .ok (m, reply)) :
    (m = n ∨ (m.state = .Follower ∧ m.matchIndex = n.matchIndex ∧ m.peers = n.peers)) ∧
      (m.logs = n.logs ∨
        (n.currentTerm ≤ args.term ∧ n.prevMatches args ∧ m.logs = (n.merge args).logs)) := by
  rcases handleAppendEntries_spec h with
    ⟨-, rfl, -⟩ | ⟨-, -, rfl, -⟩ | ⟨hle, hprev, hfollow, -⟩
  · exact ⟨.inl rfl, .inl rfl⟩
  · exact ⟨.inr ⟨rfl, rfl, rfl⟩, .inl rfl⟩
  · obtain ⟨c, a, p, rfl, -⟩ := followCommit_spec hfollow
    exact ⟨.inr ⟨rfl, rfl, rfl⟩, .inr ⟨hle, hprev, rfl⟩⟩

theorem handleAppendEntries_book (h : n.BookInv) {args : AppendEntriesArgs}
    {reply : AppendEntriesReply} (hhandle : n.handleAppendEntries args = .ok (m, reply)) :
    m.BookInv := by
  obtain ⟨hrole, hlogs⟩ := handleAppendEntries_logs hhandle
  rcases hrole with rfl | ⟨hstate, hmatch, hpeers⟩
  · exact h
  · refine ⟨?_, ?_, by simp [hstate], by simp [hstate]⟩
    · rcases hlogs with heq | ⟨-, hprev, heq⟩
      · rw [heq]
        exact h.nonempty
      · rw [heq]
        exact (merge_nonempty hprev).1
    · intro p v hlookup
      rw [hmatch] at hlookup
      rw [hpeers]
      exact h.keys p v hlookup

/-- The commit index is bounded by the index of the last entry, so it is enough that this one is a
position of the log. -/
theorem appliesInRange_of_back {args : AppendEntriesArgs}
    (h : n.currentTerm ≤ args.term → n.prevMatches args →
      (back (n.merge args).logs).index < (n.merge args).logs.length) : n.AppliesInRange args :=
  fun hle hprev _ => .inr (lt_of_le_of_lt (min_le_right _ _) (h hle hprev))

/-- The handler fails only if the last entry of the merged log carries an index
that is not a position of the log. -/
theorem handleAppendEntries_ok {args : AppendEntriesArgs}
    (h : n.currentTerm ≤ args.term → n.prevMatches args →
      (back (n.merge args).logs).index < (n.merge args).logs.length) :
    ∃ r, n.handleAppendEntries args = .ok r :=
  handleAppendEntries_ok_iff.mpr (appliesInRange_of_back h)

theorem submitLog_book (h : n.BookInv) (key value : String) :
    (n.submitLog key value).1.BookInv := by
  rcases submitLog_spec n key value with heq | ⟨-, heq⟩
  · rw [heq]
    exact h
  · rw [heq]
    refine ⟨by simp, h.keys, ?_, ?_⟩
    · intro hlead p hp
      obtain ⟨hlow, hhigh⟩ := h.next hlead p hp
      refine ⟨hlow, ?_⟩
      simp only [List.length_append, List.length_singleton]
      omega
    · intro hlead p hp
      have hmatch := h.matched hlead p hp
      simp only [List.length_append, List.length_singleton]
      omega

/-- The bookkeeping survives every event, whatever its arguments. -/
theorem bookInv_exec (h : n.BookInv) {e : NodeEvent} (hexec : n.exec e = .ok m) :
    m.BookInv := by
  cases e with
  | startElection replies =>
      cases hexec
      exact (startElection_book h replies).1
  | heartbeat replies =>
      obtain ⟨m', hm', hbook, -⟩ := heartbeatRound_book h replies
      have heq : m' = m := Except.ok.inj (hm'.symm.trans hexec)
      exact heq ▸ hbook
  | handleRequestVote args =>
      cases hexec
      exact (handleRequestVote_book h args).1
  | handleAppendEntries args =>
      obtain ⟨reply, hhandle⟩ := exec_handleAppendEntries.mp hexec
      exact handleAppendEntries_book h hhandle
  | submitLog key value =>
      cases hexec
      exact submitLog_book h key value
  | restart =>
      cases hexec
      exact bookInv_new _ _

/-- The log after an event: unchanged, merged with a message, extended by a
submission, or new. -/
theorem exec_logs (h : n.BookInv) {e : NodeEvent} (hexec : n.exec e = .ok m) :
    m.logs = n.logs ∨ m.logs = [dummyEntry] ∨
      (∃ args, e = .handleAppendEntries args ∧ n.currentTerm ≤ args.term ∧
        n.prevMatches args ∧ m.logs = (n.merge args).logs) ∨
      (∃ key value, e = .submitLog key value ∧ n.state = .Leader ∧
        m.logs = n.logs ++ [⟨n.currentTerm, u64 ((back n.logs).index + 1), key, value⟩]) := by
  cases e with
  | startElection replies =>
      cases hexec
      exact .inl (startElection_book h replies).2
  | heartbeat replies =>
      obtain ⟨m', hm', -, hlogs, -⟩ := heartbeatRound_book h replies
      have heq : m' = m := Except.ok.inj (hm'.symm.trans hexec)
      exact .inl (heq ▸ hlogs)
  | handleRequestVote args =>
      cases hexec
      exact .inl (handleRequestVote_book h args).2
  | handleAppendEntries args =>
      obtain ⟨reply, hhandle⟩ := exec_handleAppendEntries.mp hexec
      rcases (handleAppendEntries_logs hhandle).2 with hsame | ⟨hle, hprev, hlogs⟩
      · exact .inl hsame
      · exact .inr (.inr (.inl ⟨args, rfl, hle, hprev, hlogs⟩))
  | submitLog key value =>
      cases hexec
      rcases submitLog_spec n key value with heq | ⟨hlead, heq⟩
      · rw [heq]
        exact .inl rfl
      · rw [heq]
        exact .inr (.inr (.inr ⟨key, value, rfl, hlead, rfl⟩))
  | restart =>
      cases hexec
      exact .inr (.inl rfl)

/-- The commit index that an AppendEntries brings about is a position of the log. -/
def CommitsInRange (n : RaftNode) : NodeEvent → Prop
  | .handleAppendEntries args => n.AppliesInRange args
  | _ => True

/-- No event other than `handleAppendEntries` can fail. -/
theorem exec_ok_iff (h : n.BookInv) {e : NodeEvent} :
    (∃ m, n.exec e = .ok m) ↔ n.CommitsInRange e := by
  cases e with
  | heartbeat replies =>
      obtain ⟨m, hm, -⟩ := heartbeatRound_book h replies
      exact ⟨fun _ => trivial, fun _ => ⟨m, hm⟩⟩
  | handleAppendEntries args =>
      rw [CommitsInRange, ← handleAppendEntries_ok_iff]
      constructor
      · rintro ⟨m, hm⟩
        obtain ⟨reply, hhandle⟩ := exec_handleAppendEntries.mp hm
        exact ⟨_, hhandle⟩
      · rintro ⟨⟨m, reply⟩, hhandle⟩
        exact ⟨m, exec_handleAppendEntries.mpr ⟨reply, hhandle⟩⟩
  | _ => exact ⟨fun _ => trivial, fun _ => ⟨_, rfl⟩⟩

/-- **The runs without an access out of range** are those in which every AppendEntries that raises
the commit index leaves it inside the merged log, or has nothing to apply. -/
theorem runs_in_range_iff (nodeId : String) (peers : List String) (es : List NodeEvent) :
    (run step (new nodeId peers) es).isSome ↔
      Meets step CommitsInRange (new nodeId peers) es := by
  have hstep : ∀ (n : RaftNode) (e : NodeEvent), n.BookInv →
      ((n.step e).isSome ↔ n.CommitsInRange e) := by
    intro n e hbook
    rw [← exec_ok_iff hbook, Option.isSome_iff_exists]
    exact exists_congr fun m => step_eq_some
  have hinv : ∀ (n : RaftNode) (e : NodeEvent) (m : RaftNode), n.BookInv → n.step e = some m →
      m.BookInv :=
    fun _ _ _ hbook hm => bookInv_exec hbook (step_eq_some.mp hm)
  exact run_isSome_iff hstep hinv (bookInv_new nodeId peers)

/-! ## Messages from an arbitrary sender -/

/-- The `index` field of the last entry is a position of the log. -/
def BackInRange (logs : List LogEntry) : Prop :=
  (back logs).index < logs.length

instance (logs : List LogEntry) : Decidable (BackInRange logs) :=
  inferInstanceAs (Decidable (_ < _))

theorem commitsInRange_of_back {e : NodeEvent}
    (h : ∀ args, e = .handleAppendEntries args → n.currentTerm ≤ args.term →
      n.prevMatches args → BackInRange (n.merge args).logs) : n.CommitsInRange e := by
  cases e with
  | handleAppendEntries args => exact appliesInRange_of_back (h args rfl)
  | _ => trivial

/-- The last entry of a message, if the message is taken up at all, carries an
index of at most its position in the vector.  The condition is on the messages alone: an index that
is too large does no harm until a message raises the commit index to it. -/
def LastIndexFits (n : RaftNode) : NodeEvent → Prop
  | .handleAppendEntries args =>
      n.currentTerm ≤ args.term → n.prevMatches args →
        ∀ last ∈ args.entries.getLast?,
          last.index ≤ args.prevLogIndex + args.entries.length
  | _ => True

instance (n : RaftNode) : ∀ e, Decidable (n.LastIndexFits e)
  | .handleAppendEntries _ => inferInstanceAs (Decidable (_ → _ → ∀ _ ∈ _, _))
  | .startElection _ => isTrue trivial
  | .heartbeat _ => isTrue trivial
  | .handleRequestVote _ => isTrue trivial
  | .submitLog _ _ => isTrue trivial
  | .restart => isTrue trivial

/-- Only the last entry of a message can become the last entry of the log. -/
theorem backInRange_merge {args : AppendEntriesArgs} (hback : BackInRange n.logs)
    (hprev : n.prevMatches args)
    (hlast : ∀ last ∈ args.entries.getLast?,
      last.index ≤ args.prevLogIndex + args.entries.length) :
    BackInRange (n.merge args).logs := by
  have hlt : args.prevLogIndex + 1 ≤ n.logs.length := prevMatches_lt hprev
  rcases mergeEntries_cases args.entries hlt with hsame | ⟨j, hj, hkj, heq⟩
  · simpa only [merge, hsame] using hback
  · have hne : args.entries.drop j ≠ [] := by
      simpa [List.drop_eq_nil_iff] using hj
    have hlen : (args.entries.drop j).getLast? = args.entries.getLast? := by
      rw [List.getLast?_drop]
      simp [hj]
    have hget : args.entries.getLast? = some ((args.entries.drop j).getLast hne) := by
      rw [← hlen, List.getLast?_eq_getLast_of_ne_nil hne]
    have hindex := hlast _ hget
    simp only [BackInRange, merge, heq, back]
    -- What is appended is not empty and ends like the message.
    rw [List.getLastD_eq_getLast?, List.getLast?_append_of_ne_nil _ hne,
      List.getLast?_eq_getLast_of_ne_nil hne]
    simp only [Option.getD_some, List.length_append, List.length_take, List.length_drop]
    omega

theorem backInRange_submit (hback : BackInRange n.logs) (term : Nat) (key value : String) :
    BackInRange (n.logs ++ [⟨term, u64 ((back n.logs).index + 1), key, value⟩]) := by
  have hle := u64_le ((back n.logs).index + 1)
  simp only [BackInRange] at hback
  simp only [BackInRange, back, List.getLastD_concat, List.length_append,
    List.length_singleton]
  simp only [back] at hle hback
  omega

/-- The step lemma: a node with sound bookkeeping and the index of its last
entry in range survives every event whose last index fits. -/
theorem backInRange_step (n : RaftNode) (e : NodeEvent)
    (h : n.BookInv ∧ BackInRange n.logs) (hcond : n.LastIndexFits e) :
    ∃ m, n.step e = some m ∧ m.BookInv ∧ BackInRange m.logs := by
  obtain ⟨hbook, hback⟩ := h
  obtain ⟨m, hm⟩ := (exec_ok_iff hbook).mpr (commitsInRange_of_back (e := e) (by
    rintro args rfl hle hprev
    exact backInRange_merge hback hprev (hcond hle hprev)))
  refine ⟨m, step_eq_some.mpr hm, bookInv_exec hbook hm, ?_⟩
  rcases exec_logs hbook hm with heq | heq | ⟨args, rfl, hle, hprev, heq⟩ |
    ⟨key, value, rfl, -, heq⟩
  · rwa [heq]
  · rw [heq]
    decide
  · rw [heq]
    exact backInRange_merge hback hprev (hcond hle hprev)
  · rw [heq]
    exact backInRange_submit hback n.currentTerm key value

/-- **No access to the log is out of range** in any run in which the last entry
of every message that is taken up carries an index of at most its position.  All
other arguments, and the outcomes of all RPCs, are arbitrary. -/
theorem no_access_out_of_range (nodeId : String) (peers : List String)
    (es : List NodeEvent) (hmeets : Meets step LastIndexFits (new nodeId peers) es) :
    ∃ n, run step (new nodeId peers) es = some n := by
  obtain ⟨n, hrun, -⟩ := run_total backInRange_step
    ⟨bookInv_new nodeId peers, (by decide : BackInRange [dummyEntry])⟩ hmeets
  exact ⟨n, hrun⟩

/-- A run with a truncation and an index field that lags behind its position. -/
theorem no_access_out_of_range_lagging_index :
    ∃ n, run step (new "n1" ["n2"])
      [.handleAppendEntries ⟨1, "n2", 0, 0, [⟨1, 1, "k", "v"⟩, ⟨1, 0, "k", "w"⟩], 9⟩,
        .handleAppendEntries ⟨2, "n2", 0, 0, [⟨2, 1, "k", "u"⟩], 2 ^ 64 - 1⟩,
        .startElection [some ⟨3, true⟩],
        .submitLog "k" "x",
        .heartbeat [some ⟨3, true⟩]] = some n :=
  no_access_out_of_range "n1" ["n2"] _ (by decide)

/-- One message with an entry of index 100 and `leaderCommit` 100 makes a new
node read `m_logs[2]` from a log of two entries. -/
theorem remote_index_drives_log_out_of_range :
    ∃ args, (new "n1" ["n2"]).exec (.handleAppendEntries args) = .error ⟨2, 2⟩ ∧
      run step (new "n1" ["n2"]) [.handleAppendEntries args] = none :=
  ⟨⟨1, "n2", 0, 0, [⟨1, 100, "k", "v"⟩], 100⟩, rfl, rfl⟩

/-! ## Messages with consecutive indices -/

/-- The entries of every AppendEntries carry the indices following
`prevLogIndex`, and no submission overflows the index. -/
def ConsecutiveIndices (n : RaftNode) : NodeEvent → Prop
  | .handleAppendEntries args =>
      ∀ k (hk : k < args.entries.length),
        (args.entries.get ⟨k, hk⟩).index = args.prevLogIndex + 1 + k
  | .submitLog _ _ => (back n.logs).index + 1 < 2 ^ 64
  | _ => True

instance (n : RaftNode) : ∀ e, Decidable (n.ConsecutiveIndices e)
  | .handleAppendEntries _ => inferInstanceAs (Decidable (∀ k, ∀ _ : k < _, _))
  | .submitLog _ _ => inferInstanceAs (Decidable (_ < _))
  | .startElection _ => isTrue trivial
  | .heartbeat _ => isTrue trivial
  | .handleRequestVote _ => isTrue trivial
  | .restart => isTrue trivial

/-- The dummy entry is at position 0, and every entry carries its position. -/
structure IndexIsPosition (logs : List LogEntry) : Prop where
  head : logs[0]? = some dummyEntry
  index : ∀ (i : Nat) (entry : LogEntry), logs[i]? = some entry → entry.index = i

instance (logs : List LogEntry) : Decidable (IndexIsPosition logs) :=
  decidable_of_iff (logs[0]? = some dummyEntry ∧
      ∀ i, (h : i < logs.length) → (logs.get ⟨i, h⟩).index = i) (by
    constructor
    · rintro ⟨hhead, hindex⟩
      refine ⟨hhead, fun i entry hentry => ?_⟩
      obtain ⟨hi, rfl⟩ := List.getElem?_eq_some_iff.mp hentry
      exact hindex i hi
    · rintro ⟨hhead, hindex⟩
      exact ⟨hhead, fun i hi => hindex i _ (List.getElem?_eq_getElem hi)⟩)

theorem indexIsPosition_dummy : IndexIsPosition [dummyEntry] where
  head := rfl
  index := by
    intro i entry h
    obtain ⟨hi, rfl⟩ := List.getElem?_eq_some_iff.mp h
    simp only [List.length_singleton, Nat.lt_one_iff] at hi
    subst hi
    rfl

/-- The index of the last entry, if every entry carries its position. -/
theorem back_index {logs : List LogEntry} (hpos : 0 < logs.length)
    (h : ∀ (i : Nat) (entry : LogEntry), logs[i]? = some entry → entry.index = i) :
    (back logs).index + 1 = logs.length := by
  have hget : logs[logs.length - 1]? = some (back logs) := by
    rw [back, List.getLastD_eq_getLast?, List.getLast?_eq_getElem?]
    rw [List.getElem?_eq_getElem (by omega)]
    rfl
  have hindex := h _ _ hget
  omega

theorem IndexIsPosition.back_index {logs : List LogEntry} (h : IndexIsPosition logs) :
    (back logs).index + 1 = logs.length :=
  RaftNode.back_index (List.getElem?_eq_some_iff.mp h.head).1 h.index

theorem IndexIsPosition.backInRange {logs : List LogEntry} (h : IndexIsPosition logs) :
    BackInRange logs := by
  have hback := h.back_index
  simp only [BackInRange]
  omega

theorem indexIsPosition_merge {args : AppendEntriesArgs} (h : IndexIsPosition n.logs)
    (hprev : n.prevMatches args)
    (hcons : ∀ k (hk : k < args.entries.length),
      (args.entries.get ⟨k, hk⟩).index = args.prevLogIndex + 1 + k) :
    IndexIsPosition (n.merge args).logs := by
  have hlt : args.prevLogIndex + 1 ≤ n.logs.length := prevMatches_lt hprev
  refine ⟨(merge_nonempty hprev).2.trans h.head, ?_⟩
  intro i entry hget
  rcases mergeEntries_cases args.entries hlt with hsame | ⟨j, hj, hkj, heq⟩
  · simp only [merge, hsame] at hget
    exact h.index i entry hget
  · simp only [merge, heq] at hget
    have htake : (n.logs.take (args.prevLogIndex + 1 + j)).length
        = args.prevLogIndex + 1 + j := by
      rw [List.length_take]
      omega
    by_cases hi : i < args.prevLogIndex + 1 + j
    · rw [List.getElem?_append_left (by omega), List.getElem?_take, if_pos hi] at hget
      exact h.index i entry hget
    · rw [List.getElem?_append_right (by omega), htake, List.getElem?_drop] at hget
      obtain ⟨hk, rfl⟩ := List.getElem?_eq_some_iff.mp hget
      have hindex := hcons _ hk
      simp only [List.get_eq_getElem] at hindex
      omega

theorem indexIsPosition_submit (h : IndexIsPosition n.logs) (term : Nat)
    (key value : String) (hfit : (back n.logs).index + 1 < 2 ^ 64) :
    IndexIsPosition (n.logs ++ [⟨term, u64 ((back n.logs).index + 1), key, value⟩]) := by
  have hpos : 0 < n.logs.length := (List.getElem?_eq_some_iff.mp h.head).1
  have hback := h.back_index
  rw [u64_of_lt hfit]
  refine ⟨?_, ?_⟩
  · rw [List.getElem?_append_left hpos]
    exact h.head
  · intro i entry hget
    rcases List.getElem?_append.symm.trans hget with hget'
    split_ifs at hget' with hi
    · exact h.index i entry hget'
    · obtain ⟨hone, rfl⟩ := List.getElem?_eq_some_iff.mp hget'
      simp only [List.length_singleton] at hone
      simp only [List.getElem_singleton]
      omega

/-- The step lemma for consecutive indices. -/
theorem indexIsPosition_step (n : RaftNode) (e : NodeEvent)
    (h : n.BookInv ∧ IndexIsPosition n.logs) (hcond : n.ConsecutiveIndices e) :
    ∃ m, n.step e = some m ∧ m.BookInv ∧ IndexIsPosition m.logs := by
  obtain ⟨hbook, hpos⟩ := h
  obtain ⟨m, hm⟩ := (exec_ok_iff hbook).mpr (commitsInRange_of_back (e := e) (by
    rintro args rfl - hprev
    exact (indexIsPosition_merge hpos hprev hcond).backInRange))
  refine ⟨m, step_eq_some.mpr hm, bookInv_exec hbook hm, ?_⟩
  rcases exec_logs hbook hm with heq | heq | ⟨args, rfl, -, hprev, heq⟩ |
    ⟨key, value, rfl, -, heq⟩
  · rwa [heq]
  · rw [heq]
    exact indexIsPosition_dummy
  · rw [heq]
    exact indexIsPosition_merge hpos hprev hcond
  · rw [heq]
    exact indexIsPosition_submit hpos n.currentTerm key value hcond

/-- **The log and leader index invariant.**  In every run in which the entries
of each AppendEntries carry consecutive indices from `prevLogIndex + 1` on, no
access to the log is out of range, the log starts with the dummy entry, every
entry carries its position, and the bookkeeping of a leader lies inside its
log. -/
theorem log_and_leader_index_invariant (nodeId : String) (peers : List String)
    (es : List NodeEvent)
    (hmeets : Meets step ConsecutiveIndices (new nodeId peers) es) :
    ∃ n, run step (new nodeId peers) es = some n ∧
      n.logs[0]? = some dummyEntry ∧
      (∀ (i : Nat) (entry : LogEntry), n.logs[i]? = some entry → entry.index = i) ∧
      (n.state = .Leader → ∀ p ∈ n.peers,
        1 ≤ n.nextIndex.at p ∧ n.nextIndex.at p ≤ n.logs.length ∧
          n.matchIndex.at p < n.logs.length) := by
  obtain ⟨n, hrun, hbook, hpos⟩ := run_total indexIsPosition_step
    ⟨bookInv_new nodeId peers, indexIsPosition_dummy⟩ hmeets
  refine ⟨n, hrun, hpos.head, hpos.index, ?_⟩
  intro hlead p hp
  obtain ⟨hlow, hhigh⟩ := hbook.next hlead p hp
  exact ⟨hlow, hhigh, hbook.matched hlead p hp⟩

/-- A run in which the log of a former follower is truncated before it leads. -/
theorem index_invariant_after_truncation :
    ∃ n, run step (new "n1" ["n2"])
      [.handleAppendEntries ⟨1, "n2", 0, 0, [⟨1, 1, "k", "v"⟩, ⟨1, 2, "k", "w"⟩], 2⟩,
        .handleAppendEntries ⟨2, "n2", 0, 0, [⟨2, 1, "k", "u"⟩], 1⟩,
        .startElection [some ⟨3, true⟩],
        .submitLog "k" "x",
        .heartbeat [some ⟨3, true⟩]] = some n ∧
      n.logs[0]? = some dummyEntry ∧
      (∀ (i : Nat) (entry : LogEntry), n.logs[i]? = some entry → entry.index = i) ∧
      (n.state = .Leader → ∀ p ∈ n.peers,
        1 ≤ n.nextIndex.at p ∧ n.nextIndex.at p ≤ n.logs.length ∧
          n.matchIndex.at p < n.logs.length) :=
  log_and_leader_index_invariant "n1" ["n2"]
    [.handleAppendEntries ⟨1, "n2", 0, 0, [⟨1, 1, "k", "v"⟩, ⟨1, 2, "k", "w"⟩], 2⟩,
      .handleAppendEntries ⟨2, "n2", 0, 0, [⟨2, 1, "k", "u"⟩], 1⟩,
      .startElection [some ⟨3, true⟩],
      .submitLog "k" "x",
      .heartbeat [some ⟨3, true⟩]] (by decide)

end RaftNode
end Raft
end YoloServer
