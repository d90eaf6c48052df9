import Mathlib.Data.List.Sort
import YoloServer.Raft.RaftTypes

/-!
# One Raft node (`raft/RaftNode.cpp`)

The protocol state of `RaftNode` and the functions that read and write it.
Timers, threads and logging are left out: an election can start at any time.
`m_mutex` is held from the first to the last line of each of these functions,
so each is one function of the state; the loops over `m_peers` in
`startElection` and `heartbeatLoop` are cut into the part before an RPC and the
part after it, because other nodes go on while the RPC is under way.

* `m_logs[x]` with `x` out of range is undefined behaviour in the source.  Here
  `logAt` turns it into the error `OutOfRange`, so "no access is out of range"
  is "no function returns an error".
* `applyCommittedLogs` calls `RocksDBStorage::put` once for each entry.  The
  calls are recorded in `puts`, with the value of `m_lastApplied` at the call.
* `heartbeatLoop` collects the entries for a peer in a local vector and never
  stores it in the message: `Outgoing.entries` is that vector, and
  `Outgoing.args.entries` is what is sent.
-/

namespace YoloServer
namespace Raft

/-- An access `m_logs[index]` beyond the end of a vector of `size` elements. -/
structure OutOfRange where
  index : Nat
  size : Nat
  deriving DecidableEq, Repr

/-- `m_logs[x]`. -/
def logAt (logs : List LogEntry) (x : Nat) : Except OutOfRange LogEntry :=
  match logs[x]? with
  | some entry => .ok entry
  | none => .error ⟨x, logs.length⟩

/-- `m_logs.back()`.  The vector is never empty: the constructor pushes the
dummy entry, and `erase` starts at position 1 or later. -/
def back (logs : List LogEntry) : LogEntry :=
  logs.getLastD dummyEntry

/-- `std::unordered_map<std::string, uint64_t>`. -/
abbrev IndexMap := AList (fun _ : String => Nat)

/-- `map[peer]`, which yields 0 for a key that is not present. -/
def IndexMap.at (m : IndexMap) (peer : String) : Nat :=
  (m.lookup peer).getD 0

/-- The values of the map, one for each key. -/
def IndexMap.values (m : IndexMap) : List Nat :=
  m.entries.map Sigma.snd

/-- The protocol state of `RaftNode`. -/
structure RaftNode where
  nodeId : String
  peers : List String
  currentTerm : Nat
  votedFor : String
  logs : List LogEntry
  commitIndex : Nat
  lastApplied : Nat
  nextIndex : IndexMap
  matchIndex : IndexMap
  state : RaftState
  puts : List (Nat × LogEntry)

namespace RaftNode

/-- `RaftNode::RaftNode(nodeId, peers)`. -/
def new (nodeId : String) (peers : List String) : RaftNode where
  nodeId := nodeId
  peers := peers
  currentTerm := 0
  votedFor := ""
  logs := [dummyEntry]
  commitIndex := 0
  lastApplied := 0
  nextIndex := ∅
  matchIndex := ∅
  state := .Follower
  puts := []

/-- The three lines with which a node leaves its role for a larger term. -/
def stepDown (n : RaftNode) (term : Nat) : RaftNode :=
  { n with currentTerm := term, state := .Follower, votedFor := "" }

/-! ## Applying committed entries -/

/-- `k` iterations of the loop of `applyCommittedLogs`. -/
def applyLoop : Nat → RaftNode → Except OutOfRange RaftNode
  | 0, n => .ok n
  | k + 1, n => do
      let entry ← logAt n.logs (n.lastApplied + 1)
      -- A `put` that fails is only logged.
      applyLoop k
        { n with
          lastApplied := n.lastApplied + 1
          puts := n.puts ++ [(n.lastApplied + 1, entry)] }

/-- `RaftNode::applyCommittedLogs`: `while (m_lastApplied < m_commitIndex)`. -/
def applyCommittedLogs (n : RaftNode) : Except OutOfRange RaftNode :=
  applyLoop (n.commitIndex - n.lastApplied) n

/-! ## The handlers -/

/-- The comparison `logIsUpToDate` of `handleRequestVote`. -/
def logIsUpToDate (n : RaftNode) (args : RequestVoteArgs) : Prop :=
  (back n.logs).term < args.lastLogTerm ∨
    (args.lastLogTerm = (back n.logs).term ∧ (back n.logs).index ≤ args.lastLogIndex)

instance (n : RaftNode) (args : RequestVoteArgs) : Decidable (n.logIsUpToDate args) :=
  inferInstanceAs (Decidable (_ ∨ _))

/-- `if (args.term > m_currentTerm)`: adopt a larger term. -/
def adoptTerm (n : RaftNode) (term : Nat) : RaftNode :=
  if n.currentTerm < term then n.stepDown term else n

/-- Step 2 of `handleRequestVote`: has the vote been given away, and is the
candidate's log at least as new as this one? -/
def castVote (n : RaftNode) (args : RequestVoteArgs) : RaftNode × RequestVoteReply :=
  if (n.votedFor = "" ∨ n.votedFor = args.candidateId) ∧ n.logIsUpToDate args then
    ({ n with votedFor := args.candidateId }, ⟨n.currentTerm, true⟩)
  else
    (n, ⟨n.currentTerm, false⟩)

/-- `RaftNode::handleRequestVote`. -/
def handleRequestVote (n : RaftNode) (args : RequestVoteArgs) :
    RaftNode × RequestVoteReply :=
  if args.term < n.currentTerm then
    (n, ⟨n.currentTerm, false⟩)
  else
    (n.adoptTerm args.term).castVote args

/-- The `while` loop of step 3 and the `push_back` loop of step 4 of
`handleAppendEntries`, for the entries that are still to be compared and the
position `nextIndex` of the first of them. -/
def mergeEntries (logs : List LogEntry) (nextIndex : Nat) :
    List LogEntry → List LogEntry
  | [] => logs
  | entry :: rest =>
      match logs[nextIndex]? with
      | none => logs ++ entry :: rest
      | some mine =>
          -- A conflict erases this position and everything after it.
          if mine.term ≠ entry.term then
            logs.take nextIndex ++ entry :: rest
          else
            mergeEntries logs (nextIndex + 1) rest

/-- The check of step 2: the log has an entry of the right term at
`prevLogIndex`. -/
def prevMatches (n : RaftNode) (args : AppendEntriesArgs) : Prop :=
  ∃ entry, n.logs[args.prevLogIndex]? = some entry ∧ entry.term = args.prevLogTerm

instance (n : RaftNode) (args : AppendEntriesArgs) : Decidable (n.prevMatches args) :=
  match h : n.logs[args.prevLogIndex]? with
  | none => isFalse (by simp [prevMatches, h])
  | some entry => decidable_of_iff (entry.term = args.prevLogTerm) (by simp [prevMatches, h])

/-- Step 5 of `handleAppendEntries`. -/
def followCommit (n : RaftNode) (leaderCommit : Nat) : Except OutOfRange RaftNode :=
  if n.commitIndex < leaderCommit then
    applyCommittedLogs { n with commitIndex := min leaderCommit (back n.logs).index }
  else
    .ok n

/-- The role and the term of a node that has heard from a valid leader.
`m_votedFor` is not touched, even when the term grows. -/
def follow (n : RaftNode) (term : Nat) : RaftNode :=
  { n with state := .Follower, currentTerm := term }

/-- Steps 3 and 4 of `handleAppendEntries`. -/
def merge (n : RaftNode) (args : AppendEntriesArgs) : RaftNode :=
  { n with logs := mergeEntries n.logs (args.prevLogIndex + 1) args.entries }

/-- `RaftNode::handleAppendEntries`. -/
def handleAppendEntries (n : RaftNode) (args : AppendEntriesArgs) :
    Except OutOfRange (RaftNode × AppendEntriesReply) :=
  if args.term < n.currentTerm then
    .ok (n, ⟨n.currentTerm, false⟩)
  else if n.prevMatches args then do
    let m ← ((n.follow args.term).merge args).followCommit args.leaderCommit
    pure (m, ⟨m.currentTerm, true⟩)
  else
    -- The reply was filled in before the term was raised.
    .ok (n.follow args.term, ⟨n.currentTerm, false⟩)

/-- `RaftNode::submitLog`. -/
def submitLog (n : RaftNode) (key value : String) : RaftNode × Bool :=
  if n.state ≠ .Leader then
    (n, false)
  else
    let entry : LogEntry :=
      { term := n.currentTerm, index := u64 ((back n.logs).index + 1), key, value }
    ({ n with logs := n.logs ++ [entry] }, true)

/-! ## Elections -/

/-- The majority of `startElection`: `(m_peers.size() + 1) / 2 + 1`. -/
def majority (peers : List String) : Nat :=
  (peers.length + 1) / 2 + 1

/-- `startElection` up to the loop over the peers. -/
def beginElection (n : RaftNode) : RaftNode :=
  { n with
    state := .Candidate
    currentTerm := u64 (n.currentTerm + 1)
    votedFor := n.nodeId }

/-- The arguments `startElection` sends to every peer. -/
def voteArgs (n : RaftNode) : RequestVoteArgs where
  term := n.currentTerm
  candidateId := n.nodeId
  lastLogIndex := (back n.logs).index
  lastLogTerm := (back n.logs).term

/-- One iteration of the loop of `startElection`, after `sendRequestVote` has
returned: the number of votes to go on with, or `none` where the function
returns. -/
def onVoteReply (n : RaftNode) (votes : Nat) :
    Option RequestVoteReply → RaftNode × Option Nat
  | none => (n, some votes)
  | some reply =>
      if reply.voteGranted then
        (n, some (votes + 1))
      else if n.currentTerm < reply.term then
        (n.stepDown reply.term, none)
      else
        (n, some votes)

/-- The end of `startElection`, after the loop. -/
def finishElection (n : RaftNode) (votes : Nat) : RaftNode :=
  if majority n.peers ≤ votes then
    { n with
      state := .Leader
      nextIndex := n.peers.foldl (fun m p => m.insert p n.logs.length) n.nextIndex
      matchIndex := n.peers.foldl (fun m p => m.insert p 0) n.matchIndex }
  else
    n

/-- The loop of `startElection` over the remaining peers; `replies` holds the
outcome of `sendRequestVote` for each of them, a missing one being a failure. -/
def electionRound (n : RaftNode) (votes : Nat) :
    List String → List (Option RequestVoteReply) → RaftNode
  | [], _ => n.finishElection votes
  | _ :: rest, replies =>
      match n.onVoteReply votes replies.head?.join with
      | (n', some votes') => electionRound n' votes' rest replies.tail
      | (n', none) => n'

/-- `RaftNode::startElection`. -/
def startElection (n : RaftNode) (replies : List (Option RequestVoteReply)) : RaftNode :=
  n.beginElection.electionRound 1 n.peers replies

/-! ## Heartbeats -/

/-- The local variables of one iteration of `heartbeatLoop`. -/
structure Outgoing where
  nextIndex : Nat
  entries : List LogEntry
  args : AppendEntriesArgs

/-- One iteration of `heartbeatLoop` up to `sendAppendEntries`. -/
def prepareAppend (n : RaftNode) (peer : String) : Except OutOfRange Outgoing := do
  let nextIndex := n.nextIndex.at peer
  let prev ← logAt n.logs (sub64 nextIndex 1)
  pure
    { nextIndex := nextIndex
      entries := n.logs.drop nextIndex
      args :=
        { term := n.currentTerm
          leaderId := n.nodeId
          prevLogIndex := sub64 nextIndex 1
          prevLogTerm := prev.term
          -- `args.entries` is never assigned.
          entries := []
          leaderCommit := n.commitIndex } }

/-- The index picked by `heartbeatLoop`: all replicated indices in descending
order, position `(size - 1) / 2`. -/
def newCommitIndex (n : RaftNode) : Nat :=
  let matchIndices := (n.logs.length - 1) :: n.matchIndex.values
  -- The list is not empty, so the default value is never used.
  (matchIndices.insertionSort (· ≥ ·)).getD ((matchIndices.length - 1) / 2) 0

/-- The commit test of `heartbeatLoop`. -/
def advanceCommit (n : RaftNode) : Except OutOfRange RaftNode :=
  if n.commitIndex < n.newCommitIndex then do
    let entry ← logAt n.logs n.newCommitIndex
    if entry.term = n.currentTerm then
      applyCommittedLogs { n with commitIndex := n.newCommitIndex }
    else
      pure n
  else
    .ok n

/-- `m_nextIndex[peer] = next; m_matchIndex[peer] = m_nextIndex[peer] - 1`. -/
def acknowledge (n : RaftNode) (peer : String) (next : Nat) : RaftNode :=
  { n with
    nextIndex := n.nextIndex.insert peer next
    matchIndex := n.matchIndex.insert peer (sub64 next 1) }

/-- One iteration of `heartbeatLoop` after `sendAppendEntries` has returned
true.  The flag is false where the loop is left by `break`. -/
def onAppendReply (n : RaftNode) (peer : String) (out : Outgoing)
    (reply : AppendEntriesReply) : Except OutOfRange (RaftNode × Bool) :=
  if reply.success then do
    -- The entries were collected and not sent, and count as replicated.
    let m ← (n.acknowledge peer (out.nextIndex + out.entries.length)).advanceCommit
    pure (m, true)
  else if n.currentTerm < reply.term then
    .ok (n.stepDown reply.term, false)
  else if 1 < n.nextIndex.at peer then
    .ok ({ n with nextIndex := n.nextIndex.insert peer (n.nextIndex.at peer - 1) }, true)
  else
    .ok (n, true)

/-- The loop of one heartbeat round over the remaining peers. -/
def heartbeatPeers (n : RaftNode) :
    List String → List (Option AppendEntriesReply) → Except OutOfRange RaftNode
  | [], _ => .ok n
  | peer :: rest, replies => do
      let out ← n.prepareAppend peer
      match replies.head?.join with
      -- After a failed RPC the loop goes on with the next peer.
      | none => heartbeatPeers n rest replies.tail
      | some reply =>
          let (n', goOn) ← n.onAppendReply peer out reply
          if goOn then heartbeatPeers n' rest replies.tail else pure n'

/-- One round of `heartbeatLoop`. -/
def heartbeatRound (n : RaftNode) (replies : List (Option AppendEntriesReply)) :
    Except OutOfRange RaftNode :=
  if n.state = .Leader then n.heartbeatPeers n.peers replies else .ok n

end RaftNode
end Raft
end YoloServer
