import Mathlib.Logic.Function.Basic
import YoloServer.Raft.NodeSpec

/-!
# A cluster of nodes

Any number of `RaftNode`s with a fixed membership, and every interleaving of
their steps.  `m_mutex` of a node is held for a whole election and for a whole
heartbeat round: a node that is inside one has a `Task` other than `idle`, and
its handlers and `submitLog` are blocked until the task ends.  Between the RPCs
of a task the other nodes go on.

An RPC is a request in `sent`, identified by its position there.  The peer
handles it at most once and at any later time, also after the sender has given
up.  The sender either receives the answer to this very request or sees the RPC
fail at any time, before or after the peer has handled it.

Three components record history and are read by no step: `votes` lists all votes
ever cast, an `Answer` carries the logs of both sides at the moment the peer
produced it, and `acks i p` is the answer from which node `i` computed its
current `matchIndex` for `p`.

`step` is executable; `Step` describes the same transitions one by one, and
`step_sound` says that `step` makes no other.  `Moves` is what a step means for one
node.
-/

namespace YoloServer
namespace Raft

open Function

/-- A vote cast by `voter`, its own vote for itself included. -/
structure CastVote where
  voter : String
  term : Nat
  candidate : String
  deriving DecidableEq, Repr

/-- The two kinds of request between nodes. -/
inductive Request where
  | vote (args : RequestVoteArgs)
  | append (args : AppendEntriesArgs)
  deriving DecidableEq, Repr

structure Rpc where
  src : String
  dst : String
  request : Request
  deriving DecidableEq, Repr

inductive Response where
  | vote (reply : RequestVoteReply)
  | append (reply : AppendEntriesReply)
  deriving DecidableEq, Repr

/-- The answer to the request at position `rpc`, with the logs of the peer and of
the sender at the moment it was produced. -/
structure Answer where
  rpc : Nat
  response : Response
  dstLogs : List LogEntry
  srcLogs : List LogEntry
  deriving DecidableEq, Repr

/-- What the thread that holds the mutex of a node is doing. -/
inductive Task where
  | idle
  | election (rest : List String) (votes : Nat)
  | awaitVote (peer : String) (rest : List String) (votes : Nat) (rpc : Nat)
  | heartbeat (rest : List String)
  | awaitAppend (peer : String) (rest : List String) (out : RaftNode.Outgoing) (rpc : Nat)

/-- The members of a cluster.  Every member has a non-empty id and knows exactly
the other members as its peers, in an order of its own. -/
structure Membership where
  ids : List String
  peers : String → List String
  ids_nodup : ids.Nodup
  ids_ne : ∀ i ∈ ids, i ≠ ""
  peers_nodup : ∀ i ∈ ids, (peers i).Nodup
  mem_peers : ∀ i ∈ ids, ∀ p, p ∈ peers i ↔ p ∈ ids ∧ p ≠ i

/-- The membership in which every node lists its peers in the common order. -/
def Membership.ofIds (ids : List String) (hnodup : ids.Nodup) (hne : ∀ i ∈ ids, i ≠ "") :
    Membership where
  ids := ids
  peers i := ids.filter (· ≠ i)
  ids_nodup := hnodup
  ids_ne := hne
  peers_nodup := fun _ _ => hnodup.filter _
  mem_peers := by simp

/-- The state of all nodes and of the RPCs between them. -/
structure Cluster where
  node : String → RaftNode
  task : String → Task
  sent : List Rpc
  answers : List Answer
  votes : List CastVote
  acks : String → String → Option Answer

namespace Cluster

/-- All nodes have just been constructed. -/
def init (M : Membership) : Cluster where
  node i := RaftNode.new i (M.peers i)
  task _ := .idle
  sent := []
  answers := []
  votes := []
  acks _ _ := none

/-- The answer to the request at position `rpc`, if it has been produced. -/
def answerTo (s : Cluster) (rpc : Nat) : Option Answer :=
  s.answers.find? fun a => a.rpc = rpc

/-- What can happen next. -/
inductive Event where
  /-- The election timer of a node that is not leader fires. -/
  | startElection (i : String)
  /-- A leader begins a heartbeat round. -/
  | heartbeat (i : String)
  /-- A node sends the request to the next peer of its task. -/
  | send (i : String)
  /-- The RPC a node waits for fails. -/
  | fail (i : String)
  /-- The RPC a node waits for returns the answer. -/
  | receive (i : String)
  /-- A task has run through all peers. -/
  | finish (i : String)
  /-- The destination of a request handles it. -/
  | handle (rpc : Nat)
  /-- A client submits an entry. -/
  | submitLog (i : String) (key value : String)

/-- Node `i` gets a new state, and goes on with `task`. -/
def setNode (s : Cluster) (i : String) (n : RaftNode) (task : Task) : Cluster :=
  { s with node := update s.node i n, task := update s.task i task }

/-- `send` of a node inside a task. -/
def sendNext (s : Cluster) (i : String) : Option Cluster :=
  match s.task i with
  | .election (peer :: rest) votes =>
      some
        { s with
          task := update s.task i (.awaitVote peer rest votes s.sent.length)
          sent := s.sent ++ [⟨i, peer, .vote (s.node i).voteArgs⟩] }
  | .heartbeat (peer :: rest) =>
      match (s.node i).prepareAppend peer with
      | .ok out =>
          some
            { s with
              task := update s.task i (.awaitAppend peer rest out s.sent.length)
              sent := s.sent ++ [⟨i, peer, .append out.args⟩] }
      | .error _ => none
  | _ => none

/-- `fail` of the RPC a node waits for. -/
def failRpc (s : Cluster) (i : String) : Option Cluster :=
  match s.task i with
  | .awaitVote _ rest votes _ => some { s with task := update s.task i (.election rest votes) }
  | .awaitAppend _ rest _ _ => some { s with task := update s.task i (.heartbeat rest) }
  | _ => none

/-- `receive`: the RPC a node waits for returns. -/
def receiveAnswer (s : Cluster) (i : String) : Option Cluster :=
  match s.task i with
  | .awaitVote _ rest votes rpc =>
      match s.answerTo rpc with
      | some ⟨_, .vote reply, _, _⟩ =>
          match (s.node i).onVoteReply votes (some reply) with
          | (n, some votes') => some (s.setNode i n (.election rest votes'))
          | (n, none) => some (s.setNode i n .idle)
      | _ => none
  | .awaitAppend peer rest out rpc =>
      match s.answerTo rpc with
      | some ⟨k, .append reply, dstLogs, srcLogs⟩ =>
          match (s.node i).onAppendReply peer out reply with
          | .ok (n, goOn) =>
              some
                { s.setNode i n (if goOn then .heartbeat rest else .idle) with
                  -- The answer is the origin of the new match index.
                  acks :=
                    if reply.success then
                      update s.acks i
                        (update (s.acks i) peer (some ⟨k, .append reply, dstLogs, srcLogs⟩))
                    else
                      s.acks }
          | .error _ => none
      | _ => none
  | _ => none

/-- `finish`: the loop over the peers has ended. -/
def finishTask (s : Cluster) (i : String) : Option Cluster :=
  match s.task i with
  | .election [] votes =>
      some
        { s.setNode i ((s.node i).finishElection votes) .idle with
          -- The match indices of a new leader are reset.
          acks :=
            if RaftNode.majority (s.node i).peers ≤ votes then update s.acks i fun _ => none
            else s.acks }
  | .heartbeat [] => some { s with task := update s.task i .idle }
  | _ => none

/-- `handle` of a request whose destination is free. -/
def handleRequest (s : Cluster) (rpc : Nat) (r : Rpc) : Option Cluster :=
  match r.request with
  | .vote args =>
      some
        { s with
          node := update s.node r.dst ((s.node r.dst).handleRequestVote args).1
          answers := s.answers ++
            [⟨rpc, .vote ((s.node r.dst).handleRequestVote args).2,
              (s.node r.dst).logs, (s.node r.src).logs⟩]
          votes := s.votes ++
            if ((s.node r.dst).handleRequestVote args).2.voteGranted then
              [⟨r.dst, ((s.node r.dst).handleRequestVote args).2.term, args.candidateId⟩]
            else
              [] }
  | .append args =>
      match (s.node r.dst).handleAppendEntries args with
      | .ok (n, reply) =>
          some
            { s with
              node := update s.node r.dst n
              answers := s.answers ++
                [⟨rpc, .append reply, n.logs, (s.node r.src).logs⟩] }
      | .error _ => none

/-- One step of the cluster. -/
def step (M : Membership) (s : Cluster) : Event → Option Cluster
  | .startElection i =>
      match s.task i with
      | .idle =>
          if i ∈ M.ids ∧ (s.node i).state ≠ .Leader then
            some
              { s.setNode i (s.node i).beginElection (.election (s.node i).peers 1) with
                votes := s.votes ++ [⟨i, (s.node i).beginElection.currentTerm, (s.node i).nodeId⟩] }
          else
            none
      | _ => none
  | .heartbeat i =>
      match s.task i with
      | .idle =>
          if i ∈ M.ids ∧ (s.node i).state = .Leader then
            some { s with task := update s.task i (.heartbeat (s.node i).peers) }
          else
            none
      | _ => none
  | .send i => s.sendNext i
  | .fail i => s.failRpc i
  | .receive i => s.receiveAnswer i
  | .finish i => s.finishTask i
  | .handle rpc =>
      match s.sent[rpc]? with
      | some r =>
          match s.task r.dst with
          -- A free node handles a request that it has not handled before.
          | .idle => if (s.answerTo rpc).isNone then s.handleRequest rpc r else none
          | _ => none
      | none => none
  | .submitLog i key value =>
      match s.task i with
      | .idle =>
          if i ∈ M.ids then
            some { s with node := update s.node i ((s.node i).submitLog key value).1 }
          else
            none
      | _ => none

/-! ## The transitions one by one -/

/-- The transitions of a cluster. -/
inductive Step (M : Membership) (s : Cluster) : Event → Cluster → Prop
  | startElection (i : String) (hi : i ∈ M.ids) (hidle : s.task i = .idle)
      (hstate : (s.node i).state ≠ .Leader) :
      Step M s (.startElection i)
        { s.setNode i (s.node i).beginElection (.election (s.node i).peers 1) with
          votes := s.votes ++ [⟨i, (s.node i).beginElection.currentTerm, (s.node i).nodeId⟩] }
  | heartbeat (i : String) (hi : i ∈ M.ids) (hidle : s.task i = .idle)
      (hstate : (s.node i).state = .Leader) :
      Step M s (.heartbeat i)
        { s with task := update s.task i (.heartbeat (s.node i).peers) }
  | sendVote (i peer : String) (rest : List String) (votes : Nat)
      (htask : s.task i = .election (peer :: rest) votes) :
      Step M s (.send i)
        { s with
          task := update s.task i (.awaitVote peer rest votes s.sent.length)
          sent := s.sent ++ [⟨i, peer, .vote (s.node i).voteArgs⟩] }
  | sendAppend (i peer : String) (rest : List String) (out : RaftNode.Outgoing)
      (htask : s.task i = .heartbeat (peer :: rest))
      (hout : (s.node i).prepareAppend peer = .ok out) :
      Step M s (.send i)
        { s with
          task := update s.task i (.awaitAppend peer rest out s.sent.length)
          sent := s.sent ++ [⟨i, peer, .append out.args⟩] }
  | failVote (i peer : String) (rest : List String) (votes rpc : Nat)
      (htask : s.task i = .awaitVote peer rest votes rpc) :
      Step M s (.fail i) { s with task := update s.task i (.election rest votes) }
  | failAppend (i peer : String) (rest : List String) (out : RaftNode.Outgoing) (rpc : Nat)
      (htask : s.task i = .awaitAppend peer rest out rpc) :
      Step M s (.fail i) { s with task := update s.task i (.heartbeat rest) }
  | receiveVote (i peer : String) (rest : List String) (votes rpc : Nat)
      (reply : RequestVoteReply) (a : Answer) (n : RaftNode) (next : Option Nat)
      (htask : s.task i = .awaitVote peer rest votes rpc)
      (hanswer : s.answerTo rpc = some a) (hresponse : a.response = .vote reply)
      (hreply : (s.node i).onVoteReply votes (some reply) = (n, next)) :
      Step M s (.receive i)
        (s.setNode i n (match next with
          | some votes' => .election rest votes'
          | none => .idle))
  | receiveAppend (i peer : String) (rest : List String) (out : RaftNode.Outgoing)
      (rpc : Nat) (reply : AppendEntriesReply) (a : Answer) (n : RaftNode) (goOn : Bool)
      (htask : s.task i = .awaitAppend peer rest out rpc)
      (hanswer : s.answerTo rpc = some a) (hresponse : a.response = .append reply)
      (hreply : (s.node i).onAppendReply peer out reply = .ok (n, goOn)) :
      Step M s (.receive i)
        { s.setNode i n (if goOn then .heartbeat rest else .idle) with
          acks :=
            if reply.success then update s.acks i (update (s.acks i) peer (some a))
            else s.acks }
  | finishElection (i : String) (votes : Nat) (htask : s.task i = .election [] votes) :
      Step M s (.finish i)
        { s.setNode i ((s.node i).finishElection votes) .idle with
          acks :=
            if RaftNode.majority (s.node i).peers ≤ votes then update s.acks i fun _ => none
            else s.acks }
  | finishHeartbeat (i : String) (htask : s.task i = .heartbeat []) :
      Step M s (.finish i) { s with task := update s.task i .idle }
  | handleVote (rpc : Nat) (src dst : String) (args : RequestVoteArgs)
      (n : RaftNode) (reply : RequestVoteReply)
      (hsent : s.sent[rpc]? = some ⟨src, dst, .vote args⟩) (hidle : s.task dst = .idle)
      (hfresh : s.answerTo rpc = none)
      (hhandle : (s.node dst).handleRequestVote args = (n, reply)) :
      Step M s (.handle rpc)
        { s with
          node := update s.node dst n
          answers := s.answers ++
            [⟨rpc, .vote reply, (s.node dst).logs, (s.node src).logs⟩]
          votes := s.votes ++
            if reply.voteGranted then [⟨dst, reply.term, args.candidateId⟩] else [] }
  | handleAppend (rpc : Nat) (src dst : String) (args : AppendEntriesArgs)
      (n : RaftNode) (reply : AppendEntriesReply)
      (hsent : s.sent[rpc]? = some ⟨src, dst, .append args⟩) (hidle : s.task dst = .idle)
      (hfresh : s.answerTo rpc = none)
      (hhandle : (s.node dst).handleAppendEntries args = .ok (n, reply)) :
      Step M s (.handle rpc)
        { s with
          node := update s.node dst n
          answers := s.answers ++ [⟨rpc, .append reply, n.logs, (s.node src).logs⟩] }
  | submitLog (i key value : String) (hi : i ∈ M.ids) (hidle : s.task i = .idle) :
      Step M s (.submitLog i key value)
        { s with node := update s.node i ((s.node i).submitLog key value).1 }

variable {M : Membership} {s s' : Cluster}

theorem sendNext_sound {i : String} (h : s.sendNext i = some s') : Step M s (.send i) s' := by
  unfold sendNext at h
  split at h
  · rename_i peer rest votes htask
    cases h
    exact .sendVote i peer rest votes htask
  · rename_i peer rest htask
    split at h
    · rename_i out hout
      cases h
      exact .sendAppend i peer rest out htask hout
    · cases h
  · cases h

theorem failRpc_sound {i : String} (h : s.failRpc i = some s') : Step M s (.fail i) s' := by
  unfold failRpc at h
  split at h
  · rename_i htask
    cases h
    exact .failVote i _ _ _ _ htask
  · rename_i htask
    cases h
    exact .failAppend i _ _ _ _ htask
  · cases h

theorem receiveAnswer_sound {i : String} (h : s.receiveAnswer i = some s') :
    Step M s (.receive i) s' := by
  unfold receiveAnswer at h
  split at h
  · rename_i peer rest votes rpc htask
    split at h
    · rename_i k reply dstLogs srcLogs hanswer
      split at h
      · rename_i n votes' hreply
        cases h
        exact .receiveVote i peer rest votes rpc reply _ n (some votes') htask hanswer rfl hreply
      · rename_i n hreply
        cases h
        exact .receiveVote i peer rest votes rpc reply _ n none htask hanswer rfl hreply
    · cases h
  · rename_i peer rest out rpc htask
    split at h
    · rename_i k reply dstLogs srcLogs hanswer
      split at h
      · rename_i n goOn hreply
        cases h
        exact .receiveAppend i peer rest out rpc reply _ n goOn htask hanswer rfl hreply
      · cases h
    · cases h
  · cases h

theorem finishTask_sound {i : String} (h : s.finishTask i = some s') :
    Step M s (.finish i) s' := by
  unfold finishTask at h
  split at h
  · rename_i votes htask
    cases h
    exact .finishElection i votes htask
  · rename_i htask
    cases h
    exact .finishHeartbeat i htask
  · cases h

theorem handleRequest_sound {rpc : Nat} {r : Rpc} (hsent : s.sent[rpc]? = some r)
    (hidle : s.task r.dst = .idle) (hfresh : s.answerTo rpc = none)
    (h : s.handleRequest rpc r = some s') : Step M s (.handle rpc) s' := by
  obtain ⟨src, dst, request⟩ := r
  cases request with
  | vote args =>
      cases h
      exact .handleVote rpc src dst args _ _ hsent hidle hfresh rfl
  | append args =>
      simp only [handleRequest] at h
      split at h
      · rename_i n reply hhandle
        cases h
        exact .handleAppend rpc src dst args n reply hsent hidle hfresh hhandle
      · cases h

/-- The executable step makes no transition but those of `Step`. -/
theorem step_sound {e : Event} (h : s.step M e = some s') : Step M s e s' := by
  cases e with
  | startElection i =>
      simp only [step] at h
      split at h
      · rename_i hidle
        split_ifs at h with hcond
        cases h
        exact .startElection i hcond.1 hidle hcond.2
      · cases h
  | heartbeat i =>
      simp only [step] at h
      split at h
      · rename_i hidle
        split_ifs at h with hcond
        cases h
        exact .heartbeat i hcond.1 hidle hcond.2
      · cases h
  | send i => exact sendNext_sound h
  | fail i => exact failRpc_sound h
  | receive i => exact receiveAnswer_sound h
  | finish i => exact finishTask_sound h
  | handle rpc =>
      simp only [step] at h
      split at h
      · rename_i r hsent
        split at h
        · rename_i hidle
          split_ifs at h with hfresh
          exact handleRequest_sound hsent hidle (Option.isNone_iff_eq_none.mp hfresh) h
        · cases h
      · cases h
  | submitLog i key value =>
      simp only [step] at h
      split at h
      · rename_i hidle
        split_ifs at h with hi
        cases h
        exact .submitLog i key value hi hidle
      · cases h

/-! ## What a step does to one node -/

/-- Node `i` in a step from `s` to `s'`: it stays as it is, or one of its functions is
called. -/
inductive Moves (M : Membership) (s s' : Cluster) (i : String) : Event → Prop
  | stays {e : Event} (hnode : s'.node i = s.node i) (hacks : s'.acks i = s.acks i) :
      Moves M s s' i e
  | startElection (hnode : s'.node i = (s.node i).beginElection) (hacks : s'.acks i = s.acks i) :
      Moves M s s' i (.startElection i)
  | voteReply {votes : Nat} {reply : RequestVoteReply} {n : RaftNode} {next : Option Nat}
      (hreply : (s.node i).onVoteReply votes (some reply) = (n, next)) (hnode : s'.node i = n)
      (hacks : s'.acks i = s.acks i) : Moves M s s' i (.receive i)
  | appendReply {peer : String} {rest : List String} {out : RaftNode.Outgoing} {rpc : Nat}
      {reply : AppendEntriesReply} {a : Answer} {n : RaftNode} {goOn : Bool}
      (htask : s.task i = .awaitAppend peer rest out rpc) (hanswer : s.answerTo rpc = some a)
      (hresponse : a.response = .append reply)
      (hreply : (s.node i).onAppendReply peer out reply = .ok (n, goOn)) (hnode : s'.node i = n)
      (hacks : s'.acks i =
        if reply.success then update (s.acks i) peer (some a) else s.acks i) :
      Moves M s s' i (.receive i)
  | finishElection {votes : Nat} (htask : s.task i = .election [] votes)
      (hnode : s'.node i = (s.node i).finishElection votes)
      (hacks : s'.acks i =
        if RaftNode.majority (s.node i).peers ≤ votes then fun _ => none else s.acks i) :
      Moves M s s' i (.finish i)
  | handleVote {rpc : Nat} {args : RequestVoteArgs} {n : RaftNode} {reply : RequestVoteReply}
      (hhandle : (s.node i).handleRequestVote args = (n, reply)) (hnode : s'.node i = n)
      (hacks : s'.acks i = s.acks i) : Moves M s s' i (.handle rpc)
  | handleAppend {rpc : Nat} {src : String} {args : AppendEntriesArgs} {n : RaftNode}
      {reply : AppendEntriesReply} (hsent : ⟨src, i, .append args⟩ ∈ s.sent)
      (hhandle : (s.node i).handleAppendEntries args = .ok (n, reply)) (hnode : s'.node i = n)
      (hacks : s'.acks i = s.acks i) : Moves M s s' i (.handle rpc)
  | submitLog {key value : String} (hi : i ∈ M.ids)
      (hnode : s'.node i = ((s.node i).submitLog key value).1) (hacks : s'.acks i = s.acks i) :
      Moves M s s' i (.submitLog i key value)

theorem moves_of_step {e : Event} (h : Step M s e s') (i : String) : Moves M s s' i e := by
  cases h with
  | startElection j hj hidle hstate =>
      by_cases hij : i = j
      · subst hij
        exact .startElection (update_self ..) rfl
      · exact .stays (update_of_ne hij ..) rfl
  | heartbeat => exact .stays rfl rfl
  | sendVote => exact .stays rfl rfl
  | sendAppend => exact .stays rfl rfl
  | failVote => exact .stays rfl rfl
  | failAppend => exact .stays rfl rfl
  | finishHeartbeat => exact .stays rfl rfl
  | receiveVote j peer rest votes rpc reply a n next htask hanswer hresponse hreply =>
      by_cases hij : i = j
      · subst hij
        exact .voteReply hreply (update_self ..) rfl
      · exact .stays (update_of_ne hij ..) rfl
  | receiveAppend j peer rest out rpc reply a n goOn htask hanswer hresponse hreply =>
      by_cases hij : i = j
      · subst hij
        refine .appendReply htask hanswer hresponse hreply (update_self ..) ?_
        by_cases hsucc : reply.success = true <;> simp [hsucc]
      · refine .stays (update_of_ne hij ..) ?_
        by_cases hsucc : reply.success = true <;> simp [hsucc, update_of_ne hij]
  | finishElection j votes htask =>
      by_cases hij : i = j
      · subst hij
        refine .finishElection htask (update_self ..) ?_
        by_cases hmaj : RaftNode.majority (s.node i).peers ≤ votes <;> simp [hmaj]
      · refine .stays (update_of_ne hij ..) ?_
        by_cases hmaj : RaftNode.majority (s.node j).peers ≤ votes <;>
          simp [hmaj, update_of_ne hij]
  | handleVote rpc src dst args n reply hsent hidle hfresh hhandle =>
      by_cases hij : i = dst
      · subst hij
        exact .handleVote hhandle (update_self ..) rfl
      · exact .stays (update_of_ne hij ..) rfl
  | handleAppend rpc src dst args n reply hsent hidle hfresh hhandle =>
      by_cases hij : i = dst
      · subst hij
        exact .handleAppend (List.mem_of_getElem? hsent) hhandle (update_self ..) rfl
      · exact .stays (update_of_ne hij ..) rfl
  | submitLog j key value hj hidle =>
      by_cases hij : i = j
      · subst hij
        exact .submitLog hj (update_self ..) rfl
      · exact .stays (update_of_ne hij ..) rfl

end Cluster
end Raft
end YoloServer
