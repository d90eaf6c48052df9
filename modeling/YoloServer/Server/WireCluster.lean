import YoloServer.Lib.Simulation
import YoloServer.Raft.ElectionSafety
import YoloServer.Server.ParsedMessages

/-!
# A cluster that exchanges bytes

`Raft.Cluster` lets the nodes exchange requests and answers as records.  In `WireCluster` a request
is the text that `sendRequestVote` or `sendAppendEntries` builds, the peer gives it to
`Connection::handle`, and the caller decodes the text that comes back, with the
parser of the library on both sides.  Requests reach the peer whole.

Any text can come back to a node that waits.  Which one it is depends on the pooled connections,
which are modelled in `RpcPairing`: what a call leaves unread stays on its connection.  Here it is a
hypothesis that the text is the reply to the request that the node waits for, or the beginning of
this reply that had arrived (`Paired`), as in the claims on the cluster.  It does not hold of every
run: `old_reply_taken_for_new` is a run in which a call reads an older reply.

`wire_refines_cluster`: under this hypothesis the runs on the wire are runs of `Raft.Cluster`, where
a reply of which only a part was read counts as a failed RPC.
-/

namespace YoloServer
namespace Raft

open Function

/-! ## The numbers of a node -/

/-- The numbers of a node that enter its messages are values of `uint64_t`. -/
structure RaftNode.Fits (n : RaftNode) : Prop where
  term : n.currentTerm < 2 ^ 64
  commit : n.commitIndex < 2 ^ 64
  logs : ∀ entry ∈ n.logs, entry.Fits

/-- `heartbeatLoop` collects the entries for a peer and does not send them. -/
def Request.WithoutEntries : Request → Prop
  | .vote _ => True
  | .append args => args.entries = []

/-- A request on the wire, from the node `src` to the node `dst`. -/
structure WireRpc where
  src : String
  dst : String
  text : List UInt8

/-- The nodes, and the texts between them. -/
structure WireCluster where
  node : String → RaftNode
  task : String → Task
  sent : List WireRpc
  replies : List (Nat × List UInt8)

namespace WireCluster

/-- The reply to the request at position `rpc`, if there is one. -/
def replyTo (w : WireCluster) (rpc : Nat) : Option (List UInt8) :=
  (w.replies.find? fun reply => reply.1 = rpc).map Prod.snd

def setNode (w : WireCluster) (i : String) (n : RaftNode) (task : Task) : WireCluster :=
  { w with node := update w.node i n, task := update w.task i task }

section Steps

variable (D : Type) [Double D]

/-- The next request of a task is written and sent. -/
def sendNext (w : WireCluster) (i : String) : Option WireCluster :=
  match w.task i with
  | .election (peer :: rest) votes =>
      some
        { w with
          task := update w.task i (.awaitVote peer rest votes w.sent.length)
          sent := w.sent ++ [⟨i, peer, requestText D (.vote (w.node i).voteArgs)⟩] }
  | .heartbeat (peer :: rest) =>
      match (w.node i).prepareAppend peer with
      | .ok out =>
          some
            { w with
              task := update w.task i (.awaitAppend peer rest out w.sent.length)
              sent := w.sent ++ [⟨i, peer, requestText D (.append out.args)⟩] }
      | .error _ => none
  | _ => none

/-- The RPC that a node waits for fails. -/
def failRpc (w : WireCluster) (i : String) : Option WireCluster :=
  match w.task i with
  | .awaitVote _ rest votes _ => some { w with task := update w.task i (.election rest votes) }
  | .awaitAppend _ rest _ _ => some { w with task := update w.task i (.heartbeat rest) }
  | _ => none

/-- The text that a node waits for, if the peer has sent it. -/
def awaited (w : WireCluster) (i : String) : Option (List UInt8) :=
  match w.task i with
  | .awaitVote _ _ _ rpc | .awaitAppend _ _ _ rpc => w.replyTo rpc
  | _ => none

/-- A text has come.  If it cannot be decoded, the RPC counts as failed. -/
def receiveText (parse : List UInt8 → Option (Json D)) (w : WireCluster) (i : String)
    (text : List UInt8) : Option WireCluster :=
  match w.task i with
  | .awaitVote _ rest votes _ =>
      match (w.node i).onVoteReply votes (decodeVoteReply parse text) with
      | (n, some votes') => some (w.setNode i n (.election rest votes'))
      | (n, none) => some (w.setNode i n .idle)
  | .awaitAppend peer rest out _ =>
      match decodeAppendReply parse text with
      | some reply =>
          match (w.node i).onAppendReply peer out reply with
          | .ok (n, goOn) => some (w.setNode i n (if goOn then .heartbeat rest else .idle))
          | .error _ => none
      | none => some { w with task := update w.task i (.heartbeat rest) }
  | _ => none

/-- The caller reads the reply to its request. -/
def receiveReply (parse : List UInt8 → Option (Json D)) (w : WireCluster) (i : String) :
    Option WireCluster :=
  (w.awaited i).bind (w.receiveText D parse i)

/-- The loop over the peers has ended. -/
def finishTask (w : WireCluster) (i : String) : Option WireCluster :=
  match w.task i with
  | .election [] votes => some (w.setNode i ((w.node i).finishElection votes) .idle)
  | .heartbeat [] => some { w with task := update w.task i .idle }
  | _ => none

variable {D} (F : Type) [Single F D] (env : String → Server.Env D) (server : String → Server)

/-- The connection at the peer handles the text of a request.  A Raft handler that does not return
takes the server with it. -/
def handleText (w : WireCluster) (rpc : Nat) (r : WireRpc) : Option WireCluster :=
  let outcome := Server.handle (env r.dst) F (server r.dst) (some (w.node r.dst)) r.text
  match outcome.ending, outcome.raft, outcome.replies with
  | .returns, some n, [text] =>
      some { w with node := update w.node r.dst n, replies := w.replies ++ [(rpc, text)] }
  | _, _, _ => none

/-- One step, for the same events as in `Cluster`. -/
def step (M : Membership) (w : WireCluster) : Cluster.Event → Option WireCluster
  | .startElection i =>
      match w.task i with
      | .idle =>
          if i ∈ M.ids ∧ (w.node i).state ≠ .Leader then
            some (w.setNode i (w.node i).beginElection (.election (w.node i).peers 1))
          else
            none
      | _ => none
  | .heartbeat i =>
      match w.task i with
      | .idle =>
          if i ∈ M.ids ∧ (w.node i).state = .Leader then
            some { w with task := update w.task i (.heartbeat (w.node i).peers) }
          else
            none
      | _ => none
  | .send i => w.sendNext D i
  | .fail i => w.failRpc i
  | .receive i => w.receiveReply D (env i).parse i
  | .finish i => w.finishTask i
  | .handle rpc =>
      match w.sent[rpc]? with
      | some r =>
          match w.task r.dst with
          | .idle => if (w.replyTo rpc).isNone then w.handleText F env server rpc r else none
          | _ => none
      | none => none
  | .submitLog i key value =>
      match w.task i with
      | .idle =>
          if i ∈ M.ids then
            some { w with node := update w.node i ((w.node i).submitLog key value).1 }
          else
            none
      | _ => none

end Steps

/-- The events of a cluster on the wire: those of `Cluster`, and a text that comes back to a node,
whatever it is. -/
inductive WireEvent where
  | node (e : Cluster.Event)
  | text (i : String) (bytes : List UInt8)

/-- One step on the wire. -/
def stepWire {D : Type} [Double D] (F : Type) [Single F D] (env : String → Server.Env D)
    (server : String → Server) (M : Membership) (w : WireCluster) : WireEvent → Option WireCluster
  | .node e => w.step F env server M e
  | .text i bytes => w.receiveText D (env i).parse i bytes

/-- What a call has in its buffer when the first `c` bytes of the reply have arrived: `resize` has
filled it with zeros. -/
def cutOff (reply : List UInt8) (c : Nat) : List UInt8 :=
  reply.take c ++ List.replicate (reply.length - c) 0

/-- The text that comes back belongs to the request that the node waits for. -/
def Paired (w : WireCluster) : WireEvent → Prop
  | .node _ => True
  | .text i bytes =>
      ∃ reply ∈ w.awaited i, bytes = reply ∨ ∃ c < reply.length, bytes = cutOff reply c

instance (w : WireCluster) : ∀ e, Decidable (w.Paired e)
  | .node _ => isTrue trivial
  | .text _ _ => inferInstanceAs (Decidable (∃ _ ∈ _, _))

/-- What the event is for the nodes. -/
def event (w : WireCluster) : WireEvent → Cluster.Event
  | .node e => e
  | .text i bytes => if w.awaited i = some bytes then .receive i else .fail i

/-- The number of entries that clients submit on the wire. -/
def submits (events : List WireEvent) : Nat :=
  events.countP fun
    | .node (.submitLog ..) => true
    | _ => false

end WireCluster

namespace Cluster

/-- The texts of a cluster. -/
def toWire (D : Type) [Double D] (s : Cluster) : WireCluster where
  node := s.node
  task := s.task
  sent := s.sent.map fun r => ⟨r.src, r.dst, requestText D r.request⟩
  replies := s.answers.map fun a => (a.rpc, replyText D (.node a.response))

/-- The kind of request that a task waits for. -/
def Awaits (s : Cluster) : Task → Prop
  | .awaitVote _ _ _ rpc => ∃ r args, s.sent[rpc]? = some r ∧ r.request = .vote args
  | .awaitAppend _ _ _ rpc => ∃ r args, s.sent[rpc]? = some r ∧ r.request = .append args
  | .idle | .election _ _ | .heartbeat _ => True

/-- All messages of a cluster can be written and read. -/
structure Wired (s : Cluster) : Prop where
  nodes : ∀ i, (s.node i).Fits
  requests : ∀ r ∈ s.sent, r.request.Fits ∧ r.request.WithoutEntries
  answers : ∀ a ∈ s.answers, (Reply.node a.response).fits ∧
    ∃ r, s.sent[a.rpc]? = some r ∧ r.request.IsFor a.response
  awaits : ∀ i, s.Awaits (s.task i)

/-! ## One step -/

section Commutes

variable {D : Type} [Double D] {M : Membership} {s : Cluster} {i : String}

@[simp] theorem toWire_node (s : Cluster) : (s.toWire D).node = s.node := rfl

@[simp] theorem toWire_task (s : Cluster) : (s.toWire D).task = s.task := rfl

theorem toWire_sent_length : (s.toWire D).sent.length = s.sent.length :=
  List.length_map _

theorem toWire_sendNext : (s.toWire D).sendNext D i = (s.sendNext i).map (toWire D) := by
  simp only [WireCluster.sendNext, sendNext, toWire_node, toWire_task, toWire_sent_length]
  cases s.task i with
  | election rest votes =>
      cases rest with
      | nil => rfl
      | cons peer rest => simp [toWire]
  | heartbeat rest =>
      cases rest with
      | nil => rfl
      | cons peer rest =>
          dsimp only
          cases (s.node i).prepareAppend peer with
          | ok out => simp [toWire]
          | error _ => rfl
  | _ => rfl

theorem toWire_failRpc : (s.toWire D).failRpc i = (s.failRpc i).map (toWire D) := by
  simp only [WireCluster.failRpc, failRpc, toWire_task]
  cases s.task i with
  | _ => rfl

theorem toWire_finishTask : (s.toWire D).finishTask i = (s.finishTask i).map (toWire D) := by
  simp only [WireCluster.finishTask, finishTask, toWire_node, toWire_task]
  cases s.task i with
  | election rest votes =>
      cases rest with
      | nil => rfl
      | cons peer rest => rfl
  | heartbeat rest =>
      cases rest with
      | nil => rfl
      | cons peer rest => rfl
  | _ => rfl

/-- The reply on the wire is the text of the answer. -/
theorem replyTo_toWire (rpc : Nat) :
    (s.toWire D).replyTo rpc = (s.answerTo rpc).map fun a => replyText D (.node a.response) := by
  rw [WireCluster.replyTo, answerTo, toWire, List.find?_map, Option.map_map]
  rfl

theorem mem_of_answerTo {rpc : Nat} {a : Answer} (h : s.answerTo rpc = some a) :
    a ∈ s.answers ∧ a.rpc = rpc :=
  ⟨List.mem_of_find?_eq_some h, by simpa using List.find?_some h⟩

variable [Json.Strtod D] [IsFinite D]

/-- The text of an answer is decoded as the answer. -/
theorem decodeReply_answer (hdump : Json.LawfulDump D) (hwired : s.Wired) {rpc : Nat} {a : Answer}
    (ha : s.answerTo rpc = some a) {r : Rpc} (hr : s.sent[rpc]? = some r) :
    decodeReply (D := D) Json.parse r.request (replyText D (.node a.response)) =
      some a.response := by
  obtain ⟨hmem, rfl⟩ := mem_of_answerTo ha
  obtain ⟨hfits, r', hr', hkind⟩ := hwired.answers a hmem
  rw [hr, Option.some.injEq] at hr'
  subst hr'
  exact Server.decodeReply_replyText hkind hfits
    (Json.rereads_of_writable hdump (writable_responseJson hfits))

theorem toWire_receiveReply (hdump : Json.LawfulDump D) (hwired : s.Wired) :
    (s.toWire D).receiveReply D Json.parse i = (s.receiveAnswer i).map (toWire D) := by
  have hawaits := hwired.awaits i
  simp only [WireCluster.receiveReply, WireCluster.awaited, receiveAnswer, toWire_task,
    replyTo_toWire]
  cases htask : s.task i with
  | awaitVote peer rest votes rpc =>
      rw [htask] at hawaits
      obtain ⟨r, args, hr, hrequest⟩ := hawaits
      dsimp only
      cases hanswer : s.answerTo rpc with
      | none => rfl
      | some a =>
          have hdecode := decodeReply_answer hdump hwired hanswer hr
          rw [hrequest] at hdecode
          obtain ⟨reply, hreply, hresponse⟩ := Option.map_eq_some_iff.mp hdecode
          obtain ⟨k, response, dstLogs, srcLogs⟩ := a
          dsimp only at hreply hresponse ⊢
          subst hresponse
          simp only [Option.map_some, Option.bind_some, WireCluster.receiveText, toWire_node,
            toWire_task, htask, hreply]
          cases (s.node i).onVoteReply votes (some reply) with
          | mk n next =>
              cases next with
              | some votes' => rfl
              | none => rfl
  | awaitAppend peer rest out rpc =>
      rw [htask] at hawaits
      obtain ⟨r, args, hr, hrequest⟩ := hawaits
      dsimp only
      cases hanswer : s.answerTo rpc with
      | none => rfl
      | some a =>
          have hdecode := decodeReply_answer hdump hwired hanswer hr
          rw [hrequest] at hdecode
          obtain ⟨reply, hreply, hresponse⟩ := Option.map_eq_some_iff.mp hdecode
          obtain ⟨k, response, dstLogs, srcLogs⟩ := a
          dsimp only at hreply hresponse ⊢
          subst hresponse
          simp only [Option.map_some, Option.bind_some, WireCluster.receiveText, toWire_node,
            toWire_task, htask, hreply]
          cases (s.node i).onAppendReply peer out reply with
          | ok result => rfl
          | error _ => rfl
  | _ => rfl

omit [Double D] in
theorem closesObjects_parse : ClosesObjects (Json.parse (D := D)) :=
  fun _ _ h => Json.brace_of_parse h

/-- A text that cannot be decoded is a failure of the RPC. -/
theorem receiveText_of_undecoded {w : WireCluster} {text : List UInt8}
    (h : ∀ request, decodeReply (D := D) Json.parse request text = none) :
    w.receiveText D Json.parse i text = w.failRpc i := by
  have hvote : decodeVoteReply (D := D) Json.parse text = none :=
    Option.map_eq_none_iff.mp (h (.vote (w.node i).voteArgs))
  have happend : decodeAppendReply (D := D) Json.parse text = none :=
    Option.map_eq_none_iff.mp (h (.append ⟨0, "", 0, 0, [], 0⟩))
  rw [WireCluster.receiveText, WireCluster.failRpc]
  cases htask : w.task i with
  | awaitVote peer rest votes rpc =>
      simp only [hvote, RaftNode.onVoteReply, WireCluster.setNode, update_eq_self]
  | awaitAppend peer rest out rpc => simp only [happend]
  | _ => rfl

omit [Json.Strtod D] [IsFinite D] in
/-- The reply that a node waits for is the text of an answer. -/
theorem answer_of_awaited {reply : List UInt8} (h : (s.toWire D).awaited i = some reply) :
    ∃ a ∈ s.answers, replyText D (.node a.response) = reply := by
  rw [WireCluster.awaited, toWire_task] at h
  cases htask : s.task i with
  | awaitVote peer rest votes rpc | awaitAppend peer rest out rpc =>
      rw [htask] at h
      dsimp only at h
      rw [replyTo_toWire, Option.map_eq_some_iff] at h
      obtain ⟨a, ha, hreply⟩ := h
      exact ⟨a, (mem_of_answerTo ha).1, hreply⟩
  | _ =>
      rw [htask] at h
      cases h

/-- A text that belongs to the request is an answer or a failure of the RPC. -/
theorem toWire_receiveText (hdump : Json.LawfulDump D) (hwired : s.Wired) {bytes : List UInt8}
    (hpaired : (s.toWire D).Paired (.text i bytes)) :
    (s.toWire D).receiveText D Json.parse i bytes =
      (s.step M ((s.toWire D).event (.text i bytes))).map (toWire D) := by
  obtain ⟨reply, hreply, hbytes⟩ := hpaired
  rw [WireCluster.event]
  split_ifs with hwhole
  · have hreceive := toWire_receiveReply (i := i) hdump hwired
    rwa [WireCluster.receiveReply, hwhole] at hreceive
  · rcases hbytes with rfl | ⟨c, hc, rfl⟩
    · exact absurd hreply hwhole
    · -- The texts of the answers are short, so that what is left has no closing brace.
      obtain ⟨a, ha, rfl⟩ := answer_of_awaited hreply
      have hshort := short_replyText (D := D) (.node a.response) (hwired.answers a ha).1
      rw [WireCluster.cutOff, receiveText_of_undecoded fun request =>
        decodeReply_cut closesObjects_parse request hshort hc _]
      exact toWire_failRpc

variable {F : Type} [Single F D] {env : String → Server.Env D} {server : String → Server}

/-- The connection of a peer does what the node of the peer does. -/
theorem toWire_handleText (hdump : Json.LawfulDump D) (hparse : ∀ i, (env i).parse = Json.parse)
    (hwired : s.Wired) {rpc : Nat} {r : Rpc} (hr : r ∈ s.sent) :
    (s.toWire D).handleText F env server rpc ⟨r.src, r.dst, requestText D r.request⟩ =
      (s.handleRequest rpc r).map (toWire D) := by
  have hfits := (hwired.requests r hr).1
  have hreads : Json.Rereads (env r.dst).parse (Server.requestJson D r.request) := by
    rw [hparse]
    exact Json.rereads_of_writable hdump (writable_requestJson hfits)
  simp only [WireCluster.handleText, toWire_node,
    Server.handle_requestText hfits hreads, handleRequest]
  obtain ⟨src, dst, request⟩ := r
  cases request with
  | vote args => simp [Server.callRequest, Server.callRequestVote, Server.Outcome.reply, toWire]
  | append args =>
      simp only [Server.callRequest, Server.callAppendEntries]
      cases (s.node dst).handleAppendEntries args with
      | ok result => simp [Server.Outcome.reply, toWire]
      | error _ => rfl

/-- **A step with bytes is a step with records.** -/
theorem toWire_step (hdump : Json.LawfulDump D) (hparse : ∀ i, (env i).parse = Json.parse)
    (hwired : s.Wired) (e : Event) :
    (s.toWire D).step F env server M e = (s.step M e).map (toWire D) := by
  cases e with
  | startElection i =>
      simp only [WireCluster.step, step, toWire_node, toWire_task]
      cases s.task i with
      | idle =>
          rw [Option.map_if]
          rfl
      | _ => rfl
  | heartbeat i =>
      simp only [WireCluster.step, step, toWire_node, toWire_task]
      cases s.task i with
      | idle =>
          rw [Option.map_if]
          rfl
      | _ => rfl
  | send i => exact toWire_sendNext
  | fail i => exact toWire_failRpc
  | receive i =>
      simp only [WireCluster.step, step, hparse i]
      exact toWire_receiveReply hdump hwired
  | finish i => exact toWire_finishTask
  | handle rpc =>
      have hsent : (s.toWire D).sent[rpc]? =
          (s.sent[rpc]?).map fun r => ⟨r.src, r.dst, requestText D r.request⟩ := List.getElem?_map
      simp only [WireCluster.step, step, toWire_task, hsent, replyTo_toWire, Option.isNone_map]
      cases hr : s.sent[rpc]? with
      | none => rfl
      | some r =>
          dsimp only [Option.map_some]
          cases s.task r.dst with
          | idle =>
              dsimp only
              split_ifs
              · exact toWire_handleText hdump hparse hwired (List.mem_of_getElem? hr)
              · rfl
          | _ => rfl
  | submitLog i key value =>
      simp only [WireCluster.step, step, toWire_node, toWire_task]
      cases s.task i with
      | idle =>
          rw [Option.map_if]
          rfl
      | _ => rfl

end Commutes

/-! ## The numbers stay in their range -/

section Range

open RaftNode

variable {n m : RaftNode}

theorem fits_new (nodeId : String) (peers : List String) : (RaftNode.new nodeId peers).Fits where
  term := show 0 < 2 ^ 64 by decide
  commit := show 0 < 2 ^ 64 by decide
  logs entry hentry := by
    rw [List.mem_singleton.mp hentry]
    exact ⟨by decide, by decide⟩

theorem fits_stepDown (h : n.Fits) {term : Nat} (hterm : term < 2 ^ 64) : (n.stepDown term).Fits :=
  ⟨hterm, h.commit, h.logs⟩

theorem fits_beginElection (h : n.Fits) : n.beginElection.Fits :=
  ⟨Nat.mod_lt _ (by decide), h.commit, h.logs⟩

theorem fits_onVoteReply (h : n.Fits) {votes : Nat} {reply : RequestVoteReply} {next : Option Nat}
    (hterm : reply.term < 2 ^ 64) (hreply : n.onVoteReply votes (some reply) = (m, next)) :
    m.Fits := by
  rcases onVoteReply_spec hreply with ⟨rfl, -⟩ | ⟨r, hr, -, rfl, -⟩
  · exact h
  · cases hr
    exact fits_stepDown h hterm

theorem fits_finishElection (h : n.Fits) (votes : Nat) : (n.finishElection votes).Fits := by
  rcases finishElection_spec n votes with heq | ⟨-, heq⟩
  · rwa [heq]
  · rw [heq]
    exact ⟨h.term, h.commit, h.logs⟩

/-- A commit index that the leader picks is a position of its log. -/
theorem fits_onAppendReply (h : n.Fits) (hlog : n.logs.length ≤ 2 ^ 64) {peer : String}
    {out : Outgoing} {reply : AppendEntriesReply} {goOn : Bool} (hterm : reply.term < 2 ^ 64)
    (hreply : n.onAppendReply peer out reply = .ok (m, goOn)) : m.Fits := by
  rcases onAppendReply_spec hreply with
    ⟨-, -, hcommit⟩ | ⟨-, -, -, rfl⟩ | ⟨-, -, -, rfl⟩ | ⟨-, -, rfl⟩
  · rcases advanceCommit_spec hcommit with rfl | ⟨entry, p, -, hentry, -, rfl, -⟩
    · exact ⟨h.term, h.commit, h.logs⟩
    · obtain ⟨hlt, -⟩ := List.getElem?_eq_some_iff.mp hentry
      exact ⟨h.term, Nat.lt_of_lt_of_le hlt hlog, h.logs⟩
  · exact fits_stepDown h hterm
  · exact ⟨h.term, h.commit, h.logs⟩
  · exact h

theorem fits_adoptTerm (h : n.Fits) {term : Nat} (hterm : term < 2 ^ 64) :
    (n.adoptTerm term).Fits := by
  rw [adoptTerm]
  split_ifs
  · exact fits_stepDown h hterm
  · exact h

theorem fits_handleRequestVote (h : n.Fits) {args : RequestVoteArgs} {reply : RequestVoteReply}
    (hterm : args.term < 2 ^ 64) (hhandle : n.handleRequestVote args = (m, reply)) :
    m.Fits ∧ reply.term < 2 ^ 64 := by
  have hadopt := fits_adoptTerm h hterm
  rcases handleRequestVote_spec hhandle with
    ⟨-, rfl, rfl⟩ | ⟨-, rfl, rfl⟩ | ⟨-, -, -, rfl, rfl⟩
  · exact ⟨h, h.term⟩
  · exact ⟨hadopt, hterm⟩
  · exact ⟨⟨hadopt.term, hadopt.commit, hadopt.logs⟩, hterm⟩

theorem mem_mergeEntries {logs entries : List LogEntry} {k : Nat} {entry : LogEntry}
    (h : entry ∈ mergeEntries logs k entries) : entry ∈ logs ∨ entry ∈ entries := by
  induction entries generalizing k with
  | nil => exact .inl h
  | cons first rest ih =>
      rw [mergeEntries] at h
      split at h
      · exact List.mem_append.mp h
      · split_ifs at h
        · obtain h | h := List.mem_append.mp h
          · exact .inl (List.mem_of_mem_take h)
          · exact .inr h
        · obtain h | h := ih h
          · exact .inl h
          · exact .inr (List.mem_cons_of_mem _ h)

theorem fits_handleAppendEntries (h : n.Fits) {args : AppendEntriesArgs}
    {reply : AppendEntriesReply} (hfits : (Request.append args).Fits)
    (hhandle : n.handleAppendEntries args = .ok (m, reply)) :
    m.Fits ∧ reply.term < 2 ^ 64 := by
  obtain ⟨hterm, -, -, hcommit, hentries⟩ := hfits
  rcases handleAppendEntries_spec hhandle with
    ⟨-, rfl, rfl⟩ | ⟨-, -, rfl, rfl⟩ | ⟨-, -, hfollow, rfl⟩
  · exact ⟨h, h.term⟩
  · exact ⟨⟨hterm, h.commit, h.logs⟩, h.term⟩
  · obtain ⟨c, a, p, rfl, hcursor, -⟩ := followCommit_spec hfollow
    refine ⟨⟨hterm, ?_, ?_⟩, hterm⟩
    · rcases hcursor with ⟨-, rfl, -⟩ | ⟨-, rfl, -⟩
      · exact h.commit
      · exact Nat.lt_of_le_of_lt (Nat.min_le_left _ _) hcommit
    · intro entry hentry
      rcases mem_mergeEntries hentry with hold | hnew
      · exact h.logs entry hold
      · exact hentries entry hnew

theorem fits_submitLog (h : n.Fits) (key value : String) : (n.submitLog key value).1.Fits := by
  rcases submitLog_spec n key value with heq | ⟨-, heq⟩
  · rwa [heq]
  · rw [heq]
    refine ⟨h.term, h.commit, ?_⟩
    intro entry hentry
    rcases List.mem_append.mp hentry with hold | hnew
    · exact h.logs entry hold
    · rw [List.mem_singleton.mp hnew]
      exact ⟨h.term, Nat.mod_lt _ (by decide)⟩

theorem fits_back (h : n.Fits) : (back n.logs).Fits := by
  rw [back]
  cases hlast : n.logs.getLast? with
  | none =>
      rw [List.getLast?_eq_none_iff] at hlast
      rw [hlast]
      exact ⟨by decide, by decide⟩
  | some entry =>
      rw [List.getLastD_eq_getLast?, hlast]
      exact h.logs entry (List.mem_of_getLast? hlast)

theorem fits_voteArgs (h : n.Fits) : (Request.vote n.voteArgs).Fits :=
  ⟨h.term, (fits_back h).2, (fits_back h).1⟩

theorem fits_prepareAppend (h : n.Fits) {peer : String} {out : Outgoing}
    (hout : n.prepareAppend peer = .ok out) : (Request.append out.args).Fits := by
  obtain ⟨prev, hprev, rfl⟩ := prepareAppend_spec hout
  exact ⟨h.term, Nat.mod_lt _ (by decide), (h.logs prev (List.mem_of_getElem? hprev)).1, h.commit,
    by simp⟩

end Range

/-! ## Whole runs -/

section Runs

open RaftNode

variable {M : Membership} {s s' : Cluster}

theorem wired_init (M : Membership) : Wired (init M) where
  nodes i := fits_new i (M.peers i)
  requests := by simp [init]
  answers := by simp [init]
  awaits _ := trivial

/-- A step keeps the old messages, and its new ones can be written and read. -/
theorem Wired.next (h : s.Wired) (hnodes : ∀ i, (s'.node i).Fits) (hsent : s.sent <+: s'.sent)
    (hrequests : ∀ r ∈ s'.sent, r ∈ s.sent ∨ r.request.Fits ∧ r.request.WithoutEntries)
    (hanswers : ∀ a ∈ s'.answers, a ∈ s.answers ∨ (Reply.node a.response).fits ∧
      ∃ r, s.sent[a.rpc]? = some r ∧ r.request.IsFor a.response)
    (htasks : ∀ i, s'.task i = s.task i ∨ s'.Awaits (s'.task i)) : s'.Wired where
  nodes := hnodes
  requests r hr := (hrequests r hr).elim (h.requests r) id
  answers a ha := by
    obtain ⟨hfits, r, hr, hkind⟩ := (hanswers a ha).elim (h.answers a) id
    exact ⟨hfits, r, prefix_getElem? hsent hr, hkind⟩
  awaits i := by
    rcases htasks i with hsame | hnew
    · have hawaits := h.awaits i
      rw [hsame]
      cases htask : s.task i with
      | awaitVote peer rest votes rpc =>
          rw [htask] at hawaits
          obtain ⟨r, args, hr, hrequest⟩ := hawaits
          exact ⟨r, args, prefix_getElem? hsent hr, hrequest⟩
      | awaitAppend peer rest out rpc =>
          rw [htask] at hawaits
          obtain ⟨r, args, hr, hrequest⟩ := hawaits
          exact ⟨r, args, prefix_getElem? hsent hr, hrequest⟩
      | _ => trivial
    · exact hnew

theorem fits_update (h : s.Wired) {i : String} {n : RaftNode} (hn : n.Fits) (j : String) :
    (update s.node i n j).Fits := by
  by_cases hj : j = i
  · rw [hj, update_self]
    exact hn
  · rw [update_of_ne hj]
    exact h.nodes j

theorem task_update {t : Task} (i : String) (ht : s'.Awaits t) (j : String) :
    update s.task i t j = s.task j ∨ s'.Awaits (update s.task i t j) := by
  by_cases hj : j = i
  · rw [hj, update_self]
    exact .inr ht
  · exact .inl (update_of_ne hj ..)

/-- No log has more entries than a `size_t` can count. -/
def LogsInRange (s : Cluster) (_ : Event) : Prop :=
  ∀ i, (s.node i).logs.length ≤ 2 ^ 64

/-- A step that sends nothing and answers nothing. -/
theorem Wired.local (h : s.Wired) (hnodes : ∀ i, (s'.node i).Fits) (hsent : s'.sent = s.sent)
    (hanswers : s'.answers = s.answers)
    (htasks : ∀ i, s'.task i = s.task i ∨ s'.Awaits (s'.task i)) : s'.Wired :=
  h.next hnodes (hsent ▸ List.prefix_refl _) (fun _ hr => .inl (hsent ▸ hr))
    (fun _ ha => .inl (hanswers ▸ ha)) htasks

/-- A step that sends one request and waits for the answer. -/
theorem Wired.sends (h : s.Wired) (r : Rpc) (hfits : r.request.Fits)
    (hempty : r.request.WithoutEntries) {i : String} {t : Task}
    (ht : ∀ s' : Cluster, s'.sent = s.sent ++ [r] → s'.Awaits t) :
    Wired { s with task := update s.task i t, sent := s.sent ++ [r] } := by
  refine h.next h.nodes (List.prefix_append _ _) ?_ (fun a ha => .inl ha)
    (task_update i (ht _ rfl))
  intro r' hr'
  rcases List.mem_append.mp hr' with hold | hnew
  · exact .inl hold
  · exact .inr (List.mem_singleton.mp hnew ▸ ⟨hfits, hempty⟩)

/-- A step in which a node answers a request. -/
theorem Wired.replies (h : s.Wired) {i : String} {n : RaftNode} (hn : n.Fits) (a : Answer) {r : Rpc}
    (hfits : (Reply.node a.response).fits) (hr : s.sent[a.rpc]? = some r)
    (hkind : r.request.IsFor a.response) (votes : List CastVote) :
    Wired { s with node := update s.node i n, answers := s.answers ++ [a], votes := votes } := by
  refine h.next (fits_update h hn) (List.prefix_refl _) (fun _ hr => .inl hr) ?_
    (fun _ => .inl rfl)
  intro a' ha'
  rcases List.mem_append.mp ha' with hold | hnew
  · exact .inl hold
  · rw [List.mem_singleton.mp hnew]
    exact .inr ⟨hfits, r, hr, hkind⟩

theorem term_of_answerTo (h : s.Wired) {rpc : Nat} {a : Answer} (ha : s.answerTo rpc = some a) :
    (Reply.node a.response).fits :=
  (h.answers a (mem_of_answerTo ha).1).1

theorem wired_step {e : Event} (h : s.Wired) (hlogs : LogsInRange s e) (hstep : Step M s e s') :
    s'.Wired := by
  cases hstep with
  | startElection i hi hidle hstate =>
      exact h.local (fits_update h (fits_beginElection (h.nodes i))) rfl rfl
        (task_update i trivial)
  | heartbeat i hi hidle hstate =>
      exact h.local h.nodes rfl rfl (task_update i trivial)
  | sendVote i peer rest votes htask =>
      refine h.sends ⟨i, peer, .vote (s.node i).voteArgs⟩ (fits_voteArgs (h.nodes i)) trivial
        fun s' hs' => ⟨⟨i, peer, .vote (s.node i).voteArgs⟩, (s.node i).voteArgs, ?_, rfl⟩
      rw [hs', List.getElem?_concat_length]
  | sendAppend i peer rest out htask hout =>
      have hempty : out.args.entries = [] := by
        obtain ⟨prev, -, rfl⟩ := prepareAppend_spec hout
        rfl
      refine h.sends ⟨i, peer, .append out.args⟩ (fits_prepareAppend (h.nodes i) hout) hempty
        fun s' hs' => ⟨⟨i, peer, .append out.args⟩, out.args, ?_, rfl⟩
      rw [hs', List.getElem?_concat_length]
  | failVote i peer rest votes rpc htask =>
      exact h.local h.nodes rfl rfl (task_update i trivial)
  | failAppend i peer rest out rpc htask =>
      exact h.local h.nodes rfl rfl (task_update i trivial)
  | receiveVote i peer rest votes rpc reply a n next htask hanswer hresponse hreply =>
      have hterm := term_of_answerTo h hanswer
      rw [hresponse] at hterm
      refine h.local (fits_update h (fits_onVoteReply (h.nodes i) hterm hreply)) rfl rfl
        (task_update i ?_)
      cases next with
      | some votes' => trivial
      | none => trivial
  | receiveAppend i peer rest out rpc reply a n goOn htask hanswer hresponse hreply =>
      have hterm := term_of_answerTo h hanswer
      rw [hresponse] at hterm
      refine h.local (fits_update h (fits_onAppendReply (h.nodes i) (hlogs i) hterm hreply)) rfl rfl
        (task_update i ?_)
      cases goOn with
      | true => trivial
      | false => trivial
  | finishElection i votes htask =>
      exact h.local (fits_update h (fits_finishElection (h.nodes i) votes)) rfl rfl
        (task_update i trivial)
  | finishHeartbeat i htask =>
      exact h.local h.nodes rfl rfl (task_update i trivial)
  | handleVote rpc src dst args n reply hsent hidle hfresh hhandle =>
      have hargs := (h.requests _ (List.mem_of_getElem? hsent)).1
      obtain ⟨hn, hterm⟩ := fits_handleRequestVote (h.nodes dst) hargs.1 hhandle
      exact h.replies hn ⟨rpc, .vote reply, _, _⟩ hterm hsent trivial _
  | handleAppend rpc src dst args n reply hsent hidle hfresh hhandle =>
      have hargs := (h.requests _ (List.mem_of_getElem? hsent)).1
      obtain ⟨hn, hterm⟩ := fits_handleAppendEntries (h.nodes dst) hargs hhandle
      exact h.replies hn ⟨rpc, .append reply, _, _⟩ hterm hsent trivial _
  | submitLog i key value hi hidle =>
      exact h.local (fits_update h (fits_submitLog (h.nodes i) key value)) rfl rfl
        fun _ => .inl rfl

/-- The number of entries that clients submit. -/
def submits (events : List Event) : Nat :=
  events.countP fun
    | .submitLog .. => true
    | _ => false

/-- A log grows by the entries that are submitted only. -/
theorem length_logs_step {e : Event} (h : s.Wired) (hstep : Step M s e s') (i : String) :
    (s'.node i).logs.length ≤ (s.node i).logs.length + submits [e] := by
  cases moves_of_step hstep i with
  | stays hnode _ => exact hnode ▸ Nat.le_add_right _ _
  | startElection hnode _ => exact hnode ▸ Nat.le_add_right _ _
  | voteReply hreply hnode _ =>
      rw [hnode, (quiet_onVoteReply hreply).logs]
      exact Nat.le_add_right _ _
  | appendReply _ _ _ hreply hnode _ =>
      rw [hnode, (quiet_onAppendReply hreply).logs]
      exact Nat.le_add_right _ _
  | finishElection _ hnode _ =>
      rw [hnode, logs_finishElection]
      exact Nat.le_add_right _ _
  | handleVote hhandle hnode _ =>
      rw [hnode, (quiet_handleRequestVote hhandle).logs]
      exact Nat.le_add_right _ _
  | handleAppend hsent hhandle hnode _ =>
      rw [hnode, (quiet_handleAppendEntries hhandle (h.requests _ hsent).2).logs]
      exact Nat.le_add_right _ _
  | @submitLog key value _ hnode _ =>
      rw [hnode]
      rcases submitLog_spec (s.node i) key value with heq | ⟨-, heq⟩
      · rw [heq]
        exact Nat.le_add_right _ _
      · rw [heq, List.length_append]
        exact Nat.le_refl _

/-- Fewer submitted entries than a `size_t` can count keep all logs in range. -/
theorem meets_logsInRange {events : List Event} (h : s.Wired)
    (hcount : ∀ i, (s.node i).logs.length + submits events ≤ 2 ^ 64) :
    Lib.Meets (step M) LogsInRange s events := by
  induction events generalizing s with
  | nil => trivial
  | cons e events ih =>
      have hsplit : submits (e :: events) = submits [e] + submits events := by
        rw [← List.singleton_append]
        exact List.countP_append
      have hfit : LogsInRange s e := fun i => Nat.le_trans (Nat.le_add_right _ _) (hcount i)
      refine ⟨hfit, ?_⟩
      cases hstep : s.step M e with
      | none => trivial
      | some s' =>
          have hstep := step_sound hstep
          refine ih (wired_step h hfit hstep) fun i => ?_
          have hlength := length_logs_step h hstep i
          have hbefore := hcount i
          omega

/-- An event on the wire is a submission for the nodes only if it is one on the wire. -/
theorem submits_translate_le (step' : WireCluster → WireCluster.WireEvent → Option WireCluster)
    (w : WireCluster) (events : List WireCluster.WireEvent) :
    submits (Lib.translate step' WireCluster.event w events) ≤ WireCluster.submits events := by
  refine Lib.countP_translate_le ?_ w events
  intro w e he
  cases e with
  | node e => cases e with
    | submitLog i key value => rfl
    | _ => cases he
  | text i bytes =>
      rw [WireCluster.event] at he
      split_ifs at he

/-- **A cluster that exchanges bytes refines a cluster that exchanges records**, as long as clients
submit fewer entries than a `size_t` can count.  Every run on the wire, in which the texts that
come back belong to the requests of the nodes that wait for them, is a run of the nodes, where a
reply that was cut off is a failed RPC; and where every reply is read whole, the runs are the
same. -/
theorem wire_refines_cluster {D F : Type} [Double D] [Json.Strtod D] [IsFinite D] [Single F D]
    (hdump : Json.LawfulDump D) {env : String → Server.Env D}
    (hparse : ∀ i, (env i).parse = Json.parse) (server : String → Server) (M : Membership) :
    (∀ (events : List WireCluster.WireEvent) (w : WireCluster),
        WireCluster.submits events < 2 ^ 64 →
        Lib.Meets (WireCluster.stepWire F env server M) WireCluster.Paired ((init M).toWire D)
          events →
        Lib.run (WireCluster.stepWire F env server M) ((init M).toWire D) events = some w →
        ∃ s, Lib.run (step M) (init M) (Lib.translate (WireCluster.stepWire F env server M)
          WireCluster.event ((init M).toWire D) events) = some s ∧ w = s.toWire D) ∧
      ∀ events : List Event, submits events < 2 ^ 64 →
        Lib.run (WireCluster.step F env server M) ((init M).toWire D) events =
          (Lib.run (step M) (init M) events).map (toWire D) := by
  have hlogs : ∀ events : List Event, submits events < 2 ^ 64 →
      Lib.Meets (step M) LogsInRange (init M) events := by
    intro events hcount
    apply meets_logsInRange (wired_init M)
    intro i
    show 1 + submits events ≤ 2 ^ 64
    omega
  have hinv : ∀ s e s', s.Wired → LogsInRange s e → s.step M e = some s' → s'.Wired :=
    fun _ _ _ hwired hfit hstep => wired_step hwired hfit (step_sound hstep)
  constructor
  · intro events w hcount hpaired hrun
    refine Lib.run_simulates ?_ hinv (wired_init M) hpaired
      (hlogs _ (Nat.lt_of_le_of_lt (submits_translate_le _ _ _) hcount)) hrun
    intro s e t hwired hpaired hstep
    have hview : (s.toWire D).stepWire F env server M e =
        (s.step M ((s.toWire D).event e)).map (toWire D) := by
      cases e with
      | node e => exact toWire_step hdump hparse hwired e
      | text i bytes =>
          rw [WireCluster.stepWire, hparse]
          exact toWire_receiveText hdump hwired hpaired
    rw [hview, Option.map_eq_some_iff] at hstep
    obtain ⟨s', hs', ht⟩ := hstep
    exact ⟨s', hs', ht.symm⟩
  · intro events hcount
    exact Lib.run_commutes (fun _ e hwired => toWire_step hdump hparse hwired e) hinv
      (wired_init M) (hlogs events hcount)

/-- The text with which a peer grants its vote in term 1. -/
def grantedText : List UInt8 :=
  replyText Json.Tenths (.node (.vote ⟨1, true⟩))

/-- Node `a` is elected by `c`.  Of the reply of `b` it reads nine bytes. -/
def cutElection : List WireCluster.WireEvent :=
  [.node (.startElection "a"), .node (.send "a"), .node (.handle 0),
    .text "a" (WireCluster.cutOff grantedText 9), .node (.send "a"), .node (.handle 1),
    .text "a" grantedText, .node (.finish "a")]

theorem wire_election :
    ∃ s, Lib.run (WireCluster.stepWire Server.Halves (fun _ => Server.parsingEnv)
        (fun _ => Server.loneServer) trio) ((init trio).toWire Json.Tenths) cutElection =
          some (s.toWire Json.Tenths) ∧
      Lib.run (step trio) (init trio)
        [.startElection "a", .send "a", .handle 0, .fail "a", .send "a", .handle 1, .receive "a",
          .finish "a"] = some s ∧
      (s.node "a").state = .Leader := by
  obtain ⟨w, hrun, hleader⟩ := Lib.exists_run_of_check
    (WireCluster.stepWire Server.Halves (fun _ => Server.parsingEnv) (fun _ => Server.loneServer)
      trio) ((init trio).toWire Json.Tenths) cutElection
    (fun w => (w.node "a").state = .Leader) (by decide +kernel)
  obtain ⟨s, hs, rfl⟩ := (wire_refines_cluster Json.Tenths.lawfulDump (fun _ => rfl) _ trio).1
    cutElection w (by decide) (by decide +kernel) hrun
  exact ⟨s, hrun, hs, hleader⟩

end Runs

end Cluster
end Raft
end YoloServer
