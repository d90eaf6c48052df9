import YoloServer.Server.OneReply
import YoloServer.Server.Protocol

/-!
# The texts of the Raft messages, read back

A request is written by `sendRequestVote` or `sendAppendEntries` and read by a handler of
`Connection`; its reply is written by the handler and read by the sender.  Of the parser
it is assumed that it reads back the texts in question (`Rereads`), and that the text of
an object has a closing brace (`ClosesObjects`).

* `handle_requestText`: a request gets to its handler, with the arguments it was made of.
* `decodeReply_replyText`: the sender gets the reply of the handler.
* `handle_replies` lists what a connection can send, and `decodeReply_otherReplies` says
  that no fixed text among it is taken for the reply to a request.
-/

namespace YoloServer
namespace Raft

/-- The numbers of an entry are values of `uint64_t`. -/
def LogEntry.Fits (entry : LogEntry) : Prop :=
  entry.term < 2 ^ 64 ∧ entry.index < 2 ^ 64

/-- The numbers of a request are values of `uint64_t`. -/
def Request.Fits : Request → Prop
  | .vote args => args.term < 2 ^ 64 ∧ args.lastLogIndex < 2 ^ 64 ∧ args.lastLogTerm < 2 ^ 64
  | .append args =>
      args.term < 2 ^ 64 ∧ args.prevLogIndex < 2 ^ 64 ∧ args.prevLogTerm < 2 ^ 64 ∧
        args.leaderCommit < 2 ^ 64 ∧ ∀ entry ∈ args.entries, entry.Fits

/-- The kind of reply that belongs to a request. -/
def Request.IsFor : Request → Response → Prop
  | .vote _, .vote _ => True
  | .append _, .append _ => True
  | _, _ => False

end Raft

namespace Server

open Cluster Raft Json Protocol

section Values

variable (D : Type)

/-- The first word of a request. -/
def commandName : Request → String
  | .vote _ => "RAFT_REQUEST_VOTE"
  | .append _ => "RAFT_APPEND_ENTRIES"

/-- The command that a request is dispatched to. -/
def requestCommand : Request → CommandType
  | .vote _ => .RAFT_REQUEST_VOTE
  | .append _ => .RAFT_APPEND_ENTRIES

theorem solid_commandName (request : Request) : Solid (utf8 (commandName request)) := by
  cases request with
  | vote args => exact (by decide : Solid (utf8 "RAFT_REQUEST_VOTE"))
  | append args => exact (by decide : Solid (utf8 "RAFT_APPEND_ENTRIES"))

theorem commandName_ne_nil (request : Request) : utf8 (commandName request) ≠ [] := by
  cases request with
  | vote args => exact (by decide : utf8 "RAFT_REQUEST_VOTE" ≠ [])
  | append args => exact (by decide : utf8 "RAFT_APPEND_ENTRIES" ≠ [])

/-- The value in the text of a request. -/
def requestJson : Request → Json D
  | .vote args =>
      ofMembers [("term", .unsigned args.term), ("candidateId", .string args.candidateId),
        ("lastLogIndex", .unsigned args.lastLogIndex), ("lastLogTerm", .unsigned args.lastLogTerm)]
  | .append args =>
      ofMembers [("term", .unsigned args.term), ("leaderId", .string args.leaderId),
        ("prevLogIndex", .unsigned args.prevLogIndex), ("prevLogTerm", .unsigned args.prevLogTerm),
        ("leaderCommit", .unsigned args.leaderCommit),
        ("entries", .array (args.entries.map (entryJson D)))]

/-- The value in the text of a reply. -/
def responseJson : Response → Json D
  | .vote reply =>
      ofMembers [("term", .unsigned reply.term), ("voteGranted", .boolean reply.voteGranted)]
  | .append reply =>
      ofMembers [("term", .unsigned reply.term), ("success", .boolean reply.success)]

/-- What the handler of a request does with its arguments. -/
def callRequest [Double D] (raft : Option RaftNode) : Request → Outcome
  | .vote args => callRequestVote (D := D) raft args
  | .append args => callAppendEntries (D := D) raft args

end Values

/-- The replies of a connection that do not depend on its state. -/
def otherReplies : List (List UInt8) :=
  ["PONG", "STORE OK", "ERROR unknown command", "ERROR invalid STORE payload",
    "ERROR failed to forward STORE request", "ERROR missing image_id",
    "ERROR failed to forward GET request", "ERROR missing payload",
    "ERROR invalid payload"].map utf8

section Reading

variable {D : Type} [Double D] [IsFinite D] {members : List (String × Json D)} {key : String}

theorem has_unsigned {n : Nat} (hnodup : (members.map Prod.fst).Nodup)
    (hmember : members.lookup key = some (.unsigned n)) (hn : n < 2 ^ 64) :
    Has getUInt64 (reread (ofMembers members)) key n := by
  refine ⟨.unsigned n, ?_, ?_⟩
  · rw [at?_reread, at?_ofMembers hnodup, hmember]
    rfl
  · rw [getUInt64, Nat.mod_eq_of_lt hn]

omit [Double D] in
theorem has_string {text : String} (hnodup : (members.map Prod.fst).Nodup)
    (hmember : members.lookup key = some (.string text)) :
    Has getString (reread (ofMembers members)) key text := by
  refine ⟨.string text, ?_, rfl⟩
  rw [at?_reread, at?_ofMembers hnodup, hmember]
  rfl

theorem entryIn_reread {entry : LogEntry} (hfits : entry.Fits) :
    EntryIn (reread (entryJson D entry)) entry where
  term := has_unsigned (by simp) rfl hfits.1
  index := has_unsigned (by simp) rfl hfits.2
  key := has_string (by simp) rfl
  value := has_string (by simp) rfl

theorem voteArgsIn_reread {args : RequestVoteArgs} (hfits : (Request.vote args).Fits) :
    VoteArgsIn (reread (requestJson D (.vote args))) args where
  term := has_unsigned (by simp) rfl hfits.1
  candidateId := has_string (by simp) rfl
  lastLogIndex := has_unsigned (by simp) rfl hfits.2.1
  lastLogTerm := has_unsigned (by simp) rfl hfits.2.2

omit [Double D] in
theorem entryValues_reread (args : AppendEntriesArgs) :
    entryValues (reread (requestJson D (.append args))) =
      (args.entries.map (entryJson D)).map reread := by
  have hentries : (reread (requestJson D (.append args))).at? "entries" =
      some (reread (.array (args.entries.map (entryJson D)))) := by
    rw [at?_reread, requestJson, at?_ofMembers (by simp)]
    rfl
  rw [entryValues, hentries, reread, rereadItems_eq_map]
  rfl

theorem appendArgsIn_reread {args : AppendEntriesArgs} (hfits : (Request.append args).Fits) :
    AppendArgsIn (reread (requestJson D (.append args))) args := by
  obtain ⟨hterm, hindex, hprev, hcommit, hentries⟩ := hfits
  constructor
  · exact ⟨has_unsigned (by simp) rfl hterm, has_string (by simp) rfl,
      has_unsigned (by simp) rfl hindex, has_unsigned (by simp) rfl hprev,
      has_unsigned (by simp) rfl hcommit⟩
  · rw [entryValues_reread, List.map_map, List.forall₂_map_left_iff, List.forall₂_same]
    exact fun entry hentry => entryIn_reread (hentries entry hentry)

end Reading

/-! ## Requests -/

section Requests

variable {D F : Type} [Double D] [IsFinite D] [Single F D] {parse : List UInt8 → Option (Json D)}

omit [IsFinite D] in
theorem requestText_eq (request : Request) :
    requestText D request = utf8 (commandName request) ++ 32 :: dump (requestJson D request) := by
  cases request with
  | vote args => rfl
  | append args => rfl

theorem payloadJson_requestText {request : Request} (hparse : Rereads parse (requestJson D request)) :
    payloadJson parse (requestText D request) = some (reread (requestJson D request)) := by
  have hspace : afterSpace (requestText D request) = some (dump (requestJson D request)) := by
    rw [requestText_eq]
    exact afterSpace_append _ (solid_commandName request)
  rw [payloadJson, hspace]
  exact hparse

omit [IsFinite D] in
theorem command_requestText (request : Request) :
    command (requestText D request) = requestCommand request := by
  rw [requestText_eq, command_append _ (solid_commandName request) (commandName_ne_nil request)]
  cases request with
  | vote args => exact (by decide : parseCommand (utf8 "RAFT_REQUEST_VOTE") = .RAFT_REQUEST_VOTE)
  | append args =>
      exact (by decide : parseCommand (utf8 "RAFT_APPEND_ENTRIES") = .RAFT_APPEND_ENTRIES)

/-- A request gets to its handler, with the arguments it was made of. -/
theorem handle_requestText {request : Request} (hfits : request.Fits) {env : Env D}
    (hparse : Rereads env.parse (requestJson D request)) (s : Server) (raft : Option RaftNode) :
    handle env F s raft (requestText D request) = callRequest D raft request := by
  have hjson := payloadJson_requestText hparse
  rw [handle, command_requestText]
  cases request with
  | vote args =>
      have hread : readVoteArgs (reread (requestJson D (.vote args))) = .ok args :=
        readVoteArgs_ok_iff.mpr (voteArgsIn_reread hfits)
      show handleRaftRequestVote env.parse raft _ = _
      rw [handleRaftRequestVote, handlePayload_some hjson, hread]
      rfl
  | append args =>
      have hread : readAppendArgs (reread (requestJson D (.append args))) = .ok args :=
        readAppendArgs_ok_iff.mpr (appendArgsIn_reread hfits)
      show handleRaftAppendEntries env.parse raft _ = _
      rw [handleRaftAppendEntries, handlePayload_some hjson, hread]
      rfl

end Requests

/-! ## Replies -/

section Replies

variable {D : Type} [Double D] [IsFinite D] {parse : List UInt8 → Option (Json D)}

omit [Double D] [IsFinite D] in
theorem index_of_at? {j value : Json D} {key : String} (h : j.at? key = some value) :
    j.index key = some value := by
  cases j with
  | object members =>
      have hlookup : members.lookup key = some value := h
      rw [index, hlookup, Option.getD_some]
  | _ => cases h

/-- A term and a flag are read back. -/
theorem decodeTermAndFlag_reread {name : List UInt8} {flag : String} {term : Nat} {value : Bool}
    (hname : Solid name) (hflag : flag ≠ "term") (hterm : term < 2 ^ 64)
    (hparse : Rereads parse (ofMembers [("term", .unsigned term), (flag, .boolean value)])) :
    decodeTermAndFlag parse flag (name ++ 32 ::
      dump (ofMembers [("term", .unsigned term), (flag, .boolean value)] : Json D)) =
        some (term, value) := by
  have hnodup : ([("term", .unsigned term), (flag, .boolean value)].map
      (Prod.fst : String × Json D → String)).Nodup := by
    simp [hflag.symm]
  have htermAt : (reread (ofMembers [("term", .unsigned term), (flag, .boolean value)])).index
      "term" = some (.unsigned term : Json D) := by
    apply index_of_at?
    rw [at?_reread, at?_ofMembers hnodup]
    rfl
  have hflagAt : (reread (ofMembers [("term", .unsigned term), (flag, .boolean value)])).index
      flag = some (.boolean value : Json D) := by
    apply index_of_at?
    have hne : (flag == "term") = false := beq_false_of_ne hflag
    rw [at?_reread, at?_ofMembers hnodup]
    simp [List.lookup_cons, hne, reread]
  simp only [decodeTermAndFlag, afterSpace_append _ hname, Option.bind_eq_bind, Option.bind_some,
    show parse (dump _) = some _ from hparse, htermAt, hflagAt, getUInt64, getBool,
    Nat.mod_eq_of_lt hterm]
  rfl

/-- The sender gets the reply of the handler. -/
theorem decodeReply_replyText {request : Request} {response : Response}
    (hkind : request.IsFor response) (hfits : (Reply.node response).fits)
    (hparse : Rereads parse (responseJson D response)) :
    decodeReply parse request (replyText D (.node response)) = some response := by
  cases request with
  | vote args =>
      cases response with
      | vote reply =>
          have htext : replyText D (.node (.vote reply)) =
              utf8 "RAFT_REQUEST_VOTE_REPLY" ++ 32 :: dump (responseJson D (.vote reply)) := rfl
          rw [decodeReply, decodeVoteReply, htext, responseJson,
            decodeTermAndFlag_reread (by decide) (by decide) hfits hparse]
          rfl
      | append reply => cases hkind
  | append args =>
      cases response with
      | vote reply => cases hkind
      | append reply =>
          have htext : replyText D (.node (.append reply)) =
              utf8 "RAFT_APPEND_ENTRIES_REPLY" ++ 32 :: dump (responseJson D (.append reply)) := rfl
          rw [decodeReply, decodeAppendReply, htext, responseJson,
            decodeTermAndFlag_reread (by decide) (by decide) hfits hparse]
          rfl

omit [IsFinite D] in
/-- No fixed text has a closing brace. -/
theorem decodeReply_otherReplies (hbrace : ClosesObjects parse) (request : Request) :
    ∀ text ∈ otherReplies, decodeReply parse request text = none := by
  have hnone : ∀ text ∈ otherReplies, closingBrace ∉ text := by decide
  intro text htext
  exact decodeReply_none hbrace request (hnone text htext)

omit [Double D] [IsFinite D] in
theorem closesObjects_parseTable {table : List (List UInt8 × Json D)}
    (h : ∀ p ∈ table, closingBrace ∈ p.1) : ClosesObjects (parseTable table) := by
  intro text members hlookup
  obtain ⟨before, after, rfl, -⟩ := List.lookup_eq_some_iff.mp hlookup
  exact h (text, .object members) (by simp)

omit [IsFinite D] in
theorem brace_mem_dump (members : List (String × Json D)) :
    closingBrace ∈ dump (ofMembers members) := by
  rw [ofMembers, dump]
  exact List.mem_append_right _ (by decide)

end Replies

/-! ## What a connection can send -/

section Sent

variable {D F : Type} [Double D] [Single F D] {env : Env D} {s : Server}
  {raft : Option RaftNode} {msg text : List UInt8}

omit [Double D] in
theorem relayed_replies {node : NodeInfo} {error : String}
    (h : text ∈ (relayed env node error).replies) :
    text = utf8 error ∨ text ∈ (env.forward node).2 := by
  rcases relayed_cases env node error with ⟨-, heq⟩ | ⟨-, heq | ⟨reply, hreply, heq⟩⟩
  · rw [heq] at h
    cases h
  · rw [heq] at h
    exact .inl (List.mem_singleton.mp h)
  · rw [heq] at h
    exact .inr (List.mem_singleton.mp h ▸ hreply)

theorem handleStore_replies
    (h : text ∈ (handleStore env.network F s env.forwarded msg).replies) :
    text ∈ otherReplies ∨ ∃ node, text ∈ (env.forward node).2 := by
  cases handleStore_cases env F s msg with
  | noPayload hread heq =>
      rw [heq] at h
      cases h
  | invalid hread heq =>
      rw [heq, Effect.reply, List.mem_singleton] at h
      exact .inl (h ▸ by decide)
  | noNode frame hread hpick heq =>
      rw [heq] at h
      cases h
  | elsewhere frame node hread hpick hother heq =>
      rw [heq] at h
      rcases relayed_replies h with rfl | hreply
      · exact .inl (by decide)
      · exact .inr ⟨node, hreply⟩
  | own frame node hread hpick hself heq =>
      rw [heq, stored, List.mem_singleton] at h
      exact .inl (h ▸ by decide)

theorem handleGet_replies (h : text ∈ (handleGet env F s raft msg).replies) :
    text ∈ otherReplies ∨ (∃ frame : YoloFrame F, text = getText D frame) ∨
      ∃ node, text ∈ (env.forward node).2 := by
  cases handleGet_cases env F s raft msg with
  | noKey hkey heq =>
      rw [heq, Outcome.reply, List.mem_singleton] at h
      exact .inl (h ▸ by decide)
  | noNode hkey hpick heq =>
      rw [heq] at h
      cases h
  | elsewhere node hkey hpick hother heq =>
      rw [heq] at h
      rcases relayed_replies h with rfl | hreply
      · exact .inl (by decide)
      · exact .inr (.inr ⟨node, hreply⟩)
  | absent node hkey hpick hself hget heq =>
      rw [heq, Outcome.reply, List.mem_singleton] at h
      exact .inr (.inl ⟨_, h⟩)
  | unreadable node value hkey hpick hself hget hdecode heq =>
      rw [heq] at h
      cases h
  | present node value frame hkey hpick hself hget hdecode heq =>
      rw [heq, Outcome.reply, List.mem_singleton] at h
      exact .inr (.inl ⟨frame, h⟩)

omit [Single F D] in
theorem handlePayload_replies {Args : Type} {parse : List UInt8 → Option (Json D)}
    {read : Json D → Except Fault Args} {call : Args → Outcome}
    (h : text ∈ (handlePayload parse raft read call msg).replies) :
    text ∈ otherReplies ∨ ∃ args, text ∈ (call args).replies := by
  rcases handlePayload_cases parse raft read call msg with
    (heq | heq) | ⟨j, -, -, heq⟩ | ⟨j, args, -, -, heq⟩
  · rw [heq, Outcome.reply, List.mem_singleton] at h
    exact .inl (h ▸ (by decide : utf8 "ERROR missing payload" ∈ otherReplies))
  · rw [heq, Outcome.reply, List.mem_singleton] at h
    exact .inl (h ▸ (by decide : utf8 "ERROR invalid payload" ∈ otherReplies))
  · rw [heq] at h
    cases h
  · rw [heq] at h
    exact .inr ⟨args, h⟩

omit [Single F D] in
/-- The handler of a request replies in its kind. -/
theorem callRequest_replies {request : Request}
    (h : text ∈ (callRequest D raft request).replies) :
    ∃ response, request.IsFor response ∧ text = replyText D (.node response) := by
  cases request with
  | vote args =>
      cases raft with
      | none => exact ⟨.vote _, trivial, List.mem_singleton.mp h⟩
      | some n => exact ⟨.vote _, trivial, List.mem_singleton.mp h⟩
  | append args =>
      cases raft with
      | none => exact ⟨.append _, trivial, List.mem_singleton.mp h⟩
      | some n =>
          rw [callRequest, callAppendEntries] at h
          split at h
          · exact ⟨.append _, trivial, List.mem_singleton.mp h⟩
          · cases h

/-- A reply is one of the fixed texts, the reply of the node, the text of a frame, or a
reply of another server. -/
theorem handle_replies (h : text ∈ (handle env F s raft msg).replies) :
    text ∈ otherReplies ∨ (∃ response, text = replyText D (.node response)) ∨
      (∃ frame : YoloFrame F, text = getText D frame) ∨
      ∃ node, text ∈ (env.forward node).2 := by
  rw [handle] at h
  cases hcmd : command msg with
  | PING =>
      rw [hcmd] at h
      exact .inl (List.mem_singleton.mp h ▸ by decide)
  | STORE =>
      rw [hcmd] at h
      rcases handleStore_replies h with hfixed | hother
      · exact .inl hfixed
      · exact .inr (.inr (.inr hother))
  | GET =>
      rw [hcmd] at h
      rcases handleGet_replies h with hfixed | hframe | hother
      · exact .inl hfixed
      · exact .inr (.inr (.inl hframe))
      · exact .inr (.inr (.inr hother))
  | RAFT_REQUEST_VOTE =>
      rw [hcmd] at h
      rcases handlePayload_replies h with hfixed | ⟨args, hreply⟩
      · exact .inl hfixed
      · have hcall : text ∈ (callRequest D raft (.vote args)).replies := hreply
        obtain ⟨response, -, htext⟩ := callRequest_replies hcall
        exact .inr (.inl ⟨response, htext⟩)
  | RAFT_APPEND_ENTRIES =>
      rw [hcmd] at h
      rcases handlePayload_replies h with hfixed | ⟨args, hreply⟩
      · exact .inl hfixed
      · have hcall : text ∈ (callRequest D raft (.append args)).replies := hreply
        obtain ⟨response, -, htext⟩ := callRequest_replies hcall
        exact .inr (.inl ⟨response, htext⟩)
  | UNKNOWN =>
      rw [hcmd] at h
      exact .inl (List.mem_singleton.mp h ▸ by decide)

end Sent

/-- **The Raft messages survive the wire**: a request is dispatched to its handler and read
as the arguments it was made of, the handler replies in its kind, the sender gets that
reply, and takes no other reply of a connection for one.  A request of at most
`maxMessageSize` bytes that arrives in time is received. -/
theorem raft_wire_round_trip {D F : Type} [Double D] [IsFinite D] [Single F D] {env : Env D}
    (hbrace : ClosesObjects env.parse) {request : Request} (hfits : request.Fits)
    (hparse : Rereads env.parse (requestJson D request)) {response : Response}
    (hkind : request.IsFor response) (hterm : (Reply.node response).fits)
    (hreply : Rereads env.parse (responseJson D response)) :
    command (requestText D request) = requestCommand request ∧
      (∀ s raft, handle env F s raft (requestText D request) = callRequest D raft request) ∧
      (∀ raft, ∀ text ∈ (callRequest D raft request).replies,
        ∃ reply, request.IsFor reply ∧ text = replyText D (.node reply)) ∧
      decodeReply env.parse request (replyText D (.node response)) = some response ∧
      (∀ text ∈ otherReplies, decodeReply env.parse request text = none) ∧
      ((requestText D request).length ≤ maxMessageSize →
        ∀ rest out arrivals, Arrived 4 arrivals →
          Arrived (requestText D request).length arrivals.tail →
          recvMessage ⟨frame (requestText D request) ++ rest, arrivals⟩ out =
            (true, requestText D request, ⟨rest, arrivals.tail.tail⟩)) := by
  refine ⟨command_requestText request, handle_requestText hfits hparse,
    fun _ _ => callRequest_replies, decodeReply_replyText hkind hterm hreply,
    decodeReply_otherReplies hbrace request, ?_⟩
  intro hsize rest out arrivals hheader hbody
  apply recvMessage_of_arrived _ hsize hheader hbody
  rw [requestText_eq, List.length_append, List.length_cons]
  omega

/-! ## One request and one reply -/

def sampleAppend : Request :=
  .append ⟨3, "n2", 0, 0, [⟨3, 1, "img_0001", "x"⟩], 2 ^ 64 - 1⟩

def sampleResponse : Response :=
  .append ⟨3, true⟩

/-- A parser that reads the request and the reply. -/
def sampleEnv : Env Halves :=
  loneEnv (parseTable [(dump (requestJson Halves sampleAppend),
      reread (requestJson Halves sampleAppend)),
    (dump (responseJson Halves sampleResponse), reread (responseJson Halves sampleResponse))])

theorem append_survives_wire :
    handle sampleEnv Halves loneServer none (requestText Halves sampleAppend) =
        callRequest Halves none sampleAppend ∧
      decodeReply sampleEnv.parse sampleAppend (replyText Halves (.node sampleResponse)) =
        some sampleResponse := by
  have hbrace : ClosesObjects sampleEnv.parse := by
    apply closesObjects_parseTable
    intro p hp
    rcases List.mem_pair.mp hp with rfl | rfl
    · exact brace_mem_dump _
    · exact brace_mem_dump _
  have hfits : sampleAppend.Fits :=
    ⟨by decide, by decide, by decide, by decide, fun entry hentry => by
      rw [List.mem_singleton.mp hentry]
      exact ⟨by decide, by decide⟩⟩
  have hrequest : Rereads sampleEnv.parse (requestJson Halves sampleAppend) := by
    simp [Rereads, sampleEnv, loneEnv, parseTable]
  have hresponse : Rereads sampleEnv.parse (responseJson Halves sampleResponse) := by
    have hne : (dump (responseJson Halves sampleResponse) ==
        dump (requestJson Halves sampleAppend)) = false := by
      decide +kernel
    simp [Rereads, sampleEnv, loneEnv, parseTable, List.lookup_cons, hne]
  have hkind : sampleAppend.IsFor sampleResponse := trivial
  obtain ⟨-, hhandle, -, hdecode, -⟩ := raft_wire_round_trip (F := Halves) hbrace hfits hrequest
    hkind (by decide) hresponse
  exact ⟨hhandle loneServer none, hdecode⟩

end Server
end YoloServer
