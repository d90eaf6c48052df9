import YoloServer.Server.OneReply

/-!
# Raft messages that cannot be read

The handlers of the Raft messages answer with an error if an exception is thrown on the
way to the arguments.  A missing member of an entry does not throw: it fails an assertion
of the library, and the server is gone.

* `refused_of_not_decodes`: what cannot be read and does not fail the assertion is
  refused, and changes nothing.
* `rejects_cleanly_iff`: a Raft message is rejected cleanly, or handled, exactly if it is
  no AppendEntries that fails the assertion or takes the node beyond its log.
-/

namespace YoloServer
namespace Server

open Cluster Raft Json

section Messages

variable {D : Type} [Double D] (parse : List UInt8 → Option (Json D)) (msg : List UInt8)

/-- The payload holds complete arguments for the command of the message. -/
def Decodes : Prop :=
  ∃ j, payloadJson parse msg = some j ∧
    ((command msg = .RAFT_REQUEST_VOTE ∧ ∃ args, VoteArgsIn j args) ∨
      (command msg = .RAFT_APPEND_ENTRIES ∧ ∃ args, AppendArgsIn j args))

/-- No handler reads a member that a constant object lacks. -/
def AssertionsHold : Prop :=
  ∀ j, payloadJson parse msg = some j →
    (command msg = .RAFT_REQUEST_VOTE → readVoteArgs j ≠ .error .assertion) ∧
      (command msg = .RAFT_APPEND_ENTRIES → readAppendArgs j ≠ .error .assertion)

/-- One reply, no failed assertion, and no effect other than an error if the arguments
are not complete. -/
def RejectsCleanly (raft : Option RaftNode) (o : Outcome) : Prop :=
  o.AnswersOnce ∧ AssertionsHold parse msg ∧ (¬ Decodes parse msg → Refused D raft o)

variable {parse msg} {raft : Option RaftNode}

/-- A message that was answered and does not hold complete arguments was refused. -/
theorem refused_of_not_decodes {Args : Type} {read : Json D → Except Fault Args}
    {call : Args → Outcome} (honce : (handlePayload parse raft read call msg).AnswersOnce)
    (hnot : ∀ j args, payloadJson parse msg = some j → read j ≠ .ok args) :
    Refused D raft (handlePayload parse raft read call msg) := by
  rcases handlePayload_cases parse raft read call msg with
    hrefused | ⟨j, -, -, heq⟩ | ⟨j, args, hjson, hread, -⟩
  · exact hrefused
  · rw [heq] at honce
    cases honce.2
  · exact absurd hread (hnot j args hjson)

theorem rejectsCleanly_vote (hcmd : command msg = .RAFT_REQUEST_VOTE) :
    RejectsCleanly parse msg raft (handleRaftRequestVote parse raft msg) := by
  have honce : (handleRaftRequestVote parse raft msg).AnswersOnce :=
    (answersIf_handleRaftRequestVote msg).iff.mpr trivial
  refine ⟨honce, ?_, fun hnot => refused_of_not_decodes honce ?_⟩
  · intro j _
    refine ⟨fun _ => readVoteArgs_ne_assertion, fun hother => ?_⟩
    cases hcmd.symm.trans hother
  · intro j args hjson hread
    exact hnot ⟨j, hjson, .inl ⟨hcmd, args, readVoteArgs_ok_iff.mp hread⟩⟩

theorem rejectsCleanly_append_iff (hcmd : command msg = .RAFT_APPEND_ENTRIES) :
    RejectsCleanly parse msg raft (handleRaftAppendEntries parse raft msg) ↔
      AppendHandled parse raft msg := by
  constructor
  · intro h
    exact (answersIf_handleRaftAppendEntries msg).iff.mp h.1
  · intro hhandled
    have honce : (handleRaftAppendEntries parse raft msg).AnswersOnce :=
      (answersIf_handleRaftAppendEntries msg).iff.mpr hhandled
    refine ⟨honce, ?_, fun hnot => refused_of_not_decodes honce ?_⟩
    · intro j hjson
      refine ⟨fun hother => ?_, fun _ hassert => ?_⟩
      · cases hcmd.symm.trans hother
      · exact (hhandled j hjson).1 (readAppendArgs_assertion_iff.mp hassert)
    · intro j args hjson hread
      exact hnot ⟨j, hjson, .inr ⟨hcmd, args, readAppendArgs_ok_iff.mp hread⟩⟩

end Messages

/-- **Malformed Raft messages are rejected cleanly**, exactly if the message is no
AppendEntries with a complete header whose first bad entry is an object that lacks a
member, or that takes the node beyond its log. -/
theorem rejects_cleanly_iff {D F : Type} [Double D] [Single F D] (env : Env D) (s : Server)
    (raft : Option RaftNode) (msg : List UInt8)
    (hcmd : command msg = .RAFT_REQUEST_VOTE ∨ command msg = .RAFT_APPEND_ENTRIES) :
    RejectsCleanly env.parse msg raft (handle env F s raft msg) ↔
      (command msg = .RAFT_APPEND_ENTRIES → AppendHandled env.parse raft msg) := by
  rcases hcmd with hcmd | hcmd
  · have hhandle : handle env F s raft msg = handleRaftRequestVote env.parse raft msg := by
      rw [handle, hcmd]
    rw [hhandle]
    refine ⟨fun _ hother => ?_, fun _ => rejectsCleanly_vote hcmd⟩
    cases hcmd.symm.trans hother
  · have hhandle : handle env F s raft msg = handleRaftAppendEntries env.parse raft msg := by
      rw [handle, hcmd]
    rw [hhandle, rejectsCleanly_append_iff hcmd]
    exact ⟨fun h _ => h, fun h => h hcmd⟩

/-- An AppendEntries with a payload that is no JSON text. -/
theorem append_without_json_rejected :
    RejectsCleanly noParser (utf8 "RAFT_APPEND_ENTRIES term") none
      (handle (loneEnv noParser) Halves loneServer none (utf8 "RAFT_APPEND_ENTRIES term")) := by
  refine (rejects_cleanly_iff (loneEnv noParser) loneServer none
    (utf8 "RAFT_APPEND_ENTRIES term") (.inr (by decide))).mpr fun _ j hj => ?_
  obtain ⟨payload, -, hparse⟩ := Option.bind_eq_some_iff.mp hj
  cases hparse

/-! ## An entry without members -/

/-- The payload of an AppendEntries with one entry that is an empty object. -/
def emptyEntryText : String :=
  "\x7b\"term\":1,\"leaderId\":\"n2\",\"prevLogIndex\":0,\"prevLogTerm\":0," ++
    "\"leaderCommit\":0,\"entries\":[\x7b\x7d]\x7d"

def emptyEntryJson : Json Halves :=
  .ofMembers [("term", .unsigned 1), ("leaderId", .string "n2"), ("prevLogIndex", .unsigned 0),
    ("prevLogTerm", .unsigned 0), ("leaderCommit", .unsigned 0), ("entries", .array [.object []])]

/-- The message reaches the assertion, and nothing is sent. -/
theorem empty_entry_not_rejected :
    command (utf8 ("RAFT_APPEND_ENTRIES " ++ emptyEntryText)) = .RAFT_APPEND_ENTRIES ∧
      ¬ RejectsCleanly (parseTable [(utf8 emptyEntryText, emptyEntryJson)])
        (utf8 ("RAFT_APPEND_ENTRIES " ++ emptyEntryText)) (some (RaftNode.new "n1" ["n2"]))
        (handle (loneEnv (parseTable [(utf8 emptyEntryText, emptyEntryJson)])) Halves loneServer
          (some (RaftNode.new "n1" ["n2"])) (utf8 ("RAFT_APPEND_ENTRIES " ++ emptyEntryText))) := by
  have hcmd : command (utf8 ("RAFT_APPEND_ENTRIES " ++ emptyEntryText)) =
      .RAFT_APPEND_ENTRIES := by
    decide
  refine ⟨hcmd, fun h => ?_⟩
  have hjson : payloadJson (parseTable [(utf8 emptyEntryText, emptyEntryJson)])
      (utf8 ("RAFT_APPEND_ENTRIES " ++ emptyEntryText)) = some emptyEntryJson := by
    have hspace : afterSpace (utf8 ("RAFT_APPEND_ENTRIES " ++ emptyEntryText)) =
        some (utf8 emptyEntryText) := by
      decide
    rw [payloadJson, hspace]
    simp [parseTable]
  have hassert : readAppendArgs emptyEntryJson = .error .assertion := by
    decide
  exact (h.2.1 emptyEntryJson hjson).2 hcmd hassert

end Server
end YoloServer
