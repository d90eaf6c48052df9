import YoloServer.Server.Command
import YoloServer.Server.RaftPayload

/-!
# The Raft messages at a server (`server/Connection.cpp`)

`handleRaftRequestVote` and `handleRaftAppendEntries` decode the payload of a message,
call the node and send its reply.  An exception on the way is answered with an error.

* `handlePayload_none`, `handlePayload_some` and `handlePayload_cases` say what becomes of
  a payload.
* `answersIf_handleRaftAppendEntries`: an AppendEntries is answered exactly if no
  entry runs into the assertion of the library and the node stays within its log.
-/

namespace YoloServer
namespace Server

open Json Raft

/-- How a handler ends. -/
inductive Ending where
  /-- it returns, and the connection reads the next message -/
  | returns
  /-- an exception leaves `handle`; the worker of the thread pool catches it, and the connection
  ends -/
  | throws
  /-- a null pointer, an index out of range or an assertion -/
  | crashes
  deriving DecidableEq, Repr

/-- What the handling of a message brings about at a server: the replies on the
connection, the calls of `put`, the node afterwards, and how the handler ended. -/
structure Outcome where
  replies : List (List UInt8)
  puts : List (String × List UInt8)
  raft : Option RaftNode
  ending : Ending

namespace Outcome

/-- One reply and nothing else. -/
def reply (raft : Option RaftNode) (text : List UInt8) : Outcome where
  replies := [text]
  puts := []
  raft := raft
  ending := .returns

/-- The server does not survive the message. -/
def crash (raft : Option RaftNode) : Outcome where
  replies := []
  puts := []
  raft := raft
  ending := .crashes

/-- Exactly one reply, and the connection goes on. -/
def AnswersOnce (o : Outcome) : Prop :=
  o.replies.length = 1 ∧ o.ending = .returns

instance (o : Outcome) : Decidable o.AnswersOnce :=
  inferInstanceAs (Decidable (_ ∧ _))

/-- Exactly one reply under the given condition, and none otherwise. -/
def AnswersIf (o : Outcome) (p : Prop) : Prop :=
  (p ∧ o.AnswersOnce) ∨ (¬ p ∧ o.replies = [])

theorem AnswersIf.iff {o : Outcome} {p : Prop} (h : o.AnswersIf p) : o.AnswersOnce ↔ p := by
  rcases h with ⟨hp, honce⟩ | ⟨hp, hnone⟩
  · exact ⟨fun _ => hp, fun _ => honce⟩
  · refine ⟨fun honce => ?_, fun h => absurd h hp⟩
    rw [AnswersOnce, hnone] at honce
    cases honce.1

/-- One reply is enough to know that the connection goes on. -/
theorem AnswersIf.length_iff {o : Outcome} {p : Prop} (h : o.AnswersIf p) :
    o.replies.length = 1 ↔ p := by
  rcases h with ⟨hp, honce⟩ | ⟨hp, hnone⟩
  · exact ⟨fun _ => hp, fun _ => honce.1⟩
  · simp [hnone, hp]

variable {raft : Option RaftNode} {p : Prop}

theorem answersIf_reply (h : p) (text : List UInt8) : (reply raft text).AnswersIf p :=
  .inl ⟨h, rfl, rfl⟩

theorem answersIf_crash (h : ¬ p) : (crash raft).AnswersIf p :=
  .inr ⟨h, rfl⟩

end Outcome

section Handlers

variable {D : Type} [Double D] (parse : List UInt8 → Option (Json D)) (raft : Option RaftNode)

/-- The frame of both handlers: find the payload, decode it, and go on with the
arguments. -/
def handlePayload {Args : Type} (read : Json D → Except Fault Args) (call : Args → Outcome)
    (msg : List UInt8) : Outcome :=
  match afterSpace msg with
  | none => .reply raft (replyText D .missingPayload)
  | some payload =>
      match (orThrow (parse payload)).bind read with
      | .error .exception => .reply raft (replyText D .invalidPayload)
      | .error .assertion => .crash raft
      | .ok args => call args

/-- `handleRequestVote` of the node, if there is one, and its reply. -/
def callRequestVote (args : RequestVoteArgs) : Outcome :=
  match raft with
  | none => .reply none (replyText D (.node (.vote ⟨args.term, false⟩)))
  | some n =>
      let (n', reply) := n.handleRequestVote args
      .reply (some n') (replyText D (.node (.vote reply)))

/-- The calls of `put` by which `n` has become `n'`. -/
def appliedSince (n n' : RaftNode) : List (String × List UInt8) :=
  (n'.puts.drop n.puts.length).map fun p => (p.2.key, utf8 p.2.value)

/-- `handleAppendEntries` of the node, if there is one, and its reply. -/
def callAppendEntries (args : AppendEntriesArgs) : Outcome :=
  match raft with
  | none => .reply none (replyText D (.node (.append ⟨args.term, false⟩)))
  | some n =>
      match n.handleAppendEntries args with
      | .ok (n', reply) =>
          { Outcome.reply (some n') (replyText D (.node (.append reply))) with
            puts := appliedSince n n' }
      | .error _ =>
          -- Everything up to the end of the log has been applied by then.
          { Outcome.crash raft with
            puts := ((n.merge args).logs.drop (n.lastApplied + 1)).map fun entry =>
              (entry.key, utf8 entry.value) }

/-- `Connection::handleRaftRequestVote`. -/
def handleRaftRequestVote (msg : List UInt8) : Outcome :=
  handlePayload parse raft readVoteArgs (callRequestVote (D := D) raft) msg

/-- `Connection::handleRaftAppendEntries`. -/
def handleRaftAppendEntries (msg : List UInt8) : Outcome :=
  handlePayload parse raft readAppendArgs (callAppendEntries (D := D) raft) msg

/-! ## Which messages are answered -/

/-- The JSON value in a message. -/
def payloadJson (msg : List UInt8) : Option (Json D) :=
  (afterSpace msg).bind parse

variable (D) in
/-- The message was answered with an error and had no other effect. -/
def Refused (o : Outcome) : Prop :=
  o = .reply raft (replyText D .missingPayload) ∨ o = .reply raft (replyText D .invalidPayload)

/-- No entry of the payload runs into the assertion of the library, and if it can be read
completely, the node applies entries of its log only. -/
def AppendHandled (msg : List UInt8) : Prop :=
  ∀ j, payloadJson parse msg = some j →
    ¬ ((∃ args, HeaderIn j args) ∧ LacksFirst (entryValues j)) ∧
      ∀ args, AppendArgsIn j args → ∀ n ∈ raft, n.AppliesInRange args

variable {parse raft} {msg : List UInt8} {j : Json D}

theorem Refused.answersIf {o : Outcome} (h : Refused D raft o) {p : Prop} (hp : p) :
    o.AnswersIf p := by
  rcases h with rfl | rfl
  · exact Outcome.answersIf_reply hp _
  · exact Outcome.answersIf_reply hp _

section Payload

variable {Args : Type} {read : Json D → Except Fault Args} {call : Args → Outcome}

/-- Without a JSON value a message is refused. -/
theorem handlePayload_none (h : payloadJson parse msg = none) :
    Refused D raft (handlePayload parse raft read call msg) := by
  rw [payloadJson] at h
  rw [handlePayload]
  cases hspace : afterSpace msg with
  | none => exact .inl rfl
  | some payload =>
      rw [hspace, Option.bind_some] at h
      simp only [h, orThrow, Except.bind]
      exact .inr rfl

theorem handlePayload_some (h : payloadJson parse msg = some j) :
    handlePayload parse raft read call msg =
      match read j with
      | .error .exception => .reply raft (replyText D .invalidPayload)
      | .error .assertion => .crash raft
      | .ok args => call args := by
  obtain ⟨payload, hspace, hparse⟩ := Option.bind_eq_some_iff.mp h
  simp only [handlePayload, hspace, hparse, orThrow, Except.bind]

/-- A message is refused, its payload runs into the assertion, or its arguments get to the
node. -/
theorem handlePayload_cases (parse : List UInt8 → Option (Json D)) (raft : Option RaftNode)
    (read : Json D → Except Fault Args) (call : Args → Outcome) (msg : List UInt8) :
    Refused D raft (handlePayload parse raft read call msg) ∨
      (∃ j, payloadJson parse msg = some j ∧ read j = .error .assertion ∧
        handlePayload parse raft read call msg = .crash raft) ∨
      (∃ j args, payloadJson parse msg = some j ∧ read j = .ok args ∧
        handlePayload parse raft read call msg = call args) := by
  cases hjson : payloadJson parse msg with
  | none => exact .inl (handlePayload_none hjson)
  | some j =>
      rw [handlePayload_some hjson]
      cases hread : read j with
      | ok args => exact .inr (.inr ⟨j, args, rfl, hread, rfl⟩)
      | error fault =>
          cases fault with
          | exception => exact .inl (.inr rfl)
          | assertion => exact .inr (.inl ⟨j, rfl, hread, rfl⟩)

end Payload

theorem answersIf_callRequestVote (args : RequestVoteArgs) :
    (callRequestVote (D := D) raft args).AnswersIf True := by
  cases raft with
  | none => exact Outcome.answersIf_reply trivial _
  | some n => exact Outcome.answersIf_reply trivial _

theorem answersIf_callAppendEntries (args : AppendEntriesArgs) :
    (callAppendEntries (D := D) raft args).AnswersIf (∀ n ∈ raft, n.AppliesInRange args) := by
  cases raft with
  | none => exact Outcome.answersIf_reply (by simp) _
  | some n =>
      simp only [Option.mem_some_iff, forall_eq', ← RaftNode.handleAppendEntries_ok_iff,
        callAppendEntries]
      cases hresult : n.handleAppendEntries args with
      | ok r => exact .inl ⟨⟨r, rfl⟩, rfl, rfl⟩
      | error e => exact .inr ⟨by simp, rfl⟩

/-- Every RequestVote is answered. -/
theorem answersIf_handleRaftRequestVote (msg : List UInt8) :
    (handleRaftRequestVote parse raft msg).AnswersIf True := by
  rw [handleRaftRequestVote]
  rcases handlePayload_cases parse raft readVoteArgs (callRequestVote (D := D) raft) msg with
    hrefused | ⟨j, -, hassert, -⟩ | ⟨j, args, -, -, heq⟩
  · exact hrefused.answersIf trivial
  · exact absurd hassert readVoteArgs_ne_assertion
  · rw [heq]
    exact answersIf_callRequestVote args

/-- An AppendEntries is answered exactly if it can be handled. -/
theorem answersIf_handleRaftAppendEntries (msg : List UInt8) :
    (handleRaftAppendEntries parse raft msg).AnswersIf (AppendHandled parse raft msg) := by
  rw [handleRaftAppendEntries]
  cases hjson : payloadJson parse msg with
  | none =>
      refine (handlePayload_none hjson).answersIf fun j hj => ?_
      cases hjson.symm.trans hj
  | some j =>
      have hhandled : AppendHandled parse raft msg ↔
          readAppendArgs j ≠ .error .assertion ∧
            ∀ args, readAppendArgs j = .ok args → ∀ n ∈ raft, n.AppliesInRange args := by
        simp only [AppendHandled, hjson, Option.some.injEq, forall_eq', ne_eq,
          readAppendArgs_assertion_iff, readAppendArgs_ok_iff]
      rw [hhandled, handlePayload_some hjson]
      cases hread : readAppendArgs j with
      | ok args =>
          simpa using answersIf_callAppendEntries (D := D) args
      | error fault =>
          cases fault with
          | exception => exact Outcome.answersIf_reply (by simp) _
          | assertion => exact Outcome.answersIf_crash (by simp)

end Handlers

end Server
end YoloServer
