import YoloServer.Server.Handle
import YoloServer.Server.StoreAcknowledged

/-!
# One reply for each message

A client that sends several messages on one connection tells the replies apart by their
order.  This works as long as each message is answered by exactly one reply before the
next one is read.

* `Answered` says which messages are answered, in terms of what their handler finds.
* `answersIf_outcome`: such a message is answered once, and any other not at all.
* `one_reply_each_iff`: the replies on a connection match the messages exactly if all of
  them are answered.
-/

namespace YoloServer
namespace Server

open Cluster Raft Json

/-- A message of a connection, with what its handler finds. -/
structure Call (D : Type) where
  env : Env D
  server : Server
  raft : Option RaftNode
  msg : List UInt8

section Calls

variable {D : Type} [Double D] (F : Type) [Single F D]

def Call.outcome (c : Call D) : Outcome :=
  handle c.env F c.server c.raft c.msg

/-- The loop of `Connection::handle`: the replies to each of the messages, up to the
first handler that does not return. -/
def served : List (Call D) → List (List (List UInt8))
  | [] => []
  | c :: rest =>
      (c.outcome F).replies :: if (c.outcome F).ending = .returns then served rest else []

/-- The replies of the connection match the messages: there is one for each, at its
place. -/
def OneReplyEach (calls : List (Call D)) : Prop :=
  ∀ i < calls.length, ∃ text,
    (served F calls)[i]? = some [text] ∧ (served F calls).flatten[i]? = some text

end Calls

/-! ## Which messages are answered -/

section Answered

variable {D : Type} [Double D] (env : Env D) (F : Type) [Single F D] (s : Server)

/-- There is a payload, and if it holds a frame, the router picks a node for it: the
server itself, or one to which the message can be forwarded. -/
def StoreAnswered (msg : List UInt8) : Prop :=
  ∃ result, readStore env.network F msg = some result ∧
    ∀ frame ∈ result, ∃ node,
      s.router.pickNode env.network.hash frame.imageId = some node ∧
        (node.id ≠ s.self.id → env.Relays node)

/-- If there is a key, the router picks a node for it: the server itself, and then the
value that is stored can be decoded, or one to which the message can be forwarded. -/
def GetAnswered (msg : List UInt8) : Prop :=
  getSecondToken msg ≠ [] → ∃ node,
    pickNodeFor s.router env.hash (getSecondToken msg) = some node ∧
      (node.id ≠ s.self.id → env.Relays node) ∧
      (node.id = s.self.id → ∀ value ∈ env.get (getSecondToken msg),
        (decode (F := F) env.parse value).isSome)

/-- The message of a call is answered. -/
def Call.Answered (c : Call D) : Prop :=
  match command c.msg with
  | .STORE => StoreAnswered c.env F c.server c.msg
  | .GET => GetAnswered c.env F c.server c.msg
  | .RAFT_APPEND_ENTRIES => AppendHandled c.env.parse c.raft c.msg
  | .PING | .RAFT_REQUEST_VOTE | .UNKNOWN => True

variable {env F s} {raft : Option RaftNode} {msg : List UInt8}

omit [Double D] in
theorem answersIf_relayed (node : NodeInfo) (error : String) :
    ((relayed env node error).outcome raft).AnswersIf (env.Relays node) := by
  rcases relayed_cases env node error with ⟨hnot, heq⟩ | ⟨hrelays, heq | ⟨text, -, heq⟩⟩
  · rw [heq]
    exact .inr ⟨hnot, rfl⟩
  · rw [heq]
    exact .inl ⟨hrelays, rfl, rfl⟩
  · rw [heq]
    exact .inl ⟨hrelays, rfl, rfl⟩

/-! ## The handlers -/

/-- What a `STORE` comes to, and what the handler has found by then. -/
inductive StoreCase (env : Env D) (F : Type) [Single F D] (s : Server) (msg : List UInt8) : Prop
  | noPayload (hread : readStore env.network F msg = none)
      (heq : handleStore env.network F s env.forwarded msg = .silent)
  | invalid (hread : readStore env.network F msg = some none)
      (heq : handleStore env.network F s env.forwarded msg =
        .reply "ERROR invalid STORE payload")
  | noNode (frame : YoloFrame F) (hread : readStore env.network F msg = some (some frame))
      (hpick : s.router.pickNode env.network.hash frame.imageId = none)
      (heq : handleStore env.network F s env.forwarded msg = ⟨[], [], true⟩)
  | elsewhere (frame : YoloFrame F) (node : NodeInfo)
      (hread : readStore env.network F msg = some (some frame))
      (hpick : s.router.pickNode env.network.hash frame.imageId = some node)
      (hother : node.id ≠ s.self.id)
      (heq : handleStore env.network F s env.forwarded msg =
        relayed env node "ERROR failed to forward STORE request")
  | own (frame : YoloFrame F) (node : NodeInfo)
      (hread : readStore env.network F msg = some (some frame))
      (hpick : s.router.pickNode env.network.hash frame.imageId = some node)
      (hself : node.id = s.self.id)
      (heq : handleStore env.network F s env.forwarded msg = stored env.network s frame)

theorem handleStore_cases (env : Env D) (F : Type) [Single F D] (s : Server) (msg : List UInt8) :
    StoreCase env F s msg := by
  cases hread : readStore env.network F msg with
  | none => exact .noPayload hread (by simp [handleStore, hread])
  | some result =>
      cases result with
      | none => exact .invalid hread (by simp [handleStore, hread])
      | some frame =>
          cases hpick : s.router.pickNode env.network.hash frame.imageId with
          | none =>
              exact .noNode frame hread hpick (by simp [handleStore, hread, hpick, Effect.silent])
          | some node =>
              by_cases hself : node.id = s.self.id
              · exact .own frame node hread hpick hself (handleStore_own hread hpick hself)
              · refine .elsewhere frame node hread hpick hself ?_
                simp [handleStore, hread, hpick, hself, relayed]

theorem answersIf_handleStore :
    ((handleStore env.network F s env.forwarded msg).outcome raft).AnswersIf
      (StoreAnswered env F s msg) := by
  rw [StoreAnswered]
  cases handleStore_cases env F s msg with
  | noPayload hread heq =>
      rw [heq]
      exact .inr ⟨by simp [hread], rfl⟩
  | invalid hread heq =>
      rw [heq]
      exact .inl ⟨by simp [hread], rfl, rfl⟩
  | noNode frame hread hpick heq =>
      rw [heq]
      exact .inr ⟨by simp [hread, hpick], rfl⟩
  | elsewhere frame node hread hpick hother heq =>
      rw [heq]
      simpa [hread, hpick, hother] using answersIf_relayed node _
  | own frame node hread hpick hself heq =>
      rw [heq]
      exact .inl ⟨by simp [hread, hpick, hself], rfl, rfl⟩

theorem answersIf_handleGet :
    (handleGet env F s raft msg).AnswersIf (GetAnswered env F s msg) := by
  rw [GetAnswered]
  cases handleGet_cases env F s raft msg with
  | noKey hkey heq =>
      rw [heq]
      exact Outcome.answersIf_reply (by simp [hkey]) _
  | noNode hkey hpick heq =>
      rw [heq]
      exact Outcome.answersIf_crash (by simp [hkey, hpick])
  | elsewhere node hkey hpick hother heq =>
      rw [heq]
      simpa [hkey, hpick, hother] using answersIf_relayed node _
  | absent node hkey hpick hself hget heq =>
      rw [heq]
      exact Outcome.answersIf_reply (by simp [hpick, hself, hget]) _
  | unreadable node value hkey hpick hself hget hdecode heq =>
      rw [heq]
      exact .inr ⟨by simp [hkey, hpick, hself, hget, hdecode], rfl⟩
  | present node value frame hkey hpick hself hget hdecode heq =>
      rw [heq]
      exact Outcome.answersIf_reply (by simp [hpick, hself, hget, hdecode]) _

/-- A message is answered once, or not at all. -/
theorem answersIf_outcome (c : Call D) : (c.outcome F).AnswersIf (c.Answered F) := by
  rw [Call.outcome, handle, Call.Answered]
  cases command c.msg with
  | PING => exact Outcome.answersIf_reply trivial _
  | STORE => exact answersIf_handleStore
  | GET => exact answersIf_handleGet
  | RAFT_REQUEST_VOTE => exact answersIf_handleRaftRequestVote c.msg
  | RAFT_APPEND_ENTRIES => exact answersIf_handleRaftAppendEntries c.msg
  | UNKNOWN => exact Outcome.answersIf_reply trivial _

end Answered

/-! ## Whole connections -/

section Connections

variable {D : Type} [Double D] {F : Type} [Single F D]

/-- If all messages are answered, each has its own reply. -/
theorem served_of_answered {calls : List (Call D)} (h : ∀ c ∈ calls, c.Answered F) :
    ∃ replies : List (List UInt8), replies.length = calls.length ∧
      served F calls = replies.map fun text => [text] := by
  induction calls with
  | nil => exact ⟨[], rfl, rfl⟩
  | cons c rest ih =>
      obtain ⟨hlength, hreturns⟩ := (answersIf_outcome c).iff.mpr (h c List.mem_cons_self)
      obtain ⟨text, htext⟩ := List.length_eq_one_iff.mp hlength
      obtain ⟨replies, hcount, hserved⟩ := ih fun d hd => h d (List.mem_cons_of_mem _ hd)
      refine ⟨text :: replies, by simp [hcount], ?_⟩
      rw [served, if_pos hreturns, htext, hserved, List.map_cons]

/-- A message that is not answered leaves a gap. -/
theorem answered_of_served {calls : List (Call D)}
    (h : ∀ i < calls.length, ∃ text, (served F calls)[i]? = some [text]) :
    ∀ c ∈ calls, c.Answered F := by
  induction calls with
  | nil => simp
  | cons c rest ih =>
      have hfirst : c.Answered F := by
        obtain ⟨text, htext⟩ := h 0 (by simp)
        rw [served, List.getElem?_cons_zero, Option.some.injEq] at htext
        exact (answersIf_outcome c).length_iff.mp (by rw [htext]; rfl)
      have hreturns := ((answersIf_outcome c).iff.mpr hfirst).2
      refine List.forall_mem_cons.mpr ⟨hfirst, ih fun i hi => ?_⟩
      obtain ⟨text, htext⟩ := h (i + 1) (by simpa using hi)
      rw [served, if_pos hreturns, List.getElem?_cons_succ] at htext
      exact ⟨text, htext⟩

end Connections

/-- **One reply for each message**, for any messages on a connection and whatever their
handlers find, exactly if all of them are answered. -/
theorem one_reply_each_iff {D F : Type} [Double D] [Single F D] (calls : List (Call D)) :
    OneReplyEach F calls ↔ ∀ c ∈ calls, c.Answered F := by
  constructor
  · intro h
    apply answered_of_served
    intro i hi
    obtain ⟨text, htext, -⟩ := h i hi
    exact ⟨text, htext⟩
  · intro h i hi
    obtain ⟨replies, hcount, hserved⟩ := served_of_answered h
    have hi' : i < replies.length := by omega
    refine ⟨replies[i], ?_, ?_⟩
    · rw [hserved, List.getElem?_map, List.getElem?_eq_getElem hi', Option.map_some]
    · have hflat : (replies.map fun text => [text]).flatten = replies :=
        List.flatMap_singleton' replies
      rw [hserved, hflat, List.getElem?_eq_getElem hi']

/-! ## A message without a reply -/

/-- A server that knows itself only. -/
def loneServer : Server :=
  ⟨node1, ⟨[node1]⟩⟩

/-- An empty storage, and nobody to forward to. -/
def loneEnv {D : Type} (parse : List UInt8 → Option (Json D)) : Env D where
  hash _ := 0
  parse := parse
  put _ _ := true
  get _ := none
  forward _ := (.noConnection, [])
  uninitialised := (0, 0)

/-- A parser that refuses every text. -/
def noParser (_ : List UInt8) : Option (Json Halves) :=
  none

def loneCall (msg : List UInt8) : Call Halves :=
  ⟨loneEnv noParser, loneServer, none, msg⟩

/-- A client sends `STORE` without a payload and then `PING`.  The first reply it gets is
the one to the second message. -/
theorem store_without_payload_unanswered :
    served Halves [loneCall (utf8 "STORE"), loneCall (utf8 "PING")] = [[], [utf8 "PONG"]] ∧
      ¬ OneReplyEach Halves [loneCall (utf8 "STORE"), loneCall (utf8 "PING")] := by
  have hserved : served Halves [loneCall (utf8 "STORE"), loneCall (utf8 "PING")] =
      [[], [utf8 "PONG"]] := by
    decide
  refine ⟨hserved, fun h => ?_⟩
  obtain ⟨text, htext, -⟩ := h 0 (by simp)
  rw [hserved] at htext
  simp at htext

end Server
end YoloServer
