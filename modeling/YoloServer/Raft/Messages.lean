import YoloServer.Common.Json
import YoloServer.Raft.Cluster

/-!
# The texts of the Raft RPCs

`sendRequestVote` and `sendAppendEntries` (`raft/RaftNode.cpp`) build the text of a
request and decode the text of a reply; `handleRaftRequestVote` and
`handleRaftAppendEntries` (`server/Connection.cpp`) build the text of a reply.  The
JSON parser is the parameter `parse`.

The only closing brace of a reply is its last byte (`short_replyText`), so what is
left of a reply that was cut off is no JSON object (`decodeReply_cut`).
-/

namespace YoloServer
namespace Raft

open Json

/-- The byte of a closing brace. -/
def closingBrace : UInt8 :=
  125

section Texts

variable (D : Type) [Double D]

def entryJson (entry : LogEntry) : Json D :=
  ofMembers [("term", .unsigned entry.term), ("index", .unsigned entry.index),
    ("key", .string entry.key), ("value", .string entry.value)]

/-- The message that `sendRequestVote` or `sendAppendEntries` sends. -/
def requestText : Request → List UInt8
  | .vote args =>
      utf8 "RAFT_REQUEST_VOTE " ++
        dump (D := D) (ofMembers [("term", .unsigned args.term),
          ("candidateId", .string args.candidateId),
          ("lastLogIndex", .unsigned args.lastLogIndex),
          ("lastLogTerm", .unsigned args.lastLogTerm)])
  | .append args =>
      utf8 "RAFT_APPEND_ENTRIES " ++
        dump (D := D) (ofMembers [("term", .unsigned args.term),
          ("leaderId", .string args.leaderId),
          ("prevLogIndex", .unsigned args.prevLogIndex),
          ("prevLogTerm", .unsigned args.prevLogTerm),
          ("leaderCommit", .unsigned args.leaderCommit),
          ("entries", .array (args.entries.map (entryJson D)))])

/-- The message with which a peer answers: the reply of its node, or one of the two
texts for a request it cannot read. -/
inductive Reply where
  | node (response : Response)
  | missingPayload
  | invalidPayload
  deriving DecidableEq

def replyText : Reply → List UInt8
  | .node (.vote reply) =>
      utf8 "RAFT_REQUEST_VOTE_REPLY " ++
        dump (D := D) (ofMembers [("term", .unsigned reply.term),
          ("voteGranted", .boolean reply.voteGranted)])
  | .node (.append reply) =>
      utf8 "RAFT_APPEND_ENTRIES_REPLY " ++
        dump (D := D) (ofMembers [("term", .unsigned reply.term),
          ("success", .boolean reply.success)])
  | .missingPayload => utf8 "ERROR missing payload"
  | .invalidPayload => utf8 "ERROR invalid payload"

end Texts

/-- The term of a reply is a `uint64_t`. -/
def Reply.fits : Reply → Prop
  | .node (.vote reply) => reply.term < 2 ^ 64
  | .node (.append reply) => reply.term < 2 ^ 64
  | .missingPayload | .invalidPayload => True

instance : (reply : Reply) → Decidable reply.fits
  | .node (.vote _) => inferInstanceAs (Decidable (_ < _))
  | .node (.append _) => inferInstanceAs (Decidable (_ < _))
  | .missingPayload | .invalidPayload => inferInstanceAs (Decidable True)

section Decoding

variable {D : Type} [Double D] (parse : List UInt8 → Option (Json D))

/-- The end of `sendRequestVote` and of `sendAppendEntries`, which read a term and a
flag; `none` where the function returns false. -/
def decodeTermAndFlag (flag : String) (response : List UInt8) : Option (Nat × Bool) := do
  let payload ← afterSpace response
  let j ← parse payload
  let term ← (← j.index "term").getUInt64
  let value ← (← j.index flag).getBool
  pure (term, value)

def decodeVoteReply (response : List UInt8) : Option RequestVoteReply :=
  (decodeTermAndFlag parse "voteGranted" response).map fun r => ⟨r.1, r.2⟩

def decodeAppendReply (response : List UInt8) : Option AppendEntriesReply :=
  (decodeTermAndFlag parse "success" response).map fun r => ⟨r.1, r.2⟩

/-- The reply that a call for the given request returns, if it returns true. -/
def decodeReply : Request → List UInt8 → Option Response
  | .vote _, response => (decodeVoteReply parse response).map .vote
  | .append _, response => (decodeAppendReply parse response).map .append

/-- What the source relies on: an object ends with a closing brace. -/
def ClosesObjects : Prop :=
  ∀ text members, parse text = some (.object members) → closingBrace ∈ text

end Decoding

/-! ## Replies that were cut off -/

variable {D : Type} [Double D] {parse : List UInt8 → Option (Json D)}

/-- A value with a member that is a number is an object. -/
theorem object_of_index {j value : Json D} {key : String} {n : Nat}
    (h : j.index key = some value) (hn : value.getUInt64 = some n) :
    ∃ members, j = .object members := by
  cases j with
  | object members => exact ⟨members, rfl⟩
  | null =>
      cases h
      simp [getUInt64] at hn
  | _ => simp [Json.index] at h

/-- A text without a closing brace is not decoded. -/
theorem decodeReply_none (hparse : ClosesObjects parse) (request : Request)
    {response : List UInt8} (h : closingBrace ∉ response) :
    decodeReply parse request response = none := by
  have hnone : ∀ flag, decodeTermAndFlag parse flag response = none := by
    intro flag
    cases hresult : decodeTermAndFlag parse flag response with
    | none => rfl
    | some reply =>
        simp only [decodeTermAndFlag, Option.bind_eq_bind, Option.bind_eq_some_iff] at hresult
        obtain ⟨payload, hpayload, j, hj, value, hvalue, n, hn, -⟩ := hresult
        obtain ⟨members, rfl⟩ := object_of_index hvalue hn
        exact absurd (mem_of_afterSpace hpayload (hparse payload members hj)) h
  cases request with
  | vote args => simp [decodeReply, decodeVoteReply, hnone]
  | append args => simp [decodeReply, decodeAppendReply, hnone]

/-- A text that fits in 255 bytes and has no closing brace before its last byte. -/
structure Short (text : List UInt8) : Prop where
  length : text.length < 256
  brace : closingBrace ∉ text.dropLast

/-- Fixed texts around a number of 20 digits at most. -/
theorem short_of_digits {before after : List UInt8} {t : Nat} (ht : t < 2 ^ 64)
    (hlength : before.length + after.length < 236) (hne : after ≠ [])
    (hbefore : closingBrace ∉ before) (hafter : closingBrace ∉ after.dropLast) :
    Short (before ++ utf8 (Nat.repr t) ++ after) where
  length := by
    have hdigits : (utf8 (Nat.repr t)).length ≤ 20 :=
      length_utf8_repr_le (by decide) (Nat.lt_trans ht (by decide))
    simp only [List.length_append]
    omega
  brace := by
    rw [List.dropLast_append_of_ne_nil hne]
    intro hmem
    rcases List.mem_append.mp hmem with hmem | hmem
    · rcases List.mem_append.mp hmem with hmem | hmem
      · exact hbefore hmem
      · exact absurd (le_of_mem_utf8_repr hmem) (by decide)
    · exact hafter hmem

theorem short_replyText (reply : Reply) (hfits : reply.fits) : Short (replyText D reply) := by
  cases reply with
  | node response =>
      cases response with
      | vote reply =>
          obtain ⟨t, b⟩ := reply
          have htext : replyText D (.node (.vote ⟨t, b⟩)) =
              (utf8 "RAFT_REQUEST_VOTE_REPLY " ++ utf8 "\x7b" ++ quote "term" ++ utf8 ":") ++
                utf8 (Nat.repr t) ++
                (utf8 "," ++ quote "voteGranted" ++ utf8 ":" ++
                  utf8 (if b then "true" else "false") ++ utf8 "\x7d") := by
            rw [replyText, ofMembers_pair _ _ (by decide), dump_pair]
            simp only [dump, List.append_assoc]
          rw [htext]
          exact short_of_digits hfits (by cases b <;> decide) (by cases b <;> decide)
            (by decide) (by cases b <;> decide)
      | append reply =>
          obtain ⟨t, b⟩ := reply
          have htext : replyText D (.node (.append ⟨t, b⟩)) =
              (utf8 "RAFT_APPEND_ENTRIES_REPLY " ++ utf8 "\x7b" ++ quote "success" ++ utf8 ":" ++
                utf8 (if b then "true" else "false") ++ utf8 "," ++ quote "term" ++ utf8 ":") ++
                utf8 (Nat.repr t) ++ utf8 "\x7d" := by
            rw [replyText, ofMembers_pair_swap _ _ (by decide), dump_pair]
            simp only [dump, List.append_assoc]
          rw [htext]
          exact short_of_digits hfits (by cases b <;> decide) (by decide)
            (by cases b <;> decide) (by decide)
  | missingPayload =>
      simp only [replyText]
      exact ⟨by decide, by decide⟩
  | invalidPayload =>
      simp only [replyText]
      exact ⟨by decide, by decide⟩

/-- A reply of which only a part was read, and zeros for the rest, is not decoded. -/
theorem decodeReply_cut (hparse : ClosesObjects parse) (request : Request)
    {text : List UInt8} (h : Short text) {c : Nat} (hc : c < text.length) (zeros : Nat) :
    decodeReply parse request (text.take c ++ List.replicate zeros 0) = none := by
  apply decodeReply_none hparse request
  intro hmem
  rcases List.mem_append.mp hmem with hmem | hmem
  · have htake : text.take c = text.dropLast.take c := by
      rw [List.dropLast_eq_take, List.take_take, Nat.min_eq_left (by omega)]
    rw [htake] at hmem
    exact h.brace (List.mem_of_mem_take hmem)
  · exact absurd (List.eq_of_mem_replicate hmem) (by decide)

end Raft
end YoloServer
