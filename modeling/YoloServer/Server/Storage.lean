import Mathlib.Logic.Function.Basic
import YoloServer.Server.OneReply

/-!
# The storage of a server (`storage/RocksDBStorage.cpp`)

RocksDB as a map from keys to values, written by the calls of `put` that a message brings
about.

* `handle_effect` says what a message can do to the storage and to the node: nothing,
  store a frame, take a vote, or take entries.
* `handle_throws`: an exception leaves `handle` only if a stored value cannot be decoded.
-/

namespace YoloServer
namespace Server

open Cluster Raft Json Function

/-- The contents of `RocksDBStorage`. -/
abbrev Store := List UInt8 → Option (List UInt8)

namespace Store

def empty : Store :=
  fun _ => none

/-- Calls of `put`, in order; `ok` tells which of them succeed. -/
def write (ok : String → List UInt8 → Bool) (store : Store) (puts : List (String × List UInt8)) :
    Store :=
  puts.foldl (fun st p => if ok p.1 p.2 then update st (utf8 p.1) (some p.2) else st) store

/-- What is in the storage was there before or was put into it by a call that succeeded. -/
theorem write_spec {ok : String → List UInt8 → Bool} {store : Store}
    {puts : List (String × List UInt8)} {key value : List UInt8}
    (h : store.write ok puts key = some value) :
    store key = some value ∨ ∃ p ∈ puts, ok p.1 p.2 = true ∧ key = utf8 p.1 ∧ value = p.2 := by
  induction puts generalizing store with
  | nil => exact .inl h
  | cons p rest ih =>
      rw [write, List.foldl_cons] at h
      rcases ih h with hold | ⟨q, hq, heq⟩
      · split_ifs at hold with hok
        · by_cases hkey : key = utf8 p.1
          · rw [hkey, update_self, Option.some.injEq] at hold
            exact .inr ⟨p, List.mem_cons_self, hok, hkey, hold.symm⟩
          · rw [update_of_ne hkey] at hold
            exact .inl hold
        · exact .inl hold
      · exact .inr ⟨q, List.mem_cons_of_mem _ hq, heq⟩

theorem write_append (ok : String → List UInt8 → Bool) (store : Store)
    (first second : List (String × List UInt8)) :
    store.write ok (first ++ second) = (store.write ok first).write ok second :=
  List.foldl_append

/-- Other keys keep their values. -/
theorem write_of_ne {ok : String → List UInt8 → Bool} (store : Store)
    {puts : List (String × List UInt8)} {key : List UInt8} (h : ∀ p ∈ puts, utf8 p.1 ≠ key) :
    store.write ok puts key = store key := by
  induction puts generalizing store with
  | nil => rfl
  | cons p rest ih =>
      rw [write, List.foldl_cons]
      have hrest := ih (if ok p.1 p.2 then update store (utf8 p.1) (some p.2) else store)
        fun q hq => h q (List.mem_cons_of_mem _ hq)
      rw [write] at hrest
      rw [hrest]
      split_ifs
      · exact update_of_ne (h p List.mem_cons_self).symm _ _
      · rfl

/-- The last successful `put` of a key counts. -/
theorem write_last {ok : String → List UInt8 → Bool} (store : Store)
    (before after : List (String × List UInt8)) {p : String × List UInt8} (hok : ok p.1 p.2 = true)
    (hlast : ∀ q ∈ after, utf8 q.1 ≠ utf8 p.1) :
    store.write ok (before ++ p :: after) (utf8 p.1) = some p.2 := by
  have hsplit : before ++ p :: after = (before ++ [p]) ++ after := by simp
  rw [hsplit, write_append, write_of_ne _ hlast, write_append]
  simp [write, hok]

end Store

/-- The environment over a storage. -/
def Env.on {D : Type} (env : Env D) (store : Store) : Env D :=
  { env with get := store }

section Effects

variable {D F : Type} [Double D] [Single F D] {env : Env D} {s : Server} {raft : Option RaftNode}
  {msg : List UInt8}

omit [Double D] in
theorem relayed_puts (node : NodeInfo) (error : String) : (relayed env node error).puts = [] := by
  rcases relayed_cases env node error with ⟨-, heq⟩ | ⟨-, heq | ⟨text, -, heq⟩⟩
  · rw [heq]
    rfl
  · rw [heq]
    rfl
  · rw [heq]

/-- A `STORE` writes its frame if the server picks itself, and nothing otherwise. -/
theorem handleStore_puts (env : Env D) (s : Server) (msg : List UInt8) :
    (handleStore env.network F s env.forwarded msg).puts = [] ∨
      ∃ frame : YoloFrame F, ∃ node, readStore env.network F msg = some (some frame) ∧
        s.router.pickNode env.network.hash frame.imageId = some node ∧ node.id = s.self.id := by
  cases handleStore_cases env F s msg with
  | noPayload hread heq => exact .inl (congrArg Effect.puts heq)
  | invalid hread heq => exact .inl (congrArg Effect.puts heq)
  | noNode frame hread hpick heq => exact .inl (congrArg Effect.puts heq)
  | elsewhere frame node hread hpick hother heq =>
      rw [heq]
      exact .inl (relayed_puts node _)
  | own frame node hread hpick hself heq => exact .inr ⟨frame, node, hread, hpick, hself⟩

/-- A `GET` changes nothing. -/
theorem handleGet_effect :
    (handleGet env F s raft msg).puts = [] ∧ (handleGet env F s raft msg).raft = raft := by
  cases handleGet_cases env F s raft msg with
  | elsewhere node hkey hpick hother heq =>
      rw [heq]
      simp [Effect.outcome, relayed_puts]
  | noKey hkey heq =>
      rw [heq]
      exact ⟨rfl, rfl⟩
  | noNode hkey hpick heq =>
      rw [heq]
      exact ⟨rfl, rfl⟩
  | absent node hkey hpick hself hget heq =>
      rw [heq]
      exact ⟨rfl, rfl⟩
  | unreadable node value hkey hpick hself hget hdecode heq =>
      rw [heq]
      exact ⟨rfl, rfl⟩
  | present node value frame hkey hpick hself hget hdecode heq =>
      rw [heq]
      exact ⟨rfl, rfl⟩

omit [Single F D] in
/-- A Raft message changes nothing, unless its arguments get to the node. -/
theorem handlePayload_effect {Args : Type} (parse : List UInt8 → Option (Json D))
    (raft : Option RaftNode) (read : Json D → Except Fault Args) (call : Args → Outcome)
    (msg : List UInt8) :
    ((handlePayload parse raft read call msg).puts = [] ∧
        (handlePayload parse raft read call msg).raft = raft) ∨
      ∃ j args, payloadJson parse msg = some j ∧ read j = .ok args ∧
        handlePayload parse raft read call msg = call args := by
  rcases handlePayload_cases parse raft read call msg with
    (heq | heq) | ⟨j, -, -, heq⟩ | hcalled
  · rw [heq]
    exact .inl ⟨rfl, rfl⟩
  · rw [heq]
    exact .inl ⟨rfl, rfl⟩
  · rw [heq]
    exact .inl ⟨rfl, rfl⟩
  · exact .inr hcalled

/-- What a message does to the storage and to the node: nothing, it stores a frame, the
node votes, or the node takes entries. -/
theorem handle_effect (env : Env D) (s : Server) (raft : Option RaftNode) (msg : List UInt8) :
    ((handle env F s raft msg).puts = [] ∧ (handle env F s raft msg).raft = raft) ∨
      (∃ frame : YoloFrame F, ∃ node, command msg = .STORE ∧
        readStore env.network F msg = some (some frame) ∧
        s.router.pickNode env.network.hash frame.imageId = some node ∧ node.id = s.self.id ∧
        handle env F s raft msg = (stored env.network s frame).outcome raft) ∨
      (∃ n args, raft = some n ∧ (handle env F s raft msg).puts = [] ∧
        (handle env F s raft msg).raft = some (n.handleRequestVote args).1) ∨
      (∃ j args n, command msg = .RAFT_APPEND_ENTRIES ∧ payloadJson env.parse msg = some j ∧
        AppendArgsIn j args ∧ raft = some n ∧
        handle env F s raft msg = callAppendEntries (D := D) raft args) := by
  rw [handle]
  cases hcmd : command msg with
  | PING => exact .inl ⟨rfl, rfl⟩
  | UNKNOWN => exact .inl ⟨rfl, rfl⟩
  | GET => exact .inl handleGet_effect
  | STORE =>
      rcases handleStore_puts (F := F) env s msg with
        hnone | ⟨frame, node, hread, hpick, hself⟩
      · left
        simp [Effect.outcome, hnone]
      · right; left
        refine ⟨frame, node, rfl, hread, hpick, hself, ?_⟩
        simp only [handleStore_own hread hpick hself]
  | RAFT_REQUEST_VOTE =>
      rcases handlePayload_effect env.parse raft readVoteArgs (callRequestVote (D := D) raft) msg with
        hnone | ⟨j, args, hjson, hread, heq⟩
      · exact .inl hnone
      · simp only [handleRaftRequestVote, heq]
        cases raft with
        | none => exact .inl ⟨rfl, rfl⟩
        | some n => exact .inr (.inr (.inl ⟨n, args, rfl, rfl, rfl⟩))
  | RAFT_APPEND_ENTRIES =>
      rcases handlePayload_effect env.parse raft readAppendArgs (callAppendEntries (D := D) raft)
        msg with hnone | ⟨j, args, hjson, hread, heq⟩
      · exact .inl hnone
      · simp only [handleRaftAppendEntries, heq]
        cases raft with
        | none => exact .inl ⟨rfl, rfl⟩
        | some n =>
            refine .inr (.inr (.inr ⟨j, args, n, trivial, hjson, ?_, rfl, rfl⟩))
            exact readAppendArgs_ok_iff.mp hread

/-! ## Exceptions -/

theorem handleGet_throws (h : (handleGet env F s raft msg).ending = .throws) :
    ∃ value, env.get (getSecondToken msg) = some value ∧ decode (F := F) env.parse value = none := by
  cases handleGet_cases env F s raft msg with
  | unreadable node value hkey hpick hself hget hdecode heq => exact ⟨value, hget, hdecode⟩
  | elsewhere node hkey hpick hother heq =>
      rw [heq, Effect.outcome] at h
      dsimp only at h
      split_ifs at h
  | noKey hkey heq =>
      rw [heq] at h
      cases h
  | noNode hkey hpick heq =>
      rw [heq] at h
      cases h
  | absent node hkey hpick hself hget heq =>
      rw [heq] at h
      cases h
  | present node value frame hkey hpick hself hget hdecode heq =>
      rw [heq] at h
      cases h

omit [Single F D] in
theorem handlePayload_throws {Args : Type} {parse : List UInt8 → Option (Json D)}
    {read : Json D → Except Fault Args} {call : Args → Outcome}
    (h : (handlePayload parse raft read call msg).ending = .throws) :
    ∃ args, (call args).ending = .throws := by
  rcases handlePayload_cases parse raft read call msg with
    (heq | heq) | ⟨j, -, -, heq⟩ | ⟨j, args, -, -, heq⟩
  · rw [heq] at h
    cases h
  · rw [heq] at h
    cases h
  · rw [heq] at h
    cases h
  · rw [heq] at h
    exact ⟨args, h⟩

/-- Only a value that cannot be decoded makes a handler throw. -/
theorem handle_throws (h : (handle env F s raft msg).ending = .throws) :
    ∃ value, env.get (getSecondToken msg) = some value ∧ decode (F := F) env.parse value = none := by
  rw [handle] at h
  cases hcmd : command msg with
  | PING =>
      rw [hcmd] at h
      cases h
  | UNKNOWN =>
      rw [hcmd] at h
      cases h
  | GET =>
      rw [hcmd] at h
      exact handleGet_throws h
  | STORE =>
      rw [hcmd] at h
      dsimp only [Effect.outcome] at h
      split_ifs at h
  | RAFT_REQUEST_VOTE =>
      rw [hcmd] at h
      obtain ⟨args, hargs⟩ := handlePayload_throws h
      cases raft with
      | none => cases hargs
      | some n => cases hargs
  | RAFT_APPEND_ENTRIES =>
      rw [hcmd] at h
      obtain ⟨args, hargs⟩ := handlePayload_throws h
      cases raft with
      | none => cases hargs
      | some n =>
          rw [callAppendEntries] at hargs
          split at hargs
          · cases hargs
          · cases hargs

end Effects

end Server
end YoloServer
