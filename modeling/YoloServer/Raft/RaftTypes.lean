import Mathlib.Data.List.AList
import Mathlib.Tactic.Ring

/-!
# Types of the Raft layer (`raft/RaftTypes.h`)

The records exchanged by the Raft nodes and the fixed-width arithmetic they are
computed with.  Every `uint64_t` is a natural number; the three places of the
source in which such a number can wrap around (`m_currentTerm++`,
`m_logs.back().index + 1` and `nextIndex - 1`) go through `u64` and `sub64`.
Sizes and positions of `std::vector` are plain natural numbers.
-/

namespace YoloServer
namespace Raft

/-- The value of a sum stored in a `uint64_t`. -/
def u64 (n : Nat) : Nat :=
  n % 2 ^ 64

/-- `a - b` in a `uint64_t`. -/
def sub64 (a b : Nat) : Nat :=
  (a + 2 ^ 64 - b) % 2 ^ 64

theorem u64_of_lt {n : Nat} (h : n < 2 ^ 64) : u64 n = n :=
  Nat.mod_eq_of_lt h

theorem u64_le (n : Nat) : u64 n ≤ n :=
  Nat.mod_le n _

theorem sub64_le_of_le {a b : Nat} (h : b ≤ a) : sub64 a b ≤ a - b := by
  have hsum : a + 2 ^ 64 - b = (a - b) + 2 ^ 64 := by omega
  rw [sub64, hsum, Nat.add_mod_right]
  exact Nat.mod_le _ _

/-- `RaftState`: the role of a node. -/
inductive RaftState where
  | Follower
  | Candidate
  | Leader
  deriving DecidableEq, Repr

/-- `LogEntry`.  The field `index` is carried by the entry itself; the vector
`m_logs` is addressed by position. -/
structure LogEntry where
  term : Nat
  index : Nat
  key : String
  value : String
  deriving DecidableEq, Repr

/-- The entry pushed by the constructor, so that real entries start at 1. -/
def dummyEntry : LogEntry :=
  { term := 0, index := 0, key := "", value := "" }

structure RequestVoteArgs where
  term : Nat
  candidateId : String
  lastLogIndex : Nat
  lastLogTerm : Nat
  deriving DecidableEq, Repr

structure RequestVoteReply where
  term : Nat
  voteGranted : Bool
  deriving DecidableEq, Repr

structure AppendEntriesArgs where
  term : Nat
  leaderId : String
  prevLogIndex : Nat
  prevLogTerm : Nat
  entries : List LogEntry
  leaderCommit : Nat
  deriving DecidableEq, Repr

structure AppendEntriesReply where
  term : Nat
  success : Bool
  deriving DecidableEq, Repr

end Raft
end YoloServer
