import Mathlib.Logic.Function.Basic
import Mathlib.Tactic.Ring

/-!
# The pool of connections to the peers (`raft/RaftConnectionPool.cpp`)

Connections are file descriptors.  `isConnectionValid` looks at the socket and is
the parameter `valid`; the outcome of `createConnection` is the parameter
`created`, and `none` stands for -1.  The functions return, besides the new pool,
the descriptors they have closed.

Host and port are left out, since they are stored and never read.  The time of last
use is read by the cleanup thread only: whether a connection has been idle for longer
than `CONNECTION_TIMEOUT` is the parameter `expired`.  The loops over
`m_connectionPools` get the peers in the order of the iteration, which depends on the
hash table.
-/

namespace YoloServer
namespace Raft

open Function

/-- `RaftConnectionPool`: the queues of idle connections, and the peer each
descriptor was opened for. -/
structure RaftConnectionPool where
  connectionPools : String → List Nat
  fdToPeerMap : Nat → Option String

namespace RaftConnectionPool

/-- `RaftConnectionPool::MAX_CONNECTIONS_PER_PEER`. -/
def maxConnectionsPerPeer : Nat :=
  5

def empty : RaftConnectionPool where
  connectionPools _ := []
  fdToPeerMap _ := none

/-- What `getConnection` has done: `fd` is its result, and `fresh` says whether the
connection is a new one. -/
structure Handout where
  pool : RaftConnectionPool
  fd : Option Nat
  fresh : Bool
  closed : List Nat

/-- The second half of `getConnection`: open a new connection. -/
def openConnection (pool : RaftConnectionPool) (peerId : String) (created : Option Nat)
    (closed : List Nat) : Handout :=
  match created with
  | some fd =>
      { pool := { pool with fdToPeerMap := update pool.fdToPeerMap fd (some peerId) }
        fd := some fd
        fresh := true
        closed := closed }
  | none => { pool := pool, fd := none, fresh := false, closed := closed }

/-- `RaftConnectionPool::getConnection`. -/
def getConnection (pool : RaftConnectionPool) (valid : Nat → Bool) (peerId : String)
    (created : Option Nat) : Handout :=
  match pool.connectionPools peerId with
  | fd :: rest =>
      if valid fd then
        { pool := { pool with connectionPools := update pool.connectionPools peerId rest }
          fd := some fd
          fresh := false
          closed := [] }
      else
        openConnection
          { connectionPools := update pool.connectionPools peerId rest
            fdToPeerMap := update pool.fdToPeerMap fd none }
          peerId created [fd]
  | [] => openConnection pool peerId created []

/-- `RaftConnectionPool::releaseConnection`: the new pool and the descriptors that
were closed. -/
def releaseConnection (pool : RaftConnectionPool) (valid : Nat → Bool) (peerId : String)
    (fd : Nat) : RaftConnectionPool × List Nat :=
  if pool.fdToPeerMap fd ≠ some peerId then
    (pool, [fd])
  else if valid fd = false then
    ({ pool with fdToPeerMap := update pool.fdToPeerMap fd none }, [fd])
  else if (pool.connectionPools peerId).length < maxConnectionsPerPeer then
    ({ pool with
        connectionPools :=
          update pool.connectionPools peerId (pool.connectionPools peerId ++ [fd]) }, [])
  else
    ({ pool with fdToPeerMap := update pool.fdToPeerMap fd none }, [fd])

/-- `m_fdToPeerMap.erase(fd)` for each of the descriptors. -/
def eraseAll (map : Nat → Option String) (fds : List Nat) : Nat → Option String :=
  fun fd => if fd ∈ fds then none else map fd

/-- Replace the queue of a peer by the connections that are kept, and forget those
that are closed. -/
def dropFrom (pool : RaftConnectionPool) (peerId : String) (kept closed : List Nat) :
    RaftConnectionPool where
  connectionPools := update pool.connectionPools peerId kept
  fdToPeerMap := eraseAll pool.fdToPeerMap closed

/-- `RaftConnectionPool::closePeerConnections`. -/
def closePeerConnections (pool : RaftConnectionPool) (peerId : String) :
    RaftConnectionPool × List Nat :=
  (pool.dropFrom peerId [] (pool.connectionPools peerId), pool.connectionPools peerId)

/-- One iteration of the `for` loop of `cleanupLoop`. -/
def cleanupPeer (pool : RaftConnectionPool) (expired valid : Nat → Bool) (peerId : String) :
    RaftConnectionPool × List Nat :=
  let queue := pool.connectionPools peerId
  let closed := queue.filter fun fd => expired fd || !valid fd
  (pool.dropFrom peerId (queue.filter fun fd => !(expired fd || !valid fd)) closed, closed)

/-- One pass of `cleanupLoop`. -/
def cleanup (pool : RaftConnectionPool) (expired valid : Nat → Bool) :
    List String → RaftConnectionPool × List Nat
  | [] => (pool, [])
  | peerId :: rest =>
      let (pool', closed) := pool.cleanupPeer expired valid peerId
      let (pool'', closed') := pool'.cleanup expired valid rest
      (pool'', closed ++ closed')

/-- The critical section of `RaftConnectionPool::stop`: all idle connections are
closed and both maps cleared. -/
def stop (pool : RaftConnectionPool) (peers : List String) : RaftConnectionPool × List Nat :=
  (empty, peers.flatMap pool.connectionPools)

/-- A connection that `getConnection` hands out is new, or was the first idle one of
this peer and valid. -/
theorem getConnection_spec {pool : RaftConnectionPool} {valid : Nat → Bool} {peerId : String}
    {created : Option Nat} {fd : Nat}
    (h : (pool.getConnection valid peerId created).fd = some fd) :
    ((pool.getConnection valid peerId created).fresh = true ∧ created = some fd) ∨
      ((pool.getConnection valid peerId created).fresh = false ∧
        (pool.getConnection valid peerId created).closed = [] ∧ valid fd = true ∧
        (pool.connectionPools peerId).head? = some fd) := by
  unfold getConnection at h ⊢
  cases hqueue : pool.connectionPools peerId with
  | nil =>
      cases created with
      | none => simp [hqueue, openConnection] at h
      | some c => exact .inl (by simpa [hqueue, openConnection] using h)
  | cons front rest =>
      simp only [hqueue] at h ⊢
      by_cases hvalid : valid front = true
      · simp only [hvalid, if_true] at h ⊢
        cases h
        exact .inr ⟨trivial, trivial, hvalid, rfl⟩
      · simp only [hvalid] at h ⊢
        cases created with
        | none => simp [openConnection] at h
        | some c => exact .inl (by simpa [openConnection] using h)

end RaftConnectionPool
end Raft
end YoloServer
