import YoloServer.Server.OneReply
import YoloServer.Server.Protocol

/-!
# The health probe (`checkNodeHealth` in `cluster/ShardRouter.cpp`)

The probe writes the four bytes `PING` to a server and expects the bytes `PONG`.  The
server frames its messages with a length, and takes the four bytes for one.

* `recvMessage_ping`: whatever part of the four bytes has arrived, it announces a message
  that is too long, and the server closes the connection.
* `not_accepts_pong`: the reply `PONG` of a server starts with a zero, and is an empty
  string to the probe.
* `checkNodeHealth_false`: so the probe of a live server never succeeds, and a server that
  starts while the others are live has no peers (`peerIds_of_live_nodes`).
-/

namespace YoloServer
namespace Server

open Cluster Raft Json Protocol

/-! ## The server's side -/

/-- The loop of `Connection::handle`: the bytes that are written in up to `count`
iterations, of which this is number `i`.  `peer i` is what the handler finds then, and
`rooms i` the room that its calls of `send` find. -/
def handleLoop {D : Type} [Double D] (F : Type) [Single F D] (peer : Nat → Call D)
    (rooms : Nat → Nat × Nat) : Nat → Nat → Stream → List UInt8 → List UInt8
  | 0, _, _, _ => []
  | count + 1, i, stream, out =>
      match recvMessage stream out with
      | (false, _, _) => []
      | (true, msg, stream') =>
          let o := Call.outcome F { peer i with msg := msg }
          o.replies.flatMap (fun text => (sendMessage text (rooms i).1 (rooms i).2).1) ++
            if o.ending = .returns then handleLoop F peer rooms count (i + 1) stream' msg else []

/-! ## The probe -/

/-- How the calls of a probe end. -/
structure Probe where
  /-- there is a socket, the address is valid and `connect` succeeds -/
  connected : Bool
  /-- the number of bytes that `send` has written, or an error -/
  sent : Option Nat
  /-- the number of bytes that have arrived when `recv` returns, 0 after the time-out or
  at the end of the stream -/
  arrived : Nat

/-- `std::string response(buffer)`: the bytes before the first zero. -/
def cString (buffer : List UInt8) : List UInt8 :=
  buffer.takeWhile (· ≠ 0)

/-- What `recv` leaves in `char buffer[16] = {0}`. -/
def probeBuffer (received : List UInt8) : List UInt8 :=
  received ++ List.replicate (16 - received.length) 0

/-- The check of the response. -/
def accepts (received : List UInt8) : Bool :=
  received ≠ [] && cString (probeBuffer received) = utf8 "PONG"

/-- The bytes that the probe writes. -/
def Probe.request (p : Probe) : List UInt8 :=
  if p.connected then (utf8 "PING").take (p.sent.getD 0) else []

/-- `checkNodeHealth`, given what the node writes. -/
def checkNodeHealth (p : Probe) (answer : List UInt8) : Bool :=
  p.connected && p.sent.isSome && accepts (answer.take (min p.arrived 16))

/-! ## Both together -/

/-- A header of one to four bytes of `PING` announces too long a message. -/
theorem announced_ping {n : Nat} (hpos : 0 < n) (hn : n ≤ 4) :
    maxMessageSize < announced ((utf8 "PING").take n) := by
  have hcases : n = 1 ∨ n = 2 ∨ n = 3 ∨ n = 4 := by omega
  rcases hcases with rfl | rfl | rfl | rfl
  · decide
  · decide
  · decide
  · decide

/-- The server does not read a message from the bytes of the probe. -/
theorem recvMessage_ping (sent : Nat) (arrivals : List Nat) (out : List UInt8) :
    (recvMessage ⟨(utf8 "PING").take sent, arrivals⟩ out).1 = false := by
  cases hresult : recvMessage ⟨(utf8 "PING").take sent, arrivals⟩ out with
  | mk ok rest =>
      cases ok with
      | false => rfl
      | true =>
          obtain ⟨header, s₁, -, hrecv, hne, ⟨-, hmax⟩, -⟩ := recvMessage_true hresult
          obtain ⟨hpart, hlength⟩ := recv_spec hrecv
          -- What was read is a beginning of the four bytes.
          have hheader : header = (utf8 "PING").take header.length :=
            List.prefix_iff_eq_take.mp (hpart.trans (List.take_prefix _ _))
          have hlong := announced_ping (List.length_pos_of_ne_nil hne) hlength
          rw [← hheader] at hlong
          omega

/-- The framed `PONG` starts with a zero byte. -/
theorem not_accepts_pong (n : Nat) : accepts ((frame (utf8 "PONG")).take n) = false := by
  cases n with
  | zero => rfl
  | succ n =>
      have hframe : frame (utf8 "PONG") = 0 :: (frame (utf8 "PONG")).tail := by decide
      rw [hframe, List.take_succ_cons, accepts, probeBuffer, List.cons_append, cString,
        List.takeWhile_cons]
      simp only [ne_eq, not_true_eq_false, decide_false, Bool.false_eq_true, if_false]
      rw [Bool.and_eq_false_imp]
      intro _
      decide

theorem handleLoop_ping {D F : Type} [Double D] [Single F D] (peer : Nat → Call D)
    (rooms : Nat → Nat × Nat) (count i sent : Nat) (arrivals : List Nat) (out : List UInt8) :
    handleLoop F peer rooms count i ⟨(utf8 "PING").take sent, arrivals⟩ out = [] := by
  cases count with
  | zero => rfl
  | succ count =>
      have hfalse := recvMessage_ping sent arrivals out
      rw [handleLoop]
      split
      · rfl
      · rename_i hresult
        rw [hresult] at hfalse
        cases hfalse

theorem request_eq_take (p : Probe) : ∃ sent, p.request = (utf8 "PING").take sent := by
  rw [Probe.request]
  split_ifs
  · exact ⟨_, rfl⟩
  · exact ⟨0, rfl⟩

/-- The probe of a live server gets no answer. -/
theorem checkNodeHealth_handleLoop {D F : Type} [Double D] [Single F D] (peer : Nat → Call D)
    (rooms : Nat → Nat × Nat) (arrivals : List Nat) (count : Nat) (p : Probe) :
    checkNodeHealth p (handleLoop F peer rooms count 0 ⟨p.request, arrivals⟩ []) = false := by
  obtain ⟨sent, hsent⟩ := request_eq_take p
  rw [hsent, handleLoop_ping, checkNodeHealth]
  simp [accepts]

/-- **The health probe does not speak the protocol of the server**: in every state of a
live server and under every delivery, the server reads no message from what the probe
writes, the probe does not accept the reply to a `PING`, and `checkNodeHealth` returns
false. -/
theorem checkNodeHealth_false {D F : Type} [Double D] [Single F D] (peer : Nat → Call D)
    (rooms : Nat → Nat × Nat) (arrivals : List Nat) (count : Nat) (p : Probe) :
    (∀ out msg s', recvMessage ⟨p.request, arrivals⟩ out ≠ (true, msg, s')) ∧
      accepts ((frame (utf8 "PONG")).take p.arrived) = false ∧
      checkNodeHealth p (handleLoop F peer rooms count 0 ⟨p.request, arrivals⟩ []) = false := by
  refine ⟨fun out msg s' h => ?_, not_accepts_pong p.arrived, checkNodeHealth_handleLoop ..⟩
  obtain ⟨sent, hsent⟩ := request_eq_take p
  have hfalse := recvMessage_ping sent arrivals out
  rw [← hsent, h] at hfalse
  cases hfalse

/-- A probe whose bytes all arrive at once, of a server that is idle. -/
theorem probe_of_idle_server_fails :
    checkNodeHealth ⟨true, some 4, 16⟩
      (handleLoop Halves (fun _ => loneCall []) (fun _ => (4, 4)) 8 0
        ⟨Probe.request ⟨true, some 4, 16⟩, []⟩ []) = false := by
  decide

/-- A server that starts while all others are live has no peers. -/
theorem peerIds_of_live_nodes {D F : Type} [Double D] [Single F D] (c : Config)
    (hdistinct : ((configuredNodes c).map NodeInfo.id).Nodup) (peer : NodeInfo → Nat → Call D)
    (rooms : NodeInfo → Nat → Nat × Nat) (arrivals : NodeInfo → List Nat) (count : Nat)
    (probe : NodeInfo → Probe) :
    (new c fun node => checkNodeHealth (probe node)
      (handleLoop F (peer node) (rooms node) count 0
        ⟨(probe node).request, arrivals node⟩ [])).peerIds = [] := by
  have hnone : ∀ node, checkNodeHealth (probe node)
      (handleLoop F (peer node) (rooms node) count 0
        ⟨(probe node).request, arrivals node⟩ []) = false := by
    intro node
    exact checkNodeHealth_handleLoop (peer node) (rooms node) (arrivals node) count (probe node)
  rw [peerIds_new c _ hdistinct]
  simp [hnone]

end Server
end YoloServer
