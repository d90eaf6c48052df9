import YoloServer.Server.HealthProbe
import YoloServer.Server.ShardedStore

/-!
# The servers as they start

`ShardedStore` is about servers that have found each other.  The probe by which they look for each
other does not speak the protocol of the server, so servers that probe each other find nobody.

* `keeps_of_unanswered`: a server that has found nobody keeps all keys.
* `live_servers_isolated`: what clients see of each server depends on the messages to this server
  alone, as if the others were not there, and its Raft node has no peers.

As in `ShardedStore`, the messages are those of clients.
-/

namespace YoloServer
namespace Server

open Cluster Function Json Lib

/-- Whatever a server of the deployment has probed at start-up was a server, in any state, or did
not accept the connection. -/
def ProbesServers (D : Type) [Double D] (F : Type) [Single F D] (d : Deployment) : Prop :=
  ∀ i ∈ d.ids, ∀ node ∈ d.nodes,
    ∃ (p : Probe) (peer : Nat → Call D) (rooms : Nat → Nat × Nat) (arrivals : List Nat) (count : Nat),
      d.checkNodeHealth i node =
        checkNodeHealth p (handleLoop F peer rooms count 0 ⟨p.request, arrivals⟩ [])

section Isolated

variable {D F : Type} [Double D] [Single F D] {d : Deployment} {i : String} {base : Env D}

theorem unanswered_of_probesServers (h : ProbesServers D F d) (hi : i ∈ d.ids) {node : NodeInfo}
    (hnode : node ∈ d.nodes) : d.checkNodeHealth i node = false := by
  obtain ⟨p, peer, rooms, arrivals, count, heq⟩ := h i hi node hnode
  rw [heq]
  exact checkNodeHealth_handleLoop peer rooms arrivals count p

omit [Double D] in
/-- A server that nobody has answered keeps all keys. -/
theorem keeps_of_unanswered (hi : i ∈ d.ids)
    (h : ∀ node ∈ d.nodes, d.checkNodeHealth i node = false) (key : List UInt8) :
    Keeps base (d.server i) key := by
  apply (keeps_iff_owns hi).mpr
  apply (Deployment.owns_iff hi).mpr
  intro node hnode hfound
  rw [h node hnode] at hfound
  cases hfound

theorem nextHop_of_keeps {s : Server} (h : ∀ key, Keeps base s key) (msg : List UInt8) :
    nextHop F base s msg = none := by
  cases hkey : routingKey F base msg with
  | none => exact nextHop_of_keyless hkey
  | some key => exact nextHop_eq_none hkey (h key)

/-- The Raft node of a server that nobody has answered has no peers. -/
theorem peerIds_of_unanswered (hi : i ∈ d.ids)
    (h : ∀ node ∈ d.nodes, d.checkNodeHealth i node = false) : (d.server i).peerIds = [] := by
  have hdistinct : ((configuredNodes (d.config i)).map NodeInfo.id).Nodup := by
    rw [d.shared i hi]
    exact d.distinct
  rw [Deployment.server, peerIds_new _ _ hdistinct, d.shared i hi, List.map_eq_nil_iff,
    List.filter_eq_nil_iff]
  intro node hnode
  simp [h node hnode]

end Isolated

/-- **Live servers are isolated.**  If the servers of a deployment have probed each other, or
nodes that were down, then in every history of messages that clients send to them the replies of
a server and its storage are those of the server alone with the messages that were sent to it, and
its Raft node has no peers. -/
theorem live_servers_isolated {D F : Type} [Double D] [Single F D] (base : Env D) (d : Deployment)
    (hprobes : ProbesServers D F d) (history : List (String × Arrival))
    (hhistory : ∀ request ∈ history, request.1 ∈ d.ids ∧ FromClient request.2.msg) (i : String)
    (hi : i ∈ d.ids) :
    let servers := process (serveRequest F base d) (fun _ => Store.empty) history
    let alone := process (serveAlone F base (d.server i)) Store.empty
      ((history.filter fun request => request.1 = i).map Prod.snd)
    (((history.zip servers.1).filter fun request => request.1.1 = i).map Prod.snd = alone.1) ∧
      servers.2 i = alone.2 ∧ (d.server i).raftNode.peers = [] := by
  have hlocal : ∀ (stores : String → Store) (j : String) (a : Arrival), j ∈ d.ids →
      serveRequest F base d stores (j, a) =
        ((serveAlone F base (d.server j) (stores j) a).1,
          update stores j (serveAlone F base (d.server j) (stores j) a).2) := by
    intro stores j a hj
    apply serveAt_of_nextHop_none
    apply nextHop_of_keeps
    exact keeps_of_unanswered hj fun _ => unanswered_of_probesServers hprobes hj
  obtain ⟨hreplies, hstore⟩ := process_component (serveRequest F base d)
    (fun j => serveAlone F base (d.server j)) hlocal (fun _ => Store.empty)
    (fun request hrequest => (hhistory request hrequest).1) i
  refine ⟨hreplies, hstore, ?_⟩
  exact peerIds_of_unanswered hi fun _ => unanswered_of_probesServers hprobes hi

/-- The two servers of the configuration files, each of which has probed the other one while it
was idle. -/
def idlePair : Deployment :=
  { Deployment.unprobedPair with
    checkNodeHealth := fun _ _ =>
      checkNodeHealth ⟨true, some 4, 16⟩
        (handleLoop Halves (fun _ => ⟨parsingEnv, loneServer, none, []⟩) (fun _ => (4, 4)) 8 0
          ⟨Probe.request ⟨true, some 4, 16⟩, []⟩ []) }

/-- An image that was stored through the first server is not found through the second one, which
sends what its memory holds. -/
theorem pair_store_not_found :
    let history :=
      [("node1", arrival looseMessage (0, 0)), ("node2", arrival (getMessage "img1") (7, 8))]
    let servers := process (serveRequest Halves parsingEnv idlePair) (fun _ => Store.empty) history
    ((history.zip servers.1).filter fun request => request.1.1 = "node2").map Prod.snd =
      [[getText Tenths (blankFrame Halves (7, 8))]] := by
  have hprobes : ProbesServers Tenths Halves idlePair :=
    fun _ _ _ _ => ⟨⟨true, some 4, 16⟩, fun _ => ⟨parsingEnv, loneServer, none, []⟩,
      fun _ => (4, 4), [], 8, rfl⟩
  have hhistory : ∀ request ∈
      [("node1", arrival looseMessage (0, 0)), ("node2", arrival (getMessage "img1") (7, 8))],
      request.1 ∈ idlePair.ids ∧ FromClient request.2.msg := by
    rw [List.forall_mem_cons, List.forall_mem_singleton]
    unfold FromClient
    decide +kernel
  have halone :=
    (live_servers_isolated parsingEnv idlePair hprobes _ hhistory "node2" (by decide)).1
  refine halone.trans ?_
  decide +kernel

end Server
end YoloServer
