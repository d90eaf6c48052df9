import YoloServer.Cluster.ShardRouter
import YoloServer.Common.Config
import YoloServer.Raft.RaftNode

/-!
# Starting a server (`server/Server.cpp`)

The constructor reads the nodes from the configuration, probes each of them but
itself, and inserts those that answered into the router.  `start` makes every
other node of the router a peer of the Raft node.  The outcome of the probe is the
parameter `checkNodeHealth`.
-/

namespace YoloServer

open Cluster Raft

/-- The part of `server::Server` that start-up determines. -/
structure Server where
  self : NodeInfo
  router : ShardRouter

namespace Server

/-- `nodes.count` as a `size_t`. -/
def nodeCount (c : Config) : Nat :=
  (c.getInt "nodes.count" 0 % 2 ^ 64).toNat

/-- The entry of the node with the given number, which starts at 1. -/
def readNode (c : Config) (number : Nat) : NodeInfo where
  id := c.getString ("node" ++ Nat.repr number ++ ".id") ""
  host := c.getString ("node" ++ Nat.repr number ++ ".host") ""
  port := c.getInt ("node" ++ Nat.repr number ++ ".port") 0
  healthy := false

/-- The nodes of the configuration, in the order of the loop. -/
def configuredNodes (c : Config) : List NodeInfo :=
  (List.range (nodeCount c)).map fun i => readNode c (i + 1)

/-- One iteration of the loop of the constructor. -/
def loadNode (selfId : String) (checkNodeHealth : NodeInfo → Bool) (router : ShardRouter)
    (node : NodeInfo) : ShardRouter :=
  let healthy := selfId = node.id || checkNodeHealth node
  if healthy then (router.insertNode { node with healthy := true }).1 else router

/-- `Server::Server`. -/
def new (c : Config) (checkNodeHealth : NodeInfo → Bool) : Server where
  self :=
    { id := c.getString "server.id" ""
      host := c.getString "server.host" ""
      port := c.getInt "server.port" 9000
      healthy := false }
  router :=
    (configuredNodes c).foldl (loadNode (c.getString "server.id" "") checkNodeHealth) ⟨[]⟩

/-- The peers that `Server::start` collects from the router. -/
def peerIds (s : Server) : List String :=
  (s.router.nodes.filter fun node => node.id ≠ s.self.id).map NodeInfo.id

/-- The Raft node that `Server::start` constructs. -/
def raftNode (s : Server) : RaftNode :=
  RaftNode.new s.self.id s.peerIds

/-! ## The router after start-up -/

/-- With distinct ids no insertion is refused, and the router holds the nodes that
were found healthy. -/
theorem router_nodes_of_distinct (selfId : String) (checkNodeHealth : NodeInfo → Bool)
    (nodes : List NodeInfo) (router : ShardRouter)
    (hdistinct : (router.nodes.map NodeInfo.id ++ nodes.map NodeInfo.id).Nodup) :
    (nodes.foldl (loadNode selfId checkNodeHealth) router).nodes =
      router.nodes ++ (nodes.filter fun n => selfId = n.id || checkNodeHealth n).map fun n =>
        { n with healthy := true } := by
  induction nodes generalizing router with
  | nil => simp
  | cons node rest ih =>
      rw [List.foldl_cons]
      by_cases hhealthy : (selfId = node.id || checkNodeHealth node) = true
      · have hnew : node.id ∉ router.nodes.map NodeInfo.id := by
          intro hmem
          exact (List.disjoint_of_nodup_append hdistinct) hmem (by simp)
        have hload : (loadNode selfId checkNodeHealth router node).nodes =
            router.nodes ++ [{ node with healthy := true }] := by
          rw [loadNode, if_pos hhealthy, ShardRouter.insertNode_nodes (by simpa using hnew)]
        rw [ih _ (by rw [hload]; simpa using hdistinct), hload]
        simp [hhealthy]
      · have hload : loadNode selfId checkNodeHealth router node = router := by
          rw [loadNode, if_neg hhealthy]
        have hrest : (router.nodes.map NodeInfo.id ++ rest.map NodeInfo.id).Nodup := by
          refine hdistinct.sublist ?_
          rw [List.map_cons]
          exact (List.sublist_cons_self _ _).append_left _
        rw [hload, ih router hrest]
        simp [hhealthy]

/-- The router of a server that has started. -/
theorem router_new (c : Config) (checkNodeHealth : NodeInfo → Bool)
    (hdistinct : ((configuredNodes c).map NodeInfo.id).Nodup) :
    (new c checkNodeHealth).router.nodes =
      ((configuredNodes c).filter fun n =>
        c.getString "server.id" "" = n.id || checkNodeHealth n).map fun n =>
          { n with healthy := true } := by
  rw [new, router_nodes_of_distinct _ _ _ _ (by simpa using hdistinct), List.nil_append]

/-- The peers of a server: the other nodes that it found healthy. -/
theorem peerIds_new (c : Config) (checkNodeHealth : NodeInfo → Bool)
    (hdistinct : ((configuredNodes c).map NodeInfo.id).Nodup) :
    (new c checkNodeHealth).peerIds =
      ((configuredNodes c).filter fun n =>
        n.id ≠ c.getString "server.id" "" && checkNodeHealth n).map NodeInfo.id := by
  have hids : (new c checkNodeHealth).router.nodes.map NodeInfo.id =
      ((configuredNodes c).filter fun n =>
        c.getString "server.id" "" = n.id || checkNodeHealth n).map NodeInfo.id := by
    rw [router_new c checkNodeHealth hdistinct, List.map_map]
    rfl
  have hfilter : (new c checkNodeHealth).peerIds =
      ((new c checkNodeHealth).router.nodes.map NodeInfo.id).filter fun id =>
        id ≠ c.getString "server.id" "" := by
    rw [List.filter_map]
    rfl
  rw [hfilter, hids, List.filter_map, List.filter_filter]
  congr 1
  refine List.filter_congr fun n _ => ?_
  by_cases hself : n.id = c.getString "server.id" ""
  · simp [hself]
  · simp [hself, Ne.symm hself]

end Server
end YoloServer
