import YoloServer.Common.ConfigFile
import YoloServer.Server.Server

/-!
# The router that a configuration leads to

The constructor of the server takes the number of nodes from the configuration and inserts
the nodes that are found healthy.  `pickNode` needs at least one of them.

* `nodeCount_of_neg`: a negative number becomes a huge one.
* `healthy_loadRouter_iff`: the router has a healthy node if an iteration found one.
* `usable_router_iff`: the configurations for which the constructor leaves a usable router.
-/

namespace YoloServer

namespace Config

theorem stoi_range {text : String} {n : Int} (h : stoi text = some n) :
    -2 ^ 31 ≤ n ∧ n < 2 ^ 31 := by
  rw [stoi, Option.ite_none_right_eq_some] at h
  obtain ⟨⟨-, hrange⟩, hvalue⟩ := h
  rwa [Option.some.inj hvalue] at hrange

/-- `getInt` returns an `int`. -/
theorem getInt_range (c : Config) (key : String) :
    -2 ^ 31 ≤ c.getInt key 0 ∧ c.getInt key 0 < 2 ^ 31 := by
  unfold getInt
  split
  · rename_i value _
    cases hstoi : stoi value with
    | none => decide
    | some n => exact stoi_range hstoi
  · decide

end Config

namespace Server

open Cluster

/-- The loop of the constructor, with the outcome of the probe in each iteration. -/
def loadRouter (c : Config) (probe : Nat → Bool) : ShardRouter :=
  (List.range (nodeCount c)).foldl
    (fun router i =>
      loadNode (c.getString "server.id" "") (fun _ => probe i) router (readNode c (i + 1)))
    ⟨[]⟩

/-- If the outcome depends on the node only, this is the router of `new`. -/
theorem router_new_eq (c : Config) (checkNodeHealth : NodeInfo → Bool) :
    (new c checkNodeHealth).router =
      loadRouter c fun i => checkNodeHealth (readNode c (i + 1)) := by
  rw [new, configuredNodes, List.foldl_map]
  rfl

/-- The router can be used after start-up, and start-up takes no more steps than there are
nodes. -/
structure Usable (c : Config) (probe : Nat → Bool) : Prop where
  iterations : (nodeCount c : Int) ≤ max 0 (c.getInt "nodes.count" 0)
  healthy : ∃ node ∈ (loadRouter c probe).nodes, node.healthy = true
  picks : ∀ hash key, ((loadRouter c probe).pickNode hash key).isSome

/-! ## The number of iterations -/

theorem nodeCount_of_nonneg {c : Config} (h : 0 ≤ c.getInt "nodes.count" 0) :
    (nodeCount c : Int) = c.getInt "nodes.count" 0 := by
  have hrange := c.getInt_range "nodes.count"
  rw [nodeCount]
  omega

/-- A negative number of nodes is taken modulo `2^64`. -/
theorem nodeCount_of_neg {c : Config} (h : c.getInt "nodes.count" 0 < 0) :
    (nodeCount c : Int) = c.getInt "nodes.count" 0 + 2 ^ 64 := by
  have hrange := c.getInt_range "nodes.count"
  rw [nodeCount]
  omega

theorem iterations_iff (c : Config) :
    (nodeCount c : Int) ≤ max 0 (c.getInt "nodes.count" 0) ↔ 0 ≤ c.getInt "nodes.count" 0 := by
  have hrange := c.getInt_range "nodes.count"
  constructor
  · intro hle
    by_contra hneg
    rw [nodeCount_of_neg (by omega)] at hle
    omega
  · intro hnonneg
    rw [nodeCount_of_nonneg hnonneg]
    omega

/-! ## The healthy nodes -/

section Loop

variable {selfId : String} {r : ShardRouter} {node : NodeInfo} {probe : NodeInfo → Bool}

/-- An iteration keeps the router free of unhealthy nodes. -/
theorem loadNode_healthy (h : ∀ n ∈ r.nodes, n.healthy = true) :
    ∀ n ∈ (loadNode selfId probe r node).nodes, n.healthy = true := by
  rw [loadNode]
  split_ifs with hhealthy
  · rw [ShardRouter.insertNode]
    split_ifs
    · exact h
    · intro n hn
      rcases List.mem_append.mp hn with hn | hn
      · exact h n hn
      · rw [List.mem_singleton.mp hn]
  · exact h

/-- After an iteration there is a node if there was one or the iteration found one. -/
theorem loadNode_ne_nil_iff :
    (loadNode selfId probe r node).nodes ≠ [] ↔
      r.nodes ≠ [] ∨ (selfId = node.id ∨ probe node = true) := by
  rw [loadNode]
  have hflag : (decide (selfId = node.id) || probe node) = true ↔
      (selfId = node.id ∨ probe node = true) := by
    simp
  split_ifs with hhealthy
  · refine iff_of_true ?_ (.inr (hflag.mp hhealthy))
    rw [ShardRouter.insertNode]
    split_ifs with hany
    · intro hnil
      rw [hnil] at hany
      cases hany
    · simp
  · rw [hflag] at hhealthy
    simp [hhealthy]

theorem foldl_loadNode_healthy {c : Config} {probe : Nat → Bool} (numbers : List Nat)
    (h : ∀ n ∈ r.nodes, n.healthy = true) :
    ∀ n ∈ (numbers.foldl (fun router i =>
      loadNode selfId (fun _ => probe i) router (readNode c (i + 1))) r).nodes, n.healthy = true := by
  induction numbers generalizing r with
  | nil => exact h
  | cons i rest ih => exact ih (loadNode_healthy h)

theorem foldl_loadNode_ne_nil_iff {c : Config} {probe : Nat → Bool} (numbers : List Nat) :
    (numbers.foldl (fun router i =>
        loadNode selfId (fun _ => probe i) router (readNode c (i + 1))) r).nodes ≠ [] ↔
      r.nodes ≠ [] ∨ ∃ i ∈ numbers, selfId = (readNode c (i + 1)).id ∨ probe i = true := by
  induction numbers generalizing r with
  | nil => simp
  | cons i rest ih =>
      rw [List.foldl_cons, ih, loadNode_ne_nil_iff]
      simp only [List.exists_mem_cons_iff, or_assoc]

end Loop

/-- An iteration has found a healthy node: the server itself, or one that answered. -/
def Found (c : Config) (probe : Nat → Bool) : Prop :=
  ∃ i < nodeCount c,
    c.getString "server.id" "" = c.getString ("node" ++ Nat.repr (i + 1) ++ ".id") "" ∨
      probe i = true

theorem healthy_loadRouter_iff (c : Config) (probe : Nat → Bool) :
    (∃ node ∈ (loadRouter c probe).nodes, node.healthy = true) ↔ Found c probe := by
  have hall : ∀ node ∈ (loadRouter c probe).nodes, node.healthy = true :=
    foldl_loadNode_healthy _ (by simp)
  have hne : (loadRouter c probe).nodes ≠ [] ↔ Found c probe := by
    rw [loadRouter, foldl_loadNode_ne_nil_iff, Found]
    simp [readNode]
  rw [← hne]
  constructor
  · rintro ⟨node, hnode, -⟩
    exact List.ne_nil_of_mem hnode
  · intro hnodes
    obtain ⟨node, hnode⟩ := List.exists_mem_of_ne_nil _ hnodes
    exact ⟨node, hnode, hall node hnode⟩

/-- **A configuration that was loaded leads to a usable router** exactly if `nodes.count` is
not negative and one of the nodes counted is the server itself or answers the probe. -/
theorem usable_router_iff (text : String) (probe : Nat → Bool) :
    (Config.empty.loadFromFile (some text)).2 = true ∧
      (Usable (Config.empty.loadFromFile (some text)).1 probe ↔
        0 ≤ (Config.empty.loadFromFile (some text)).1.getInt "nodes.count" 0 ∧
          Found (Config.empty.loadFromFile (some text)).1 probe) := by
  refine ⟨rfl, ?_⟩
  generalize (Config.empty.loadFromFile (some text)).1 = c
  constructor
  · intro husable
    exact ⟨(iterations_iff c).mp husable.iterations,
      (healthy_loadRouter_iff c probe).mp husable.healthy⟩
  · rintro ⟨hcount, hfound⟩
    have hhealthy := (healthy_loadRouter_iff c probe).mpr hfound
    refine ⟨(iterations_iff c).mpr hcount, hhealthy, ?_⟩
    intro hash key
    obtain ⟨node, hnode⟩ := ShardRouter.pickNode_isSome hash key hhealthy
    rw [hnode]
    rfl

/-- A negative number of nodes, though every probe would succeed, and one node that does
not answer: no key can be routed then. -/
theorem unusable_routers :
    (nodeCount (Config.empty.loadFromFile (some "nodes.count=-1")).1 = 2 ^ 64 - 1 ∧
        ¬ Usable (Config.empty.loadFromFile (some "nodes.count=-1")).1 fun _ => true) ∧
      ((loadRouter (Config.empty.loadFromFile
          (some "server.id=n1\nnodes.count=1\nnode1.id=n2")).1 fun _ => false).pickNode
            (fun _ => 0) "img_0001" = none ∧
        ¬ Usable (Config.empty.loadFromFile
          (some "server.id=n1\nnodes.count=1\nnode1.id=n2")).1 fun _ => false) := by
  refine ⟨⟨by decide, ?_⟩, by decide, ?_⟩
  · intro husable
    exact absurd husable.iterations (by decide)
  · intro husable
    exact absurd husable.healthy (by decide)

end Server
end YoloServer
