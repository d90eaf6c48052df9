import YoloServer.Cluster.ShardRouter
import YoloServer.Lib.Climb

/-!
# Forwarding from server to server

A request for a key goes on to the node that the router of the present server picks,
until a server picks itself.  Every server has a router of its own, and the tables
need not agree on anything.

* `climbs_forwards`: a server that forwards knows a node with a higher score than
  its own, so the score of the present server grows with every forward.
* `forwarding_never_loops`: a request visits no server twice and comes to an end.
-/

namespace YoloServer
namespace Cluster

open Lib Relation

/-- Any number of servers with their routers.  A router holds some of the servers in
any order, and at least its own server as a healthy one. -/
structure Fleet where
  ids : List String
  router : String → ShardRouter
  known : ∀ i ∈ ids, ∀ node ∈ (router i).nodes, node.id ∈ ids
  self_healthy : ∀ i ∈ ids, ∃ node ∈ (router i).nodes, node.id = i ∧ node.healthy = true

namespace Fleet

variable (f : Fleet) (hash : String → Nat) (key : String)

/-- Server `i` handles a request for the key itself. -/
def Owns (i : String) : Prop :=
  ∃ node, (f.router i).pickNode hash key = some node ∧ node.id = i

/-- Server `i` forwards a request for the key to server `j`. -/
def Forwards (i j : String) : Prop :=
  ∃ node, (f.router i).pickNode hash key = some node ∧ node.id = j ∧ j ≠ i

/-- The request for the key that comes in at `i` is handled by `j` in the end. -/
def EndsAt (i j : String) : Prop :=
  ReflTransGen (f.Forwards hash key) i j ∧ f.Owns hash key j

variable {f hash key}

/-- A server forwards to one other server at most. -/
theorem forwards_unique (i j k : String) (hj : f.Forwards hash key i j)
    (hk : f.Forwards hash key i k) : j = k := by
  obtain ⟨node, hnode, rfl, -⟩ := hj
  obtain ⟨node', hnode', rfl, -⟩ := hk
  rw [hnode] at hnode'
  cases hnode'
  rfl

theorem Owns.not_forwards {i : String} (h : f.Owns hash key i) (j : String) :
    ¬ f.Forwards hash key i j := by
  rintro ⟨node, hnode, rfl, hother⟩
  obtain ⟨node', hnode', hself⟩ := h
  rw [hnode] at hnode'
  cases hnode'
  exact hother hself

/-- A server that does not forward handles the request itself. -/
theorem owns_of_not_forwards {i : String} (hi : i ∈ f.ids)
    (h : ∀ j, ¬ f.Forwards hash key i j) : f.Owns hash key i := by
  obtain ⟨self, hself, -, hhealthy⟩ := f.self_healthy i hi
  obtain ⟨node, hnode⟩ := ShardRouter.pickNode_isSome hash key ⟨self, hself, hhealthy⟩
  refine ⟨node, hnode, ?_⟩
  by_contra hother
  exact h node.id ⟨node, hnode, rfl, hother⟩

theorem endsAt_unique {i j k : String} (hj : f.EndsAt hash key i j)
    (hk : f.EndsAt hash key i k) : j = k :=
  Climbs.end_unique forwards_unique hj.1 hj.2.not_forwards hk.1 hk.2.not_forwards

/-- Along an order that grows with every forward, every request ends. -/
theorem exists_endsAt {lt : String → String → Prop} [IsTrans String lt] [Std.Irrefl lt]
    (h : Climbs lt (f.Forwards hash key) f.ids) {i : String} (hi : i ∈ f.ids) :
    ∃ j ∈ f.ids, f.EndsAt hash key i j := by
  obtain ⟨j, hj, hreach, hend⟩ := h.exists_end hi
  exact ⟨j, hj, hreach, owns_of_not_forwards hj hend⟩

/-! ## Distinct scores -/

/-- The order of the scores of the servers. -/
def LowerScore (hash : String → Nat) (key : String) (i j : String) : Prop :=
  hash (key ++ "#" ++ i) < hash (key ++ "#" ++ j)

instance : IsTrans String (LowerScore hash key) :=
  ⟨fun _ _ _ => Nat.lt_trans⟩

instance : Std.Irrefl (LowerScore hash key) :=
  ⟨fun _ => Nat.lt_irrefl _⟩

theorem climbs_forwards
    (hscores : ∀ i ∈ f.ids, ∀ j ∈ f.ids, i ≠ j →
      hash (key ++ "#" ++ i) ≠ hash (key ++ "#" ++ j)) :
    Climbs (LowerScore hash key) (f.Forwards hash key) f.ids where
  mem := by
    rintro i j hi ⟨node, hnode, rfl, -⟩
    exact f.known i hi node (ShardRouter.pickNode_max hnode).1
  lt := by
    rintro i j hi ⟨node, hnode, rfl, hother⟩
    obtain ⟨self, hself, rfl, hhealthy⟩ := f.self_healthy i hi
    obtain ⟨hmem, hmax⟩ := ShardRouter.pickNode_max hnode
    -- The server is a candidate of its own router.
    have hle : hash (key ++ "#" ++ self.id) ≤ hash (key ++ "#" ++ node.id) :=
      hmax self hself hhealthy
    have hne := hscores self.id hi node.id (f.known self.id hi node hmem) (Ne.symm hother)
    show hash (key ++ "#" ++ self.id) < hash (key ++ "#" ++ node.id)
    omega

/-- **Forwarding never loops.**  If the scores of the servers for the key are
distinct, no chain of forwards comes back to a server, and one of them ends at a
server that handles the request itself. -/
theorem forwarding_never_loops (f : Fleet) (hash : String → Nat) (key : String)
    (hscores : ∀ i ∈ f.ids, ∀ j ∈ f.ids, i ≠ j →
      hash (key ++ "#" ++ i) ≠ hash (key ++ "#" ++ j))
    (start : String) (hstart : start ∈ f.ids) :
    (∀ path, (start :: path).IsChain (f.Forwards hash key) → (start :: path).Nodup) ∧
      ∃ path, (start :: path).IsChain (f.Forwards hash key) ∧
        ∃ last ∈ (start :: path).getLast?, f.Owns hash key last := by
  have hclimbs := climbs_forwards hscores
  refine ⟨fun path hchain => hclimbs.nodup hstart hchain, ?_⟩
  obtain ⟨last, -, hreach, howns⟩ := exists_endsAt hclimbs hstart
  obtain ⟨path, hchain, hlast⟩ := List.exists_isChain_cons_of_relationReflTransGen hreach
  refine ⟨path, hchain, last, ?_, howns⟩
  rw [Option.mem_def, List.getLast?_eq_some_getLast (List.cons_ne_nil start path), hlast]

/-- Three servers with different tables: `n1` does not know `n3`, and `n3` knows
nobody else. -/
def sampleFleet : Fleet where
  ids := ["n1", "n2", "n3"]
  router i :=
    if i = "n1" then ⟨[⟨"n1", "127.0.0.1", 8080, true⟩, ⟨"n2", "127.0.0.1", 8081, true⟩]⟩
    else if i = "n2" then
      ⟨[⟨"n3", "127.0.0.1", 8082, true⟩, ⟨"n2", "127.0.0.1", 8081, true⟩,
        ⟨"n1", "127.0.0.1", 8080, false⟩]⟩
    else ⟨[⟨"n3", "127.0.0.1", 8082, true⟩]⟩
  known := by decide
  self_healthy := by decide

/-- A request that comes in at `n1` goes on to `n2` and to `n3`, and ends there. -/
theorem forwarding_ends_at_n3 :
    ["n1", "n2", "n3"].Nodup ∧
      ∃ path, ("n1" :: path).IsChain
          (sampleFleet.Forwards (fun text => (text.toList.map Char.toNat).sum) "img_0001") ∧
        ∃ last ∈ ("n1" :: path).getLast?,
          sampleFleet.Owns (fun text => (text.toList.map Char.toNat).sum) "img_0001" last := by
  have h := forwarding_never_loops sampleFleet (fun text => (text.toList.map Char.toNat).sum)
    "img_0001" (by decide) "n1" (by decide)
  have hchain : ["n1", "n2", "n3"].IsChain
      (sampleFleet.Forwards (fun text => (text.toList.map Char.toNat).sum) "img_0001") := by
    rw [List.isChain_cons_cons, List.isChain_cons_cons]
    exact ⟨⟨⟨"n2", "127.0.0.1", 8081, true⟩, by decide, rfl, by decide⟩,
      ⟨⟨"n3", "127.0.0.1", 8082, true⟩, by decide, rfl, by decide⟩, List.isChain_singleton _⟩
  exact ⟨h.1 ["n2", "n3"] hchain, h.2⟩

end Fleet
end Cluster
end YoloServer
