import YoloServer.Cluster.Forwarding
import YoloServer.Server.StoreAcknowledged

/-!
# Do all servers agree where a key belongs?

The servers of a deployment share the list of nodes, and each of them keeps those
that answered its own probes at start-up.  A request is handled by the first server
on its way that picks itself, so two servers can handle the same key.

* `Below` is the order by which `pickNode` chooses: the higher score, and of equal
  scores the earlier place in the common list.
* `owns_iff`: a server handles a key itself if it has found nobody above it.
* `routing_agreement_iff`: all servers lead to the same one exactly if every server
  but the highest has found at least one above it.
-/

namespace YoloServer
namespace Server

open Cluster Lib Relation

/-- The order of the servers for a key: `j` is above `i`. -/
def Below (hash : String → Nat) (key : String) (ids : List String) (i j : String) : Prop :=
  hash (key ++ "#" ++ i) < hash (key ++ "#" ++ j) ∨
    (hash (key ++ "#" ++ i) = hash (key ++ "#" ++ j) ∧ ids.idxOf j < ids.idxOf i)

section Order

variable {hash : String → Nat} {key : String} {ids : List String}

instance (i j : String) : Decidable (Below hash key ids i j) :=
  inferInstanceAs (Decidable (_ ∨ _))

instance : IsTrans String (Below hash key ids) where
  trans i j k hij hjk := by
    simp only [Below] at hij hjk ⊢
    omega

instance : Std.Irrefl (Below hash key ids) where
  irrefl i h := by
    simp only [Below] at h
    omega

theorem Below.asymm {i j : String} (h : Below hash key ids i j) : ¬ Below hash key ids j i := by
  simp only [Below] at h ⊢
  omega

theorem below_or_below {i j : String} (hi : i ∈ ids) (hne : i ≠ j) :
    Below hash key ids i j ∨ Below hash key ids j i := by
  have hplace : ids.idxOf i ≠ ids.idxOf j := fun heq => hne ((List.idxOf_inj hi).mp heq)
  simp only [Below]
  omega

/-- The places in a list without repetitions grow. -/
theorem pairwise_idxOf (hnodup : ids.Nodup) :
    ids.Pairwise fun i j => ids.idxOf i < ids.idxOf j := by
  rw [List.pairwise_iff_getElem]
  intro a b ha hb hab
  rwa [hnodup.idxOf_getElem a ha, hnodup.idxOf_getElem b hb]

/-- Every other healthy node is below the one that is picked, if the table keeps the
order of the list. -/
theorem below_of_pickNode {r : ShardRouter} {node : NodeInfo} (hnodup : ids.Nodup)
    (horder : (r.nodes.map NodeInfo.id).Sublist ids)
    (hpick : r.pickNode hash key = some node) {n : NodeInfo} (hn : n ∈ r.nodes)
    (hhealthy : n.healthy = true) : n.id = node.id ∨ Below hash key ids n.id node.id := by
  obtain ⟨before, after, heq, hbefore, hafter⟩ := ShardRouter.pickNode_spec hpick
  have hplaces : ((before ++ node :: after).map NodeInfo.id).Pairwise
      fun i j => ids.idxOf i < ids.idxOf j := by
    rw [← heq]
    exact (pairwise_idxOf hnodup).sublist ((List.filter_sublist.map _).trans horder)
  have hmem : n ∈ before ++ node :: after := by
    rw [← heq, List.mem_filter]
    exact ⟨hn, hhealthy⟩
  rcases List.mem_append.mp hmem with hmem | hmem
  · exact .inr (.inl (hbefore n hmem))
  · rcases List.mem_cons.mp hmem with rfl | hmem
    · exact .inl rfl
    · -- A node after the picked one has at most its score and a later place.
      rw [List.map_append, List.map_cons, List.pairwise_append, List.pairwise_cons] at hplaces
      have hplace := hplaces.2.1.1 n.id (List.mem_map_of_mem hmem)
      have hscore : hash (key ++ "#" ++ n.id) ≤ hash (key ++ "#" ++ node.id) := hafter n hmem
      refine .inr ?_
      simp only [Below]
      omega

end Order

/-- Servers that share a list of nodes with distinct ids, each of them with a
configuration and probe results of its own. -/
structure Deployment where
  nodes : List NodeInfo
  config : String → Config
  checkNodeHealth : String → NodeInfo → Bool
  distinct : (nodes.map NodeInfo.id).Nodup
  shared : ∀ i ∈ nodes.map NodeInfo.id, configuredNodes (config i) = nodes
  named : ∀ i ∈ nodes.map NodeInfo.id, (config i).getString "server.id" "" = i

namespace Deployment

variable (d : Deployment)

def ids : List String :=
  d.nodes.map NodeInfo.id

/-- The server with the given id, after start-up. -/
def server (i : String) : Server :=
  new (d.config i) (d.checkNodeHealth i)

variable {d}

theorem router_nodes {i : String} (hi : i ∈ d.ids) :
    (d.server i).router.nodes =
      (d.nodes.filter fun n => i = n.id || d.checkNodeHealth i n).map fun n =>
        { n with healthy := true } := by
  have hdistinct : ((configuredNodes (d.config i)).map NodeInfo.id).Nodup := by
    rw [d.shared i hi]
    exact d.distinct
  rw [server, router_new _ _ hdistinct, d.shared i hi, d.named i hi]

/-- The table of a server: itself and the nodes that answered, all of them healthy. -/
theorem mem_router {i : String} (hi : i ∈ d.ids) {node : NodeInfo} :
    node ∈ (d.server i).router.nodes ↔
      ∃ n ∈ d.nodes, (n.id = i ∨ d.checkNodeHealth i n = true) ∧
        node = { n with healthy := true } := by
  rw [router_nodes hi, List.mem_map]
  constructor
  · rintro ⟨n, hn, rfl⟩
    simp only [List.mem_filter, Bool.or_eq_true, decide_eq_true_eq] at hn
    exact ⟨n, hn.1, hn.2.imp Eq.symm id, rfl⟩
  · rintro ⟨n, hn, hfound, rfl⟩
    refine ⟨n, ?_, rfl⟩
    simp only [List.mem_filter, Bool.or_eq_true, decide_eq_true_eq]
    exact ⟨hn, hfound.imp Eq.symm id⟩

theorem healthy_of_mem {i : String} (hi : i ∈ d.ids) {node : NodeInfo}
    (h : node ∈ (d.server i).router.nodes) : node.healthy = true := by
  obtain ⟨n, -, -, rfl⟩ := (mem_router hi).mp h
  rfl

theorem router_sublist {i : String} (hi : i ∈ d.ids) :
    ((d.server i).router.nodes.map NodeInfo.id).Sublist d.ids := by
  rw [router_nodes hi, List.map_map]
  exact List.filter_sublist.map _

variable (d) in
/-- The servers and their routers, for the results on forwarding. -/
def fleet : Fleet where
  ids := d.ids
  router i := (d.server i).router
  known := by
    intro i hi node hnode
    obtain ⟨n, hn, -, rfl⟩ := (mem_router hi).mp hnode
    show n.id ∈ d.ids
    exact List.mem_map_of_mem hn
  self_healthy := by
    intro i hi
    obtain ⟨n, hn, rfl⟩ := List.mem_map.mp hi
    exact ⟨_, (mem_router hi).mpr ⟨n, hn, .inl rfl, rfl⟩, rfl, rfl⟩

variable {hash : String → Nat} {key : String}

/-- The node that a server picks is above all others of its table. -/
theorem below_picked {i : String} (hi : i ∈ d.ids) {node n : NodeInfo}
    (hpick : (d.server i).router.pickNode hash key = some node)
    (hn : n ∈ (d.server i).router.nodes) :
    n.id = node.id ∨ Below hash key d.ids n.id node.id :=
  below_of_pickNode d.distinct (router_sublist hi) hpick hn (healthy_of_mem hi hn)

/-- Every forward goes to a server above the present one. -/
theorem climbs : Climbs (Below hash key d.ids) (d.fleet.Forwards hash key) d.ids where
  mem := by
    rintro i j hi ⟨node, hpick, rfl, -⟩
    exact d.fleet.known i hi node (ShardRouter.pickNode_max hpick).1
  lt := by
    rintro i j hi ⟨node, hpick, rfl, hother⟩
    obtain ⟨self, hself, rfl, -⟩ := d.fleet.self_healthy i hi
    exact (below_picked hi hpick hself).resolve_left (Ne.symm hother)

/-- A server handles a key itself exactly if it has found nobody above it. -/
theorem owns_iff {i : String} (hi : i ∈ d.ids) :
    d.fleet.Owns hash key i ↔
      ∀ n ∈ d.nodes, d.checkNodeHealth i n = true → ¬ Below hash key d.ids i n.id := by
  constructor
  · rintro ⟨node, hpick, rfl⟩ n hn hfound habove
    have hmem := (mem_router hi).mpr ⟨n, hn, .inr hfound, rfl⟩
    rcases below_picked hi hpick hmem with heq | hbelow
    · exact irrefl_of (Below hash key d.ids) node.id (heq ▸ habove)
    · exact hbelow.asymm habove
  · intro hnone
    apply Fleet.owns_of_not_forwards hi
    intro j hforward
    have habove := climbs.lt hi hforward
    obtain ⟨node, hpick, rfl, hother⟩ := hforward
    obtain ⟨n, hn, hfound, rfl⟩ := (mem_router hi).mp (ShardRouter.pickNode_max hpick).1
    exact hnone n hn (hfound.resolve_left hother) habove

variable (d) in
/-- Every server that has somebody above it has found somebody above it. -/
def KnowsAbove (hash : String → Nat) (key : String) : Prop :=
  ∀ i ∈ d.ids, (∃ j ∈ d.ids, Below hash key d.ids i j) →
    ∃ n ∈ d.nodes, d.checkNodeHealth i n = true ∧ Below hash key d.ids i n.id

/-- **Routing agreement.**  For every key, the requests that come in at any two
servers are handled by the same server in the end, exactly if every server that has
another one above it for this key has found such a one at start-up. -/
theorem routing_agreement_iff (d : Deployment) (hash : String → Nat) (key : String) :
    (∀ i ∈ d.ids, ∀ j ∈ d.ids, ∃ owner,
        d.fleet.EndsAt hash key i owner ∧ d.fleet.EndsAt hash key j owner) ↔
      d.KnowsAbove hash key := by
  constructor
  · intro hagree i hi habove
    by_contra hnone
    push Not at hnone
    -- A server that has found nobody above it and the highest one both pick themselves.
    obtain ⟨top, htop, hmax⟩ := Climbs.exists_top (Below hash key d.ids) hi
    have howns : d.fleet.EndsAt hash key i i := ⟨.refl, (owns_iff hi).mpr hnone⟩
    have htopOwns : d.fleet.EndsAt hash key top top :=
      ⟨.refl, (owns_iff htop).mpr fun n hn _ => hmax n.id (List.mem_map_of_mem hn)⟩
    obtain ⟨owner, hfrom, hfromTop⟩ := hagree i hi top htop
    have heq : i = top :=
      (Fleet.endsAt_unique howns hfrom).trans (Fleet.endsAt_unique hfromTop htopOwns)
    obtain ⟨j, hj, hbelow⟩ := habove
    exact hmax j hj (heq ▸ hbelow)
  · intro hknows i hi j hj
    obtain ⟨p, hp, hpends⟩ := Fleet.exists_endsAt (climbs) hi
    obtain ⟨q, hq, hqends⟩ := Fleet.exists_endsAt (climbs) hj
    -- Nobody is above a server at which a request ends, so there is one such server.
    have hhighest : ∀ k ∈ d.ids, d.fleet.Owns hash key k →
        ∀ l ∈ d.ids, ¬ Below hash key d.ids k l := by
      intro k hk howns l hl hbelow
      obtain ⟨n, hn, hfound, habove⟩ := hknows k hk ⟨l, hl, hbelow⟩
      exact (owns_iff hk).mp howns n hn hfound habove
    have heq : p = q := by
      by_contra hne
      rcases below_or_below hp hne with hlt | hlt
      · exact hhighest p hp hpends.2 q hq hlt
      · exact hhighest q hq hqends.2 p hp hlt
    exact ⟨p, hpends, heq ▸ hqends⟩

/-- The servers listen at the addresses of their nodes. -/
def ListensAt {D : Type} (net : Network D) (d : Deployment) : Prop :=
  ∀ node ∈ d.nodes, net.listening node.host node.port = some (d.server node.id)

theorem self_id {i : String} (hi : i ∈ d.ids) : (d.server i).self.id = i :=
  d.named i hi

/-- A request that ends at `j` is handled by the server `j` if all forwards go well. -/
theorem destination_of_endsAt {D : Type} {net : Network D} (hlisten : ListensAt net d)
    {i j : String} (hi : i ∈ d.ids) (h : d.fleet.EndsAt net.hash key i j) :
    ∃ hops, destination net key hops (d.server i) = some (d.server j) := by
  obtain ⟨hreach, howns⟩ := h
  induction hreach using ReflTransGen.head_induction_on with
  | refl =>
      obtain ⟨node, hpick, hself⟩ := howns
      refine ⟨[], (destination_eq_some_iff net).mpr ⟨node, hpick, .inl ⟨?_, rfl⟩⟩⟩
      rw [self_id hi, hself]
  | head hforward hrest ih =>
      obtain ⟨hops, hdest⟩ := ih (climbs.mem hi hforward)
      obtain ⟨node, hpick, rfl, hother⟩ := hforward
      obtain ⟨n, hn, -, rfl⟩ := (mem_router hi).mp (ShardRouter.pickNode_max hpick).1
      refine ⟨.exchange :: hops, (destination_eq_some_iff net).mpr
        ⟨_, hpick, .inr ⟨?_, hops, d.server n.id, rfl, hlisten n hn, hdest⟩⟩⟩
      rw [self_id hi]
      exact hother

/-- The two servers of the configuration files of the repository. -/
def pairConfig (selfId : String) : Config :=
  .ofPairs [("server.id", selfId), ("server.host", "127.0.0.1"), ("nodes.count", "2"),
    ("node1.id", "node1"), ("node1.host", "127.0.0.1"), ("node1.port", "8080"),
    ("node2.id", "node2"), ("node2.host", "127.0.0.1"), ("node2.port", "8081")]

/-- Both of them start while the other one does not answer. -/
def unprobedPair : Deployment where
  nodes := [⟨"node1", "127.0.0.1", 8080, false⟩, ⟨"node2", "127.0.0.1", 8081, false⟩]
  config := pairConfig
  checkNodeHealth _ _ := false
  distinct := by decide
  shared := by decide
  named := by decide

/-- Each of the two servers handles the key itself. -/
theorem servers_disagree :
    ¬ ∃ owner,
      unprobedPair.fleet.EndsAt (fun text => (text.toList.map Char.toNat).sum) "img_0001" "node1"
          owner ∧
        unprobedPair.fleet.EndsAt (fun text => (text.toList.map Char.toNat).sum) "img_0001" "node2"
          owner := by
  rintro ⟨owner, hfirst, hsecond⟩
  have howns₁ : unprobedPair.fleet.Owns (fun text => (text.toList.map Char.toNat).sum) "img_0001"
      "node1" := ⟨⟨"node1", "127.0.0.1", 8080, true⟩, by decide, rfl⟩
  have howns₂ : unprobedPair.fleet.Owns (fun text => (text.toList.map Char.toNat).sum) "img_0001"
      "node2" := ⟨⟨"node2", "127.0.0.1", 8081, true⟩, by decide, rfl⟩
  have heq₁ := Fleet.endsAt_unique hfirst ⟨.refl, howns₁⟩
  have heq₂ := Fleet.endsAt_unique hsecond ⟨.refl, howns₂⟩
  exact absurd (heq₁.symm.trans heq₂) (by decide)

end Deployment
end Server
end YoloServer
