import YoloServer.Lib.Quorum
import YoloServer.Raft.NodeSpec
import YoloServer.Server.Server

/-!
# Do the majorities of two servers meet?

Every server computes the majority of `startElection` from the peers that answered
its own probes at start-up.  Two servers with the same configuration can therefore
count majorities of different electorates.

* `collects_of_elected` ties the vote sets considered here to `startElection`.
* `quorums_intersect_iff` says exactly when any two majorities have a common voter.
* `quorums_disjoint_without_probes` is the case of two servers that start while the
  other one is down.
-/

namespace YoloServer
namespace Server

open Cluster Raft Lib

/-- A node has collected the votes `V` in `startElection`: its own, and at most one
from each of its peers, a majority altogether. -/
def Collects (n : RaftNode) (V : List String) : Prop :=
  ∃ granted, granted.Sublist n.peers ∧ V = n.nodeId :: granted ∧
    RaftNode.majority n.peers ≤ V.length

/-- The peers whose reply grants the vote. -/
def granting : List String → List (Option RequestVoteReply) → List String
  | [], _ => []
  | peer :: rest, replies =>
      match replies.head?.join with
      | some ⟨_, true⟩ => peer :: granting rest replies.tail
      | _ => granting rest replies.tail

theorem granting_sublist (peers : List String) (replies : List (Option RequestVoteReply)) :
    (granting peers replies).Sublist peers := by
  induction peers generalizing replies with
  | nil => exact List.Sublist.refl _
  | cons peer rest ih =>
      rw [granting]
      split
      · exact (ih _).cons_cons _
      · exact (ih _).cons _

/-- The loop of `startElection` ends as leader only with a majority. -/
theorem majority_of_electionRound {n : RaftNode} {votes : Nat} {peers : List String}
    {replies : List (Option RequestVoteReply)} (hstate : n.state ≠ .Leader)
    (h : (n.electionRound votes peers replies).state = .Leader) :
    RaftNode.majority n.peers ≤ votes + (granting peers replies).length := by
  induction peers generalizing votes replies with
  | nil =>
      rw [RaftNode.electionRound] at h
      rcases n.finishElection_spec votes with hsame | ⟨hmaj, -⟩
      · rw [hsame] at h
        exact absurd h hstate
      · exact hmaj
  | cons peer rest ih =>
      rw [RaftNode.electionRound] at h
      rw [granting]
      cases hreply : replies.head?.join with
      | none =>
          rw [hreply] at h
          exact ih h
      | some reply =>
          obtain ⟨term, voteGranted⟩ := reply
          rw [hreply, RaftNode.onVoteReply] at h
          cases voteGranted with
          | true =>
              have hrest := ih h
              rw [List.length_cons]
              omega
          | false =>
              simp only [Bool.false_eq_true, if_false] at h
              split_ifs at h
              · cases h
              · exact ih h

/-- A node that becomes leader has collected the votes of the peers that granted
theirs. -/
theorem collects_of_elected {n : RaftNode} {replies : List (Option RequestVoteReply)}
    (h : (n.startElection replies).state = .Leader) :
    Collects n (n.nodeId :: granting n.peers replies) := by
  have hcandidate : n.beginElection.state ≠ .Leader := RaftState.noConfusion
  have hmaj : RaftNode.majority n.peers ≤ 1 + (granting n.peers replies).length :=
    majority_of_electionRound (n := n.beginElection) hcandidate h
  refine ⟨_, granting_sublist _ _, rfl, ?_⟩
  show RaftNode.majority n.peers ≤ (granting n.peers replies).length + 1
  omega

/-- The electorate of a server: itself and the nodes it found healthy. -/
def electorate (selfId : String) (nodes : List NodeInfo) (checkNodeHealth : NodeInfo → Bool) :
    Finset String :=
  insert selfId ((nodes.filter checkNodeHealth).map NodeInfo.id).toFinset

theorem self_mem_electorate (selfId : String) (nodes : List NodeInfo)
    (checkNodeHealth : NodeInfo → Bool) : selfId ∈ electorate selfId nodes checkNodeHealth :=
  Finset.mem_insert_self _ _

/-- A majority of so many voters. -/
def majorityOf (voters : Nat) : Nat :=
  voters / 2 + 1

section Peers

variable (c : Config) (checkNodeHealth : NodeInfo → Bool)
  (hdistinct : ((configuredNodes c).map NodeInfo.id).Nodup)

include hdistinct

theorem nodup_voters :
    (c.getString "server.id" "" :: (new c checkNodeHealth).peerIds).Nodup := by
  rw [peerIds_new c checkNodeHealth hdistinct, List.nodup_cons]
  refine ⟨?_, hdistinct.sublist (List.filter_sublist.map _)⟩
  intro hmem
  obtain ⟨n, hn, hid⟩ := List.mem_map.mp hmem
  simp [hid] at hn

/-- The electorate consists of the server and its peers. -/
theorem electorate_eq :
    electorate (c.getString "server.id" "") (configuredNodes c) checkNodeHealth =
      (c.getString "server.id" "" :: (new c checkNodeHealth).peerIds).toFinset := by
  rw [peerIds_new c checkNodeHealth hdistinct]
  ext id
  simp only [electorate, Finset.mem_insert, List.mem_toFinset, List.mem_map, List.mem_filter,
    List.mem_cons, Bool.and_eq_true, decide_eq_true_eq]
  by_cases hself : id = c.getString "server.id" ""
  · simp [hself]
  · simp only [hself, false_or]
    constructor
    · rintro ⟨n, ⟨hn, hhealthy⟩, rfl⟩
      exact ⟨n, ⟨hn, hself, hhealthy⟩, rfl⟩
    · rintro ⟨n, ⟨hn, -, hhealthy⟩, rfl⟩
      exact ⟨n, ⟨hn, hhealthy⟩, rfl⟩

/-- The majority of `startElection` is a majority of the electorate. -/
theorem majority_eq :
    RaftNode.majority (new c checkNodeHealth).raftNode.peers =
      majorityOf (electorate (c.getString "server.id" "") (configuredNodes c)
        checkNodeHealth).card := by
  rw [electorate_eq c checkNodeHealth hdistinct,
    List.toFinset_card_of_nodup (nodup_voters c checkNodeHealth hdistinct)]
  rfl

/-- The vote sets that a server can collect, as sets. -/
theorem exists_collects_iff {P : Finset String → Prop} :
    (∃ V, Collects (new c checkNodeHealth).raftNode V ∧ P V.toFinset) ↔
      ∃ u, (u ⊆ electorate (c.getString "server.id" "") (configuredNodes c) checkNodeHealth ∧
        c.getString "server.id" "" ∈ u ∧
        majorityOf (electorate (c.getString "server.id" "") (configuredNodes c)
          checkNodeHealth).card ≤ u.card) ∧ P u := by
  have hnodup := nodup_voters c checkNodeHealth hdistinct
  have hmajority := majority_eq c checkNodeHealth hdistinct
  rw [← hmajority, electorate_eq c checkNodeHealth hdistinct]
  constructor
  · rintro ⟨V, ⟨granted, hsub, rfl, hmaj⟩, hP⟩
    have hvotes : (c.getString "server.id" "" :: granted).Sublist
        (c.getString "server.id" "" :: (new c checkNodeHealth).peerIds) := hsub.cons_cons _
    refine ⟨_, ⟨?_, ?_, ?_⟩, hP⟩
    · intro id hid
      exact List.mem_toFinset.mpr (hvotes.subset (List.mem_toFinset.mp hid))
    · exact List.mem_toFinset.mpr List.mem_cons_self
    · have hcard := List.toFinset_card_of_nodup (hnodup.sublist hvotes)
      exact hmaj.trans hcard.ge
  · rintro ⟨u, ⟨hu, hself, hmaj⟩, hP⟩
    -- The voters other than the server itself, in the order of its peers.
    let granted := (new c checkNodeHealth).peerIds.filter (· ∈ u)
    have hset : (c.getString "server.id" "" :: granted).toFinset = u := by
      ext id
      simp only [granted, List.mem_toFinset, List.mem_cons, List.mem_filter, decide_eq_true_eq]
      constructor
      · rintro (rfl | ⟨-, hid⟩)
        · exact hself
        · exact hid
      · intro hid
        rcases List.mem_cons.mp (List.mem_toFinset.mp (hu hid)) with rfl | hpeer
        · exact .inl rfl
        · exact .inr ⟨hpeer, hid⟩
    have hvotes : (c.getString "server.id" "" :: granted).Sublist
        (c.getString "server.id" "" :: (new c checkNodeHealth).peerIds) :=
      List.filter_sublist.cons_cons _
    have hcard := List.toFinset_card_of_nodup (hnodup.sublist hvotes)
    rw [hset] at hcard
    exact ⟨c.getString "server.id" "" :: granted,
      ⟨granted, List.filter_sublist, rfl, hcard ▸ hmaj⟩, hset.symm ▸ hP⟩

end Peers

/-- The condition under which the majorities of two servers always meet. -/
def QuorumsMeet (a b : String) (s t : Finset String) : Prop :=
  a = b ∨ (s ∪ t).card < majorityOf s.card + majorityOf t.card ∨ s = {a, b} ∨ t = {a, b}

instance (a b : String) (s t : Finset String) : Decidable (QuorumsMeet a b s t) :=
  inferInstanceAs (Decidable (_ ∨ _ ∨ _ ∨ _))

/-- A server without enough other voters has the other server as its only peer. -/
theorem card_others_iff {s : Finset String} {a b : String} (ha : a ∈ s) (hne : a ≠ b) :
    majorityOf s.card ≤ (s \ {a, b}).card + 1 ↔ s ≠ {a, b} := by
  have hpair : ({a, b} : Finset String).card = 2 := Finset.card_pair hne
  -- The other server takes a voter away only if it is one.
  by_cases hb : b ∈ s
  · have hsub : ({a, b} : Finset String) ⊆ s := by
      intro x hx
      rcases Finset.mem_insert.mp hx with rfl | hx
      · exact ha
      · exact Finset.mem_singleton.mp hx ▸ hb
    have hcard : (s \ {a, b}).card = s.card - 2 := by
      rw [Finset.card_sdiff_of_subset hsub, hpair]
    have hle := Finset.card_le_card hsub
    rw [hcard, majorityOf]
    constructor
    · rintro hmaj rfl
      rw [hpair] at hmaj
      omega
    · intro hother
      have hlt : ({a, b} : Finset String).card < s.card :=
        Finset.card_lt_card (Finset.ssubset_iff_subset_ne.mpr ⟨hsub, hother.symm⟩)
      omega
  · have hsdiff : s \ {a, b} = s.erase a := by
      ext x
      simp only [Finset.mem_sdiff, Finset.mem_insert, Finset.mem_singleton, Finset.mem_erase,
        not_or]
      constructor
      · rintro ⟨hx, hxa, -⟩
        exact ⟨hxa, hx⟩
      · rintro ⟨hxa, hx⟩
        exact ⟨hx, hxa, fun h => hb (h ▸ hx)⟩
    have hpos : 0 < s.card := Finset.card_pos.mpr ⟨a, ha⟩
    rw [hsdiff, Finset.card_erase_of_mem ha, majorityOf]
    refine ⟨fun _ h => ?_, fun _ => by omega⟩
    rw [h] at hb
    simp at hb

/-- The condition fails exactly if there are disjoint majorities. -/
theorem not_quorumsMeet_iff {a b : String} {s t : Finset String} (ha : a ∈ s) (hb : b ∈ t) :
    ¬ QuorumsMeet a b s t ↔
      ∃ u v : Finset String, (u ⊆ s ∧ a ∈ u ∧ majorityOf s.card ≤ u.card) ∧
        (v ⊆ t ∧ b ∈ v ∧ majorityOf t.card ≤ v.card) ∧ Disjoint u v := by
  have hs : 1 ≤ majorityOf s.card := Nat.le_add_left 1 _
  have ht : 1 ≤ majorityOf t.card := Nat.le_add_left 1 _
  rw [exists_disjoint_quorums_iff ha hb hs ht]
  simp only [QuorumsMeet, not_or, not_lt]
  constructor
  · rintro ⟨hne, hunion, hs, ht⟩
    refine ⟨hne, (card_others_iff ha hne).mpr hs, ?_, hunion⟩
    rw [Finset.pair_comm] at ht ⊢
    exact (card_others_iff hb (Ne.symm hne)).mpr ht
  · rintro ⟨hne, hs, ht, hunion⟩
    refine ⟨hne, hunion, (card_others_iff ha hne).mp hs, ?_⟩
    rw [Finset.pair_comm] at ht ⊢
    exact (card_others_iff hb (Ne.symm hne)).mp ht

/-- Two servers collect disjoint majorities exactly if their electorates have
disjoint majorities. -/
theorem exists_disjoint_collects_iff (c₁ c₂ : Config) (check₁ check₂ : NodeInfo → Bool)
    (h₁ : ((configuredNodes c₁).map NodeInfo.id).Nodup)
    (h₂ : ((configuredNodes c₂).map NodeInfo.id).Nodup) :
    (∃ V₁, Collects (new c₁ check₁).raftNode V₁ ∧
        ∃ V₂, Collects (new c₂ check₂).raftNode V₂ ∧ Disjoint V₁.toFinset V₂.toFinset) ↔
      ¬ QuorumsMeet (c₁.getString "server.id" "") (c₂.getString "server.id" "")
        (electorate (c₁.getString "server.id" "") (configuredNodes c₁) check₁)
        (electorate (c₂.getString "server.id" "") (configuredNodes c₂) check₂) := by
  rw [not_quorumsMeet_iff (self_mem_electorate _ _ _) (self_mem_electorate _ _ _),
    exists_collects_iff c₁ check₁ h₁
      (P := fun u => ∃ V₂, Collects (new c₂ check₂).raftNode V₂ ∧ Disjoint u V₂.toFinset)]
  constructor
  · rintro ⟨u, hu, hdisjoint⟩
    obtain ⟨v, hv, hdisj⟩ := (exists_collects_iff c₂ check₂ h₂).mp hdisjoint
    exact ⟨u, v, hu, hv, hdisj⟩
  · rintro ⟨u, v, hu, hv, hdisj⟩
    exact ⟨u, hu, (exists_collects_iff c₂ check₂ h₂).mpr ⟨v, hv, hdisj⟩⟩

/-- **Quorum intersection.**  Two servers whose configurations list the same nodes,
whatever their probes found: every majority of the one shares a voter with every
majority of the other exactly if `QuorumsMeet` holds of their electorates. -/
theorem quorums_intersect_iff (c₁ c₂ : Config) (nodes : List NodeInfo)
    (check₁ check₂ : NodeInfo → Bool) (h₁ : configuredNodes c₁ = nodes)
    (h₂ : configuredNodes c₂ = nodes) (hdistinct : (nodes.map NodeInfo.id).Nodup) :
    (∀ V₁ V₂, Collects (new c₁ check₁).raftNode V₁ → Collects (new c₂ check₂).raftNode V₂ →
        ∃ v, v ∈ V₁ ∧ v ∈ V₂) ↔
      QuorumsMeet (c₁.getString "server.id" "") (c₂.getString "server.id" "")
        (electorate (c₁.getString "server.id" "") nodes check₁)
        (electorate (c₂.getString "server.id" "") nodes check₂) := by
  have hiff := exists_disjoint_collects_iff c₁ c₂ check₁ check₂ (h₁ ▸ hdistinct) (h₂ ▸ hdistinct)
  rw [h₁, h₂] at hiff
  constructor
  · intro hmeet
    by_contra hnot
    obtain ⟨V₁, hV₁, V₂, hV₂, hdisj⟩ := hiff.mpr hnot
    obtain ⟨v, hv₁, hv₂⟩ := hmeet V₁ V₂ hV₁ hV₂
    exact Finset.disjoint_left.mp hdisj (List.mem_toFinset.mpr hv₁) (List.mem_toFinset.mpr hv₂)
  · intro hquorums V₁ V₂ hV₁ hV₂
    by_contra hnone
    push Not at hnone
    refine hiff.mp ⟨V₁, hV₁, V₂, hV₂, Finset.disjoint_left.mpr fun v hv₁ hv₂ => ?_⟩ hquorums
    exact hnone v (List.mem_toFinset.mp hv₁) (List.mem_toFinset.mp hv₂)

/-- If all probes of both servers succeed, their majorities meet. -/
theorem quorumsMeet_of_healthy (nodes : List NodeInfo) {a b : String}
    (ha : a ∈ nodes.map NodeInfo.id) (hb : b ∈ nodes.map NodeInfo.id) :
    QuorumsMeet a b (electorate a nodes fun _ => true) (electorate b nodes fun _ => true) := by
  have hall : ∀ x ∈ nodes.map NodeInfo.id,
      electorate x nodes (fun _ => true) = (nodes.map NodeInfo.id).toFinset := by
    intro x hx
    rw [electorate, List.filter_true, Finset.insert_eq_self]
    exact List.mem_toFinset.mpr hx
  refine .inr (.inl ?_)
  rw [hall a ha, hall b hb, Finset.union_self, majorityOf]
  omega

/-- The configuration of a server in a cluster of nodes on one host. -/
def sampleConfig (selfId : String) : Config :=
  .ofPairs [("server.id", selfId), ("nodes.count", "3"),
    ("node1.id", "n1"), ("node1.host", "127.0.0.1"), ("node1.port", "8080"),
    ("node2.id", "n2"), ("node2.host", "127.0.0.1"), ("node2.port", "8081"),
    ("node3.id", "n3"), ("node3.host", "127.0.0.1"), ("node3.port", "8082")]

/-- The probes of a server that reaches the given nodes only. -/
def reaches (ids : List String) (node : NodeInfo) : Bool :=
  node.id ∈ ids

/-- Node `n1` reaches all nodes and `n3` reaches `n2` only; their majorities meet. -/
theorem quorums_meet_partial_view :
    Collects (new (sampleConfig "n1") (reaches ["n1", "n2", "n3"])).raftNode ["n1", "n2"] ∧
      Collects (new (sampleConfig "n3") (reaches ["n2"])).raftNode ["n3", "n2"] ∧
      ∃ v, v ∈ ["n1", "n2"] ∧ v ∈ ["n3", "n2"] := by
  have h₁ : Collects (new (sampleConfig "n1") (reaches ["n1", "n2", "n3"])).raftNode
      ["n1", "n2"] := ⟨["n2"], by decide, by decide, by decide⟩
  have h₂ : Collects (new (sampleConfig "n3") (reaches ["n2"])).raftNode ["n3", "n2"] :=
    ⟨["n2"], by decide, by decide, by decide⟩
  have hmeet := quorums_intersect_iff (sampleConfig "n1") (sampleConfig "n3")
    [⟨"n1", "127.0.0.1", 8080, false⟩, ⟨"n2", "127.0.0.1", 8081, false⟩,
      ⟨"n3", "127.0.0.1", 8082, false⟩]
    (reaches ["n1", "n2", "n3"]) (reaches ["n2"]) (by decide) (by decide) (by decide)
  exact ⟨h₁, h₂, hmeet.mpr (by decide) _ _ h₁ h₂⟩

/-- Two servers of the same cluster that reach nobody elect themselves. -/
theorem quorums_disjoint_without_probes :
    ∃ V₁ V₂, Collects (new (sampleConfig "n1") (reaches [])).raftNode V₁ ∧
      Collects (new (sampleConfig "n2") (reaches [])).raftNode V₂ ∧ ¬ ∃ v, v ∈ V₁ ∧ v ∈ V₂ :=
  ⟨["n1"], ["n2"], ⟨[], by decide, by decide, by decide⟩, ⟨[], by decide, by decide, by decide⟩,
    by simp⟩

end Server
end YoloServer
