import Mathlib.Data.List.Nodup
import YoloServer.Cluster.ShardRouter

/-!
# Routing as rendezvous hashing (`cluster/ShardRouter.cpp`)

A key belongs to the healthy node with the highest score.  As long as the scores of the
nodes differ, this says which node it is, so that the order of insertion plays no part
and other nodes may come and go.

* `pickNode_isBest` and `IsBest.unique`: the node that is picked, without the loop.
* `pickNode_consistent`: the node of a key is the same in every router that has it and
  only nodes of the first one; an insertion moves a key to the new node or not at all.
-/

namespace YoloServer
namespace Cluster
namespace ShardRouter

/-- Different nodes have different scores for the key. -/
def DistinctScores (hash : String → Nat) (key : String) (nodes : List NodeInfo) : Prop :=
  ∀ a ∈ nodes, ∀ b ∈ nodes, a.id ≠ b.id → score hash key a ≠ score hash key b

/-- A healthy node of the highest score. -/
structure IsBest (hash : String → Nat) (key : String) (nodes : List NodeInfo) (node : NodeInfo) :
    Prop where
  mem : node ∈ nodes
  healthy : node.healthy = true
  score_le : ∀ n ∈ nodes, n.healthy = true → score hash key n ≤ score hash key node

variable {hash : String → Nat} {key : String} {r : ShardRouter} {node : NodeInfo}

theorem pickNode_isBest (h : r.pickNode hash key = some node) : IsBest hash key r.nodes node := by
  obtain ⟨before, after, heq, -, -⟩ := pickNode_spec h
  obtain ⟨hmem, hmax⟩ := pickNode_max h
  have hhealthy : node ∈ r.nodes.filter NodeInfo.healthy := by
    rw [heq]
    simp
  exact ⟨hmem, (List.mem_filter.mp hhealthy).2, hmax⟩

/-- There is only one best node. -/
theorem IsBest.unique {nodes : List NodeInfo} {a b : NodeInfo} (ha : IsBest hash key nodes a)
    (hb : IsBest hash key nodes b) (hids : (nodes.map NodeInfo.id).Nodup)
    (hscores : DistinctScores hash key nodes) : a = b := by
  have hscore : score hash key a = score hash key b :=
    Nat.le_antisymm (hb.score_le a ha.mem ha.healthy) (ha.score_le b hb.mem hb.healthy)
  have hid : a.id = b.id := by
    by_contra hne
    exact hscores a ha.mem b hb.mem hne hscore
  exact List.inj_on_of_nodup_map hids ha.mem hb.mem hid

/-- One more node at the end of the list is picked, or nothing changes. -/
theorem pickLoop_concat (best : Option NodeInfo) (nodes : List NodeInfo) (node : NodeInfo) :
    pickLoop hash key best (nodes ++ [node]) = pickLoop hash key best nodes ∨
      pickLoop hash key best (nodes ++ [node]) = some node := by
  induction nodes generalizing best with
  | nil =>
      rw [List.nil_append]
      unfold pickLoop
      split_ifs
      · exact Or.inl rfl
      · cases best with
        | none => exact Or.inr rfl
        | some b =>
            dsimp only
            split_ifs
            · exact Or.inr rfl
            · exact Or.inl rfl
  | cons n nodes ih =>
      rw [List.cons_append]
      unfold pickLoop
      split_ifs
      · exact ih best
      · cases best with
        | none => exact ih (some n)
        | some b =>
            dsimp only
            split_ifs
            · exact ih (some n)
            · exact ih (some b)

theorem insertNode_nodes_of_true (h : (r.insertNode node).2 = true) :
    (r.insertNode node).1.nodes = r.nodes ++ [node] := by
  unfold insertNode at h ⊢
  split_ifs at h ⊢
  rfl

/-- The node of a key does not depend on the other nodes.  A router with some of the
healthy nodes picks it whenever it has it, whatever the order; and an inserted node takes
the key or leaves it where it is. -/
theorem pickNode_consistent (hash : String → Nat) (key : String) (r : ShardRouter)
    (hids : (r.nodes.map NodeInfo.id).Nodup) (hscores : DistinctScores hash key r.nodes) :
    (∀ s : ShardRouter, (s.nodes.map NodeInfo.id).Nodup →
        (∀ n ∈ s.nodes, n.healthy = true → n ∈ r.nodes) →
        ∀ node ∈ s.nodes, r.pickNode hash key = some node → s.pickNode hash key = some node) ∧
      (∀ s : ShardRouter, s.nodes.Perm r.nodes → s.pickNode hash key = r.pickNode hash key) ∧
      ∀ node, (r.insertNode node).2 = true →
        (r.insertNode node).1.pickNode hash key = r.pickNode hash key ∨
          (r.insertNode node).1.pickNode hash key = some node := by
  have hsub : ∀ s : ShardRouter, (∀ n ∈ s.nodes, n.healthy = true → n ∈ r.nodes) →
      ∀ node ∈ s.nodes, r.pickNode hash key = some node → s.pickNode hash key = some node := by
    intro s hsub node hmem hpick
    have hbest := pickNode_isBest hpick
    obtain ⟨other, hother⟩ := pickNode_isSome hash key ⟨node, hmem, hbest.healthy⟩
    have hin := pickNode_isBest hother
    -- The pick of `s` is not below the best node of `r`, so it is the best node of `r`.
    have hbest' : IsBest hash key r.nodes other := by
      refine ⟨hsub other hin.mem hin.healthy, hin.healthy, ?_⟩
      intro n hn hhealthy
      exact (hbest.score_le n hn hhealthy).trans (hin.score_le node hmem hbest.healthy)
    rw [hother, hbest'.unique hbest hids hscores]
  refine ⟨fun s _ => hsub s, ?_, ?_⟩
  · intro s hperm
    cases hpick : r.pickNode hash key with
    | some node =>
        exact hsub s (fun n hn _ => hperm.subset hn) node
          (hperm.symm.subset (pickNode_isBest hpick).mem) hpick
    | none =>
        cases hs : s.pickNode hash key with
        | none => rfl
        | some node =>
            have hbest := pickNode_isBest hs
            obtain ⟨other, hother⟩ :=
              pickNode_isSome hash key ⟨node, hperm.subset hbest.mem, hbest.healthy⟩
            rw [hpick] at hother
            cases hother
  · intro node hinsert
    rw [pickNode, insertNode_nodes_of_true hinsert, pickNode]
    exact pickLoop_concat none r.nodes node

/-- Three nodes, one of them unhealthy, and a hash that tells them apart: without the
third node the second still has the key, in either order. -/
theorem pickNode_consistent_sample :
    let hash := fun s : String => s.length
    let a : NodeInfo := ⟨"n", "127.0.0.1", 9001, true⟩
    let b : NodeInfo := ⟨"n22", "127.0.0.1", 9002, true⟩
    let c : NodeInfo := ⟨"n4444", "127.0.0.1", 9003, false⟩
    (ShardRouter.mk [b, a]).pickNode hash "img" = some b ∧
      (ShardRouter.mk [c, b, a]).pickNode hash "img" =
        (ShardRouter.mk [a, b, c]).pickNode hash "img" ∧
      ((ShardRouter.mk [a, b, c]).insertNode ⟨"n7777777", "127.0.0.1", 9004, true⟩).2 = true := by
  intro hash a b c
  obtain ⟨hsub, hperm, -⟩ :=
    pickNode_consistent hash "img" ⟨[a, b, c]⟩ (by decide) (by unfold DistinctScores; decide)
  have hpick : (ShardRouter.mk [a, b, c]).pickNode hash "img" = some b := by decide
  refine ⟨hsub ⟨[b, a]⟩ (by decide) ?_ b (by simp) hpick, hperm ⟨[c, b, a]⟩ (by decide), by decide⟩
  intro n hn _
  rcases List.mem_cons.mp hn with rfl | hn
  · simp
  · simp [List.mem_singleton.mp hn]

end ShardRouter
end Cluster
end YoloServer
