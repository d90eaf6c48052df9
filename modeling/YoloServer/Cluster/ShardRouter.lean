import Mathlib.Data.List.Basic
import Mathlib.Tactic.Ring

/-!
# The router (`cluster/ShardRouter.cpp`)

The nodes a server knows, in the order in which they were inserted, and the node
that a key belongs to.  `std::hash<std::string>` is a parameter.
-/

namespace YoloServer
namespace Cluster

/-- `cluster::NodeInfo`. -/
structure NodeInfo where
  id : String
  host : String
  port : Int
  healthy : Bool
  deriving DecidableEq, Repr

/-- `cluster::ShardRouter`. -/
structure ShardRouter where
  nodes : List NodeInfo

namespace ShardRouter

/-- `ShardRouter::insertNode`. -/
def insertNode (r : ShardRouter) (node : NodeInfo) : ShardRouter × Bool :=
  if r.nodes.any fun n => n.id = node.id then (r, false) else (⟨r.nodes ++ [node]⟩, true)

/-- The score of a node for a key. -/
def score (hash : String → Nat) (key : String) (node : NodeInfo) : Nat :=
  hash (key ++ "#" ++ node.id)

/-- The loop of `pickNode`: the best node so far. -/
def pickLoop (hash : String → Nat) (key : String) (best : Option NodeInfo) :
    List NodeInfo → Option NodeInfo
  | [] => best
  | node :: rest =>
      if node.healthy = false then
        pickLoop hash key best rest
      else
        match best with
        | none => pickLoop hash key (some node) rest
        | some b =>
            if score hash key b < score hash key node then
              pickLoop hash key (some node) rest
            else
              pickLoop hash key best rest

/-- `ShardRouter::pickNode`; `none` where the source dereferences a null pointer. -/
def pickNode (r : ShardRouter) (hash : String → Nat) (key : String) : Option NodeInfo :=
  pickLoop hash key none r.nodes

theorem insertNode_nodes {r : ShardRouter} {node : NodeInfo}
    (h : node.id ∉ r.nodes.map NodeInfo.id) :
    (r.insertNode node).1.nodes = r.nodes ++ [node] := by
  have hnone : (r.nodes.any fun n => n.id = node.id) = false := by
    rw [List.any_eq_false]
    intro n hn
    simp only [decide_eq_true_eq]
    intro hid
    exact h (hid ▸ List.mem_map_of_mem hn)
  simp [insertNode, hnone]

/-! ## The node that is picked -/

/-- A node that is above all before it, and not below those after it, has the highest
score. -/
theorem score_le_of_split {hash : String → Nat} {key : String} {node : NodeInfo}
    {before after : List NodeInfo} (hbefore : ∀ n ∈ before, score hash key n < score hash key node)
    (hafter : ∀ n ∈ after, score hash key n ≤ score hash key node) :
    ∀ n ∈ before ++ node :: after, score hash key n ≤ score hash key node := by
  intro n hn
  rcases List.mem_append.mp hn with hn | hn
  · exact Nat.le_of_lt (hbefore n hn)
  · rcases List.mem_cons.mp hn with rfl | hn
    · exact Nat.le_refl _
    · exact hafter n hn

/-- The loop finds the first of the best nodes: all candidates before it have a lower
score, and none after it has a higher one. -/
theorem pickLoop_spec {hash : String → Nat} {key : String} {best : Option NodeInfo}
    {nodes : List NodeInfo} {node : NodeInfo} (h : pickLoop hash key best nodes = some node) :
    ∃ before after, best.toList ++ nodes.filter NodeInfo.healthy = before ++ node :: after ∧
      (∀ n ∈ before, score hash key n < score hash key node) ∧
      ∀ n ∈ after, score hash key n ≤ score hash key node := by
  induction nodes generalizing best with
  | nil =>
      rw [pickLoop] at h
      exact ⟨[], [], by simp [h], by simp, by simp⟩
  | cons n rest ih =>
      unfold pickLoop at h
      cases hhealthy : n.healthy with
      | false =>
          rw [if_pos hhealthy] at h
          simpa [List.filter_cons, hhealthy] using ih h
      | true =>
          rw [if_neg (by simp [hhealthy])] at h
          simp only [List.filter_cons, hhealthy, if_true]
          cases best with
          | none => exact ih h
          | some b =>
              dsimp only at h
              split_ifs at h with hbetter
              · obtain ⟨before, after, heq, hbefore, hafter⟩ := ih h
                simp only [Option.toList_some, List.singleton_append] at heq ⊢
                refine ⟨b :: before, after, by rw [heq, List.cons_append], ?_, hafter⟩
                -- The new candidate is not above the node that is found.
                have hn : score hash key n ≤ score hash key node :=
                  score_le_of_split hbefore hafter n (heq ▸ List.mem_cons_self)
                intro m hm
                rcases List.mem_cons.mp hm with rfl | hm
                · omega
                · exact hbefore m hm
              · obtain ⟨before, after, heq, hbefore, hafter⟩ := ih h
                simp only [Option.toList_some, List.singleton_append] at heq ⊢
                cases before with
                | nil =>
                    rw [List.nil_append, List.cons.injEq] at heq
                    obtain ⟨rfl, hrest⟩ := heq
                    refine ⟨[], n :: after, by rw [hrest, List.nil_append], by simp, ?_⟩
                    intro m hm
                    rcases List.mem_cons.mp hm with rfl | hm
                    · omega
                    · exact hafter m hm
                | cons first before =>
                    rw [List.cons_append, List.cons.injEq] at heq
                    obtain ⟨rfl, hrest⟩ := heq
                    have hb := hbefore b List.mem_cons_self
                    refine ⟨b :: n :: before, after, by simp [hrest], ?_, hafter⟩
                    intro m hm
                    rcases List.mem_cons.mp hm with rfl | hm
                    · exact hb
                    · rcases List.mem_cons.mp hm with rfl | hm
                      · omega
                      · exact hbefore m (List.mem_cons_of_mem _ hm)

/-- The loop finds a node if there is a candidate. -/
theorem pickLoop_isSome {hash : String → Nat} {key : String} {best : Option NodeInfo}
    {nodes : List NodeInfo} (h : best.isSome ∨ ∃ n ∈ nodes, n.healthy = true) :
    (pickLoop hash key best nodes).isSome := by
  induction nodes generalizing best with
  | nil => simpa [pickLoop] using h
  | cons n rest ih =>
      unfold pickLoop
      split_ifs with hhealthy
      · apply ih
        simpa [hhealthy] using h
      · cases best with
        | none => exact ih (.inl rfl)
        | some b =>
            dsimp only
            split_ifs
            · exact ih (.inl rfl)
            · exact ih (.inl rfl)

/-- What `pickNode` returns. -/
theorem pickNode_spec {r : ShardRouter} {hash : String → Nat} {key : String} {node : NodeInfo}
    (h : r.pickNode hash key = some node) :
    ∃ before after, r.nodes.filter NodeInfo.healthy = before ++ node :: after ∧
      (∀ n ∈ before, score hash key n < score hash key node) ∧
      ∀ n ∈ after, score hash key n ≤ score hash key node :=
  pickLoop_spec h

/-- The node that is picked is a healthy one of the highest score. -/
theorem pickNode_max {r : ShardRouter} {hash : String → Nat} {key : String} {node : NodeInfo}
    (h : r.pickNode hash key = some node) :
    node ∈ r.nodes ∧
      ∀ n ∈ r.nodes, n.healthy = true → score hash key n ≤ score hash key node := by
  obtain ⟨before, after, heq, hbefore, hafter⟩ := pickNode_spec h
  have hmem : ∀ n, n ∈ r.nodes ∧ n.healthy = true ↔ n ∈ before ++ node :: after := by
    intro n
    rw [← heq, List.mem_filter]
  refine ⟨((hmem node).mpr (by simp)).1, ?_⟩
  intro n hn hhealthy
  exact score_le_of_split hbefore hafter n ((hmem n).mp ⟨hn, hhealthy⟩)

theorem pickNode_isSome {r : ShardRouter} (hash : String → Nat) (key : String)
    (h : ∃ n ∈ r.nodes, n.healthy = true) : ∃ node, r.pickNode hash key = some node :=
  Option.isSome_iff_exists.mp (pickLoop_isSome (.inr h))

end ShardRouter
end Cluster
end YoloServer
