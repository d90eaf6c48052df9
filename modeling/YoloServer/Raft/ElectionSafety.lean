import YoloServer.Lib.Quorum
import YoloServer.Raft.ClusterInvariant

/-!
# Election safety

At most one node is ever leader of a term.  The votes of a term are never
forgotten (`Evolves`), so two leaders of one term, at whatever times, both have
a majority among the votes of the later state; the majorities share a voter, and
a voter casts one vote per term.

`handleAppendEntries` raises the term without clearing `votedFor`.  This makes a
node refuse candidates it could vote for, but never lets it vote twice.
-/

namespace YoloServer
namespace Raft

open Lib

/-- The number of peers of a member. -/
theorem Membership.length_peers (M : Membership) {i : String} (hi : i ∈ M.ids) :
    (M.peers i).length + 1 = M.ids.length :=
  length_of_others M.ids_nodup (M.peers_nodup i hi) hi (M.mem_peers i hi)

namespace Cluster

open RaftNode

variable {M : Membership} {s : Cluster}

/-- Two nodes with a majority in the same term are the same node. -/
theorem elected_unique (hinv : Inv M s) {i j : String} {t : Nat} (hi : i ∈ M.ids)
    (hj : j ∈ M.ids) (h₁ : Elected M s i t) (h₂ : Elected M s j t) : i = j := by
  obtain ⟨granted₁, hnodup₁, hsub₁, hmaj₁, hcast₁⟩ := h₁
  obtain ⟨granted₂, hnodup₂, hsub₂, hmaj₂, hcast₂⟩ := h₂
  have voters : ∀ k ∈ M.ids, ∀ granted : List String, granted.Nodup →
      (∀ g ∈ granted, g ∈ M.peers k) →
      (k :: granted).Nodup ∧ ∀ x ∈ k :: granted, x ∈ M.ids := by
    intro k hk granted hnodup hsub
    have hothers : ∀ g ∈ granted, g ∈ M.ids ∧ g ≠ k := fun g hg =>
      (M.mem_peers k hk g).mp (hsub g hg)
    refine ⟨List.nodup_cons.mpr ⟨fun hk' => (hothers k hk').2 rfl, hnodup⟩, ?_⟩
    intro x hx
    rcases List.mem_cons.mp hx with rfl | hx
    · exact hk
    · exact (hothers x hx).1
  have hlen₁ := M.length_peers hi
  have hlen₂ := M.length_peers hj
  -- The two majorities together outnumber the members, so they share a voter.
  obtain ⟨v, hv₁, hv₂⟩ := exists_mem_of_length_lt
    (voters i hi granted₁ hnodup₁ hsub₁).1 (voters j hj granted₂ hnodup₂ hsub₂).1
    (voters i hi granted₁ hnodup₁ hsub₁).2 (voters j hj granted₂ hnodup₂ hsub₂).2
    (by simp only [majority] at hmaj₁ hmaj₂; simp only [List.length_cons]; omega)
  exact hinv.voteUnique _ (hcast₁ v hv₁) _ (hcast₂ v hv₂) rfl rfl

/-- **Election safety.**  In every run in which no term overflows, a leader of
some term at one time and a leader of the same term at the same or a later time
are the same node. -/
theorem election_safety (M : Membership) (es₁ es₂ : List Event) (s₁ s₂ : Cluster)
    (hmeets : Meets (step M) NoTermOverflow (init M) (es₁ ++ es₂))
    (hrun₁ : run (step M) (init M) es₁ = some s₁) (hrun₂ : run (step M) s₁ es₂ = some s₂)
    (i j : String) (hi : (s₁.node i).state = .Leader) (hj : (s₂.node j).state = .Leader)
    (hterm : (s₁.node i).currentTerm = (s₂.node j).currentTerm) : i = j := by
  obtain ⟨hmeets₁, hmeets₂⟩ := (meets_append hrun₁ es₂).mp hmeets
  obtain ⟨hinv₁, -⟩ := inv_run (inv_init M) hmeets₁ hrun₁
  obtain ⟨hinv₂, hev⟩ := inv_run hinv₁ hmeets₂ hrun₂
  obtain ⟨hmem₁, helected₁⟩ := hinv₁.leaders i hi
  obtain ⟨hmem₂, helected₂⟩ := hinv₂.leaders j hj
  rw [hterm] at helected₁
  exact elected_unique hinv₂ hmem₁ hmem₂ (helected₁.mono hev.votes) helected₂

/-- Three nodes. -/
def trio : Membership :=
  Membership.ofIds ["a", "b", "c"] (by decide) (by decide)

/-- Node `a` is elected in term 1; the RPC to `c` fails. -/
def electA : List Event :=
  [.startElection "a", .send "a", .handle 0, .receive "a", .send "a", .fail "a", .finish "a"]

/-- While `a` leads, `c`, which has not heard of term 1, starts an election in
the same term and asks `a`, whose answer is lost, and `b` for a vote. -/
def contest : List Event :=
  [.startElection "c", .send "c", .handle 2, .fail "c", .send "c", .handle 3, .receive "c"]

/-- While `c` contests the term that `a` has won, nobody but `a` leads it. -/
theorem election_safety_in_trio :
    ∃ s₁ s₂, run (step trio) (init trio) electA = some s₁ ∧
      run (step trio) s₁ contest = some s₂ ∧ (s₁.node "a").state = .Leader ∧
      ((s₂.node "c").state = .Candidate ∧ (s₂.node "c").currentTerm = 1) ∧
      ∀ j, (s₂.node j).state = .Leader →
        (s₁.node "a").currentTerm = (s₂.node j).currentTerm → "a" = j := by
  obtain ⟨s₁, hrun₁, hlead⟩ := exists_run_of_check (step trio) (init trio) electA
    (fun t => (t.node "a").state = .Leader) (by decide)
  obtain ⟨s₂, hrun₂, hrival⟩ := exists_run_of_check (step trio) (init trio) (electA ++ contest)
    (fun t => (t.node "c").state = .Candidate ∧ (t.node "c").currentTerm = 1) (by decide)
  rw [run_append hrun₁] at hrun₂
  exact ⟨s₁, s₂, hrun₁, hrun₂, hlead, hrival, fun j hj heq =>
    election_safety trio electA contest s₁ s₂ (by decide) hrun₁ hrun₂ "a" j hlead hj heq⟩

end Cluster
end Raft
end YoloServer
