import YoloServer.Raft.NodeRun

/-!
# Terms in machine arithmetic

`m_currentTerm` is a `uint64_t`.  It is copied from requests and replies, always after
a comparison, and incremented by `startElection` without one.

* `terms_grow` shows that no event but an election in the last term makes the term of a
  running node smaller, and that elections make it larger.
* `term_wraps_at_limit` shows that an election in the last term to which nobody answers
  ends in term 0, and `one_request_wraps_term` that one request brings a node there.
-/

namespace YoloServer
namespace Raft
namespace RaftNode

open Lib

variable {n m : RaftNode} {e : NodeEvent}

/-- From one step of the run to the next the term does not decrease, and an election that
does not end as a follower ends in a larger term. -/
def TermsGrow (n : RaftNode) (es : List NodeEvent) : Prop :=
  ∀ es₁ e es₂ a b, es = es₁ ++ e :: es₂ → run step n es₁ = some a → a.step e = some b →
    a.currentTerm ≤ b.currentTerm ∧
      ((∃ replies, e = .startElection replies) → b.state ≠ .Follower →
        a.currentTerm < b.currentTerm)

/-- No election is started in the last term. -/
def BelowLimit (n : RaftNode) : NodeEvent → Prop
  | .startElection _ => n.currentTerm + 1 < 2 ^ 64
  | _ => True

instance (n : RaftNode) : ∀ e, Decidable (n.BelowLimit e)
  | .startElection _ => inferInstanceAs (Decidable (_ < _))
  | .restart => isTrue trivial
  | .heartbeat _ => isTrue trivial
  | .handleRequestVote _ => isTrue trivial
  | .handleAppendEntries _ => isTrue trivial
  | .submitLog _ _ => isTrue trivial

/-- An election below the limit ends in a larger term, whoever wins it. -/
theorem startElection_term_lt (h : n.currentTerm + 1 < 2 ^ 64)
    (replies : List (Option RequestVoteReply)) :
    n.currentTerm < (n.startElection replies).currentTerm := by
  have hbegin : n.beginElection.currentTerm = n.currentTerm + 1 := u64_of_lt h
  have hround := (voteKeep_electionRound n.beginElection 1 n.peers replies).term
  rw [startElection]
  omega

/-- The step lemma. -/
theorem term_step (hexec : n.exec e = .ok m) (hrestart : e ≠ .restart) (hcond : n.BelowLimit e) :
    n.currentTerm ≤ m.currentTerm ∧
      ((∃ replies, e = .startElection replies) → n.currentTerm < m.currentTerm) := by
  have hterm : ∀ replies, e = .startElection replies → n.currentTerm + 1 < 2 ^ 64 := by
    rintro replies rfl
    exact hcond
  refine ⟨(voteKeep_exec hexec hrestart hterm).term, ?_⟩
  rintro ⟨replies, rfl⟩
  cases hexec
  exact startElection_term_lt hcond replies

/-- **Terms never go backwards** in any run of a node that goes on running and in which
no election is started in the last term, whatever terms requests and replies carry. -/
theorem terms_grow (n : RaftNode) (es : List NodeEvent) (hrestart : .restart ∉ es)
    (hmeets : Meets step BelowLimit n es) :
    n.TermsGrow es ∧ ∀ m, run step n es = some m → n.currentTerm ≤ m.currentTerm := by
  constructor
  · rintro es₁ e es₂ a b rfl hrun hstep
    have hcond := ((meets_append hrun _).mp hmeets).2.head
    have hrunning : e ≠ .restart := by
      rintro rfl
      simp at hrestart
    obtain ⟨hle, hlt⟩ := term_step (step_eq_some.mp hstep) hrunning hcond
    exact ⟨hle, fun helection _ => hlt helection⟩
  · intro m hrun
    have hrunning : Meets step (fun _ e => e ≠ NodeEvent.restart) n es :=
      meets_of_forall (fun e he => ne_of_mem_of_not_mem he hrestart) n
    have hstep : ∀ (s : RaftNode) (e : NodeEvent) (s' : RaftNode), True →
        (s.BelowLimit e ∧ e ≠ .restart) → s.step e = some s' →
          True ∧ s.currentTerm ≤ s'.currentTerm := by
      intro s e s' _ hcond hstep
      exact ⟨trivial, (term_step (step_eq_some.mp hstep) hcond.2 hcond.1).1⟩
    exact (run_related (R := fun s s' => s.currentTerm ≤ s'.currentTerm) (fun _ => le_rfl)
      (fun _ _ _ => le_trans) hstep trivial (hmeets.and hrunning) hrun).2

/-- Terms from replies and requests take a node up to the last term. -/
def toLimit : List NodeEvent :=
  [.startElection [some ⟨2 ^ 64 - 3, false⟩], .startElection [some ⟨2 ^ 64 - 2, true⟩],
    .handleAppendEntries ⟨2 ^ 64 - 1, "n2", 0, 0, [], 0⟩,
    .handleRequestVote ⟨2 ^ 64 - 2, "n2", 0, 0⟩]

theorem terms_grow_to_limit :
    ∃ m, run step (new "n1" ["n2"]) toLimit = some m ∧ m.currentTerm = 2 ^ 64 - 1 ∧
      (new "n1" ["n2"]).TermsGrow toLimit :=
  ⟨_, rfl, by decide, (terms_grow (new "n1" ["n2"]) toLimit (by simp [toLimit]) (by decide)).1⟩

/-- A request with the largest term and an election bring the node back to term 0. -/
theorem one_request_wraps_term :
    ∃ es, NodeEvent.restart ∉ es ∧ ¬ (new "n1" ["n2"]).TermsGrow es := by
  refine ⟨[.handleRequestVote ⟨2 ^ 64 - 1, "n2", 0, 0⟩, .startElection []], by simp, ?_⟩
  intro hgrow
  have hstep := hgrow [.handleRequestVote ⟨2 ^ 64 - 1, "n2", 0, 0⟩] (.startElection []) [] _ _
    rfl rfl rfl
  exact absurd hstep.1 (by decide)

/-! ## The condition cannot be relaxed -/

/-- An election to which nobody answers ends in the term in which it was started. -/
theorem electionRound_unanswered (n : RaftNode) (votes : Nat) (rest : List String) :
    (n.electionRound votes rest []).currentTerm = n.currentTerm := by
  induction rest with
  | nil =>
      rw [electionRound]
      rcases finishElection_spec n votes with heq | ⟨-, heq⟩ <;> rw [heq]
  | cons peer rest ih => exact ih

/-- An election that is started in the last term ends in term 0 if nobody answers. -/
theorem term_wraps_at_limit {es : List NodeEvent} (hrun : run step n es = some m)
    (hlimit : m.currentTerm = 2 ^ 64 - 1) : ¬ n.TermsGrow (es ++ [.startElection []]) := by
  intro hgrow
  have hzero : (m.startElection []).currentTerm = 0 := by
    rw [startElection, electionRound_unanswered]
    show u64 (m.currentTerm + 1) = 0
    rw [hlimit]
    rfl
  have hle := (hgrow es (.startElection []) [] m _ rfl hrun rfl).1
  rw [hzero] at hle
  omega

end RaftNode
end Raft
end YoloServer
