import YoloServer.Raft.Applied

/-!
# The storage and the log

`applyCommittedLogs` increments `m_lastApplied`, calls `put` with the entry there, and
only logs it if `put` returns false.  The storage is therefore the outcome of the
entries up to `m_lastApplied` as long as no call has failed, and never again
afterwards.

* `calls_follow_log` says which calls of `put` a node makes: one for each entry up to
  `lastApplied`, in the order of the log.
* `stored_is_log_iff` compares those that succeed with the log.
* `failed_put_is_counted` is a run in which one call fails.
-/

namespace YoloServer
namespace Raft
namespace RaftNode

open Lib

variable {n m : RaftNode} {e : NodeEvent}

/-- The calls of `put` that returned true; `outcome k` is the result of call `k`. -/
def stored (n : RaftNode) (outcome : Nat → Bool) : List (Nat × LogEntry) :=
  (n.puts.zipIdx.filter fun call => outcome call.2).map Prod.fst

/-- The entries at the indices from 1 to `lastApplied`, with their indices. -/
def appliedEntries (n : RaftNode) : List (Nat × LogEntry) :=
  (List.range' 1 n.lastApplied).zip ((n.logs.drop 1).take n.lastApplied)

/-- The node goes on running, and the event appends to its log at most. -/
def AppendsOnly (n : RaftNode) : NodeEvent → Prop
  | .restart => False
  | e => ∀ m ∈ n.step e, n.logs <+: m.logs

instance (n : RaftNode) : ∀ e, Decidable (n.AppendsOnly e)
  | .restart => isFalse id
  | .startElection replies =>
      inferInstanceAs (Decidable (∀ m ∈ n.step (.startElection replies), n.logs <+: m.logs))
  | .heartbeat replies =>
      inferInstanceAs (Decidable (∀ m ∈ n.step (.heartbeat replies), n.logs <+: m.logs))
  | .handleRequestVote args =>
      inferInstanceAs (Decidable (∀ m ∈ n.step (.handleRequestVote args), n.logs <+: m.logs))
  | .handleAppendEntries args =>
      inferInstanceAs (Decidable (∀ m ∈ n.step (.handleAppendEntries args), n.logs <+: m.logs))
  | .submitLog key value =>
      inferInstanceAs (Decidable (∀ m ∈ n.step (.submitLog key value), n.logs <+: m.logs))

theorem AppendsOnly.spec (h : n.AppendsOnly e) (hstep : n.step e = some m) :
    e ≠ .restart ∧ n.logs <+: m.logs := by
  cases e with
  | restart => exact absurd h id
  | _ => exact ⟨by simp, h m hstep⟩

/-! ## The calls -/

/-- Every event of a running node applies entries in order. -/
theorem putsInOrder_exec (hexec : n.exec e = .ok m) (hrestart : e ≠ .restart) :
    PutsInOrder n m := by
  cases e with
  | startElection replies =>
      cases hexec
      exact (appliesInOrder_startElection n replies).puts
  | heartbeat replies => exact (appliesInOrder_heartbeatRound hexec).puts
  | handleRequestVote args =>
      cases hexec
      exact (appliesInOrder_handleRequestVote n args).puts
  | handleAppendEntries args =>
      obtain ⟨reply, hhandle⟩ := exec_handleAppendEntries.mp hexec
      exact putsInOrder_handleAppendEntries hhandle
  | submitLog key value =>
      cases hexec
      exact putsInOrder_submitLog n key value
  | restart => exact absurd rfl hrestart

/-- The log is appended to, and its entries are applied in order. -/
structure Extends (n m : RaftNode) : Prop where
  logs : n.logs <+: m.logs
  puts : PutsInOrder n m

theorem Extends.refl (n : RaftNode) : Extends n n :=
  ⟨List.prefix_rfl, .of_eq rfl rfl⟩

theorem Extends.trans {l : RaftNode} (h₁ : Extends l n) (h₂ : Extends n m) : Extends l m :=
  ⟨h₁.logs.trans h₂.logs, h₁.puts.trans h₂.puts h₂.logs⟩

/-- The run lemma: over a log that is only appended to, the calls of a whole run follow
the log. -/
theorem extends_run {es : List NodeEvent} (hmeets : Meets step AppendsOnly n es)
    (hrun : run step n es = some m) : Extends n m := by
  have hstep : ∀ (s : RaftNode) (e : NodeEvent) (s' : RaftNode), True → s.AppendsOnly e →
      s.step e = some s' → True ∧ Extends s s' := by
    intro s e s' _ hcond hstep
    obtain ⟨hrestart, hlogs⟩ := hcond.spec hstep
    exact ⟨trivial, hlogs, putsInOrder_exec (step_eq_some.mp hstep) hrestart⟩
  exact (run_related (R := Extends) Extends.refl (fun _ _ _ => Extends.trans) hstep trivial hmeets
    hrun).2

theorem calls_follow_log {nodeId : String} {peers : List String} {es : List NodeEvent}
    (hmeets : Meets step AppendsOnly (new nodeId peers) es)
    (hrun : run step (new nodeId peers) es = some n) : n.puts = n.appliedEntries := by
  obtain ⟨-, p, hp, hfst, hsnd⟩ := (extends_run hmeets hrun).puts
  -- The new node has made no calls.
  have hputs : n.puts = p := hp
  rw [hputs]
  exact List.zip_of_prod hfst hsnd

/-! ## The calls that succeed -/

/-- All calls took effect exactly if none has failed. -/
theorem stored_eq_puts_iff (n : RaftNode) (outcome : Nat → Bool) :
    n.stored outcome = n.puts ↔ ∀ k < n.puts.length, outcome k = true := by
  constructor
  · intro heq k hk
    have hlength : (n.puts.zipIdx.filter fun call => outcome call.2).length =
        n.puts.zipIdx.length := by
      have hcount := congrArg List.length heq
      rw [List.length_zipIdx]
      rwa [stored, List.length_map] at hcount
    have hall := List.length_filter_eq_length_iff.mp hlength
    have hmem : (n.puts[k], k) ∈ n.puts.zipIdx :=
      List.mk_mem_zipIdx_iff_getElem?.mpr (List.getElem?_eq_getElem hk)
    exact hall _ hmem
  · intro hall
    have hkeep : (n.puts.zipIdx.filter fun call => outcome call.2) = n.puts.zipIdx := by
      refine List.filter_eq_self.mpr fun call hcall => hall _ ?_
      exact List.snd_lt_of_mem_zipIdx hcall
    rw [stored, hkeep, List.zipIdx_map_fst]

/-- **The applied state is the fold of the log**, over a log that is only appended to and
for any pattern of outcomes of `put`, exactly as long as no call has failed: the calls
that took effect are then those with the entries at the indices 1 to `lastApplied`, in
order, each once. -/
theorem stored_is_log_iff (nodeId : String) (peers : List String) (es : List NodeEvent)
    (n : RaftNode) (outcome : Nat → Bool)
    (hmeets : Meets step AppendsOnly (new nodeId peers) es)
    (hrun : run step (new nodeId peers) es = some n) :
    n.stored outcome = n.appliedEntries ↔ ∀ k < n.puts.length, outcome k = true := by
  rw [← calls_follow_log hmeets hrun]
  exact stored_eq_puts_iff n outcome

/-- Two entries are committed one after the other. -/
def twoCommits : List NodeEvent :=
  [.handleAppendEntries ⟨1, "n2", 0, 0, [⟨1, 1, "k", "v"⟩, ⟨1, 2, "l", "w"⟩], 1⟩,
    .handleAppendEntries ⟨1, "n2", 2, 1, [], 2⟩]

/-- Both calls succeed. -/
theorem stored_two_entries :
    ∃ n, run step (new "n1" ["n2", "n3"]) twoCommits = some n ∧ n.lastApplied = 2 ∧
      n.stored (fun _ => true) = n.appliedEntries := by
  refine ⟨_, rfl, rfl, ?_⟩
  exact (stored_is_log_iff "n1" ["n2", "n3"] twoCommits _ (fun _ => true) (by decide) rfl).mpr
    fun _ _ => rfl

/-- The first call fails.  The node counts both entries as applied, and goes on with the
second one. -/
theorem failed_put_is_counted :
    ∃ n, Meets step AppendsOnly (new "n1" ["n2", "n3"]) twoCommits ∧
      run step (new "n1" ["n2", "n3"]) twoCommits = some n ∧ n.lastApplied = 2 ∧
      n.stored (fun k => k != 0) = [(2, ⟨1, 2, "l", "w"⟩)] ∧
      n.stored (fun k => k != 0) ≠ n.appliedEntries :=
  ⟨_, by decide, rfl, rfl, by decide, by decide⟩

end RaftNode
end Raft
end YoloServer
