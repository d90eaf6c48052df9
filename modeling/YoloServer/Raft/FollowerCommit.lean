import YoloServer.Raft.Applied
import YoloServer.Raft.LogMerge

/-!
# What a follower commits

Step 5 of `handleAppendEntries` bounds the commit index by the last entry of the
follower's own log.  That entry need not come from the message: a message with few
entries, or with none, leaves everything behind the slice as it is.

* `commits_matched_iff` says when every entry that a call applies is the leader's
  entry at its index.  What decides is the entry of the follower at the new commit
  index, if the slice ends before it.
* `heartbeat_commits_stale_entry` is a message without entries that makes a follower
  apply an entry that its leader does not have.
-/

namespace YoloServer
namespace Raft
namespace RaftNode

open Lib

variable {n m : RaftNode} {L : List LogEntry} {args : AppendEntriesArgs}

/-- Every entry that a successful call applies is committed by the leader, and is the
leader's entry at its index. -/
def CommitsMatched (n : RaftNode) (L : List LogEntry) (args : AppendEntriesArgs) : Prop :=
  ∀ m reply, n.handleAppendEntries args = .ok (m, reply) → reply.success = true →
    ∀ q ∈ m.puts.drop n.puts.length, q.1 ≤ args.leaderCommit ∧ L[q.1]? = some q.2

/-- The commit index that a follower takes over if the message leaves its log as it
is. -/
def commitTarget (n : RaftNode) (args : AppendEntriesArgs) : Nat :=
  min args.leaderCommit (n.logs.length - 1)

/-- If the follower takes the message, has no conflict with the slice, and goes on to
a commit index behind the slice, then it has the leader's term there. -/
def TailAgrees (n : RaftNode) (L : List LogEntry) (args : AppendEntriesArgs) : Prop :=
  n.currentTerm ≤ args.term → n.prevMatches args → ¬ SliceConflict n.logs L args →
    n.commitIndex < n.commitTarget args → args.stop ≤ n.commitTarget args →
      n.logs[n.commitTarget args]?.map LogEntry.term = L[n.commitTarget args]?.map LogEntry.term

/-- A follower whose entries carry their positions, and which has applied what is
committed. -/
structure CaughtUp (n : RaftNode) : Prop where
  index : ∀ (i : Nat) (entry : LogEntry), n.logs[i]? = some entry → entry.index = i
  applied : n.lastApplied = n.commitIndex
  commit : n.commitIndex < n.logs.length

theorem CaughtUp.back_index (h : n.CaughtUp) : (back n.logs).index + 1 = n.logs.length :=
  RaftNode.back_index (lt_of_le_of_lt (Nat.zero_le _) h.commit) h.index

/-- What a successful call does to a follower that has caught up: it applies the
entries of the merged log up to the new commit index. -/
theorem handleAppendEntries_success {reply : AppendEntriesReply} (h : n.CaughtUp)
    (hhandle : n.handleAppendEntries args = .ok (m, reply)) (hsuccess : reply.success = true) :
    n.currentTerm ≤ args.term ∧ n.prevMatches args ∧ m.logs = (n.merge args).logs ∧
      (args.leaderCommit ≤ n.commitIndex ∧ m.puts = n.puts ∨
        (m.lastApplied =
            max n.commitIndex (min args.leaderCommit (back (n.merge args).logs).index) ∧
          ∃ p, m.puts = n.puts ++ p ∧ ∀ q ∈ p, n.commitIndex < q.1 ∧
            q.1 ≤ min args.leaderCommit (back (n.merge args).logs).index ∧
            (n.merge args).logs[q.1]? = some q.2)) := by
  rcases handleAppendEntries_spec hhandle with
    ⟨-, -, rfl⟩ | ⟨-, -, -, rfl⟩ | ⟨hle, hprev, hfollow, -⟩
  · cases hsuccess
  · cases hsuccess
  · obtain ⟨c, a, p, rfl, hcases, hp⟩ := followCommit_spec hfollow
    refine ⟨hle, hprev, rfl, ?_⟩
    rcases hcases with ⟨hcommit, -, -, rfl⟩ | ⟨-, rfl, rfl⟩
    · exact .inl ⟨hcommit, List.append_nil _⟩
    · exact .inr ⟨congrArg (max · _) h.applied, p, rfl, fun q hq => h.applied ▸ hp q hq⟩

/-- Behind the conflicts nothing of the follower's own log is left to apply. -/
theorem commitsMatched_of_tailAgrees (h : n.CaughtUp) (hmatch : LogMatching n.logs L)
    (hslice : SliceOf L args) (htail : n.TailAgrees L args) : n.CommitsMatched L args := by
  intro m reply hhandle hsuccess q hq
  obtain ⟨hle, hprev, -, hputs⟩ := handleAppendEntries_success h hhandle hsuccess
  rcases hputs with ⟨-, hnone⟩ | ⟨-, p, hp, hall⟩
  · rw [hnone, List.drop_length] at hq
    cases hq
  · rw [hp, List.drop_left] at hq
    obtain ⟨hlow, hhigh, hentry⟩ := hall q hq
    refine ⟨hhigh.trans (min_le_left _ _), ?_⟩
    rcases merge_slice hmatch hslice hprev with ⟨hnone, hlen, htake, hsame⟩ | ⟨-, hcut⟩
    · -- The log is the old one, and the new commit index is the target.
      have hback := h.back_index
      have htarget : q.1 ≤ n.commitTarget args := by
        rw [hsame] at hhigh
        rw [commitTarget]
        omega
      rw [hsame] at hentry
      by_cases hbehind : args.stop ≤ n.commitTarget args
      · have hin : n.commitTarget args < n.logs.length :=
          lt_of_le_of_lt (min_le_right _ _) (by omega)
        have hterm := htail hle hprev hnone (by omega) hbehind
        rw [← getElem?_eq_of_take_eq (hmatch _ hin hterm) (by omega), hentry]
      · rw [← getElem?_eq_of_take_eq htake (by omega), hentry]
    · rw [hcut, List.getElem?_take] at hentry
      split_ifs at hentry
      exact hentry

/-- If the follower has another term than the leader at the target, a call applies its
own entry there. -/
theorem tailAgrees_of_commitsMatched (h : n.CaughtUp) (hmatch : LogMatching n.logs L)
    (hslice : SliceOf L args) (hcommits : n.CommitsMatched L args) : n.TailAgrees L args := by
  intro hle hprev hnone hlt hbehind
  have hback := h.back_index
  have hmerge : (n.merge args).logs = n.logs := by
    rcases merge_slice hmatch hslice hprev with ⟨-, -, -, hsame⟩ | ⟨hwhy, -⟩
    · exact hsame
    · have hshort := hwhy.resolve_left hnone
      rw [commitTarget] at hbehind
      omega
  have hok : ∃ r, n.handleAppendEntries args = .ok r :=
    handleAppendEntries_ok fun _ _ => by
      rw [hmerge]
      omega
  obtain ⟨⟨m, reply⟩, hhandle⟩ := hok
  have hsuccess : reply.success = true := by
    rcases handleAppendEntries_spec hhandle with ⟨hstale, -⟩ | ⟨-, hnot, -⟩ | ⟨-, -, -, rfl⟩
    · omega
    · exact absurd hprev hnot
    · rfl
  obtain ⟨-, -, hlogs, hputs⟩ := handleAppendEntries_success h hhandle hsuccess
  have htarget : m.lastApplied = n.commitTarget args := by
    rcases hputs with ⟨hcommit, -⟩ | ⟨hlast, -⟩
    · rw [commitTarget] at hlt
      omega
    · rw [hmerge] at hlast
      rw [commitTarget] at hlt ⊢
      omega
  -- The last of the applied entries stands at the target in both logs.
  have horder := putsInOrder_handleAppendEntries hhandle
  obtain ⟨p, hp, hall⟩ := horder.fromLog
  obtain ⟨p', entry, hp', hmem⟩ := horder.mem_last (by rw [h.applied]; omega)
  cases List.append_cancel_left (hp.symm.trans hp')
  have hmine := (hall _ hmem).2
  have htheirs := (hcommits m reply hhandle hsuccess _ (by rw [hp, List.drop_left]; exact hmem)).2
  rw [hlogs, hmerge, htarget] at hmine
  rw [htarget] at htheirs
  rw [hmine, htheirs]

/-- **What a follower commits.**  For a follower that has caught up, a leader whose log
matches and a slice of that log: every entry that the call applies is the leader's,
exactly if the follower has the leader's term at its new commit index whenever that
lies behind the slice. -/
theorem commits_matched_iff (n : RaftNode) (L : List LogEntry) (args : AppendEntriesArgs)
    (h : n.CaughtUp) (hmatch : LogMatching n.logs L) (hslice : SliceOf L args) :
    n.CommitsMatched L args ↔ n.TailAgrees L args :=
  ⟨tailAgrees_of_commitsMatched h hmatch hslice, commitsMatched_of_tailAgrees h hmatch hslice⟩

/-- A message without entries, for the first position, with `leaderCommit` 1. -/
def emptyMessage : AppendEntriesArgs :=
  ⟨2, "n2", 0, 0, [], 1⟩

/-- A follower that has the leader's entry behind the slice applies it. -/
theorem heartbeat_commits_shared_entry :
    (∃ r, (follower [dummyEntry, ⟨1, 1, "k", "v"⟩]).handleAppendEntries emptyMessage = .ok r ∧
        r.1.puts = [(1, ⟨1, 1, "k", "v"⟩)]) ∧
      (follower [dummyEntry, ⟨1, 1, "k", "v"⟩]).CommitsMatched leaderLog emptyMessage := by
  refine ⟨⟨_, rfl, rfl⟩, (commits_matched_iff _ _ _ ⟨?_, rfl, by decide⟩ (by decide)
    ⟨⟨_, rfl, rfl⟩, 0, rfl⟩).mpr fun _ _ _ _ _ => rfl⟩
  exact (show IndexIsPosition [dummyEntry, ⟨1, 1, "k", "v"⟩] by decide).index

/-- The leader has committed its entry at index 1.  The follower has another one there,
takes the message without entries, and applies its own. -/
theorem heartbeat_commits_stale_entry :
    ∃ (n : RaftNode) (L : List LogEntry) (args : AppendEntriesArgs),
      n.CaughtUp ∧ LogMatching n.logs L ∧ SliceOf L args ∧ args.leaderCommit < L.length ∧
      ¬ n.CommitsMatched L args := by
  refine ⟨follower [dummyEntry, ⟨1, 1, "k", "w"⟩], [dummyEntry, ⟨2, 1, "k", "x"⟩], emptyMessage,
    ⟨?_, rfl, by decide⟩, by decide, ⟨⟨_, rfl, rfl⟩, 0, rfl⟩, by decide, ?_⟩
  · exact (show IndexIsPosition [dummyEntry, ⟨1, 1, "k", "w"⟩] by decide).index
  · intro hcommits
    have hentry := hcommits _ _ rfl rfl (1, ⟨1, 1, "k", "w"⟩) (List.mem_singleton.mpr rfl)
    exact absurd hentry.2 (by decide)

end RaftNode
end Raft
end YoloServer
