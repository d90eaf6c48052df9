import YoloServer.Lib.LogMatching
import YoloServer.Raft.IndexInvariant

/-!
# The log of a follower and the log of its leader

`handleAppendEntries` compares the entries of a message with the log by their terms
alone, erases the log from the first difference on and appends the rest.  This
module compares the outcome with the log `L` of the leader, of which the message is
a slice, for logs that satisfy log matching.

* `mergeEntries_slice` is the outcome of the loop: the log stays, or it becomes the
  part of `L` that ends with the slice.
* `log_merge` is the specification of the whole handler.
* `append_entries_harmless` shows that a message may arrive twice, late or out of
  order: `handleAppendEntries_twice` needs nothing of the message, and
  `sliceHeld_step` is the step lemma for slices of one log.
-/

namespace YoloServer
namespace Raft

open Lib

/-- Log matching: an equal term at an index implies equal entries up to that index. -/
def LogMatching (logs L : List LogEntry) : Prop :=
  Matching LogEntry.term logs L

/-- The message carries the entries `L[prevLogIndex + 1 ..]`, or the first of them. -/
structure SliceOf (L : List LogEntry) (args : AppendEntriesArgs) : Prop where
  prev : ∃ entry, L[args.prevLogIndex]? = some entry ∧ entry.term = args.prevLogTerm
  entries : ∃ count, args.entries = (L.drop (args.prevLogIndex + 1)).take count

/-- The position behind the entries of the message. -/
def AppendEntriesArgs.stop (args : AppendEntriesArgs) : Nat :=
  args.prevLogIndex + 1 + args.entries.length

/-- The two logs have different terms at a position of the slice. -/
def SliceConflict (logs L : List LogEntry) (args : AppendEntriesArgs) : Prop :=
  Conflict LogEntry.term logs L (args.prevLogIndex + 1) args.stop

instance (logs L : List LogEntry) : Decidable (LogMatching logs L) :=
  inferInstanceAs (Decidable (Matching _ _ _))

instance (logs L : List LogEntry) (args : AppendEntriesArgs) :
    Decidable (SliceConflict logs L args) :=
  inferInstanceAs (Decidable (Conflict _ _ _ _ _))

variable {logs L : List LogEntry} {args : AppendEntriesArgs}

theorem SliceOf.isPrefix (h : SliceOf L args) :
    args.entries <+: L.drop (args.prevLogIndex + 1) := by
  obtain ⟨count, hcount⟩ := h.entries
  rw [hcount]
  exact List.take_prefix _ _

/-- A slice of an earlier snapshot of the log is a slice of the log. -/
theorem SliceOf.mono {S : List LogEntry} (h : SliceOf S args) (hS : S <+: L) :
    SliceOf L args := by
  obtain ⟨entry, hentry, hterm⟩ := h.prev
  obtain ⟨rest, rfl⟩ := hS
  have hlt : args.prevLogIndex < S.length := (List.getElem?_eq_some_iff.mp hentry).1
  refine ⟨⟨entry, by rw [List.getElem?_append_left hlt, hentry], hterm⟩, args.entries.length, ?_⟩
  have hpre : args.entries <+: (S ++ rest).drop (args.prevLogIndex + 1) := by
    rw [List.drop_append_of_le_length hlt]
    exact h.isPrefix.trans (List.prefix_append _ _)
  exact List.prefix_iff_eq_take.mp hpre

theorem SliceOf.stop_le (h : SliceOf L args) : args.stop ≤ L.length := by
  obtain ⟨entry, hentry, -⟩ := h.prev
  have hlt : args.prevLogIndex < L.length := (List.getElem?_eq_some_iff.mp hentry).1
  have hlen := h.isPrefix.length_le
  rw [List.length_drop] at hlen
  rw [AppendEntriesArgs.stop]
  omega

/-! ## The loop -/

/-- What is appended behind a common beginning of `k` entries makes the log a
beginning of `L`. -/
theorem take_append_slice {k : Nat} {entries : List LogEntry} (htake : logs.take k = L.take k)
    (hentries : entries <+: L.drop k) :
    logs.take k ++ entries = L.take (k + entries.length) := by
  rw [htake, List.take_add, ← List.prefix_iff_eq_take.mp hentries]

/-- The outcome of the loop for a slice of `L`: the log has all of the slice and
stays, or it becomes `L` up to the end of the slice. -/
theorem mergeEntries_slice {k : Nat} {entries : List LogEntry} (hmatch : LogMatching logs L)
    (htake : logs.take k = L.take k) (hk : k ≤ logs.length) (hentries : entries <+: L.drop k) :
    (¬ Conflict LogEntry.term logs L k (k + entries.length) ∧
        k + entries.length ≤ logs.length ∧ RaftNode.mergeEntries logs k entries = logs) ∨
      ((Conflict LogEntry.term logs L k (k + entries.length) ∨
          logs.length < k + entries.length) ∧
        RaftNode.mergeEntries logs k entries = L.take (k + entries.length)) := by
  induction entries generalizing k with
  | nil => exact .inl ⟨not_conflict_empty (by simp), by simpa using hk, rfl⟩
  | cons entry rest ih =>
      have hslice := take_append_slice htake hentries
      obtain ⟨hat, hrest⟩ : L[k]? = some entry ∧ rest <+: L.drop (k + 1) := by
        obtain ⟨after, hafter⟩ := hentries
        constructor
        · rw [← Nat.add_zero k, ← List.getElem?_drop, ← hafter]
          rfl
        · rw [← List.drop_drop, ← hafter]
          exact ⟨after, rfl⟩
      rw [RaftNode.mergeEntries]
      cases hmine : logs[k]? with
      | none =>
          -- Behind the end of the log.
          have hlen : logs.length ≤ k := List.getElem?_eq_none_iff.mp hmine
          refine .inr ⟨.inr (by rw [List.length_cons]; omega), ?_⟩
          rwa [List.take_of_length_le hlen] at hslice
      | some mine =>
          simp only
          split_ifs with hterm
          · -- A conflict in the first entry of the rest.
            refine .inr ⟨.inl ⟨k, by rw [List.length_cons]; omega, le_rfl, ?_, ?_, ?_⟩, hslice⟩
            · exact (List.getElem?_eq_some_iff.mp hmine).1
            · exact (List.getElem?_eq_some_iff.mp hat).1
            · simpa [hmine, hat] using hterm
          · -- Log matching carries the common beginning over an entry of the same term.
            have hkey : logs[k]?.map LogEntry.term = L[k]?.map LogEntry.term := by
              rw [hmine, hat, Option.map_some, Option.map_some, not_ne_iff.mp hterm]
            have hlt : k < logs.length := (List.getElem?_eq_some_iff.mp hmine).1
            have hnext := ih (hmatch k hlt hkey) hlt hrest
            rw [conflict_succ_iff hkey] at hnext
            rwa [List.length_cons, Nat.add_comm rest.length 1, ← Nat.add_assoc]

namespace RaftNode

variable {n m : RaftNode}

/-! ## The handler -/

/-- A beginning of a log with sound indices has sound indices. -/
theorem IndexIsPosition.take {k : Nat} (h : IndexIsPosition L) (hk : 0 < k) :
    IndexIsPosition (L.take k) where
  head := by rw [List.getElem?_take_of_lt hk, h.head]
  index := by
    intro i entry hentry
    rw [List.getElem?_take] at hentry
    split_ifs at hentry
    exact h.index i entry hentry

/-- The check of step 2 for a slice of `L`. -/
theorem prevMatches_slice_iff (h : SliceOf L args) :
    n.prevMatches args ↔ ∃ mine theirs, n.logs[args.prevLogIndex]? = some mine ∧
      L[args.prevLogIndex]? = some theirs ∧ mine.term = theirs.term := by
  obtain ⟨entry, hentry, hterm⟩ := h.prev
  constructor
  · rintro ⟨mine, hmine, hmatch⟩
    exact ⟨mine, entry, hmine, hentry, hmatch.trans hterm.symm⟩
  · rintro ⟨mine, theirs, hmine, htheirs, hmatch⟩
    cases hentry.symm.trans htheirs
    exact ⟨mine, hmine, hmatch.trans hterm⟩

/-- A log that passes the check agrees with `L` up to the checked entry. -/
theorem prevMatches_take (hmatch : LogMatching n.logs L) (hslice : SliceOf L args)
    (hprev : n.prevMatches args) :
    n.logs.take (args.prevLogIndex + 1) = L.take (args.prevLogIndex + 1) := by
  obtain ⟨mine, theirs, hmine, htheirs, hterm⟩ := (prevMatches_slice_iff hslice).mp hprev
  refine hmatch args.prevLogIndex (prevMatches_lt hprev) ?_
  rw [hmine, htheirs, Option.map_some, Option.map_some, hterm]

/-- Steps 3 and 4 for a slice of `L`. -/
theorem merge_slice (hmatch : LogMatching n.logs L) (hslice : SliceOf L args)
    (hprev : n.prevMatches args) :
    (¬ SliceConflict n.logs L args ∧ args.stop ≤ n.logs.length ∧
        n.logs.take args.stop = L.take args.stop ∧ (n.merge args).logs = n.logs) ∨
      ((SliceConflict n.logs L args ∨ n.logs.length < args.stop) ∧
        (n.merge args).logs = L.take args.stop) := by
  have htake := prevMatches_take hmatch hslice hprev
  rcases mergeEntries_slice hmatch htake (prevMatches_lt hprev) hslice.isPrefix with
    ⟨hnone, hlen, hsame⟩ | hcut
  · exact .inl ⟨hnone, hlen, Matching.take_eq hmatch htake hlen hslice.stop_le hnone, hsame⟩
  · exact .inr hcut

/-- The log after a merge matches `L` as the old one did. -/
theorem logMatching_merge (hmatch : LogMatching n.logs L) (hslice : SliceOf L args)
    (hprev : n.prevMatches args) : LogMatching (n.merge args).logs L := by
  rcases merge_slice hmatch hslice hprev with ⟨-, -, -, hsame⟩ | ⟨-, hcut⟩
  · rwa [hsame]
  · rw [hcut]
    exact matching_take _ L _

theorem indexIsPosition_merge_slice (hlogs : IndexIsPosition n.logs) (hL : IndexIsPosition L)
    (hmatch : LogMatching n.logs L) (hslice : SliceOf L args) (hprev : n.prevMatches args) :
    IndexIsPosition (n.merge args).logs := by
  rcases merge_slice hmatch hslice hprev with ⟨-, -, -, hsame⟩ | ⟨-, hcut⟩
  · rwa [hsame]
  · rw [hcut]
    exact hL.take (by rw [AppendEntriesArgs.stop]; omega)

/-- The specification of the merge: `L` up to the end of the slice, and behind it what
the follower has there unless a conflict was found. -/
theorem merge_slice_eq (hmatch : LogMatching n.logs L) (hslice : SliceOf L args)
    (hprev : n.prevMatches args) :
    (n.merge args).logs = L.take args.stop ++
      if SliceConflict n.logs L args then [] else n.logs.drop args.stop := by
  rcases merge_slice hmatch hslice hprev with ⟨hnone, -, htake, hsame⟩ | ⟨hwhy, hcut⟩
  · rw [hsame, if_neg hnone, ← htake, List.take_append_drop]
  · rw [hcut]
    by_cases hconflict : SliceConflict n.logs L args
    · rw [if_pos hconflict, List.append_nil]
    · have hshort : n.logs.length < args.stop := hwhy.resolve_left hconflict
      rw [if_neg hconflict, List.drop_of_length_le hshort.le, List.append_nil]

/-- **Log merge.**  For a follower and a leader whose logs match, the handler returns,
answers success exactly if the logs have the same term at `prevLogIndex`, and then
holds the log of the leader up to the end of the slice, followed by its own entries
behind it unless it had a conflict in the slice. -/
theorem log_merge (n : RaftNode) (L : List LogEntry) (args : AppendEntriesArgs)
    (hlogs : IndexIsPosition n.logs) (hL : IndexIsPosition L) (hmatch : LogMatching n.logs L)
    (hterm : n.currentTerm ≤ args.term) (hslice : SliceOf L args) :
    ∃ m reply, n.handleAppendEntries args = .ok (m, reply) ∧
      (reply.success = true ↔ ∃ mine theirs, n.logs[args.prevLogIndex]? = some mine ∧
        L[args.prevLogIndex]? = some theirs ∧ mine.term = theirs.term) ∧
      (reply.success = true →
        m.logs = L.take args.stop ++
          (if SliceConflict n.logs L args then [] else n.logs.drop args.stop) ∧
        LogMatching m.logs L) ∧
      (reply.success = false → m.logs = n.logs ∧ m.commitIndex = n.commitIndex ∧
        m.lastApplied = n.lastApplied ∧ m.puts = n.puts) := by
  have hok : ∃ r, n.handleAppendEntries args = .ok r :=
    handleAppendEntries_ok fun _ hprev =>
      (indexIsPosition_merge_slice hlogs hL hmatch hslice hprev).backInRange
  obtain ⟨⟨m, reply⟩, hhandle⟩ := hok
  refine ⟨m, reply, hhandle, ?_⟩
  rw [← prevMatches_slice_iff hslice]
  rcases handleAppendEntries_spec hhandle with
    ⟨hstale, -⟩ | ⟨-, hprev, rfl, rfl⟩ | ⟨-, hprev, hfollow, rfl⟩
  · omega
  · simp [hprev, follow]
  · obtain ⟨c, a, p, rfl, -⟩ := followCommit_spec hfollow
    refine ⟨by simp [hprev], fun _ => ?_, by simp⟩
    exact ⟨merge_slice_eq hmatch hslice hprev, logMatching_merge hmatch hslice hprev⟩

/-- A follower of term 1. -/
def follower (logs : List LogEntry) : RaftNode :=
  { new "n1" ["n2", "n3"] with currentTerm := 1, logs := logs }

/-- The log of a follower with two entries that the leader does not have, and the log
of that leader. -/
def staleLog : List LogEntry :=
  [dummyEntry, ⟨1, 1, "k", "v"⟩, ⟨1, 2, "k", "w"⟩, ⟨1, 3, "k", "u"⟩]

def leaderLog : List LogEntry :=
  [dummyEntry, ⟨1, 1, "k", "v"⟩, ⟨2, 2, "k", "x"⟩, ⟨2, 3, "k", "y"⟩]

/-- A message with one entry cuts both stale entries off. -/
theorem log_merge_truncates :
    ∃ m reply, (follower staleLog).handleAppendEntries
        ⟨2, "n2", 1, 1, [⟨2, 2, "k", "x"⟩], 0⟩ = .ok (m, reply) ∧ reply.success = true ∧
      m.logs = [dummyEntry, ⟨1, 1, "k", "v"⟩, ⟨2, 2, "k", "x"⟩] := by
  obtain ⟨m, reply, hhandle, hiff, hsuccess, -⟩ := log_merge (follower staleLog) leaderLog
    ⟨2, "n2", 1, 1, [⟨2, 2, "k", "x"⟩], 0⟩ (by decide) (by decide) (by decide) (by decide)
    ⟨⟨_, rfl, rfl⟩, 1, rfl⟩
  have htrue : reply.success = true := hiff.mpr ⟨_, _, rfl, rfl, rfl⟩
  refine ⟨m, reply, hhandle, htrue, ?_⟩
  rw [(hsuccess htrue).1]
  decide

/-! ## The same message again -/

/-- The log has an entry of the same term for each entry of the message. -/
def HasTerms (logs : List LogEntry) (k : Nat) (entries : List LogEntry) : Prop :=
  ∀ j entry, entries[j]? = some entry → logs[k + j]?.map LogEntry.term = some entry.term

/-- After the loop the log has the terms of the message. -/
theorem hasTerms_mergeEntries {logs : List LogEntry} {k : Nat} (entries : List LogEntry)
    (hk : k ≤ logs.length) : HasTerms (mergeEntries logs k entries) k entries := by
  induction entries generalizing k with
  | nil => simp [HasTerms]
  | cons entry rest ih =>
      intro j e he
      rw [mergeEntries]
      cases hmine : logs[k]? with
      | none =>
          have hlen : logs.length ≤ k := List.getElem?_eq_none_iff.mp hmine
          have hsub : k + j - logs.length = j := by omega
          rw [List.getElem?_append_right (by omega), hsub, he, Option.map_some]
      | some mine =>
          have hlt : k + 1 ≤ logs.length := (List.getElem?_eq_some_iff.mp hmine).1
          simp only
          split_ifs with hterm
          · have hlen : (logs.take k).length = k := List.length_take_of_le hk
            have hsub : k + j - k = j := by omega
            rw [List.getElem?_append_right (by omega), hlen, hsub, he, Option.map_some]
          · cases j with
            | zero =>
                -- The entry at `k` has the right term and stays.
                cases he
                show (mergeEntries logs (k + 1) rest)[k]?.map LogEntry.term = some entry.term
                rw [getElem?_mergeEntries rest hlt (Nat.lt_succ_self k), hmine,
                  Option.map_some, not_ne_iff.mp hterm]
            | succ j =>
                have hnext := ih hlt j e (by simpa using he)
                rwa [Nat.add_assoc, Nat.add_comm 1 j] at hnext

/-- The loop leaves a log that has the terms of the message as it is. -/
theorem mergeEntries_of_hasTerms {logs : List LogEntry} {k : Nat} {entries : List LogEntry}
    (h : HasTerms logs k entries) : mergeEntries logs k entries = logs := by
  induction entries generalizing k with
  | nil => rfl
  | cons entry rest ih =>
      have hfirst := h 0 entry rfl
      rw [Nat.add_zero] at hfirst
      obtain ⟨mine, hmine, hterm⟩ := Option.map_eq_some_iff.mp hfirst
      have hrest : HasTerms logs (k + 1) rest := by
        intro j e he
        have hnext := h (j + 1) e (by simpa using he)
        rwa [Nat.add_assoc, Nat.add_comm 1 j]
      rw [mergeEntries, hmine]
      simp only
      rw [if_neg (not_ne_iff.mpr hterm)]
      exact ih hrest

/-- Step 5 has nothing left to do when it is executed again. -/
theorem followCommit_again {leaderCommit : Nat} (h : n.followCommit leaderCommit = .ok m) :
    m.followCommit leaderCommit = .ok m := by
  obtain ⟨c, a, p, rfl, hcases, -⟩ := followCommit_spec h
  unfold followCommit
  rcases hcases with ⟨hle, rfl, -, -⟩ | ⟨-, hc, ha⟩
  · rw [if_neg (by simp only; omega)]
  · simp only
    split_ifs with hlt
    · -- The commit index is set to the value that it has.
      rw [← hc, applyCommittedLogs]
      have hzero : c - a = 0 := by omega
      simp only [hzero]
      rfl
    · rfl

/-- **A repeated message changes nothing.**  No assumption is made about the node or
the message, except that the handler returns. -/
theorem handleAppendEntries_twice {args : AppendEntriesArgs} {reply : AppendEntriesReply}
    (h : n.handleAppendEntries args = .ok (m, reply)) :
    ∃ reply', m.handleAppendEntries args = .ok (m, reply') ∧ reply'.success = reply.success := by
  rcases handleAppendEntries_spec h with
    ⟨-, rfl, -⟩ | ⟨-, hprev, rfl, rfl⟩ | ⟨-, hprev, hfollow, rfl⟩
  · exact ⟨reply, h, rfl⟩
  · refine ⟨⟨args.term, false⟩, ?_, rfl⟩
    have hagain : ¬ (n.follow args.term).prevMatches args := hprev
    have hfresh : ¬ args.term < (n.follow args.term).currentTerm := lt_irrefl args.term
    rw [handleAppendEntries, if_neg hfresh, if_neg hagain]
    rfl
  · have hlen : args.prevLogIndex + 1 ≤ n.logs.length := prevMatches_lt hprev
    have hagain := followCommit_again hfollow
    have hlogs : m.logs = mergeEntries n.logs (args.prevLogIndex + 1) args.entries ∧
        m.currentTerm = args.term ∧ m.state = .Follower := by
      obtain ⟨c, a, p, rfl, -⟩ := followCommit_spec hfollow
      exact ⟨rfl, rfl, rfl⟩
    obtain ⟨hlogs, hterm, hstate⟩ := hlogs
    have hmatches : m.prevMatches args := by
      obtain ⟨entry, hentry, hsame⟩ := hprev
      refine ⟨entry, ?_, hsame⟩
      rw [hlogs, getElem?_mergeEntries args.entries hlen (Nat.lt_succ_self _), hentry]
    have hmerge : (m.follow args.term).merge args = m := by
      have hterms := hasTerms_mergeEntries args.entries hlen
      rw [← hlogs] at hterms
      simp only [merge, follow, mergeEntries_of_hasTerms hterms, ← hterm, ← hstate]
    refine ⟨⟨m.currentTerm, true⟩, ?_, rfl⟩
    rw [handleAppendEntries, if_neg (by omega), if_pos hmatches, hmerge]
    exact bind_eq_ok.mpr ⟨m, hagain, rfl⟩

/-! ## Messages in any order -/

/-- The message is taken from a snapshot of the growing log `L`. -/
def FromSnapshot (L : List LogEntry) (args : AppendEntriesArgs) : Prop :=
  ∃ S, S <+: L ∧ SliceOf S args

/-- One AppendEntries at a node, as a partial transition function. -/
def deliver (n : RaftNode) (args : AppendEntriesArgs) : Option RaftNode :=
  n.step (.handleAppendEntries args)

theorem deliver_eq_some {args : AppendEntriesArgs} :
    n.deliver args = some m ↔ ∃ reply, n.handleAppendEntries args = .ok (m, reply) := by
  rw [deliver, step_eq_some, exec_handleAppendEntries]

/-- The log matches `L` and begins with its first `k` entries. -/
structure SliceHeld (L : List LogEntry) (k : Nat) (n : RaftNode) : Prop where
  matching : LogMatching n.logs L
  held : L.take k <+: n.logs

/-- An answer of success to a slice of `L` says that the log begins as `L` does, up to
the end of the slice. -/
theorem sliceHeld_of_success {args : AppendEntriesArgs} {reply : AppendEntriesReply}
    (hmatch : LogMatching n.logs L) (hslice : SliceOf L args)
    (h : n.handleAppendEntries args = .ok (m, reply)) (hsuccess : reply.success = true) :
    SliceHeld L args.stop m := by
  rcases handleAppendEntries_spec h with
    ⟨-, -, rfl⟩ | ⟨-, -, -, rfl⟩ | ⟨-, hprev, hfollow, -⟩
  · cases hsuccess
  · cases hsuccess
  · obtain ⟨c, a, p, rfl, -⟩ := followCommit_spec hfollow
    refine ⟨logMatching_merge hmatch hslice hprev, ?_⟩
    show L.take args.stop <+: (n.merge args).logs
    rcases merge_slice hmatch hslice hprev with ⟨-, -, htake, hsame⟩ | ⟨-, hcut⟩
    · rw [hsame, ← htake]
      exact List.take_prefix _ _
    · rw [hcut]

/-- The step lemma: a slice of `L` never cuts off what the log shares with `L`. -/
theorem sliceHeld_step {k : Nat} {args : AppendEntriesArgs} (hk : k ≤ L.length)
    (h : SliceHeld L k n) (hslice : SliceOf L args) (hstep : n.deliver args = some m) :
    SliceHeld L k m := by
  obtain ⟨reply, hhandle⟩ := deliver_eq_some.mp hstep
  have hlen : (L.take k).length = k := List.length_take_of_le hk
  have hbegin : n.logs.take k = L.take k := by
    have heq := List.prefix_iff_eq_take.mp h.held
    rw [hlen] at heq
    exact heq.symm
  rcases (handleAppendEntries_logs hhandle).2 with hsame | ⟨-, hprev, hlogs⟩
  · exact ⟨hsame ▸ h.matching, hsame ▸ h.held⟩
  · refine ⟨hlogs ▸ logMatching_merge h.matching hslice hprev, ?_⟩
    rw [hlogs]
    rcases merge_slice h.matching hslice hprev with ⟨-, -, -, hsame⟩ | ⟨hwhy, hcut⟩
    · rw [hsame]
      exact h.held
    · -- The cut is at a conflict, or behind the end of the log.
      have hle : k ≤ args.stop := by
        rcases hwhy with hconflict | hshort
        · exact (Conflict.lt_of_take_eq hconflict hbegin).le
        · have hheld := h.held.length_le
          omega
      rw [hcut]
      exact List.take_prefix_take_left hle

theorem sliceHeld_run {k : Nat} {msgs : List AppendEntriesArgs} (hk : k ≤ L.length)
    (h : SliceHeld L k n) (hmsgs : ∀ args ∈ msgs, FromSnapshot L args)
    (hrun : run deliver n msgs = some m) : SliceHeld L k m := by
  refine run_invariant (SliceHeld L k) ?_ h (meets_of_forall hmsgs n) hrun
  rintro s args s' hs ⟨S, hS, hslice⟩ hstep
  exact sliceHeld_step hk hs (hslice.mono hS) hstep

/-- A slice of `L` is handled without an access out of range, and the indices stay
sound. -/
theorem deliver_ok {args : AppendEntriesArgs} (hlogs : IndexIsPosition n.logs)
    (hL : IndexIsPosition L) (hmatch : LogMatching n.logs L) (hslice : SliceOf L args) :
    ∃ m, n.deliver args = some m ∧ IndexIsPosition m.logs ∧ LogMatching m.logs L := by
  have hmerge := fun hprev => indexIsPosition_merge_slice hlogs hL hmatch hslice hprev
  have hok : ∃ r, n.handleAppendEntries args = .ok r :=
    handleAppendEntries_ok fun _ hprev => (hmerge hprev).backInRange
  obtain ⟨⟨m, reply⟩, hhandle⟩ := hok
  refine ⟨m, deliver_eq_some.mpr ⟨reply, hhandle⟩, ?_⟩
  rcases (handleAppendEntries_logs hhandle).2 with hsame | ⟨-, hprev, heq⟩
  · rw [hsame]
    exact ⟨hlogs, hmatch⟩
  · rw [heq]
    exact ⟨hmerge hprev, logMatching_merge hmatch hslice hprev⟩

theorem deliver_total {msgs : List AppendEntriesArgs} (hlogs : IndexIsPosition n.logs)
    (hL : IndexIsPosition L) (hmatch : LogMatching n.logs L)
    (hmsgs : ∀ args ∈ msgs, FromSnapshot L args) : ∃ m, run deliver n msgs = some m := by
  have hstep : ∀ (s : RaftNode) (args : AppendEntriesArgs),
      (IndexIsPosition s.logs ∧ LogMatching s.logs L) → FromSnapshot L args →
      ∃ s', s.deliver args = some s' ∧ IndexIsPosition s'.logs ∧ LogMatching s'.logs L := by
    rintro s args ⟨hs, hsL⟩ ⟨S, hS, hslice⟩
    exact deliver_ok hs hL hsL (hslice.mono hS)
  obtain ⟨m, hrun, -⟩ := run_total hstep ⟨hlogs, hmatch⟩ (meets_of_forall hmsgs n)
  exact ⟨m, hrun⟩

/-- **Delayed, repeated and reordered messages are harmless.**  Whatever the node and
the message, handling it again changes neither the node nor the answer.  For slices of
snapshots of one log `L`, in any order, all messages are handled, and from the first
answer of success on the follower keeps `L` up to the end of that message. -/
theorem append_entries_harmless :
    (∀ (n m : RaftNode) (args : AppendEntriesArgs) (reply : AppendEntriesReply),
      n.handleAppendEntries args = .ok (m, reply) →
        ∃ reply', m.handleAppendEntries args = .ok (m, reply') ∧
          reply'.success = reply.success) ∧
    (∀ (L : List LogEntry) (n : RaftNode), LogMatching n.logs L →
      ∀ (before after : List AppendEntriesArgs) (args : AppendEntriesArgs),
        (∀ msg ∈ before ++ args :: after, FromSnapshot L msg) →
        ∀ a b c reply, run deliver n before = some a →
          a.handleAppendEntries args = .ok (b, reply) → reply.success = true →
          run deliver b after = some c → L.take args.stop <+: c.logs) ∧
    (∀ (L : List LogEntry) (n : RaftNode), LogMatching n.logs L → IndexIsPosition n.logs →
      IndexIsPosition L → ∀ msgs : List AppendEntriesArgs,
        (∀ msg ∈ msgs, FromSnapshot L msg) → ∃ m, run deliver n msgs = some m) := by
  refine ⟨fun n m args reply h => handleAppendEntries_twice h, ?_, ?_⟩
  · intro L n hmatch before after args hmsgs a b c reply hbefore hhandle hsuccess hafter
    simp only [List.forall_mem_append, List.forall_mem_cons] at hmsgs
    obtain ⟨hmsgs, ⟨S, hS, hslice⟩, hlater⟩ := hmsgs
    have hstart : SliceHeld L 0 n := ⟨hmatch, by simp⟩
    have hbegun := sliceHeld_run (Nat.zero_le _) hstart hmsgs hbefore
    have hheld := sliceHeld_of_success hbegun.matching (hslice.mono hS) hhandle hsuccess
    exact (sliceHeld_run (hslice.mono hS).stop_le hheld hlater hafter).held
  · intro L n hmatch hlogs hL msgs hmsgs
    exact deliver_total hlogs hL hmatch hmsgs

/-- Both entries of `leaderLog` that the follower lacks, and the first of them alone, as
the leader sent it before it had the second one. -/
def fullMessage : AppendEntriesArgs :=
  ⟨2, "n2", 1, 1, [⟨2, 2, "k", "x"⟩, ⟨2, 3, "k", "y"⟩], 2⟩

def olderMessage : AppendEntriesArgs :=
  ⟨2, "n2", 1, 1, [⟨2, 2, "k", "x"⟩], 1⟩

theorem messages_fromSnapshot :
    ∀ msg ∈ [fullMessage, olderMessage, fullMessage], FromSnapshot leaderLog msg := by
  have hfull : FromSnapshot leaderLog fullMessage :=
    ⟨leaderLog, List.prefix_rfl, ⟨_, rfl, rfl⟩, 2, rfl⟩
  have holder : FromSnapshot leaderLog olderMessage :=
    ⟨leaderLog.take 3, List.take_prefix _ _, ⟨_, rfl, rfl⟩, 2, rfl⟩
  simp only [List.forall_mem_cons, hfull, holder, true_and]
  exact fun _ h => absurd h (List.not_mem_nil)

/-- The older message arrives after the full one, which then comes again: the stale
entries of the follower are gone, and both entries of the leader stay. -/
theorem late_message_keeps_entries :
    ∃ b c reply reply', (follower staleLog).handleAppendEntries fullMessage = .ok (b, reply) ∧
      reply.success = true ∧
      (b.handleAppendEntries fullMessage = .ok (b, reply') ∧ reply'.success = reply.success) ∧
      run deliver b [olderMessage, fullMessage] = some c ∧ leaderLog <+: c.logs := by
  obtain ⟨htwice, hkeep, htotal⟩ := append_entries_harmless
  obtain ⟨c, hrun⟩ := htotal leaderLog (follower staleLog) (by decide) (by decide) (by decide)
    [fullMessage, olderMessage, fullMessage] messages_fromSnapshot
  obtain ⟨b, hfirst, hlater⟩ := run_cons hrun
  obtain ⟨reply, hhandle⟩ := deliver_eq_some.mp hfirst
  have hsuccess : reply.success = true := by
    cases hhandle
    rfl
  obtain ⟨reply', hagain⟩ := htwice _ _ _ _ hhandle
  refine ⟨b, c, reply, reply', hhandle, hsuccess, hagain, hlater, ?_⟩
  exact hkeep leaderLog (follower staleLog) (by decide) [] [olderMessage, fullMessage]
    fullMessage messages_fromSnapshot _ _ _ _ rfl hhandle hsuccess hlater

end RaftNode
end Raft
end YoloServer
