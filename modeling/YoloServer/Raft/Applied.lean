import YoloServer.Raft.IndexInvariant

/-!
# The entries that a node applies

`applyCommittedLogs` hands the entries of the log to the storage one after the other,
never the dummy entry in front.  `PutsInOrder n m` says so of the calls of `put` between
two states, and `AppliesInOrder` adds that the log stays, which is the case for every
function of the node but `handleAppendEntries` and `submitLog`.  `Applies` and
`PutsFromLog` keep of this that only entries of the log are applied.

An entry of the log comes from a message: `LogHolds` carries a property of all entries
behind the dummy through every function of the node.
-/

namespace YoloServer
namespace Raft
namespace RaftNode

open Lib

/-- The calls of `put` by which `n` has become `m` are for entries of the log of `m`. -/
def PutsFromLog (n m : RaftNode) : Prop :=
  ∃ p, m.puts = n.puts ++ p ∧ ∀ q ∈ p, 0 < q.1 ∧ m.logs[q.1]? = some q.2

/-- The log stays, and some of its entries are applied. -/
structure Applies (n m : RaftNode) : Prop where
  logs : m.logs = n.logs
  puts : PutsFromLog n m

/-- The calls of `put` by which `n` has become `m`: one for each position behind
`n.lastApplied` up to `m.lastApplied`, in this order, with the entry that is there. -/
structure PutsInOrder (n m : RaftNode) : Prop where
  le : n.lastApplied ≤ m.lastApplied
  puts : ∃ p, m.puts = n.puts ++ p ∧
    p.map Prod.fst = List.range' (n.lastApplied + 1) (m.lastApplied - n.lastApplied) ∧
    p.map Prod.snd = (m.logs.drop (n.lastApplied + 1)).take (m.lastApplied - n.lastApplied)

/-- The log stays, and its entries are applied in order. -/
structure AppliesInOrder (n m : RaftNode) : Prop where
  logs : m.logs = n.logs
  puts : PutsInOrder n m

/-- All entries behind the dummy have the property. -/
def LogHolds (P : LogEntry → Prop) (logs : List LogEntry) : Prop :=
  ∀ i entry, 0 < i → logs[i]? = some entry → P entry

variable {n m l : RaftNode}

/-! ## One call after the other -/

/-- A function that calls no `put`. -/
theorem PutsInOrder.of_eq (happlied : m.lastApplied = n.lastApplied) (hputs : m.puts = n.puts) :
    PutsInOrder n m := by
  refine ⟨happlied.ge, [], by rw [hputs, List.append_nil], ?_, ?_⟩ <;> simp [happlied]

/-- The calls have not gone beyond the log: where there was one, the last position is in
the log. -/
theorem PutsInOrder.in_range (h : PutsInOrder n m) (hlt : n.lastApplied < m.lastApplied) :
    m.lastApplied < m.logs.length := by
  obtain ⟨-, p, -, hfst, hsnd⟩ := h
  have hcount := congrArg List.length hfst
  have hcount' := congrArg List.length hsnd
  rw [List.length_map, List.length_range'] at hcount
  rw [List.length_map, List.length_take, List.length_drop] at hcount'
  omega

/-- Calls over a log that is only appended to follow one another. -/
theorem PutsInOrder.trans (h₁ : PutsInOrder l n) (h₂ : PutsInOrder n m)
    (hlogs : n.logs <+: m.logs) : PutsInOrder l m := by
  -- What was applied before is still at its place.
  have hsame : (n.logs.drop (l.lastApplied + 1)).take (n.lastApplied - l.lastApplied) =
      (m.logs.drop (l.lastApplied + 1)).take (n.lastApplied - l.lastApplied) := by
    by_cases hlt : l.lastApplied < n.lastApplied
    · have hrange := h₁.in_range hlt
      obtain ⟨rest, hrest⟩ := hlogs
      rw [← hrest, List.drop_append_of_le_length (by omega),
        List.take_append_of_le_length (by rw [List.length_drop]; omega)]
    · rw [Nat.sub_eq_zero_of_le (not_lt.mp hlt), List.take_zero, List.take_zero]
  obtain ⟨hle, p, hp, hfst, hsnd⟩ := h₁
  obtain ⟨hle', p', hp', hfst', hsnd'⟩ := h₂
  have hlen : m.lastApplied - l.lastApplied =
      (n.lastApplied - l.lastApplied) + (m.lastApplied - n.lastApplied) := by omega
  have hstart : n.lastApplied + 1 = l.lastApplied + 1 + (n.lastApplied - l.lastApplied) := by
    omega
  refine ⟨hle.trans hle', p ++ p', by rw [hp', hp, List.append_assoc], ?_, ?_⟩
  · rw [List.map_append, hfst, hfst', hlen, hstart, List.range'_append_1]
  · rw [List.map_append, hsnd, hsnd', hsame, hlen, hstart, List.take_add, List.drop_drop]

/-- The calls hand over entries of the log. -/
theorem PutsInOrder.fromLog (h : PutsInOrder n m) : PutsFromLog n m := by
  obtain ⟨hle, p, hp, hfst, hsnd⟩ := h
  refine ⟨p, hp, fun q hq => ?_⟩
  obtain ⟨i, hi, rfl⟩ := List.getElem_of_mem hq
  have hlen : i < m.lastApplied - n.lastApplied := by
    have hlength := congrArg List.length hfst
    rw [List.length_map, List.length_range'] at hlength
    omega
  have hindex : p[i].1 = n.lastApplied + 1 + i := by
    have hget := congrArg (·[i]?) hfst
    simpa [hi, hlen] using hget
  have hentry : m.logs[n.lastApplied + 1 + i]? = some p[i].2 := by
    have hget := congrArg (·[i]?) hsnd
    simpa [hi, hlen, List.getElem?_take_of_lt hlen] using hget.symm
  rw [hindex]
  exact ⟨by omega, hentry⟩

/-- The position up to which entries were applied is the last one of the calls. -/
theorem PutsInOrder.mem_last (h : PutsInOrder n m) (hlt : n.lastApplied < m.lastApplied) :
    ∃ p entry, m.puts = n.puts ++ p ∧ (m.lastApplied, entry) ∈ p := by
  obtain ⟨hle, p, hp, hfst, -⟩ := h
  have hmem : m.lastApplied ∈ p.map Prod.fst := by
    rw [hfst, List.mem_range'_1]
    omega
  obtain ⟨⟨i, entry⟩, hq, rfl⟩ := List.mem_map.mp hmem
  exact ⟨p, entry, hp, hq⟩

theorem AppliesInOrder.of_eq (hlogs : m.logs = n.logs)
    (happlied : m.lastApplied = n.lastApplied) (hputs : m.puts = n.puts) : AppliesInOrder n m :=
  ⟨hlogs, .of_eq happlied hputs⟩

theorem AppliesInOrder.refl (n : RaftNode) : AppliesInOrder n n :=
  .of_eq rfl rfl rfl

theorem AppliesInOrder.trans (h₁ : AppliesInOrder l n) (h₂ : AppliesInOrder n m) :
    AppliesInOrder l m :=
  ⟨h₂.logs.trans h₁.logs, h₁.puts.trans h₂.puts (h₂.logs ▸ List.prefix_rfl)⟩

theorem AppliesInOrder.applies (h : AppliesInOrder n m) : Applies n m :=
  ⟨h.logs, h.puts.fromLog⟩

theorem appliesInOrder_applyLoop {k : Nat} (h : applyLoop k n = .ok m) :
    AppliesInOrder n m := by
  induction k generalizing n with
  | zero =>
      cases h
      exact .refl _
  | succ k ih =>
      obtain ⟨entry, hentry, hrest⟩ := bind_eq_ok.mp h
      -- The call of the first iteration.
      have hfirst : AppliesInOrder n
          { n with
            lastApplied := n.lastApplied + 1
            puts := n.puts ++ [(n.lastApplied + 1, entry)] } := by
        refine ⟨rfl, by simp, [(n.lastApplied + 1, entry)], rfl, by simp, ?_⟩
        obtain ⟨hlt, rfl⟩ := List.getElem?_eq_some_iff.mp (logAt_eq_ok.mp hentry)
        simp only [Nat.add_sub_cancel_left]
        rw [List.drop_eq_getElem_cons hlt]
        rfl
      exact hfirst.trans (ih hrest)

theorem putsInOrder_followCommit {leaderCommit : Nat} (h : n.followCommit leaderCommit = .ok m) :
    PutsInOrder n m := by
  unfold followCommit at h
  split_ifs at h
  · have happly := (appliesInOrder_applyLoop h).puts
    exact ⟨happly.le, happly.puts⟩
  · cases h
    exact .of_eq rfl rfl

/-! ## Elections and heartbeats -/

theorem appliesInOrder_onVoteReply {votes : Nat} {reply : Option RequestVoteReply}
    {next : Option Nat} (h : n.onVoteReply votes reply = (m, next)) : AppliesInOrder n m := by
  rcases onVoteReply_spec h with ⟨rfl, -⟩ | ⟨r, -, -, rfl, -⟩
  · exact .refl _
  · exact .of_eq rfl rfl rfl

theorem appliesInOrder_finishElection (n : RaftNode) (votes : Nat) :
    AppliesInOrder n (n.finishElection votes) := by
  rcases finishElection_spec n votes with heq | ⟨-, heq⟩
  · rw [heq]
    exact .refl n
  · rw [heq]
    exact .of_eq rfl rfl rfl

theorem appliesInOrder_startElection (n : RaftNode) (replies : List (Option RequestVoteReply)) :
    AppliesInOrder n (n.startElection replies) :=
  AppliesInOrder.trans (AppliesInOrder.of_eq rfl rfl rfl : AppliesInOrder n n.beginElection)
    (electionRound_related (R := AppliesInOrder) (fun _ _ _ => AppliesInOrder.trans)
      (fun _ _ _ _ _ => appliesInOrder_onVoteReply) appliesInOrder_finishElection
      n.beginElection 1 n.peers replies)

theorem appliesInOrder_advanceCommit (h : n.advanceCommit = .ok m) : AppliesInOrder n m := by
  unfold advanceCommit at h
  split_ifs at h
  · obtain ⟨entry, -, hrest⟩ := bind_eq_ok.mp h
    split_ifs at hrest
    · have happly := appliesInOrder_applyLoop hrest
      exact ⟨happly.logs, happly.puts.le, happly.puts.puts⟩
    · cases hrest
      exact .refl _
  · cases h
    exact .refl _

theorem appliesInOrder_onAppendReply {peer : String} {out : Outgoing}
    {reply : AppendEntriesReply} {goOn : Bool}
    (h : n.onAppendReply peer out reply = .ok (m, goOn)) : AppliesInOrder n m := by
  rcases onAppendReply_spec h with
    ⟨-, -, hadvance⟩ | ⟨-, -, -, rfl⟩ | ⟨-, -, -, rfl⟩ | ⟨-, -, rfl⟩
  · exact AppliesInOrder.trans
      (AppliesInOrder.of_eq rfl rfl rfl : AppliesInOrder n (n.acknowledge peer _))
      (appliesInOrder_advanceCommit hadvance)
  · exact .of_eq rfl rfl rfl
  · exact .of_eq rfl rfl rfl
  · exact .refl _

theorem appliesInOrder_heartbeatRound {replies : List (Option AppendEntriesReply)}
    (h : n.heartbeatRound replies = .ok m) : AppliesInOrder n m :=
  heartbeatRound_related (R := AppliesInOrder) AppliesInOrder.refl (fun _ _ _ => AppliesInOrder.trans)
    (fun _ _ _ _ _ _ => appliesInOrder_onAppendReply) h

/-! ## The handlers -/

theorem appliesInOrder_handleRequestVote (n : RaftNode) (args : RequestVoteArgs) :
    AppliesInOrder n (n.handleRequestVote args).1 := by
  unfold handleRequestVote castVote adoptTerm stepDown
  split_ifs
  · exact .refl _
  all_goals exact .of_eq rfl rfl rfl

/-- The entries that `handleAppendEntries` applies are in the log that it leaves. -/
theorem putsInOrder_handleAppendEntries {args : AppendEntriesArgs} {reply : AppendEntriesReply}
    (h : n.handleAppendEntries args = .ok (m, reply)) : PutsInOrder n m := by
  rcases handleAppendEntries_spec h with
    ⟨-, rfl, -⟩ | ⟨-, -, rfl, -⟩ | ⟨-, -, hfollow, -⟩
  · exact .of_eq rfl rfl
  · exact .of_eq rfl rfl
  · have hputs := putsInOrder_followCommit hfollow
    exact ⟨hputs.le, hputs.puts⟩

theorem putsInOrder_submitLog (n : RaftNode) (key value : String) :
    PutsInOrder n (n.submitLog key value).1 := by
  rcases submitLog_spec n key value with heq | ⟨-, heq⟩
  · rw [heq]
    exact .of_eq rfl rfl
  · rw [heq]
    exact .of_eq rfl rfl

/-! ## The entries of the log -/

variable {P : LogEntry → Prop}

theorem logHolds_dummy (P : LogEntry → Prop) : LogHolds P [dummyEntry] := by
  intro i entry hi hentry
  have hlong : [dummyEntry].length ≤ i := hi
  rw [List.getElem?_eq_none hlong] at hentry
  cases hentry

/-- A merge takes entries of the log and of the message. -/
theorem logHolds_merge {args : AppendEntriesArgs} (h : LogHolds P n.logs)
    (hprev : n.prevMatches args) (hentries : ∀ entry ∈ args.entries, P entry) :
    LogHolds P (n.merge args).logs := by
  have hlt := prevMatches_lt hprev
  rcases mergeEntries_cases args.entries (show args.prevLogIndex + 1 ≤ n.logs.length by omega) with
    hsame | ⟨j, -, -, heq⟩
  · rw [merge, hsame]
    exact h
  · rw [merge, heq]
    intro i entry hi hentry
    by_cases hcut : i < (n.logs.take (args.prevLogIndex + 1 + j)).length
    · rw [List.getElem?_append_left hcut] at hentry
      rw [List.length_take] at hcut
      rw [List.getElem?_take_of_lt (by omega)] at hentry
      exact h i entry hi hentry
    · rw [List.getElem?_append_right (by omega)] at hentry
      exact hentries entry (List.mem_of_mem_drop (List.mem_of_getElem? hentry))

/-- The log that `handleAppendEntries` leaves, if the entries it takes up have the
property. -/
theorem logHolds_handleAppendEntries {args : AppendEntriesArgs} {reply : AppendEntriesReply}
    (h : LogHolds P n.logs)
    (hentries : n.currentTerm ≤ args.term → n.prevMatches args → ∀ entry ∈ args.entries, P entry)
    (hhandle : n.handleAppendEntries args = .ok (m, reply)) : LogHolds P m.logs := by
  rcases (handleAppendEntries_logs hhandle).2 with hsame | ⟨hle, hprev, hlogs⟩
  · rw [hsame]
    exact h
  · rw [hlogs]
    exact logHolds_merge h hprev (hentries hle hprev)

end RaftNode
end Raft
end YoloServer
