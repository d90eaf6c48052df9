import YoloServer.Raft.ElectionSafety

/-!
# What a leader knows about its peers

`heartbeatLoop` computes `matchIndex` of a peer from the entries it collected for
that peer, while the message it sends carries none of them.  Here the recorded
index is compared with the logs of both sides at the moment the peer answered.

* `Truthful` is the property: every index up to `matchIndex` holds the same entry
  on both sides.
* `NothingPending` excludes the one step that breaks it: a success is taken up
  for a heartbeat for which entries had been collected.
* `bookkeeping_truthful`: as long as that does not happen, the bookkeeping is
  truthful in every state.  Two members share no entry but the dummy, since each
  log only holds terms its own node has won, so an honest success can only be
  about position 0.
* `not_truthful_of_counted`: when it does happen, the bookkeeping is wrong.
-/

namespace YoloServer
namespace Raft

open Function Lib

namespace RaftNode

variable {n m : RaftNode}

/-! ## The match indices of one node -/

theorem matchIndex_onVoteReply {votes : Nat} {reply : Option RequestVoteReply}
    {next : Option Nat} (h : n.onVoteReply votes reply = (m, next)) :
    m.matchIndex = n.matchIndex := by
  rcases onVoteReply_spec h with ⟨rfl, -⟩ | ⟨r, -, -, rfl, -⟩ <;> rfl

theorem matchIndex_handleRequestVote {args : RequestVoteArgs} {reply : RequestVoteReply}
    (h : n.handleRequestVote args = (m, reply)) : m.matchIndex = n.matchIndex := by
  have hadopt : (n.adoptTerm args.term).matchIndex = n.matchIndex := by
    unfold adoptTerm
    split_ifs <;> rfl
  rcases handleRequestVote_spec h with ⟨-, rfl, -⟩ | ⟨-, rfl, -⟩ | ⟨-, -, -, rfl, -⟩
  · rfl
  · exact hadopt
  · exact hadopt

theorem matchIndex_handleAppendEntries {args : AppendEntriesArgs}
    {reply : AppendEntriesReply} (h : n.handleAppendEntries args = .ok (m, reply)) :
    m.matchIndex = n.matchIndex := by
  rcases handleAppendEntries_spec h with
    ⟨-, rfl, -⟩ | ⟨-, -, rfl, -⟩ | ⟨-, -, hfollow, -⟩
  · rfl
  · rfl
  · obtain ⟨c, a, p, rfl, -⟩ := followCommit_spec hfollow
    rfl

theorem matchIndex_submitLog (n : RaftNode) (key value : String) :
    (n.submitLog key value).1.matchIndex = n.matchIndex ∧
      (n.submitLog key value).1.state = n.state := by
  rcases submitLog_spec n key value with h | ⟨-, h⟩ <;> rw [h] <;> exact ⟨rfl, rfl⟩

/-- A success for `peer` sets its match index and no other one. -/
theorem matchIndex_advanceCommit {peer : String} {next : Nat}
    (h : (n.acknowledge peer next).advanceCommit = .ok m) :
    m.matchIndex = n.matchIndex.insert peer (sub64 next 1) ∧ m.state = n.state := by
  rcases advanceCommit_spec h with rfl | ⟨_, _, _, _, _, rfl, _⟩ <;> exact ⟨rfl, rfl⟩

end RaftNode

namespace Cluster

open RaftNode

variable {M : Membership} {s s' : Cluster} {e : Event}

/-! ## The property and the step that breaks it -/

/-- What a leader has recorded about a peer was true when the peer answered: both
logs held the same entry at every position up to the match index.  A match index
that no answer has set is 0. -/
def Truthful (M : Membership) (s : Cluster) : Prop :=
  ∀ i p, (s.node i).state = .Leader → p ∈ M.peers i →
    match s.acks i p with
    | none => (s.node i).matchIndex.at p = 0
    | some a => ∀ k ≤ (s.node i).matchIndex.at p,
        ∃ entry, a.dstLogs[k]? = some entry ∧ a.srcLogs[k]? = some entry

/-- The entries that a node counts as replicated when it takes up the answer it is
waiting for. -/
def countedEntries (s : Cluster) (i : String) : List LogEntry :=
  match s.task i with
  | .awaitAppend _ _ out rpc =>
      match s.answerTo rpc with
      | some ⟨_, .append reply, _, _⟩ => if reply.success then out.entries else []
      | _ => []
  | _ => []

/-- No success is taken up for a heartbeat for which entries had been collected. -/
def NothingPending (s : Cluster) : Event → Prop
  | .receive i => s.countedEntries i = []
  | _ => True

instance (s : Cluster) : (e : Event) → Decidable (NothingPending s e)
  | .receive _ => inferInstanceAs (Decidable (_ = _))
  | .startElection _ | .heartbeat _ | .send _ | .fail _ | .finish _ | .handle _
  | .submitLog .. => inferInstanceAs (Decidable True)

/-- Node `i` takes up the success `a` of `peer` in the step from `s` to `s'`. -/
structure TakesSuccess (s s' : Cluster) (i peer : String) (out : Outgoing)
    (a : Answer) : Prop where
  task : ∃ rest, s.task i = .awaitAppend peer rest out a.rpc
  answer : s.answerTo a.rpc = some a
  success : ∃ reply, a.response = .append reply ∧ reply.success = true
  node : ((s.node i).acknowledge peer (out.nextIndex + out.entries.length)).advanceCommit =
    .ok (s'.node i)
  acks : s'.acks i = update (s.acks i) peer (some a)

theorem takesSuccess_of_reply {i peer : String} {rest : List String} {out : Outgoing}
    {rpc : Nat} {reply : AppendEntriesReply} {a : Answer}
    (htask : s.task i = .awaitAppend peer rest out rpc) (hanswer : s.answerTo rpc = some a)
    (hresponse : a.response = .append reply) (hsucc : reply.success = true)
    (hack : ((s.node i).acknowledge peer (out.nextIndex + out.entries.length)).advanceCommit =
      .ok (s'.node i))
    (hacks : s'.acks i = if reply.success then update (s.acks i) peer (some a) else s.acks i) :
    TakesSuccess s s' i peer out a := by
  have hrpc : a.rpc = rpc := by simpa using List.find?_some hanswer
  rw [if_pos hsucc] at hacks
  exact ⟨⟨rest, hrpc ▸ htask⟩, hrpc ▸ hanswer, ⟨reply, hresponse, hsucc⟩, hack, hacks⟩

theorem TakesSuccess.countedEntries {i peer : String} {out : Outgoing} {a : Answer}
    (h : TakesSuccess s s' i peer out a) : s.countedEntries i = out.entries := by
  obtain ⟨rest, htask⟩ := h.task
  have hanswer := h.answer
  obtain ⟨reply, hresponse, hsuccess⟩ := h.success
  obtain ⟨rpc, response, dstLogs, srcLogs⟩ := a
  simp only at hresponse htask hanswer
  subst hresponse
  simp [Cluster.countedEntries, htask, hanswer, hsuccess]

/-- How the match indices of a node and their origin change in a step: not at all,
by winning an election, or by a success. -/
theorem matchIndex_step (hinv : Inv M s) (h : Step M s e s') (i : String) :
    ((s'.node i).matchIndex = (s.node i).matchIndex ∧ s'.acks i = s.acks i ∧
        ((s'.node i).state = .Leader → (s.node i).state = .Leader)) ∨
      (∃ votes, majority (s.node i).peers ≤ votes ∧
        s'.node i = (s.node i).finishElection votes ∧ s'.acks i = fun _ => none) ∨
      (∃ peer out a, e = .receive i ∧ TakesSuccess s s' i peer out a) := by
  cases moves_of_step h i with
  | stays hnode hacks =>
      rw [hnode]
      exact .inl ⟨rfl, hacks, fun h => h⟩
  | startElection hnode hacks =>
      rw [hnode]
      exact .inl ⟨rfl, hacks, by simp [beginElection]⟩
  | voteReply hreply hnode hacks =>
      rw [hnode]
      exact .inl ⟨matchIndex_onVoteReply hreply, hacks,
        fun hlead => ((quiet_onVoteReply hreply).leader hlead).1⟩
  | @appendReply peer _ out _ _ a _ _ htask hanswer hresponse hreply hnode hacks =>
      have hquiet := quiet_onAppendReply hreply
      rcases onAppendReply_spec hreply with
        ⟨hsucc, -, hack⟩ | ⟨hfail, -, -, hn⟩ | ⟨hfail, -, -, hn⟩ | ⟨hfail, -, hn⟩
      · exact .inr (.inr ⟨peer, out, a, rfl,
          takesSuccess_of_reply htask hanswer hresponse hsucc (hnode ▸ hack) hacks⟩)
      all_goals
        rw [hnode]
        exact .inl ⟨by simp [hn, stepDown], by simp [hacks, hfail],
          fun hlead => (hquiet.leader hlead).1⟩
  | @finishElection votes htask hnode hacks =>
      by_cases hmaj : majority (s.node i).peers ≤ votes
      · rw [if_pos hmaj] at hacks
        exact .inr (.inl ⟨votes, hmaj, hnode, hacks⟩)
      · rw [if_neg hmaj] at hacks
        rw [hnode, RaftNode.finishElection, if_neg hmaj]
        exact .inl ⟨rfl, hacks, fun h => h⟩
  | handleVote hhandle hnode hacks =>
      rw [hnode]
      exact .inl ⟨matchIndex_handleRequestVote hhandle, hacks,
        fun hlead => ((quiet_handleRequestVote hhandle).leader hlead).1⟩
  | handleAppend hsent hhandle hnode hacks =>
      have hempty := (hinv.requests _ hsent).2.2.1
      rw [hnode]
      exact .inl ⟨matchIndex_handleAppendEntries hhandle, hacks,
        fun hlead => ((quiet_handleAppendEntries hhandle hempty).leader hlead).1⟩
  | @submitLog key value hi hnode hacks =>
      obtain ⟨hmatch, hstate⟩ := matchIndex_submitLog (s.node i) key value
      rw [hnode]
      exact .inl ⟨hmatch, hacks, fun hlead => hstate ▸ hlead⟩

/-! ## Two members share no entry but the dummy -/

theorem logs_zero (hinv : Inv M s) (i : String) : (s.node i).logs[0]? = some dummyEntry := by
  obtain ⟨tail, hlogs, -⟩ := hinv.entries i
  simp [hlogs]

/-- An entry beyond the dummy has a term that its node has won. -/
theorem elected_of_log (hinv : Inv M s) {i : String} {k : Nat} {entry : LogEntry}
    (hk : 1 ≤ k) (h : (s.node i).logs[k]? = some entry) : Elected M s i entry.term := by
  obtain ⟨tail, hlogs, htail⟩ := hinv.entries i
  obtain ⟨k, rfl⟩ := Nat.exists_eq_add_of_le' hk
  rw [hlogs, List.getElem?_cons_succ] at h
  exact htail entry (List.mem_of_getElem? h)

/-- Entries of one term beyond the dummy belong to one member. -/
theorem owner_unique (hinv : Inv M s) {i j : String} (hi : i ∈ M.ids) (hj : j ∈ M.ids)
    {k l : Nat} {e₁ e₂ : LogEntry} (hk : 1 ≤ k) (hl : 1 ≤ l)
    (h₁ : (s.node i).logs[k]? = some e₁) (h₂ : (s.node j).logs[l]? = some e₂)
    (hterm : e₁.term = e₂.term) : i = j := by
  have helected₁ := elected_of_log hinv hk h₁
  rw [hterm] at helected₁
  exact elected_unique hinv hi hj helected₁ (elected_of_log hinv hl h₂)

/-- What is known about a success that a node takes up. -/
theorem TakesSuccess.facts (hinv : Inv M s) {i peer : String} {out : Outgoing} {a : Answer}
    (h : TakesSuccess s s' i peer out a) :
    (i ∈ M.ids ∧ peer ∈ M.peers i ∧ (s.node i).state = .Leader) ∧
      (s.node i).prepareAppend peer = .ok out ∧
      (a.srcLogs = (s.node i).logs ∧ a.dstLogs <+: (s.node peer).logs) ∧
      ∃ prev, a.dstLogs[out.args.prevLogIndex]? = some prev ∧
        prev.term = out.args.prevLogTerm := by
  obtain ⟨rest, htask⟩ := h.task
  obtain ⟨hi, hlead, hrest, hsent, hout, hlogs⟩ := hinv.taskOk htask
  -- The answer belongs to the request this node is waiting for.
  have hmem := List.mem_of_find?_eq_some h.answer
  obtain ⟨r, hr, hdst, -, hbody⟩ := hinv.answers a hmem
  rw [hsent] at hr
  cases hr
  obtain ⟨reply, hresponse, hsuccess⟩ := h.success
  rw [hresponse] at hbody
  obtain ⟨args, prev, hargs, hprev, hterm⟩ := hbody hsuccess
  cases hargs
  exact ⟨⟨hi, hrest peer List.mem_cons_self, hlead⟩, hout, ⟨hlogs a hmem rfl, hdst⟩,
    prev, hprev, hterm⟩

/-- The position a peer has confirmed is that of the dummy entry. -/
theorem TakesSuccess.prev_zero (hinv : Inv M s) {i peer : String} {out : Outgoing}
    {a : Answer} (h : TakesSuccess s s' i peer out a) : out.args.prevLogIndex = 0 := by
  obtain ⟨⟨hi, hpeer, -⟩, hout, ⟨-, hdst⟩, prev, hprev, hterm⟩ := h.facts hinv
  obtain ⟨hmem, hne⟩ := (M.mem_peers i hi peer).mp hpeer
  obtain ⟨mine, hmine, rfl⟩ := prepareAppend_spec hout
  -- Otherwise both logs have an entry of a term that only one member has won.
  by_contra hpos
  exact hne (owner_unique hinv hmem hi (Nat.pos_of_ne_zero hpos) (Nat.pos_of_ne_zero hpos)
    (prefix_getElem? hdst hprev) hmine hterm)

/-! ## The bookkeeping while nothing is pending -/

/-- The match indices of a leader are those of a new leader, and every answer it
has taken up confirmed the dummy entry. -/
structure BookZero (M : Membership) (s : Cluster) : Prop where
  keys : ∀ i p, p ∉ M.peers i → (s.node i).matchIndex.lookup p = none
  zero : ∀ i, (s.node i).state = .Leader → ∀ p ∈ M.peers i,
    (s.node i).matchIndex.lookup p = some 0
  acked : ∀ i p a, s.acks i p = some a →
    a.dstLogs[0]? = some dummyEntry ∧ a.srcLogs[0]? = some dummyEntry

theorem bookZero_init (M : Membership) : BookZero M (init M) where
  keys := by simp [init, new]
  zero := by simp [init, new]
  acked := by simp [init]

theorem bookZero_step (hinv : Inv M s) (hbook : BookZero M s) (hpending : NothingPending s e)
    (h : Step M s e s') : BookZero M s' := by
  have hcases := matchIndex_step hinv h
  have hpeers := fun i => (hinv.ident i).2
  refine ⟨?_, ?_, ?_⟩
  · intro i p hp
    rcases hcases i with ⟨hmatch, -⟩ | ⟨votes, hmaj, hnode, -⟩ | ⟨peer, out, a, -, hack⟩
    · rw [hmatch]
      exact hbook.keys i p hp
    · rw [hnode, RaftNode.finishElection, if_pos hmaj]
      simp only [IndexMap.lookup_foldl_insert, hpeers, hp, if_false]
      exact hbook.keys i p hp
    · obtain ⟨⟨-, hpeer, -⟩, -⟩ := hack.facts hinv
      have hne : p ≠ peer := fun heq => hp (heq ▸ hpeer)
      rw [(matchIndex_advanceCommit hack.node).1, AList.lookup_insert_ne hne]
      exact hbook.keys i p hp
  · intro i hlead p hp
    rcases hcases i with ⟨hmatch, -, hold⟩ | ⟨votes, hmaj, hnode, -⟩ | ⟨peer, out, a, rfl, hack⟩
    · rw [hmatch]
      exact hbook.zero i (hold hlead) p hp
    · rw [hnode, RaftNode.finishElection, if_pos hmaj]
      simp only [IndexMap.lookup_foldl_insert, hpeers, hp, if_true]
    · have hnone : out.entries = [] := hack.countedEntries.symm.trans hpending
      have hprev := hack.prev_zero hinv
      obtain ⟨⟨-, -, hwas⟩, hout, -⟩ := hack.facts hinv
      obtain ⟨mine, -, rfl⟩ := prepareAppend_spec hout
      -- Nothing was collected, so the new match index is `prevLogIndex`.
      rw [(matchIndex_advanceCommit hack.node).1, hnone]
      by_cases hpp : p = peer
      · subst hpp
        simpa using hprev
      · rw [AList.lookup_insert_ne hpp]
        exact hbook.zero i hwas p hp
  · intro i p b hb
    rcases hcases i with ⟨-, hacks, -⟩ | ⟨votes, -, -, hacks⟩ | ⟨peer, out, a, -, hack⟩
    · exact hbook.acked i p b (hacks ▸ hb)
    · simp [hacks] at hb
    · rw [hack.acks] at hb
      by_cases hpp : p = peer
      · subst hpp
        simp only [update_self, Option.some.injEq] at hb
        subst hb
        obtain ⟨-, -, ⟨hsrc, hdst⟩, prev, hprev, -⟩ := hack.facts hinv
        rw [hack.prev_zero hinv] at hprev
        have hsame := prefix_getElem? hdst hprev
        rw [logs_zero hinv, Option.some.injEq] at hsame
        exact ⟨hsame ▸ hprev, hsrc ▸ logs_zero hinv i⟩
      · rw [update_of_ne hpp] at hb
        exact hbook.acked i p b hb

theorem BookZero.truthful (h : BookZero M s) : Truthful M s := by
  intro i p hlead hp
  have hzero : (s.node i).matchIndex.at p = 0 := by
    simp [IndexMap.at, h.zero i hlead p hp]
  rw [hzero]
  cases hack : s.acks i p with
  | none => rfl
  | some a =>
      obtain ⟨hdst, hsrc⟩ := h.acked i p a hack
      intro k hk
      obtain rfl : k = 0 := by omega
      exact ⟨dummyEntry, hdst, hsrc⟩

/-- The run lemma for runs in which nothing is pending. -/
theorem bookZero_run {es : List Event}
    (hterms : Meets (step M) NoTermOverflow (init M) es)
    (hpending : Meets (step M) NothingPending (init M) es)
    (hrun : run (step M) (init M) es = some s) : Inv M s ∧ BookZero M s := by
  have hboth := hterms.and hpending
  refine run_invariant (fun s => Inv M s ∧ BookZero M s) ?_ ⟨inv_init M, bookZero_init M⟩ hboth hrun
  intro t e t' ht hcond hstep
  exact ⟨(inv_step ht.1 hcond.1 hstep).1,
    bookZero_step ht.1 ht.2 hcond.2 (step_sound hstep)⟩

/-- **Truthful bookkeeping.**  In every run in which no term overflows and no
success is taken up while entries are pending, every state is truthful. -/
theorem bookkeeping_truthful (M : Membership) (es : List Event) (s : Cluster)
    (hterms : Meets (step M) NoTermOverflow (init M) es)
    (hpending : Meets (step M) NothingPending (init M) es)
    (hrun : run (step M) (init M) es = some s) : Truthful M s :=
  (bookZero_run hterms hpending hrun).2.truthful

/-- Node `a` sends a heartbeat to `b`, which answers, and to `c`, whose RPC fails. -/
def heartbeatToB (rpc : Nat) : List Event :=
  [.heartbeat "a", .send "a", .handle rpc, .receive "a", .send "a", .fail "a", .finish "a"]

/-- A leader with an empty log records truthfully that `b` has the dummy entry,
and stays truthful when an entry is submitted afterwards. -/
theorem truthful_before_first_pending :
    ∃ s, run (step trio) (init trio)
        (electA ++ heartbeatToB 2 ++ [.submitLog "a" "k" "v"]) = some s ∧
      ((s.node "a").state = .Leader ∧ (s.acks "a" "b").isSome) ∧ Truthful trio s := by
  obtain ⟨s, hrun, hfacts⟩ := exists_run_of_check (step trio) (init trio)
    (electA ++ heartbeatToB 2 ++ [.submitLog "a" "k" "v"])
    (fun t => (t.node "a").state = .Leader ∧ (t.acks "a" "b").isSome) (by decide)
  exact ⟨s, hrun, hfacts, bookkeeping_truthful trio _ s (by decide) (by decide) hrun⟩

/-- Node `a` submits an entry, sends a heartbeat that carries no entry, and counts
the success of `b` as a copy of the entry. -/
theorem match_index_untruthful_after_submit :
    ∃ s, run (step trio) (init trio)
        (electA ++ [.submitLog "a" "k" "v"] ++ heartbeatToB 2) = some s ∧
      Meets (step trio) NoTermOverflow (init trio)
        (electA ++ [.submitLog "a" "k" "v"] ++ heartbeatToB 2) ∧ ¬ Truthful trio s := by
  obtain ⟨s, hrun, hlead, hmatch, hlogs⟩ := exists_run_of_check (step trio) (init trio)
    (electA ++ [.submitLog "a" "k" "v"] ++ heartbeatToB 2)
    (fun t => (t.node "a").state = .Leader ∧ (t.node "a").matchIndex.at "b" = 1 ∧
      (t.acks "a" "b").map (fun a => a.dstLogs) = some [dummyEntry]) (by decide)
  refine ⟨s, hrun, by decide, ?_⟩
  intro htruth
  have hb := htruth "a" "b" hlead (by decide)
  obtain ⟨a, hack, hdst⟩ := Option.map_eq_some_iff.mp hlogs
  rw [hack] at hb
  obtain ⟨entry, hentry, -⟩ := hb 1 hmatch.ge
  simp [hdst] at hentry

/-! ## The condition is exact -/

/-- A success for a heartbeat with pending entries makes the leader record an
entry that the peer does not have. -/
theorem not_truthful_of_counted (hinv : Inv M s) {i peer : String} {out : Outgoing}
    {a : Answer} (h : TakesSuccess s s' i peer out a) (hcount : out.entries ≠ [])
    (hfit : (s.node i).logs.length < 2 ^ 64) : ¬ Truthful M s' := by
  obtain ⟨⟨hi, hpeer, hlead⟩, hout, ⟨hsrc, hdst⟩, -⟩ := h.facts hinv
  obtain ⟨hmem, hne⟩ := (M.mem_peers i hi peer).mp hpeer
  obtain ⟨hmatch, hstate⟩ := matchIndex_advanceCommit h.node
  obtain ⟨prev, hprev, rfl⟩ := prepareAppend_spec hout
  have hlt : (s.node i).nextIndex.at peer < (s.node i).logs.length := by
    by_contra hge
    exact hcount (List.drop_eq_nil_of_le (by omega))
  -- The slice is not empty and has a predecessor, so there are two entries at least.
  have hlen : 2 ≤ (s.node i).logs.length := by
    have hin := (List.getElem?_eq_some_iff.mp hprev).1
    unfold sub64 at hin
    omega
  have hindex : (s'.node i).matchIndex.at peer = (s.node i).logs.length - 1 := by
    rw [hmatch, IndexMap.at_insert_self, List.length_drop, sub64]
    simp only
    omega
  intro htruth
  have hrecord := htruth i peer (hstate.trans hlead) hpeer
  rw [h.acks, update_self] at hrecord
  -- The last entry of the leader would also be an entry of the peer.
  obtain ⟨entry, hthere, hhere⟩ := hrecord _ hindex.ge
  rw [hsrc] at hhere
  exact hne (owner_unique hinv hmem hi (by omega) (by omega) (prefix_getElem? hdst hthere)
    hhere rfl)

/-- The step in which a node counts entries takes up a success. -/
theorem takesSuccess_of_counted {i : String} (h : Step M s (.receive i) s')
    (hcount : s.countedEntries i ≠ []) :
    ∃ peer out a, out.entries ≠ [] ∧ TakesSuccess s s' i peer out a := by
  cases h with
  | receiveVote _ peer rest votes rpc reply a n next htask hanswer hresponse hreply =>
      simp [Cluster.countedEntries, htask] at hcount
  | receiveAppend _ peer rest out rpc reply a n goOn htask hanswer hresponse hreply =>
      rcases onAppendReply_spec hreply with ⟨hsucc, -, hack⟩ | ⟨hfail, -⟩ | ⟨hfail, -⟩ |
        ⟨hfail, -⟩
      · suffices htakes : TakesSuccess s _ i peer out a from
          ⟨peer, out, a, htakes.countedEntries ▸ hcount, htakes⟩
        exact takesSuccess_of_reply htask hanswer hresponse hsucc
          (by simpa only [setNode, update_self] using hack) (by simp [hsucc])
      all_goals
        obtain ⟨k, response, dstLogs, srcLogs⟩ := a
        simp only at hresponse
        subst hresponse
        simp [Cluster.countedEntries, htask, hanswer, hfail] at hcount

/-- All logs are shorter than the numbers that index them. -/
def LogsFit (s : Cluster) (_ : Event) : Prop :=
  ∀ i, (s.node i).logs.length < 2 ^ 64

/-- The bookkeeping is truthful throughout a run exactly if no success is taken up
while entries are pending. -/
theorem truthful_throughout_iff (M : Membership) (es : List Event) (s : Cluster)
    (hterms : Meets (step M) NoTermOverflow (init M) es)
    (hfit : Meets (step M) LogsFit (init M) es)
    (hrun : run (step M) (init M) es = some s) :
    (∀ es₁ es₂ s₁, es = es₁ ++ es₂ → run (step M) (init M) es₁ = some s₁ → Truthful M s₁) ↔
      Meets (step M) NothingPending (init M) es := by
  constructor
  · intro hall
    refine meets_of_split hrun fun es₁ e es₂ t t' hes hrun₁ hstep => ?_
    subst hes
    have hinv := (inv_run (inv_init M) ((meets_append hrun₁ _).mp hterms).1 hrun₁).1
    have hfits := ((meets_append hrun₁ _).mp hfit).2.head
    have hnext : run (step M) (init M) (es₁ ++ [e]) = some t' := by
      rw [run_append hrun₁, run_cons_of_step hstep, run_nil]
    have htruth := hall (es₁ ++ [e]) es₂ t' (by simp) hnext
    cases e with
    | receive i =>
        -- A step that counts entries leads to a state that is not truthful.
        by_contra hcount
        obtain ⟨peer, out, a, hne, htakes⟩ := takesSuccess_of_counted (step_sound hstep) hcount
        exact not_truthful_of_counted hinv htakes hne (hfits i) htruth
    | _ => trivial
  · intro hpending es₁ es₂ s₁ hes hrun₁
    subst hes
    exact (bookZero_run ((meets_append hrun₁ _).mp hterms).1
      ((meets_append hrun₁ _).mp hpending).1 hrun₁).2.truthful

end Cluster
end Raft
end YoloServer
