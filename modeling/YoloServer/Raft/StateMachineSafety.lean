import YoloServer.Raft.Replication

/-!
# State machine safety

Two nodes that have applied an entry at the same index should have applied the
same entry.  `heartbeatLoop` commits by counting match indices, and these are not
truthful while entries are pending, so two leaders can commit different entries
(`two_leaders_apply_different_entries`).  What remains true is
`state_machine_safety`, in two cases.

* With at most two members, a candidate needs the vote of the other member, and a
  member with entries refuses a candidate without.  Therefore only one member
  ever has entries (`Lone`), and nobody else applies any.
* With more members and nothing pending, the match indices of a leader stay 0 and
  outnumber its own log in the commit test, so nothing is ever committed
  (`Uncommitted`).
-/

namespace YoloServer
namespace Raft

open Function Lib

namespace RaftNode

variable {n m : RaftNode}

/-- The commit test of a leader whose match indices are all 0, if it has two peers
at least: its own log comes first, and the test picks a later position. -/
theorem newCommitIndex_eq_zero {ps : List String} (hnodup : ps.Nodup) (htwo : 2 ≤ ps.length)
    (hlookup : ∀ p, n.matchIndex.lookup p = if p ∈ ps then some 0 else none) :
    n.newCommitIndex = 0 := by
  -- The keys of the map are the peers, and all values are 0.
  have hkeys : ∀ p, p ∈ n.matchIndex ↔ p ∈ ps := by
    intro p
    rw [← AList.lookup_isSome, hlookup]
    by_cases hp : p ∈ ps <;> simp [hp]
  have hzero : ps.map n.matchIndex.at = List.replicate ps.length 0 := by
    refine List.eq_replicate_iff.mpr ⟨List.length_map _, fun v hv => ?_⟩
    obtain ⟨p, hp, rfl⟩ := List.mem_map.mp hv
    simp [IndexMap.at, hlookup, hp]
  have hvalues : n.matchIndex.values = List.replicate ps.length 0 := by
    have hperm := IndexMap.values_perm hnodup hkeys
    rwa [hzero, List.perm_replicate] at hperm
  -- Only the first item can be positive, so the list is sorted as it stands.
  have hsorted : ((n.logs.length - 1) :: List.replicate ps.length 0).insertionSort (· ≥ ·) =
      (n.logs.length - 1) :: List.replicate ps.length 0 := by
    apply List.Pairwise.insertionSort_eq
    simp [List.pairwise_replicate]
  obtain ⟨k, hk⟩ : ∃ k, (ps.length + 1 - 1) / 2 = k + 1 :=
    ⟨(ps.length + 1 - 1) / 2 - 1, by omega⟩
  simp only [newCommitIndex, hvalues, hsorted, List.length_cons, List.length_replicate, hk,
    List.getD_cons_succ]
  by_cases hin : k < ps.length
  · simp [List.getD_eq_getElem?_getD, hin]
  · simp [List.getD_eq_getElem?_getD, hin]

/-! ## The store of one node -/

/-- Neither the commit index nor the store changes. -/
structure Still (n m : RaftNode) : Prop where
  commit : m.commitIndex = n.commitIndex
  puts : m.puts = n.puts

theorem Still.refl (n : RaftNode) : Still n n :=
  ⟨rfl, rfl⟩

theorem still_handleRequestVote {args : RequestVoteArgs} {reply : RequestVoteReply}
    (h : n.handleRequestVote args = (m, reply)) : Still n m := by
  have hadopt : Still n (n.adoptTerm args.term) := by
    unfold adoptTerm
    split_ifs <;> exact ⟨rfl, rfl⟩
  rcases handleRequestVote_spec h with ⟨-, rfl, -⟩ | ⟨-, rfl, -⟩ | ⟨-, -, -, rfl, -⟩
  · exact Still.refl _
  · exact hadopt
  · exact ⟨hadopt.commit, hadopt.puts⟩

theorem still_onVoteReply {votes : Nat} {reply : Option RequestVoteReply}
    {next : Option Nat} (h : n.onVoteReply votes reply = (m, next)) : Still n m := by
  rcases onVoteReply_spec h with ⟨rfl, -⟩ | ⟨r, -, -, rfl, -⟩ <;> exact ⟨rfl, rfl⟩

theorem still_finishElection (n : RaftNode) (votes : Nat) :
    Still n (n.finishElection votes) := by
  rcases finishElection_spec n votes with h | ⟨-, h⟩ <;> rw [h] <;> exact ⟨rfl, rfl⟩

theorem still_submitLog (n : RaftNode) (key value : String) :
    Still n (n.submitLog key value).1 := by
  rcases submitLog_spec n key value with h | ⟨-, h⟩ <;> rw [h] <;> exact ⟨rfl, rfl⟩

/-- A heartbeat without entries leaves the store alone or follows the commit index
of the leader. -/
theorem handleAppendEntries_store {args : AppendEntriesArgs} {reply : AppendEntriesReply}
    (h : n.handleAppendEntries args = .ok (m, reply)) (hempty : args.entries = []) :
    Still n m ∨ (n.follow args.term).followCommit args.leaderCommit = .ok m := by
  rcases handleAppendEntries_spec h with
    ⟨-, rfl, -⟩ | ⟨-, -, rfl, -⟩ | ⟨-, -, hfollow, -⟩
  · exact .inl (Still.refl _)
  · exact .inl ⟨rfl, rfl⟩
  · have hmerge : (n.follow args.term).merge args = n.follow args.term := by
      simp [merge, hempty, mergeEntries]
    rw [hmerge] at hfollow
    exact .inr hfollow

end RaftNode

namespace Cluster

open RaftNode

variable {M : Membership} {s s' : Cluster} {e : Event}

/-- How the store of a node changes in a step: not at all, by following a leader,
or by the commit test of a leader. -/
theorem store_step (hinv : Inv M s) (h : Step M s e s') (i : String) :
    Still (s.node i) (s'.node i) ∨
      (∃ src args, ⟨src, i, .append args⟩ ∈ s.sent ∧
        ((s.node i).follow args.term).followCommit args.leaderCommit = .ok (s'.node i)) ∨
      (∃ peer out a, e = .receive i ∧ TakesSuccess s s' i peer out a) := by
  cases moves_of_step h i with
  | stays hnode =>
      rw [hnode]
      exact .inl (Still.refl _)
  | startElection hnode =>
      rw [hnode]
      exact .inl ⟨rfl, rfl⟩
  | voteReply hreply hnode =>
      rw [hnode]
      exact .inl (still_onVoteReply hreply)
  | @appendReply peer _ out _ _ a _ _ htask hanswer hresponse hreply hnode hacks =>
      rcases onAppendReply_spec hreply with
        ⟨hsucc, -, hack⟩ | ⟨-, -, -, hn⟩ | ⟨-, -, -, hn⟩ | ⟨-, -, hn⟩
      · exact .inr (.inr ⟨peer, out, a, rfl,
          takesSuccess_of_reply htask hanswer hresponse hsucc (hnode ▸ hack) hacks⟩)
      all_goals
        rw [hnode, hn]
        exact .inl ⟨rfl, rfl⟩
  | finishElection htask hnode =>
      rw [hnode]
      exact .inl (still_finishElection _ _)
  | handleVote hhandle hnode =>
      rw [hnode]
      exact .inl (still_handleRequestVote hhandle)
  | @handleAppend _ src args _ _ hsent hhandle hnode =>
      rw [hnode]
      rcases handleAppendEntries_store hhandle (hinv.requests _ hsent).2.2.1 with hstill | hfollow
      · exact .inl hstill
      · exact .inr (.inl ⟨src, args, hsent, hfollow⟩)
  | submitLog hi hnode =>
      rw [hnode]
      exact .inl (still_submitLog _ _ _)

/-! ## What has been applied is in the log -/

/-- Every entry handed to the store is an entry of the log, at the index it was
applied at. -/
def Applied (s : Cluster) : Prop :=
  ∀ i, ∀ q ∈ (s.node i).puts, 1 ≤ q.1 ∧ (s.node i).logs[q.1]? = some q.2

theorem applied_step (hinv : Inv M s) (hev : Evolves s s') (happ : Applied s)
    (h : Step M s e s') : Applied s' := by
  intro i q hq
  have old : q ∈ (s.node i).puts → 1 ≤ q.1 ∧ (s'.node i).logs[q.1]? = some q.2 := by
    intro hold
    obtain ⟨hpos, hlog⟩ := happ i q hold
    exact ⟨hpos, prefix_getElem? (hev.logs i) hlog⟩
  have new : ∀ {l : Nat}, l < q.1 → (s.node i).logs[q.1]? = some q.2 →
      1 ≤ q.1 ∧ (s'.node i).logs[q.1]? = some q.2 := by
    intro l hlow hlog
    exact ⟨by omega, prefix_getElem? (hev.logs i) hlog⟩
  rcases store_step hinv h i with hstill | ⟨src, args, -, hfollow⟩ | ⟨peer, out, a, -, hack⟩
  · exact old (hstill.puts ▸ hq)
  · obtain ⟨c, l, p, hnode, -, hp⟩ := followCommit_spec hfollow
    rw [hnode] at hq
    rcases List.mem_append.mp hq with hold | hnew
    · exact old hold
    · obtain ⟨hlow, -, hlog⟩ := hp q hnew
      exact new hlow hlog
  · rcases advanceCommit_spec hack.node with hnode | ⟨_, p, -, -, -, hnode, hp⟩
    · rw [hnode] at hq
      exact old hq
    · rw [hnode] at hq
      rcases List.mem_append.mp hq with hold | hnew
      · exact old hold
      · obtain ⟨hlow, -, hlog⟩ := hp q hnew
        exact new hlow hlog

/-! ## Three members or more, and nothing pending -/

/-- Nothing has been committed, and no leader says otherwise. -/
structure Uncommitted (s : Cluster) : Prop where
  nodes : ∀ i, (s.node i).commitIndex = 0 ∧ (s.node i).puts = []
  announced : ∀ r ∈ s.sent, ∀ args, r.request = .append args → args.leaderCommit = 0

theorem uncommitted_init (M : Membership) : Uncommitted (init M) where
  nodes := by simp [init, new]
  announced := by simp [init]

/-- The commit test after a success changes nothing while all match indices are 0. -/
theorem TakesSuccess.still (hthree : 3 ≤ M.ids.length) (hinv : Inv M s)
    (hbook : BookZero M s') {i peer : String} {out : Outgoing} {a : Answer}
    (h : TakesSuccess s s' i peer out a) : Still (s.node i) (s'.node i) := by
  obtain ⟨⟨hi, -, hlead⟩, -⟩ := h.facts hinv
  obtain ⟨hmatch, hstate⟩ := matchIndex_advanceCommit h.node
  have hlength := M.length_peers hi
  have hzero : ((s.node i).acknowledge peer
      (out.nextIndex + out.entries.length)).newCommitIndex = 0 := by
    refine newCommitIndex_eq_zero (M.peers_nodup i hi) (by omega) fun p => ?_
    show ((s.node i).matchIndex.insert peer _).lookup p = _
    rw [← hmatch]
    split_ifs with hp
    · exact hbook.zero i (hstate.trans hlead) p hp
    · exact hbook.keys i p hp
  rcases advanceCommit_spec h.node with hnode | ⟨_, _, hlt, -⟩
  · rw [hnode]
    exact ⟨rfl, rfl⟩
  · omega

theorem uncommitted_step (hthree : 3 ≤ M.ids.length) (hinv : Inv M s) (hbook : BookZero M s')
    (hold : Uncommitted s) (h : Step M s e s') : Uncommitted s' := by
  refine ⟨?_, ?_⟩
  · intro i
    have still : Still (s.node i) (s'.node i) →
        (s'.node i).commitIndex = 0 ∧ (s'.node i).puts = [] := by
      intro hstill
      rw [hstill.commit, hstill.puts]
      exact hold.nodes i
    rcases store_step hinv h i with hstill | ⟨src, args, hsent, hfollow⟩ | ⟨peer, out, a, -, hack⟩
    · exact still hstill
    · have hcommit := hold.announced _ hsent args rfl
      rw [hcommit, followCommit, if_neg (Nat.not_lt_zero _)] at hfollow
      rw [← Except.ok.inj hfollow]
      exact hold.nodes i
    · exact still (hack.still hthree hinv hbook)
  · intro r hr args hreq
    cases h with
    | sendAppend i peer rest out htask hout =>
        rcases List.mem_append.mp hr with hr | hr
        · exact hold.announced r hr args hreq
        · obtain ⟨prev, -, rfl⟩ := prepareAppend_spec hout
          cases List.mem_singleton.mp hr
          cases hreq
          exact (hold.nodes i).1
    | sendVote i peer rest votes htask =>
        rcases List.mem_append.mp hr with hr | hr
        · exact hold.announced r hr args hreq
        · cases List.mem_singleton.mp hr
          cases hreq
    | _ => exact hold.announced r hr args hreq

/-! ## Two members at most -/

/-- The log holds nothing but the dummy entry. -/
def Blank (n : RaftNode) : Prop :=
  n.logs = [dummyEntry]

/-- Only one node has entries, and a node without entries only has votes of nodes
without entries in its current term. -/
structure Lone (s : Cluster) : Prop where
  owner : ∀ i j, ¬ Blank (s.node i) → ¬ Blank (s.node j) → i = j
  backed : ∀ v ∈ s.votes, v.voter ≠ v.candidate →
    v.term = (s.node v.candidate).currentTerm → Blank (s.node v.candidate) →
    Blank (s.node v.voter)
  asked : ∀ r ∈ s.sent, ∀ args, r.request = .vote args → Blank (s.node r.src) →
    args.lastLogTerm = 0

theorem lone_init (M : Membership) : Lone (init M) where
  owner := fun i _ hi => absurd rfl hi
  backed := by simp [init]
  asked := by simp [init]

theorem Blank.of_evolves (hinv : Inv M s) (hev : Evolves s s') {i : String}
    (h : Blank (s'.node i)) : Blank (s.node i) := by
  obtain ⟨tail, hlogs, -⟩ := hinv.entries i
  have hprefix := (hev.logs i).length_le
  rw [h, hlogs, List.length_cons, List.length_singleton] at hprefix
  have htail : tail = [] := List.eq_nil_of_length_eq_zero (by omega)
  rw [Blank, hlogs, htail]

/-- A log whose last entry has term 0 is blank, as every term won is positive. -/
theorem blank_of_back_term (hinv : Inv M s) {i : String}
    (h : (back (s.node i).logs).term = 0) : Blank (s.node i) := by
  obtain ⟨tail, hlogs, htail⟩ := hinv.entries i
  rcases List.eq_nil_or_concat tail with rfl | ⟨init, last, rfl⟩
  · exact hlogs
  · obtain ⟨granted, -, -, -, hcast⟩ := htail last (by simp)
    obtain ⟨hpos, -⟩ := hinv.voteTerm _ (hcast i List.mem_cons_self)
    have hback : back (s.node i).logs = last := by
      rw [hlogs, back, List.concat_eq_append, ← List.cons_append, List.getLastD_concat]
    rw [hback] at h
    simp only at hpos
    omega

theorem mem_of_not_blank (hinv : Inv M s) {i : String} (h : ¬ Blank (s.node i)) :
    i ∈ M.ids := by
  obtain ⟨tail, hlogs, htail⟩ := hinv.entries i
  cases tail with
  | nil => exact absurd hlogs h
  | cons entry rest =>
      obtain ⟨granted, -, -, -, hcast⟩ := htail entry List.mem_cons_self
      exact (hinv.voteMem _ (hcast i List.mem_cons_self)).1

/-- With two members, whoever is elected has the vote of the other one. -/
theorem other_voted (htwo : M.ids.length ≤ 2) {i j : String} {t : Nat} (hi : i ∈ M.ids)
    (hj : j ∈ M.ids) (hne : i ≠ j) (h : Elected M s j t) : ⟨i, t, j⟩ ∈ s.votes := by
  obtain ⟨granted, hnodup, hsub, hmaj, hcast⟩ := h
  have hlength := M.length_peers hj
  have hpeers : 1 ≤ (M.peers j).length :=
    List.length_pos_of_mem ((M.mem_peers j hj i).mpr ⟨hi, hne⟩)
  have hpos : 0 < granted.length := by
    simp only [majority] at hmaj
    omega
  obtain ⟨g, hg⟩ := List.exists_mem_of_length_pos hpos
  obtain ⟨hgMem, hgNe⟩ := (M.mem_peers j hj g).mp (hsub g hg)
  suffices hgi : g = i by
    subst hgi
    exact hcast g (List.mem_cons_of_mem _ hg)
  by_contra hother
  -- Three different members would not fit.
  have hthree : [g, i, j].Nodup := by simp [hother, hgNe, hne]
  have hmembers : [g, i, j] ⊆ M.ids := by simp [hgMem, hi, hj]
  have := (List.subperm_of_subset hthree hmembers).length_le
  simp only [List.length_cons, List.length_nil] at this
  omega

/-- The log of a node grows only when the node leads and takes a submission. -/
theorem logs_step (hinv : Inv M s) (hterm : NoTermOverflow s e) (h : Step M s e s')
    (i : String) :
    (s'.node i).logs = (s.node i).logs ∨
      (∃ key value, e = .submitLog i key value) ∧ (s.node i).state = .Leader := by
  rcases node_step hinv hterm h i with hquiet | ⟨votes, -, hnode⟩ | ⟨key, value, he, -, hnode⟩
  · exact .inl hquiet.logs
  · exact .inl (by rw [hnode, logs_finishElection])
  · rcases submitLog_spec (s.node i) key value with heq | ⟨hlead, -⟩
    · exact .inl (by rw [hnode, heq])
    · exact .inr ⟨⟨key, value, he⟩, hlead⟩

theorem owner_step (htwo : M.ids.length ≤ 2) (hinv : Inv M s) (hterm : NoTermOverflow s e)
    (hlone : Lone s) (h : Step M s e s') (i j : String) (hi : ¬ Blank (s'.node i))
    (hj : ¬ Blank (s'.node j)) : i = j := by
  -- A node that gets its first entry leads, so the other one has voted for it.
  have first : ∀ i j, ¬ Blank (s.node i) → ¬ Blank (s'.node j) → i = j := by
    intro i j hold hj
    by_contra hne
    have hblank : Blank (s.node j) := by
      by_contra hjold
      exact hne (hlone.owner i j hold hjold)
    rcases logs_step hinv hterm h j with hlogs | ⟨-, hlead⟩
    · exact hj (hlogs.trans hblank)
    · obtain ⟨hjMem, helected⟩ := hinv.leaders j hlead
      have hvote := other_voted htwo (mem_of_not_blank hinv hold) hjMem hne helected
      exact hold (hlone.backed _ hvote hne rfl hblank)
  by_cases hiold : Blank (s.node i)
  · by_cases hjold : Blank (s.node j)
    · -- Both got their first entry in this one step.
      rcases logs_step hinv hterm h i with hlogs | ⟨⟨k₁, v₁, he₁⟩, -⟩
      · exact absurd (hlogs.trans hiold) hi
      · rcases logs_step hinv hterm h j with hlogs | ⟨⟨k₂, v₂, he₂⟩, -⟩
        · exact absurd (hlogs.trans hjold) hj
        · rw [he₁] at he₂
          cases he₂
          rfl
    · exact (first j i hjold hi).symm
  · exact first i j hiold hj

theorem backed_step (htwo : M.ids.length ≤ 2) (hinv : Inv M s) (hterm : NoTermOverflow s e)
    (hev : Evolves s s') (hlone : Lone s) (h : Step M s e s') (v : CastVote)
    (hv : v ∈ s'.votes) (hne : v.voter ≠ v.candidate)
    (hat : v.term = (s'.node v.candidate).currentTerm)
    (hblank : Blank (s'.node v.candidate)) : Blank (s'.node v.voter) := by
  have hwas : Blank (s.node v.candidate) := hblank.of_evolves hinv hev
  have old : v ∈ s.votes → Blank (s'.node v.voter) := by
    intro hold
    obtain ⟨-, hle, hreached⟩ := hinv.voteTerm v hold
    have hsame : v.term = (s.node v.candidate).currentTerm :=
      le_antisymm hreached (hat ▸ (hev.keep v.candidate).term)
    have hvoter := hlone.backed v hold hne hsame hwas
    rcases logs_step hinv hterm h v.voter with hlogs | ⟨-, hlead⟩
    · exact hlogs.trans hvoter
    · -- The voter leads the same term, so it has voted for itself.
      obtain ⟨hmem, helected⟩ := hinv.leaders v.voter hlead
      have hback := other_voted htwo (hinv.voteMem v hold).2 hmem hne.symm helected
      obtain ⟨-, hbelow, -⟩ := hinv.voteTerm _ hback
      obtain ⟨granted, -, -, -, hcast⟩ := helected
      have hterms : v.term = (s.node v.voter).currentTerm :=
        le_antisymm hle (hsame ▸ hbelow)
      exact absurd (hinv.voteUnique _ (hcast v.voter List.mem_cons_self) v hold rfl hterms.symm)
        hne
  cases h with
  | startElection i hi hidle hstate =>
      rcases List.mem_append.mp hv with hv | hv
      · exact old hv
      · cases List.mem_singleton.mp hv
        exact absurd (hinv.ident i).1.symm hne
  | handleVote rpc src dst args n reply hsent hidle hfresh hhandle =>
      rcases List.mem_append.mp hv with hv | hv
      · exact old hv
      · have hmem := List.mem_of_getElem? hsent
        have hcand : args.candidateId = src := (hinv.requests _ hmem).2.2.1
        rcases handleRequestVote_spec hhandle with
          ⟨-, -, hreply⟩ | ⟨-, -, hreply⟩ | ⟨-, -, hupToDate, -, hreply⟩
        · simp [hreply] at hv
        · simp [hreply] at hv
        · rw [hreply, if_pos rfl] at hv
          cases List.mem_singleton.mp hv
          simp only [hcand] at hwas
          -- The candidate has no entries, so a voter that finds its log up to date has none.
          have hlast := hlone.asked _ hmem args rfl hwas
          have hdst : Blank (s.node dst) := by
            apply blank_of_back_term hinv
            rcases hupToDate with hlt | ⟨heq, -⟩ <;> omega
          simp only [update_self]
          exact (quiet_handleRequestVote hhandle).logs.trans hdst
  | _ => exact old hv

theorem asked_step (hinv : Inv M s) (hev : Evolves s s') (hlone : Lone s)
    (h : Step M s e s') (r : Rpc) (hr : r ∈ s'.sent) (args : RequestVoteArgs)
    (hreq : r.request = .vote args) (hblank : Blank (s'.node r.src)) :
    args.lastLogTerm = 0 := by
  have hwas : Blank (s.node r.src) := hblank.of_evolves hinv hev
  cases h with
  | sendVote i peer rest votes htask =>
      rcases List.mem_append.mp hr with hr | hr
      · exact hlone.asked r hr args hreq hwas
      · cases List.mem_singleton.mp hr
        cases hreq
        simp only [voteArgs]
        rw [show (s.node i).logs = [dummyEntry] from hwas]
        rfl
  | sendAppend i peer rest out htask hout =>
      rcases List.mem_append.mp hr with hr | hr
      · exact hlone.asked r hr args hreq hwas
      · cases List.mem_singleton.mp hr
        cases hreq
  | _ => exact hlone.asked r hr args hreq hwas

theorem lone_step (htwo : M.ids.length ≤ 2) (hinv : Inv M s) (hterm : NoTermOverflow s e)
    (hev : Evolves s s') (hlone : Lone s) (h : Step M s e s') : Lone s' where
  owner := owner_step htwo hinv hterm hlone h
  backed := backed_step htwo hinv hterm hev hlone h
  asked := asked_step hinv hev hlone h

/-! ## Safety -/

/-- The run lemma behind both cases. -/
theorem applied_run (Inv' : Cluster → Prop) (cond : Cluster → Event → Prop) {es : List Event}
    (hinit : Inv' (init M))
    (hstep : ∀ s e s', Inv M s → Inv' s → NoTermOverflow s e → cond s e → Step M s e s' →
      Inv' s')
    (hterms : Meets (step M) NoTermOverflow (init M) es) (hcond : Meets (step M) cond (init M) es)
    (hrun : run (step M) (init M) es = some s) : Applied s ∧ Inv' s := by
  refine (run_invariant (fun s => Inv M s ∧ Applied s ∧ Inv' s) ?_
    ⟨inv_init M, by simp [Applied, init, new], hinit⟩ (hterms.and hcond) hrun).2
  rintro t e t' ⟨hinv, happ, hold⟩ hmeets ht
  obtain ⟨hinv', hev⟩ := inv_step hinv hmeets.1 ht
  have hstep' := step_sound ht
  exact ⟨hinv', applied_step hinv hev happ hstep',
    hstep t e t' hinv hold hmeets.1 hmeets.2 hstep'⟩

/-- **State machine safety**, for clusters of two members at most and for runs in
which no success is taken up while entries are pending. -/
theorem state_machine_safety (M : Membership) (es : List Event) (s : Cluster)
    (hterms : Meets (step M) NoTermOverflow (init M) es)
    (hcond : M.ids.length ≤ 2 ∨ Meets (step M) NothingPending (init M) es)
    (hrun : run (step M) (init M) es = some s) (i j : String) (index : Nat)
    (e₁ e₂ : LogEntry) (hi : (index, e₁) ∈ (s.node i).puts)
    (hj : (index, e₂) ∈ (s.node j).puts) :
    e₁.term = e₂.term ∧ e₁.key = e₂.key ∧ e₁.value = e₂.value := by
  suffices heq : e₁ = e₂ by
    subst heq
    exact ⟨rfl, rfl, rfl⟩
  by_cases htwo : M.ids.length ≤ 2
  · obtain ⟨happ, hlone⟩ := applied_run Lone (fun _ _ => True) (lone_init M)
      (fun t e t' hinv hlone hterm _ h =>
        lone_step htwo hinv hterm (evolves_step hinv hterm h) hlone h)
      hterms (hterms.mono fun _ _ _ => trivial) hrun
    -- A node that has applied an entry has one, and only one node has entries.
    have notBlank : ∀ k e, (index, e) ∈ (s.node k).puts → ¬ Blank (s.node k) := by
      intro k e hput hblank
      obtain ⟨hpos, hlog⟩ := happ k _ hput
      rw [hblank] at hlog
      have hlt := (List.getElem?_eq_some_iff.mp hlog).1
      simp only [List.length_singleton] at hlt hpos
      omega
    obtain rfl := hlone.owner i j (notBlank i e₁ hi) (notBlank j e₂ hj)
    have hsame := (happ i _ hi).2.symm.trans (happ i _ hj).2
    exact Option.some.inj hsame
  · have hpending : Meets (step M) NothingPending (init M) es := hcond.resolve_left htwo
    obtain ⟨-, -, hnone⟩ := applied_run (fun s => BookZero M s ∧ Uncommitted s) NothingPending
      ⟨bookZero_init M, uncommitted_init M⟩
      (fun t e t' hinv hold _ hcond h =>
        ⟨bookZero_step hinv hold.1 hcond h,
          uncommitted_step (by omega) hinv (bookZero_step hinv hold.1 hcond h) hold.2 h⟩)
      hterms hpending hrun
    -- Nothing was ever applied.
    rw [(hnone.nodes i).2] at hi
    cases hi

/-- Two nodes. -/
def pair : Membership :=
  Membership.ofIds ["a", "b"] (by decide) (by decide)

/-- Node `a` is elected by `b`, takes an entry, and sends a heartbeat. -/
def commitAlone : List Event :=
  [.startElection "a", .send "a", .handle 0, .receive "a", .finish "a",
    .submitLog "a" "k" "v",
    .heartbeat "a", .send "a", .handle 1, .receive "a", .finish "a"]

/-- Of two members, `a` applies an entry, and every node that applies one at the
same index applies the same. -/
theorem state_machine_safety_in_pair :
    ∃ s, run (step pair) (init pair) commitAlone = some s ∧
      (1, ⟨1, 1, "k", "v"⟩) ∈ (s.node "a").puts ∧
      ∀ j entry, (1, entry) ∈ (s.node j).puts → 1 = entry.term ∧ "k" = entry.key ∧
        "v" = entry.value := by
  obtain ⟨s, hrun, hput⟩ := exists_run_of_check (step pair) (init pair) commitAlone
    (fun t => (1, ⟨1, 1, "k", "v"⟩) ∈ (t.node "a").puts) (by decide)
  exact ⟨s, hrun, hput, fun j entry hj =>
    state_machine_safety pair commitAlone s (by decide) (.inl (by decide)) hrun "a" j 1
      ⟨1, 1, "k", "v"⟩ entry hput hj⟩

/-- Node `a` leads term 1, takes an entry and commits it after a heartbeat to `b`,
which carries no entry.  Then `b` is elected by `c` in term 2 and does the same. -/
def twoLeaders : List Event :=
  electA ++ [.submitLog "a" "k" "v"] ++ heartbeatToB 2 ++
    [.startElection "b", .send "b", .fail "b", .send "b", .handle 5, .receive "b",
      .finish "b", .submitLog "b" "k" "w",
      .heartbeat "b", .send "b", .fail "b", .send "b", .handle 7, .receive "b", .finish "b"]

/-- Two leaders of a cluster of three apply different entries at index 1. -/
theorem two_leaders_apply_different_entries :
    ∃ s e₁ e₂, run (step trio) (init trio) twoLeaders = some s ∧
      Meets (step trio) NoTermOverflow (init trio) twoLeaders ∧
      (1, e₁) ∈ (s.node "a").puts ∧ (1, e₂) ∈ (s.node "b").puts ∧
      ¬ (e₁.term = e₂.term ∧ e₁.key = e₂.key ∧ e₁.value = e₂.value) := by
  obtain ⟨s, hrun, ha, hb⟩ := exists_run_of_check (step trio) (init trio) twoLeaders
    (fun t => (1, ⟨1, 1, "k", "v"⟩) ∈ (t.node "a").puts ∧
      (1, ⟨2, 1, "k", "w"⟩) ∈ (t.node "b").puts) (by decide)
  exact ⟨s, _, _, hrun, by decide, ha, hb, by decide⟩

end Cluster
end Raft
end YoloServer
