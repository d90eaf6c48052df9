import YoloServer.Lib.Run
import YoloServer.Raft.Cluster

/-!
# The invariant of a cluster

What holds in every state of every run of a cluster of honest members, as long
as no term overflows:

* every vote ever cast is backed by the state of its voter, and a node casts one
  vote per term (`voteTerm`, `voteHeld`, `voteUnique`);
* what is on the wire was sent by the node it names, and a granted vote or a
  success answers the request it belongs to (`requests`, `answers`);
* a node inside an election counts only votes that were cast for it in its
  current term, so a leader has been elected by a majority (`tasks`, `leaders`);
* `heartbeatLoop` never puts entries into its messages, so a log is only ever
  extended by the submissions of its own node while that node leads (`entries`).

`Evolves` collects what only ever grows.  Each clause is preserved because its
old part follows from `Evolves` and the one new item of a step is looked at on
its own.
-/

namespace YoloServer
namespace Raft
namespace Cluster

open Function RaftNode

variable {M : Membership} {s s' : Cluster} {e : Event}

/-! ## The clauses -/

/-- Node `i` has been voted for by a majority in term `t`, itself included. -/
def Elected (M : Membership) (s : Cluster) (i : String) (t : Nat) : Prop :=
  ∃ granted : List String, granted.Nodup ∧ (∀ g ∈ granted, g ∈ M.peers i) ∧
    majority (M.peers i) ≤ granted.length + 1 ∧
    ∀ g ∈ i :: granted, ⟨g, t, i⟩ ∈ s.votes

/-- Node `i` has `rest` still to ask, and has counted one vote for itself and one
for each member of `granted`. -/
def Campaign (M : Membership) (s : Cluster) (i : String) (rest : List String)
    (votes : Nat) : Prop :=
  ∃ asked granted : List String, M.peers i = asked ++ rest ∧ granted.Sublist asked ∧
    votes = granted.length + 1 ∧
    ∀ g ∈ i :: granted, ⟨g, (s.node i).currentTerm, i⟩ ∈ s.votes

/-- A request on the wire was sent by its `src`. -/
def RequestOk (M : Membership) (s : Cluster) (r : Rpc) : Prop :=
  r.src ∈ M.ids ∧ r.dst ∈ M.peers r.src ∧
    match r.request with
    | .vote args =>
        args.candidateId = r.src ∧ 1 ≤ args.term ∧
          args.term ≤ (s.node r.src).currentTerm
    | .append args =>
        args.entries = [] ∧
          ∃ prev, (s.node r.src).logs[args.prevLogIndex]? = some prev ∧
            prev.term = args.prevLogTerm

/-- An answer on the wire was produced by the `dst` of its request. -/
def AnswerOk (s : Cluster) (a : Answer) : Prop :=
  ∃ r, s.sent[a.rpc]? = some r ∧
    a.dstLogs <+: (s.node r.dst).logs ∧ a.srcLogs <+: (s.node r.src).logs ∧
    match a.response with
    | .vote reply =>
        reply.voteGranted = true →
          ∃ args, r.request = .vote args ∧ ⟨r.dst, args.term, r.src⟩ ∈ s.votes
    | .append reply =>
        reply.success = true →
          ∃ args prev, r.request = .append args ∧
            a.dstLogs[args.prevLogIndex]? = some prev ∧ prev.term = args.prevLogTerm

/-- What the task of a node says about the node. -/
def TaskOk (M : Membership) (s : Cluster) (i : String) : Task → Prop
  | .idle => True
  | .election rest votes => i ∈ M.ids ∧ Campaign M s i rest votes
  | .awaitVote peer rest votes rpc =>
      i ∈ M.ids ∧ Campaign M s i (peer :: rest) votes ∧
        ∃ args, s.sent[rpc]? = some ⟨i, peer, .vote args⟩ ∧
          args.term = (s.node i).currentTerm
  | .heartbeat rest =>
      i ∈ M.ids ∧ (s.node i).state = .Leader ∧ ∀ p ∈ rest, p ∈ M.peers i
  | .awaitAppend peer rest out rpc =>
      i ∈ M.ids ∧ (s.node i).state = .Leader ∧ (∀ p ∈ peer :: rest, p ∈ M.peers i) ∧
        s.sent[rpc]? = some ⟨i, peer, .append out.args⟩ ∧
        (s.node i).prepareAppend peer = .ok out ∧
        ∀ a ∈ s.answers, a.rpc = rpc → a.srcLogs = (s.node i).logs

/-- The log of a node: the dummy entry, then entries of terms that the node has
won. -/
def LogOk (M : Membership) (s : Cluster) (i : String) : Prop :=
  ∃ tail, (s.node i).logs = dummyEntry :: tail ∧ ∀ entry ∈ tail, Elected M s i entry.term

structure Inv (M : Membership) (s : Cluster) : Prop where
  ident : ∀ i, (s.node i).nodeId = i ∧ (s.node i).peers = M.peers i
  voteMem : ∀ v ∈ s.votes, v.voter ∈ M.ids ∧ v.candidate ∈ M.ids
  voteTerm : ∀ v ∈ s.votes, 1 ≤ v.term ∧ v.term ≤ (s.node v.voter).currentTerm ∧
    v.term ≤ (s.node v.candidate).currentTerm
  voteHeld : ∀ v ∈ s.votes, v.term = (s.node v.voter).currentTerm →
    (s.node v.voter).votedFor = v.candidate
  voteUnique : ∀ v ∈ s.votes, ∀ w ∈ s.votes, v.voter = w.voter → v.term = w.term →
    v.candidate = w.candidate
  requests : ∀ r ∈ s.sent, RequestOk M s r
  answers : ∀ a ∈ s.answers, AnswerOk s a
  tasks : ∀ i, TaskOk M s i (s.task i)
  leaders : ∀ i, (s.node i).state = .Leader →
    i ∈ M.ids ∧ Elected M s i (s.node i).currentTerm
  entries : ∀ i, LogOk M s i

theorem inv_init (M : Membership) : Inv M (init M) where
  ident := fun _ => ⟨rfl, rfl⟩
  voteMem := by simp [init]
  voteTerm := by simp [init]
  voteHeld := by simp [init]
  voteUnique := by simp [init]
  requests := by simp [init]
  answers := by simp [init]
  tasks := fun _ => trivial
  leaders := by simp [init, new]
  entries := fun _ => ⟨[], rfl, by simp⟩

/-- What the invariant says about a task that a step finds. -/
theorem Inv.taskOk (hinv : Inv M s) {i : String} {task : Task} (htask : s.task i = task) :
    TaskOk M s i task := by
  rw [← htask]
  exact hinv.tasks i

/-! ## What only grows -/

/-- The term of a node that starts an election can still be incremented. -/
def NoTermOverflow (s : Cluster) : Event → Prop
  | .startElection i => (s.node i).currentTerm < 2 ^ 64 - 1
  | _ => True

instance (s : Cluster) : (e : Event) → Decidable (NoTermOverflow s e)
  | .startElection _ => inferInstanceAs (Decidable (_ < _))
  | .heartbeat _ | .send _ | .fail _ | .receive _ | .finish _ | .handle _
  | .submitLog .. => inferInstanceAs (Decidable True)

structure Evolves (s s' : Cluster) : Prop where
  keep : ∀ i, VoteKeep (s.node i) (s'.node i)
  logs : ∀ i, (s.node i).logs <+: (s'.node i).logs
  votes : ∀ v ∈ s.votes, v ∈ s'.votes
  sent : ∀ (k : Nat) (r : Rpc), s.sent[k]? = some r → s'.sent[k]? = some r
  answers : ∀ a ∈ s.answers, a ∈ s'.answers

theorem Evolves.refl (s : Cluster) : Evolves s s :=
  ⟨fun _ => VoteKeep.refl _, fun _ => List.prefix_refl _, fun _ h => h, fun _ _ h => h,
    fun _ h => h⟩

theorem Evolves.trans {s'' : Cluster} (h₁ : Evolves s s') (h₂ : Evolves s' s'') :
    Evolves s s'' where
  keep := fun i => (h₁.keep i).trans (h₂.keep i)
  logs := fun i => (h₁.logs i).trans (h₂.logs i)
  votes := fun v hv => h₂.votes v (h₁.votes v hv)
  sent := fun k r hr => h₂.sent k r (h₁.sent k r hr)
  answers := fun a ha => h₂.answers a (h₁.answers a ha)

/-- A property that relates the old and the new state of a node holds of all
nodes if it is reflexive and holds of the node that moved. -/
theorem forall_update {R : RaftNode → RaftNode → Prop} (hrefl : ∀ n, R n n)
    {i : String} {n : RaftNode} (h : R (s.node i) n) (j : String) :
    R (s.node j) (update s.node i n j) := by
  by_cases hj : j = i
  · subst hj
    rwa [update_self]
  · rw [update_of_ne hj]
    exact hrefl _

theorem prefix_getElem? {α : Type*} {l l' : List α} (h : l <+: l') {k : Nat} {x : α}
    (hk : l[k]? = some x) : l'[k]? = some x := by
  obtain ⟨tail, rfl⟩ := h
  rw [List.getElem?_append_left (List.getElem?_eq_some_iff.mp hk).1]
  exact hk

/-- What holds of the items of a history and of the one item that is added. -/
theorem forall_mem_concat {α : Type*} {P : α → Prop} {l l' : List α} {x : α}
    (heq : l' = l ++ [x]) (hold : ∀ y ∈ l, P y) (hnew : P x) : ∀ y ∈ l', P y := by
  intro y hy
  rw [heq, List.mem_append, List.mem_singleton] at hy
  rcases hy with hy | rfl
  · exact hold y hy
  · exact hnew

theorem logs_prefix_submit (n : RaftNode) (key value : String) :
    n.logs <+: (n.submitLog key value).1.logs := by
  rcases submitLog_spec n key value with h | ⟨-, h⟩
  · exact (congrArg RaftNode.logs h).symm ▸ List.prefix_refl _
  · rw [h]
    exact List.prefix_append _ _

theorem logs_finishElection (n : RaftNode) (votes : Nat) :
    (n.finishElection votes).logs = n.logs := by
  rcases finishElection_spec n votes with heq | ⟨-, heq⟩ <;> rw [heq]

/-- A step in which one node moves quietly. -/
theorem evolves_of_quiet {i : String} {n : RaftNode} (h : Quiet (s.node i) n)
    (hnode : s'.node = update s.node i n) (hvotes : ∀ v ∈ s.votes, v ∈ s'.votes)
    (hsent : s'.sent = s.sent) (hanswers : ∀ a ∈ s.answers, a ∈ s'.answers) :
    Evolves s s' where
  keep := fun j => hnode ▸ forall_update VoteKeep.refl h.keep j
  logs := fun j => hnode ▸ forall_update (R := fun n m => n.logs <+: m.logs)
    (fun _ => List.prefix_refl _) (h.logs.symm ▸ List.prefix_refl _) j
  votes := hvotes
  sent := fun _ _ hr => hsent ▸ hr
  answers := hanswers

/-- A step in which no node moves. -/
theorem evolves_of_unmoved (hnode : s'.node = s.node) (hvotes : s'.votes = s.votes)
    (hsent : s.sent <+: s'.sent) (hanswers : s'.answers = s.answers) : Evolves s s' where
  keep := fun i => hnode ▸ VoteKeep.refl (s.node i)
  logs := fun i => hnode ▸ List.prefix_refl (s.node i).logs
  votes := fun _ hv => hvotes ▸ hv
  sent := fun _ _ hr => prefix_getElem? hsent hr
  answers := fun _ ha => hanswers ▸ ha

/-- Every step of an honest cluster lets the history grow. -/
theorem evolves_step (hinv : Inv M s) (hterm : NoTermOverflow s e)
    (h : Step M s e s') : Evolves s s' := by
  cases h with
  | startElection i hi hidle hstate =>
      have hfit : (s.node i).currentTerm < 2 ^ 64 - 1 := hterm
      exact evolves_of_quiet (quiet_beginElection (by omega)) rfl
        (fun v hv => List.mem_append_left _ hv) rfl (fun a ha => ha)
  | heartbeat i hi hidle hstate =>
      exact evolves_of_unmoved rfl rfl (List.prefix_refl _) rfl
  | sendVote i peer rest votes htask =>
      exact evolves_of_unmoved rfl rfl (List.prefix_append _ _) rfl
  | sendAppend i peer rest out htask hout =>
      exact evolves_of_unmoved rfl rfl (List.prefix_append _ _) rfl
  | failVote i peer rest votes rpc htask =>
      exact evolves_of_unmoved rfl rfl (List.prefix_refl _) rfl
  | failAppend i peer rest out rpc htask =>
      exact evolves_of_unmoved rfl rfl (List.prefix_refl _) rfl
  | receiveVote i peer rest votes rpc reply a n next htask hanswer hresponse hreply =>
      exact evolves_of_quiet (quiet_onVoteReply hreply) rfl (fun v hv => hv) rfl
        (fun a ha => ha)
  | receiveAppend i peer rest out rpc reply a n goOn htask hanswer hresponse hreply =>
      exact evolves_of_quiet (quiet_onAppendReply hreply) rfl (fun v hv => hv) rfl
        (fun a ha => ha)
  | finishElection i votes htask =>
      refine ⟨forall_update VoteKeep.refl (voteKeep_finishElection _ votes), ?_,
        fun _ h => h, fun _ _ h => h, fun _ h => h⟩
      exact forall_update (R := fun n m => n.logs <+: m.logs) (fun _ => List.prefix_refl _)
        ((logs_finishElection _ votes).symm ▸ List.prefix_refl _)
  | finishHeartbeat i htask =>
      exact evolves_of_unmoved rfl rfl (List.prefix_refl _) rfl
  | handleVote rpc src dst args n reply hsent hidle hfresh hhandle =>
      exact evolves_of_quiet (quiet_handleRequestVote hhandle) rfl
        (fun v hv => List.mem_append_left _ hv) rfl (fun a ha => List.mem_append_left _ ha)
  | handleAppend rpc src dst args n reply hsent hidle hfresh hhandle =>
      -- No message carries entries, so the log of the follower stays.
      have hempty : args.entries = [] := (hinv.requests _ (List.mem_of_getElem? hsent)).2.2.1
      exact evolves_of_quiet (quiet_handleAppendEntries hhandle hempty) rfl
        (fun v hv => hv) rfl (fun a ha => List.mem_append_left _ ha)
  | submitLog i key value hi hidle =>
      exact ⟨forall_update VoteKeep.refl (voteKeep_submitLog _ key value),
        forall_update (R := fun n m => n.logs <+: m.logs) (fun _ => List.prefix_refl _)
          (logs_prefix_submit _ key value),
        fun _ h => h, fun _ _ h => h, fun _ h => h⟩

/-! ## The clauses under growth -/

theorem Elected.mono {i : String} {t : Nat} (h : Elected M s i t)
    (hvotes : ∀ v ∈ s.votes, v ∈ s'.votes) : Elected M s' i t := by
  obtain ⟨granted, hnodup, hsub, hmaj, hcast⟩ := h
  exact ⟨granted, hnodup, hsub, hmaj, fun g hg => hvotes _ (hcast g hg)⟩

theorem Campaign.mono {i : String} {rest : List String} {votes : Nat}
    (h : Campaign M s i rest votes) (hvotes : ∀ v ∈ s.votes, v ∈ s'.votes)
    (hterm : (s'.node i).currentTerm = (s.node i).currentTerm) :
    Campaign M s' i rest votes := by
  obtain ⟨asked, granted, hpeers, hsub, hcount, hcast⟩ := h
  refine ⟨asked, granted, hpeers, hsub, hcount, fun g hg => ?_⟩
  rw [hterm]
  exact hvotes _ (hcast g hg)

/-- A peer from which no vote came counts as asked. -/
theorem Campaign.refused {i peer : String} {rest : List String} {votes : Nat}
    (h : Campaign M s i (peer :: rest) votes) : Campaign M s i rest votes := by
  obtain ⟨asked, granted, hpeers, hsub, hcount, hcast⟩ := h
  exact ⟨asked ++ [peer], granted, by simp [hpeers],
    hsub.trans (List.sublist_append_left _ _), hcount, hcast⟩

/-- A peer that has voted for the node in its current term. -/
theorem Campaign.granted {i peer : String} {rest : List String} {votes : Nat}
    (h : Campaign M s i (peer :: rest) votes)
    (hvote : ⟨peer, (s.node i).currentTerm, i⟩ ∈ s.votes) :
    Campaign M s i rest (votes + 1) := by
  obtain ⟨asked, granted, hpeers, hsub, hcount, hcast⟩ := h
  refine ⟨asked ++ [peer], granted ++ [peer], by simp [hpeers],
    hsub.append (List.Sublist.refl _), by simp [hcount], ?_⟩
  intro g hg
  rw [List.mem_cons, List.mem_append, List.mem_singleton] at hg
  rcases hg with rfl | hg | rfl
  · exact hcast g List.mem_cons_self
  · exact hcast g (List.mem_cons_of_mem _ hg)
  · exact hvote

theorem RequestOk.mono {r : Rpc} (h : RequestOk M s r) (hev : Evolves s s') :
    RequestOk M s' r := by
  obtain ⟨src, dst, request⟩ := r
  obtain ⟨hsrc, hdst, hreq⟩ := h
  refine ⟨hsrc, hdst, ?_⟩
  cases request with
  | vote args =>
      obtain ⟨hcand, hpos, hterm⟩ := hreq
      exact ⟨hcand, hpos, hterm.trans (hev.keep src).term⟩
  | append args =>
      obtain ⟨hempty, prev, hprev, hprevTerm⟩ := hreq
      exact ⟨hempty, prev, prefix_getElem? (hev.logs src) hprev, hprevTerm⟩

theorem AnswerOk.mono {a : Answer} (h : AnswerOk s a) (hev : Evolves s s') :
    AnswerOk s' a := by
  obtain ⟨r, hsent, hdst, hsrc, hbody⟩ := h
  refine ⟨r, hev.sent _ _ hsent, hdst.trans (hev.logs _), hsrc.trans (hev.logs _), ?_⟩
  obtain ⟨rpc, response, dstLogs, srcLogs⟩ := a
  cases response with
  | vote reply =>
      intro hgranted
      obtain ⟨args, hreq, hvote⟩ := hbody hgranted
      exact ⟨args, hreq, hev.votes _ hvote⟩
  | append reply => exact hbody

/-- The task of a node that does not move, when no answer to it is added but one
that records its present log. -/
theorem TaskOk.mono {i : String} {task : Task} (h : TaskOk M s i task) (hev : Evolves s s')
    (hnode : s'.node i = s.node i)
    (hanswers : ∀ a ∈ s'.answers, a ∈ s.answers ∨
      ∃ r, s.sent[a.rpc]? = some r ∧ a.srcLogs = (s.node r.src).logs) :
    TaskOk M s' i task := by
  have hterm : (s'.node i).currentTerm = (s.node i).currentTerm := by rw [hnode]
  cases task with
  | idle => trivial
  | election rest votes => exact ⟨h.1, h.2.mono hev.votes hterm⟩
  | awaitVote peer rest votes rpc =>
      obtain ⟨hi, hcamp, args, hsent, hargs⟩ := h
      exact ⟨hi, hcamp.mono hev.votes hterm, args, hev.sent _ _ hsent, hargs.trans hterm.symm⟩
  | heartbeat rest =>
      obtain ⟨hi, hstate, hrest⟩ := h
      exact ⟨hi, by rw [hnode]; exact hstate, hrest⟩
  | awaitAppend peer rest out rpc =>
      obtain ⟨hi, hstate, hrest, hsent, hout, hlogs⟩ := h
      refine ⟨hi, by rw [hnode]; exact hstate, hrest, hev.sent _ _ hsent,
        by rw [hnode]; exact hout, ?_⟩
      intro a ha hrpc
      rw [hnode]
      rcases hanswers a ha with hold | ⟨r, hr, hsrc⟩
      · exact hlogs a hold hrpc
      · rw [hrpc, hsent] at hr
        cases hr
        exact hsrc

theorem LogOk.of_logs_eq {i : String} (h : LogOk M s i) (hev : Evolves s s')
    (hlogs : (s'.node i).logs = (s.node i).logs) : LogOk M s' i := by
  obtain ⟨tail, heq, htail⟩ := h
  exact ⟨tail, hlogs.trans heq, fun entry hentry => (htail entry hentry).mono hev.votes⟩

/-! ## The new item of each step -/

/-- A vote cast in the step from `s` to `s'`: the voter was free, and its new
state records the vote. -/
structure NewVote (M : Membership) (s s' : Cluster) (v : CastVote) : Prop where
  voter : v.voter ∈ M.ids
  candidate : v.candidate ∈ M.ids
  pos : 1 ≤ v.term
  term : v.term = (s'.node v.voter).currentTerm
  held : (s'.node v.voter).votedFor = v.candidate
  reached : v.term ≤ (s'.node v.candidate).currentTerm
  free : (s.node v.voter).currentTerm < v.term ∨
    ((s.node v.voter).currentTerm = v.term ∧
      ((s.node v.voter).votedFor = "" ∨ (s.node v.voter).votedFor = v.candidate))

/-- The vote a node casts for itself when it starts an election. -/
theorem newVote_startElection {i : String} (hinv : Inv M s) (hi : i ∈ M.ids)
    (hfit : (s.node i).currentTerm < 2 ^ 64 - 1)
    (hnode : s'.node i = (s.node i).beginElection) :
    NewVote M s s' ⟨i, (s.node i).beginElection.currentTerm, (s.node i).nodeId⟩ := by
  have hterm : (s.node i).beginElection.currentTerm = (s.node i).currentTerm + 1 :=
    u64_of_lt (by omega)
  have hid := (hinv.ident i).1
  refine ⟨hi, by rwa [hid], ?_, ?_, ?_, ?_, .inl ?_⟩
  · simp only [hterm]
    omega
  · simp only [hnode]
  · simp only [hnode]
    rfl
  · simp only [hid, hnode, le_refl]
  · simp only [hterm]
    omega

/-- A granted vote. -/
theorem newVote_handleVote {src dst : String} {args : RequestVoteArgs} {n : RaftNode}
    {reply : RequestVoteReply} (hev : Evolves s s')
    (hreq : RequestOk M s ⟨src, dst, .vote args⟩)
    (hhandle : (s.node dst).handleRequestVote args = (n, reply))
    (hnode : s'.node dst = n) (hgranted : reply.voteGranted = true) :
    NewVote M s s' ⟨dst, reply.term, args.candidateId⟩ := by
  obtain ⟨hsrc, hdst, hcand, hpos, hreached⟩ := hreq
  have hdstMem : dst ∈ M.ids := ((M.mem_peers src hsrc dst).mp hdst).1
  simp only at hcand hreached
  rcases handleRequestVote_spec hhandle with
    ⟨-, -, hreply⟩ | ⟨-, -, hreply⟩ | ⟨hle, hfree, -, hn, hreply⟩
  · simp [hreply] at hgranted
  · simp [hreply] at hgranted
  · subst hreply
    refine ⟨hdstMem, by rwa [hcand], hpos, ?_, ?_, ?_, ?_⟩
    · simp only [hnode, hn]
      exact (adoptTerm_currentTerm hle).symm
    · simp only [hnode, hn]
    · simp only [hcand]
      exact hreached.trans (hev.keep src).term
    · simp only
      -- Either the term is new, or nothing was adopted and the vote was free.
      rcases Nat.lt_or_eq_of_le hle with hlt | heq
      · exact .inl hlt
      · have hsame : (s.node dst).adoptTerm args.term = s.node dst := by
          simp [adoptTerm, heq]
        rw [hsame] at hfree
        exact .inr ⟨heq, hfree⟩

/-- A step casts at most one vote. -/
theorem votes_step (hinv : Inv M s) (hterm : NoTermOverflow s e) (hev : Evolves s s')
    (h : Step M s e s') :
    s'.votes = s.votes ∨ ∃ v, s'.votes = s.votes ++ [v] ∧ NewVote M s s' v := by
  cases h with
  | startElection i hi hidle hstate =>
      exact .inr ⟨_, rfl, newVote_startElection hinv hi hterm (update_self ..)⟩
  | handleVote rpc src dst args n reply hsent hidle hfresh hhandle =>
      by_cases hgranted : reply.voteGranted = true
      · refine .inr ⟨⟨dst, reply.term, args.candidateId⟩, by simp [hgranted], ?_⟩
        exact newVote_handleVote hev (hinv.requests _ (List.mem_of_getElem? hsent)) hhandle
          (update_self ..) hgranted
      · exact .inl (by simp [hgranted])
  | _ => exact .inl rfl

/-- A step sends at most one request, in the name of its sender. -/
theorem sent_step (hinv : Inv M s) (h : Step M s e s') :
    s'.sent = s.sent ∨ ∃ r, s'.sent = s.sent ++ [r] ∧ RequestOk M s' r := by
  cases h with
  | sendVote i peer rest votes htask =>
      obtain ⟨hi, asked, granted, hpeers, -, -, hcast⟩ := hinv.taskOk htask
      -- The candidate has voted for itself, so the term is positive.
      obtain ⟨hpos, -, -⟩ := hinv.voteTerm _ (hcast i List.mem_cons_self)
      refine .inr ⟨_, rfl, hi, ?_, (hinv.ident i).1, hpos, le_rfl⟩
      simp [hpeers]
  | sendAppend i peer rest out htask hout =>
      obtain ⟨hi, -, hrest⟩ := hinv.taskOk htask
      obtain ⟨prev, hprev, rfl⟩ := prepareAppend_spec hout
      exact .inr ⟨_, rfl, hi, hrest peer List.mem_cons_self, rfl, prev, hprev, rfl⟩
  | _ => exact .inl rfl

/-- A step produces at most one answer, to a request that was sent before. -/
theorem answers_step (hinv : Inv M s) (h : Step M s e s') :
    s'.answers = s.answers ∨
      ∃ a r, s'.answers = s.answers ++ [a] ∧ AnswerOk s' a ∧
        s.sent[a.rpc]? = some r ∧ a.srcLogs = (s.node r.src).logs := by
  cases h with
  | handleVote rpc src dst args n reply hsent hidle hfresh hhandle =>
      have hquiet := quiet_handleRequestVote hhandle
      have hreq := hinv.requests _ (List.mem_of_getElem? hsent)
      obtain ⟨hsrc, hdst, hcand, -⟩ := hreq
      have hne : src ≠ dst := ((M.mem_peers src hsrc dst).mp hdst).2.symm
      refine .inr ⟨_, ⟨src, dst, .vote args⟩, rfl, ⟨_, hsent, ?_, ?_, ?_⟩, hsent, rfl⟩
      · simp only [update_self, hquiet.logs]
        exact List.prefix_refl _
      · simp only [update_of_ne hne]
        exact List.prefix_refl _
      · intro hgranted
        refine ⟨args, rfl, List.mem_append_right _ ?_⟩
        rcases handleRequestVote_spec hhandle with
          ⟨-, -, hreply⟩ | ⟨-, -, hreply⟩ | ⟨-, -, -, -, hreply⟩
        · simp [hreply] at hgranted
        · simp [hreply] at hgranted
        · simp only at hcand
          simp [hreply, hcand]
  | handleAppend rpc src dst args n reply hsent hidle hfresh hhandle =>
      have hreq := hinv.requests _ (List.mem_of_getElem? hsent)
      obtain ⟨hsrc, hdst, hempty, -⟩ := hreq
      have hquiet := quiet_handleAppendEntries hhandle hempty
      have hne : src ≠ dst := ((M.mem_peers src hsrc dst).mp hdst).2.symm
      refine .inr ⟨_, ⟨src, dst, .append args⟩, rfl, ⟨_, hsent, ?_, ?_, ?_⟩, hsent, rfl⟩
      · simp only [update_self]
        exact List.prefix_refl _
      · simp only [update_of_ne hne]
        exact List.prefix_refl _
      · intro hsuccess
        rcases handleAppendEntries_spec hhandle with
          ⟨-, -, hreply⟩ | ⟨-, -, -, hreply⟩ | ⟨-, ⟨prev, hprev, hterm⟩, -, -⟩
        · simp [hreply] at hsuccess
        · simp [hreply] at hsuccess
        · exact ⟨args, prev, rfl, by simp only [hquiet.logs, hprev], hterm⟩
  | _ => exact .inl rfl

/-! ## The invariant is preserved -/

/-- Votes: the old ones stay backed, and the new one, if there is one, agrees
with every old vote of its voter in its term. -/
theorem votes_unique_step (hinv : Inv M s) (hterm : NoTermOverflow s e)
    (hev : Evolves s s') (h : Step M s e s') :
    ∀ v ∈ s'.votes, ∀ w ∈ s'.votes, v.voter = w.voter → v.term = w.term →
      v.candidate = w.candidate := by
  rcases votes_step hinv hterm hev h with heq | ⟨new, heq, hnew⟩
  · rw [heq]
    exact hinv.voteUnique
  · have hmixed : ∀ v ∈ s.votes, v.voter = new.voter → v.term = new.term →
        v.candidate = new.candidate := by
      intro v hv hvoter hvterm
      obtain ⟨-, hle, -⟩ := hinv.voteTerm v hv
      rw [hvoter, hvterm] at hle
      -- The voter of the old vote has reached the term, and its vote is in `votedFor`.
      rcases hnew.free with hlt | ⟨hat, hfree⟩
      · omega
      · have hheld := hinv.voteHeld v hv (by rw [hvterm, hvoter, hat])
        rw [hvoter] at hheld
        rcases hfree with hempty | hsame
        · have hne := M.ids_ne _ (hinv.voteMem v hv).2
          exact absurd (hheld.symm.trans hempty) hne
        · exact hheld.symm.trans hsame
    intro v hv w hw hvoter hvterm
    rw [heq] at hv hw
    simp only [List.mem_append, List.mem_singleton] at hv hw
    rcases hv with hv | rfl <;> rcases hw with hw | rfl
    · exact hinv.voteUnique v hv w hw hvoter hvterm
    · exact hmixed v hv hvoter hvterm
    · exact (hmixed w hw hvoter.symm hvterm.symm).symm
    · rfl

theorem votes_held_step (hinv : Inv M s) (hterm : NoTermOverflow s e)
    (hev : Evolves s s') (h : Step M s e s') :
    ∀ v ∈ s'.votes, (v.voter ∈ M.ids ∧ v.candidate ∈ M.ids) ∧
      (1 ≤ v.term ∧ v.term ≤ (s'.node v.voter).currentTerm ∧
        v.term ≤ (s'.node v.candidate).currentTerm) ∧
      (v.term = (s'.node v.voter).currentTerm →
        (s'.node v.voter).votedFor = v.candidate) := by
  have hold : ∀ v ∈ s.votes, (v.voter ∈ M.ids ∧ v.candidate ∈ M.ids) ∧
      (1 ≤ v.term ∧ v.term ≤ (s'.node v.voter).currentTerm ∧
        v.term ≤ (s'.node v.candidate).currentTerm) ∧
      (v.term = (s'.node v.voter).currentTerm →
        (s'.node v.voter).votedFor = v.candidate) := by
    intro v hv
    obtain ⟨hpos, hle, hreached⟩ := hinv.voteTerm v hv
    have hkeep := hev.keep v.voter
    refine ⟨hinv.voteMem v hv,
      ⟨hpos, hle.trans hkeep.term, hreached.trans (hev.keep v.candidate).term⟩, ?_⟩
    intro hat
    -- The voter is still in the term of the vote, so it has kept it.
    have hsame : (s'.node v.voter).currentTerm = (s.node v.voter).currentTerm :=
      le_antisymm (hat ▸ hle) hkeep.term
    have hheld := hinv.voteHeld v hv (hat.trans hsame)
    have hne := M.ids_ne _ (hinv.voteMem v hv).2
    rw [hkeep.vote hsame (hheld ▸ hne), hheld]
  rcases votes_step hinv hterm hev h with heq | ⟨new, heq, hnew⟩
  · rw [heq]
    exact hold
  · apply forall_mem_concat heq hold
    exact ⟨⟨hnew.voter, hnew.candidate⟩, ⟨hnew.pos, hnew.term.le, hnew.reached⟩,
      fun _ => hnew.held⟩

theorem requests_inv_step (hinv : Inv M s) (hev : Evolves s s') (h : Step M s e s') :
    ∀ r ∈ s'.sent, RequestOk M s' r := by
  rcases sent_step hinv h with heq | ⟨new, heq, hnew⟩
  · rw [heq]
    exact fun r hr => (hinv.requests r hr).mono hev
  · exact forall_mem_concat heq (fun r hr => (hinv.requests r hr).mono hev) hnew

theorem answers_inv_step (hinv : Inv M s) (hev : Evolves s s') (h : Step M s e s') :
    ∀ a ∈ s'.answers, AnswerOk s' a := by
  rcases answers_step hinv h with heq | ⟨new, _, heq, hnew, -⟩
  · rw [heq]
    exact fun a ha => (hinv.answers a ha).mono hev
  · exact forall_mem_concat heq (fun a ha => (hinv.answers a ha).mono hev) hnew

theorem eq_of_update_ne {β : Type*} {f : String → β} {i j : String} {x : β}
    (h : update f j x i ≠ f i) : i = j := by
  by_contra hne
  exact h (update_of_ne hne ..)

/-- A granted vote that comes back was cast in the term of its request. -/
theorem vote_of_answer (hinv : Inv M s) {i peer : String} {rpc : Nat} {args : RequestVoteArgs}
    {a : Answer} {reply : RequestVoteReply} (hsent : s.sent[rpc]? = some ⟨i, peer, .vote args⟩)
    (hanswer : s.answerTo rpc = some a) (hresponse : a.response = .vote reply)
    (hgranted : reply.voteGranted = true) : ⟨peer, args.term, i⟩ ∈ s.votes := by
  have hmem := List.mem_of_find?_eq_some hanswer
  have hrpc : a.rpc = rpc := by simpa using List.find?_some hanswer
  obtain ⟨r, hsent', -, -, hbody⟩ := hinv.answers a hmem
  -- The answer is to this very request.
  rw [hrpc, hsent] at hsent'
  cases hsent'
  rw [hresponse] at hbody
  obtain ⟨args', hargs', hvote⟩ := hbody hgranted
  cases hargs'
  exact hvote

/-- The campaign after the answer of a peer has come back, unless it ends with it. -/
theorem Campaign.received (hinv : Inv M s) {i peer : String} {rest : List String}
    {votes rpc : Nat} {args : RequestVoteArgs} {a : Answer} {reply : RequestVoteReply}
    {n : RaftNode} {next : Option Nat} (h : Campaign M s i (peer :: rest) votes)
    (hsent : s.sent[rpc]? = some ⟨i, peer, .vote args⟩)
    (hargs : args.term = (s.node i).currentTerm) (hanswer : s.answerTo rpc = some a)
    (hresponse : a.response = .vote reply)
    (hreply : (s.node i).onVoteReply votes (some reply) = (n, next)) :
    next = none ∨ (n = s.node i ∧ ∃ votes', next = some votes' ∧ Campaign M s i rest votes') := by
  rcases onVoteReply_spec hreply with ⟨hnode, hnext⟩ | ⟨-, -, -, -, hnext⟩
  · refine .inr ⟨hnode, ?_⟩
    rcases hnext with hnext | ⟨r, hr, hgranted, hnext⟩
    · exact ⟨votes, hnext, h.refused⟩
    · cases hr
      have hvote := vote_of_answer hinv hsent hanswer hresponse hgranted
      rw [hargs] at hvote
      exact ⟨votes + 1, hnext, h.granted hvote⟩
  · exact .inl hnext

/-- A node that goes on with its heartbeats is still in the same state. -/
theorem state_onAppendReply {n m : RaftNode} {peer : String} {out : Outgoing}
    {reply : AppendEntriesReply} (h : n.onAppendReply peer out reply = .ok (m, true)) :
    m.state = n.state := by
  rcases onAppendReply_spec h with
    ⟨-, -, hack⟩ | ⟨-, -, hgo, -⟩ | ⟨-, -, -, rfl⟩ | ⟨-, -, rfl⟩
  · rcases advanceCommit_spec hack with rfl | ⟨_, _, _, _, _, rfl, _⟩
    · rfl
    · rfl
  · cases hgo
  · rfl
  · rfl

/-- The task of the node that moves, in the state after the step. -/
theorem task_moved_step (hinv : Inv M s) (hev : Evolves s s') (h : Step M s e s') (i : String)
    (hmoved : s'.node i ≠ s.node i ∨ s'.task i ≠ s.task i) : TaskOk M s' i (s'.task i) := by
  cases h with
  | startElection j hj hidle hstate =>
      obtain rfl : i = j := hmoved.elim eq_of_update_ne eq_of_update_ne
      simp only [setNode, update_self, (hinv.ident i).2]
      refine ⟨hj, [], [], by simp, List.Sublist.refl _, rfl, ?_⟩
      intro g hg
      simp only [List.mem_singleton] at hg
      subst hg
      simp [(hinv.ident g).1]
  | heartbeat j hj hidle hstate =>
      obtain rfl : i = j := hmoved.elim (absurd rfl) eq_of_update_ne
      simp only [update_self, (hinv.ident i).2]
      exact ⟨hj, hstate, fun p hp => hp⟩
  | sendVote j peer rest votes htask =>
      obtain rfl : i = j := hmoved.elim (absurd rfl) eq_of_update_ne
      obtain ⟨hi, hcamp⟩ := hinv.taskOk htask
      simp only [update_self]
      exact ⟨hi, hcamp.mono hev.votes rfl, (s.node i).voteArgs, by simp, rfl⟩
  | sendAppend j peer rest out htask hout =>
      obtain rfl : i = j := hmoved.elim (absurd rfl) eq_of_update_ne
      obtain ⟨hi, hstate, hrest⟩ := hinv.taskOk htask
      simp only [update_self]
      refine ⟨hi, hstate, hrest, by simp, hout, ?_⟩
      -- No answer to a request that is only being sent exists.
      intro a ha hrpc
      obtain ⟨r, hr, -⟩ := hinv.answers a ha
      rw [hrpc] at hr
      have hlt := (List.getElem?_eq_some_iff.mp hr).1
      omega
  | failVote j peer rest votes rpc htask =>
      obtain rfl : i = j := hmoved.elim (absurd rfl) eq_of_update_ne
      obtain ⟨hi, hcamp, -⟩ := hinv.taskOk htask
      simp only [update_self]
      exact ⟨hi, hcamp.refused.mono hev.votes rfl⟩
  | failAppend j peer rest out rpc htask =>
      obtain rfl : i = j := hmoved.elim (absurd rfl) eq_of_update_ne
      obtain ⟨hi, hstate, hrest, -⟩ := hinv.taskOk htask
      simp only [update_self]
      exact ⟨hi, hstate, fun p hp => hrest p (List.mem_cons_of_mem _ hp)⟩
  | receiveVote j peer rest votes rpc reply a n next htask hanswer hresponse hreply =>
      obtain rfl : i = j := hmoved.elim eq_of_update_ne eq_of_update_ne
      obtain ⟨hi, hcamp, args, hsent, hargs⟩ := hinv.taskOk htask
      simp only [setNode, update_self]
      rcases hcamp.received hinv hsent hargs hanswer hresponse hreply with
        rfl | ⟨rfl, votes', rfl, hcamp'⟩
      · trivial
      · exact ⟨hi, hcamp'.mono hev.votes (by simp only [update_self])⟩
  | receiveAppend j peer rest out rpc reply a n goOn htask hanswer hresponse hreply =>
      obtain rfl : i = j := hmoved.elim eq_of_update_ne eq_of_update_ne
      obtain ⟨hi, hstate, hrest, -⟩ := hinv.taskOk htask
      cases goOn with
      | false =>
          simp only [setNode, update_self]
          trivial
      | true =>
          simp only [setNode, update_self]
          refine ⟨hi, ?_, fun p hp => hrest p (List.mem_cons_of_mem _ hp)⟩
          simp only [update_self, state_onAppendReply hreply]
          exact hstate
  | finishElection j votes htask =>
      obtain rfl : i = j := hmoved.elim eq_of_update_ne eq_of_update_ne
      simp only [setNode, update_self]
      trivial
  | finishHeartbeat j htask =>
      obtain rfl : i = j := hmoved.elim (absurd rfl) eq_of_update_ne
      simp only [update_self]
      trivial
  | handleVote rpc src dst args n reply hsent hidle hfresh hhandle =>
      obtain rfl : i = dst := hmoved.elim eq_of_update_ne (absurd rfl)
      simp only [hidle]
      trivial
  | handleAppend rpc src dst args n reply hsent hidle hfresh hhandle =>
      obtain rfl : i = dst := hmoved.elim eq_of_update_ne (absurd rfl)
      simp only [hidle]
      trivial
  | submitLog j key value hj hidle =>
      obtain rfl : i = j := hmoved.elim eq_of_update_ne (absurd rfl)
      simp only [hidle]
      trivial

theorem tasks_inv_step (hinv : Inv M s) (hev : Evolves s s') (h : Step M s e s') (i : String) :
    TaskOk M s' i (s'.task i) := by
  by_cases hmoved : s'.node i ≠ s.node i ∨ s'.task i ≠ s.task i
  · exact task_moved_step hinv hev h i hmoved
  · push Not at hmoved
    rw [hmoved.2]
    apply (hinv.tasks i).mono hev hmoved.1
    rcases answers_step hinv h with heq | ⟨new, r, heq, -, hr, hlogs⟩
    · intro a ha
      exact .inl (heq ▸ ha)
    · exact forall_mem_concat heq (fun a ha => .inl ha) (.inr ⟨r, hr, hlogs⟩)

/-- How the node that moves in a step changes: quietly, by winning an election,
or by taking a submission. -/
theorem node_step (hinv : Inv M s) (hterm : NoTermOverflow s e) (h : Step M s e s')
    (i : String) :
    Quiet (s.node i) (s'.node i) ∨
      (∃ votes, s.task i = .election [] votes ∧
        s'.node i = (s.node i).finishElection votes) ∨
      (∃ key value, e = .submitLog i key value ∧ i ∈ M.ids ∧
        s'.node i = ((s.node i).submitLog key value).1) := by
  cases moves_of_step h i with
  | stays hnode =>
      rw [hnode]
      exact .inl (Quiet.refl _)
  | startElection hnode =>
      have hfit : (s.node i).currentTerm < 2 ^ 64 - 1 := hterm
      rw [hnode]
      exact .inl (quiet_beginElection (by omega))
  | voteReply hreply hnode =>
      rw [hnode]
      exact .inl (quiet_onVoteReply hreply)
  | appendReply htask hanswer hresponse hreply hnode =>
      rw [hnode]
      exact .inl (quiet_onAppendReply hreply)
  | finishElection htask hnode => exact .inr (.inl ⟨_, htask, hnode⟩)
  | handleVote hhandle hnode =>
      rw [hnode]
      exact .inl (quiet_handleRequestVote hhandle)
  | handleAppend hsent hhandle hnode =>
      rw [hnode]
      exact .inl (quiet_handleAppendEntries hhandle (hinv.requests _ hsent).2.2.1)
  | submitLog hi hnode => exact .inr (.inr ⟨_, _, rfl, hi, hnode⟩)

/-- An election that has run through all peers and reached the majority. -/
theorem elected_of_campaign (hmem : ∀ i ∈ M.ids, (M.peers i).Nodup) {i : String} {votes : Nat}
    (hi : i ∈ M.ids) (hcamp : Campaign M s i [] votes)
    (hmaj : majority (M.peers i) ≤ votes) : Elected M s i (s.node i).currentTerm := by
  obtain ⟨asked, granted, hpeers, hsub, hcount, hcast⟩ := hcamp
  rw [List.append_nil] at hpeers
  rw [← hpeers] at hsub
  exact ⟨granted, (hmem i hi).sublist hsub, fun g hg => hsub.subset hg, hcount ▸ hmaj, hcast⟩

theorem leaders_inv_step (hinv : Inv M s) (hterm : NoTermOverflow s e)
    (hev : Evolves s s') (h : Step M s e s') (i : String)
    (hlead : (s'.node i).state = .Leader) :
    i ∈ M.ids ∧ Elected M s' i (s'.node i).currentTerm := by
  rcases node_step hinv hterm h i with hquiet | ⟨votes, htask, hnode⟩ |
    ⟨key, value, -, hi, hnode⟩
  · obtain ⟨hold, hsame⟩ := hquiet.leader hlead
    obtain ⟨hi, helected⟩ := hinv.leaders i hold
    rw [hsame]
    exact ⟨hi, helected.mono hev.votes⟩
  · obtain ⟨hi, hcamp⟩ := hinv.taskOk htask
    refine ⟨hi, ?_⟩
    rw [hnode] at hlead ⊢
    rcases finishElection_spec (s.node i) votes with heq | ⟨hmaj, heq⟩
    · rw [heq] at hlead ⊢
      exact (hinv.leaders i hlead).2.mono hev.votes
    · rw [(hinv.ident i).2] at hmaj
      rw [heq]
      exact (elected_of_campaign M.peers_nodup hi hcamp hmaj).mono hev.votes
  · refine ⟨hi, ?_⟩
    rw [hnode] at hlead ⊢
    rcases submitLog_spec (s.node i) key value with heq | ⟨hold, heq⟩
    · rw [heq] at hlead ⊢
      exact (hinv.leaders i hlead).2.mono hev.votes
    · rw [heq]
      exact (hinv.leaders i hold).2.mono hev.votes

theorem entries_inv_step (hinv : Inv M s) (hterm : NoTermOverflow s e)
    (hev : Evolves s s') (h : Step M s e s') (i : String) : LogOk M s' i := by
  rcases node_step hinv hterm h i with hquiet | ⟨votes, -, hnode⟩ |
    ⟨key, value, -, -, hnode⟩
  · exact (hinv.entries i).of_logs_eq hev hquiet.logs
  · exact (hinv.entries i).of_logs_eq hev (by rw [hnode, logs_finishElection])
  · rcases submitLog_spec (s.node i) key value with heq | ⟨hlead, heq⟩
    · exact (hinv.entries i).of_logs_eq hev (by rw [hnode, heq])
    · obtain ⟨tail, hlogs, htail⟩ := hinv.entries i
      refine ⟨tail ++ [_], by rw [hnode, heq, hlogs]; rfl, ?_⟩
      exact forall_mem_concat rfl (fun entry hentry => (htail entry hentry).mono hev.votes)
        ((hinv.leaders i hlead).2.mono hev.votes)

/-- **The step lemma.**  Every step of an honest cluster preserves the invariant
and lets the history grow. -/
theorem inv_step (hinv : Inv M s) (hterm : NoTermOverflow s e)
    (hstep : s.step M e = some s') : Inv M s' ∧ Evolves s s' := by
  have h := step_sound hstep
  have hev := evolves_step hinv hterm h
  have hvotes := votes_held_step hinv hterm hev h
  refine ⟨?_, hev⟩
  exact
    { ident := fun i => ⟨(hev.keep i).nodeId.trans (hinv.ident i).1,
        (hev.keep i).peers.trans (hinv.ident i).2⟩
      voteMem := fun v hv => (hvotes v hv).1
      voteTerm := fun v hv => (hvotes v hv).2.1
      voteHeld := fun v hv => (hvotes v hv).2.2
      voteUnique := votes_unique_step hinv hterm hev h
      requests := requests_inv_step hinv hev h
      answers := answers_inv_step hinv hev h
      tasks := tasks_inv_step hinv hev h
      leaders := leaders_inv_step hinv hterm hev h
      entries := entries_inv_step hinv hterm hev h }

/-- **The run lemma.** -/
theorem inv_run {es : List Event} (hinv : Inv M s)
    (hmeets : Lib.Meets (step M) NoTermOverflow s es)
    (hrun : Lib.run (step M) s es = some s') : Inv M s' ∧ Evolves s s' :=
  Lib.run_related Evolves.refl (fun _ _ _ => Evolves.trans)
    (fun _ _ _ => inv_step) hinv hmeets hrun

end Cluster
end Raft
end YoloServer
