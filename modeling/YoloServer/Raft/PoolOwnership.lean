import Mathlib.Data.List.Nodup
import Mathlib.Data.List.Perm.Basic
import YoloServer.Lib.Run
import YoloServer.Raft.RaftConnectionPool

/-!
# Who owns a descriptor

The pool together with its callers and the descriptor table of the process.  A
descriptor is closed, idle in a queue, lent to a caller, or used by another part of
the process; after `close` the system may hand it out again for anything.

Every function of the pool holds `m_mutex`, so each is one step.  `close` is recorded
as a fault if it hits a descriptor that is not an open one of the pool, or one that is
still idle or lent when the function returns.

* `Drops` is what all functions do that close idle connections: the queues lose the
  closed descriptors and nothing else.
* `pool_ownership`: in every run the idle and the lent descriptors are distinct, and
  there is no fault.
-/

namespace YoloServer
namespace Raft

open Function Lib

/-- What an open descriptor is used for. -/
inductive Holder where
  | pool
  | elsewhere
  deriving DecidableEq

/-- The pool, the keys of `m_connectionPools`, the connections that callers have, and
the descriptor table of the process. -/
structure PoolState where
  pool : RaftConnectionPool
  keys : List String
  running : Bool
  lent : List (String × Nat)
  table : Nat → Option Holder
  faults : List Nat

namespace PoolState

/-- `RaftConnectionPool::RaftConnectionPool`, in a process with the given open
descriptors. -/
def init (others : List Nat) : PoolState where
  pool := .empty
  keys := []
  running := false
  lent := []
  table fd := if fd ∈ others then some .elsewhere else none
  faults := []

/-- The descriptor waits in a queue. -/
def Idle (s : PoolState) (fd : Nat) : Prop :=
  ∃ peerId ∈ s.keys, fd ∈ s.pool.connectionPools peerId

instance (s : PoolState) (fd : Nat) : Decidable (s.Idle fd) :=
  inferInstanceAs (Decidable (∃ _ ∈ _, _))

/-- A caller has the descriptor. -/
def Lent (s : PoolState) (fd : Nat) : Prop :=
  fd ∈ s.lent.map Prod.snd

instance (s : PoolState) (fd : Nat) : Decidable (s.Lent fd) :=
  inferInstanceAs (Decidable (_ ∈ _))

/-- The pool may close the descriptor. -/
def MayClose (s : PoolState) (fd : Nat) : Prop :=
  s.table fd = some .pool ∧ ¬ s.Idle fd ∧ ¬ s.Lent fd

instance (s : PoolState) (fd : Nat) : Decidable (s.MayClose fd) :=
  inferInstanceAs (Decidable (_ ∧ _))

/-- `close(fd)`. -/
def close (s : PoolState) (fd : Nat) : PoolState :=
  { s with
    table := update s.table fd none
    faults := if s.MayClose fd then s.faults else s.faults ++ [fd] }

def closeAll (s : PoolState) (fds : List Nat) : PoolState :=
  fds.foldl close s

/-- What can happen next.  The functions `valid` and `expired` answer for
`isConnectionValid` and for the age of a connection, and `order` is the order in which
the loop runs through `m_connectionPools`. -/
inductive Event where
  | start
  | stop (order : List String)
  | getConnection (peerId : String) (valid : Nat → Bool) (created : Option Nat)
  | releaseConnection (peerId : String) (fd : Nat) (valid : Nat → Bool)
  | closePeerConnections (peerId : String)
  | cleanup (order : List String) (expired valid : Nat → Bool)
  /-- Another part of the process opens a descriptor. -/
  | openElsewhere (fd : Nat)
  /-- Another part of the process closes a descriptor of its own. -/
  | closeElsewhere (fd : Nat)

/-- `getConnection`: the pool may close an idle connection first, and then open a new
one under any descriptor that is not in use. -/
def lend (s : PoolState) (peerId : String) (got : RaftConnectionPool.Handout) :
    Option PoolState :=
  let s' := { s with pool := got.pool }.closeAll got.closed
  match got.fd with
  | none => some s'
  | some fd =>
      if got.fresh then
        if s'.table fd = none then
          some
            { s' with
              table := update s'.table fd (some .pool)
              lent := s'.lent ++ [(peerId, fd)] }
        else
          none
      else
        some { s' with lent := s'.lent ++ [(peerId, fd)] }

/-- `releaseConnection` by a caller that has the descriptor. -/
def release (s : PoolState) (peerId : String) (fd : Nat) (valid : Nat → Bool) :
    Option PoolState :=
  if (peerId, fd) ∈ s.lent then
    let released := s.pool.releaseConnection valid peerId fd
    some
      ({ s with
          pool := released.1
          -- `m_connectionPools[peerId]` creates the queue.
          keys :=
            if s.pool.fdToPeerMap fd = some peerId ∧ valid fd = true ∧ peerId ∉ s.keys then
              peerId :: s.keys
            else
              s.keys
          lent := s.lent.erase (peerId, fd) }.closeAll released.2)
  else
    none

/-- One step. -/
def step (s : PoolState) : Event → Option PoolState
  | .start => some { s with running := true }
  | .stop order =>
      if s.running = false then
        some s
      else if order.Perm s.keys then
        let stopped := s.pool.stop order
        some ({ s with pool := stopped.1, keys := [], running := false }.closeAll stopped.2)
      else
        none
  | .getConnection peerId valid created =>
      s.lend peerId (s.pool.getConnection valid peerId created)
  | .releaseConnection peerId fd valid => s.release peerId fd valid
  | .closePeerConnections peerId =>
      if peerId ∈ s.keys then
        let closed := s.pool.closePeerConnections peerId
        some ({ s with pool := closed.1, keys := s.keys.erase peerId }.closeAll closed.2)
      else
        some s
  | .cleanup order expired valid =>
      if s.running = true ∧ order.Perm s.keys then
        let cleaned := s.pool.cleanup expired valid order
        some ({ s with pool := cleaned.1 }.closeAll cleaned.2)
      else
        none
  | .openElsewhere fd =>
      if s.table fd = none then
        some { s with table := update s.table fd (some .elsewhere) }
      else
        none
  | .closeElsewhere fd =>
      if s.table fd = some .elsewhere then
        some { s with table := update s.table fd none }
      else
        none

end PoolState

/-! ## Closing idle connections -/

namespace RaftConnectionPool

/-- Every idle descriptor waits once, in the queue of the peer it was opened for. -/
structure Tidy (pool : RaftConnectionPool) : Prop where
  nodup : ∀ peerId, (pool.connectionPools peerId).Nodup
  mapped : ∀ peerId, ∀ fd ∈ pool.connectionPools peerId, pool.fdToPeerMap fd = some peerId

/-- The idle connections in `closed` are taken out of the queues. -/
structure Drops (pool pool' : RaftConnectionPool) (closed : List Nat) : Prop where
  sublist : ∀ peerId, (pool'.connectionPools peerId).Sublist (pool.connectionPools peerId)
  mapped : ∀ peerId, ∀ fd ∈ pool'.connectionPools peerId,
    pool'.fdToPeerMap fd = pool.fdToPeerMap fd
  forgets : ∀ fd, pool'.fdToPeerMap fd = pool.fdToPeerMap fd ∨ pool'.fdToPeerMap fd = none
  was_idle : ∀ fd ∈ closed, ∃ peerId, fd ∈ pool.connectionPools peerId
  gone : ∀ fd ∈ closed, ∀ peerId, fd ∉ pool'.connectionPools peerId
  closed_nodup : closed.Nodup

variable {pool pool' pool'' : RaftConnectionPool} {closed closed' : List Nat}

theorem Drops.refl (pool : RaftConnectionPool) : Drops pool pool [] where
  sublist _ := .refl _
  mapped _ _ _ := rfl
  forgets _ := .inl rfl
  was_idle := by simp
  gone := by simp
  closed_nodup := List.nodup_nil

theorem Drops.tidy (h : Drops pool pool' closed) (htidy : pool.Tidy) : pool'.Tidy where
  nodup peerId := (htidy.nodup peerId).sublist (h.sublist peerId)
  mapped peerId fd hfd := by
    rw [h.mapped peerId fd hfd]
    exact htidy.mapped peerId fd ((h.sublist peerId).subset hfd)

theorem Drops.trans (h : Drops pool pool' closed) (h' : Drops pool' pool'' closed') :
    Drops pool pool'' (closed ++ closed') where
  sublist peerId := (h'.sublist peerId).trans (h.sublist peerId)
  mapped peerId fd hfd := by
    rw [h'.mapped peerId fd hfd, h.mapped peerId fd ((h'.sublist peerId).subset hfd)]
  forgets fd := by
    rcases h'.forgets fd with heq | hnone
    · rw [heq]
      exact h.forgets fd
    · exact .inr hnone
  was_idle fd hfd := by
    rcases List.mem_append.mp hfd with hfd | hfd
    · exact h.was_idle fd hfd
    · obtain ⟨peerId, hidle⟩ := h'.was_idle fd hfd
      exact ⟨peerId, (h.sublist peerId).subset hidle⟩
  gone fd hfd peerId hidle := by
    rcases List.mem_append.mp hfd with hfd | hfd
    · exact h.gone fd hfd peerId ((h'.sublist peerId).subset hidle)
    · exact h'.gone fd hfd peerId hidle
  closed_nodup := by
    refine h.closed_nodup.append h'.closed_nodup ?_
    intro fd hfd hfd'
    obtain ⟨peerId, hidle⟩ := h'.was_idle fd hfd'
    exact h.gone fd hfd peerId hidle

/-- A queue is split into the connections that stay and those that are closed. -/
theorem drops_dropFrom (htidy : pool.Tidy) {peerId : String} {kept : List Nat}
    (hsublist : kept.Sublist (pool.connectionPools peerId))
    (hperm : (kept ++ closed).Perm (pool.connectionPools peerId)) :
    Drops pool (pool.dropFrom peerId kept closed) closed := by
  have hnodup : (kept ++ closed).Nodup := hperm.nodup_iff.mpr (htidy.nodup peerId)
  have hidle : ∀ fd ∈ closed, fd ∈ pool.connectionPools peerId := fun fd hfd =>
    hperm.mem_iff.mp (List.mem_append_right _ hfd)
  have hqueue : ∀ q, ((pool.dropFrom peerId kept closed).connectionPools q).Sublist
      (pool.connectionPools q) := by
    intro q
    by_cases hq : q = peerId
    · subst hq
      simpa [dropFrom] using hsublist
    · simp [dropFrom, hq]
  have hgone : ∀ fd ∈ closed, ∀ q, fd ∉ (pool.dropFrom peerId kept closed).connectionPools q := by
    intro fd hfd q hmem
    -- The descriptor could only wait in the queue of its own peer.
    have hpeer : some q = some peerId := by
      rw [← htidy.mapped q fd ((hqueue q).subset hmem), htidy.mapped peerId fd (hidle fd hfd)]
    obtain rfl : q = peerId := Option.some.inj hpeer
    simp only [dropFrom, update_self] at hmem
    exact List.disjoint_of_nodup_append hnodup hmem hfd
  refine ⟨hqueue, ?_, ?_, fun fd hfd => ⟨peerId, hidle fd hfd⟩, hgone, hnodup.of_append_right⟩
  · intro q fd hfd
    have hopen : fd ∉ closed := fun hclosed => hgone fd hclosed q hfd
    simp [dropFrom, eraseAll, hopen]
  · intro fd
    simp only [dropFrom, eraseAll]
    split_ifs
    · exact .inr rfl
    · exact .inl rfl

theorem drops_closePeerConnections (htidy : pool.Tidy) (peerId : String) :
    Drops pool (pool.closePeerConnections peerId).1 (pool.closePeerConnections peerId).2 :=
  drops_dropFrom htidy (List.nil_sublist _) (List.Perm.refl _)

theorem drops_cleanupPeer (htidy : pool.Tidy) (expired valid : Nat → Bool) (peerId : String) :
    Drops pool (pool.cleanupPeer expired valid peerId).1
      (pool.cleanupPeer expired valid peerId).2 := by
  apply drops_dropFrom htidy List.filter_sublist
  have hperm := List.filter_append_perm (fun fd => expired fd || !valid fd)
    (pool.connectionPools peerId)
  exact List.perm_append_comm.trans hperm

theorem drops_cleanup (htidy : pool.Tidy) (expired valid : Nat → Bool) (peers : List String) :
    Drops pool (pool.cleanup expired valid peers).1 (pool.cleanup expired valid peers).2 := by
  induction peers generalizing pool with
  | nil => exact .refl pool
  | cons peerId rest ih =>
      have hfirst := drops_cleanupPeer htidy expired valid peerId
      exact hfirst.trans (ih (hfirst.tidy htidy))

theorem drops_stop (htidy : pool.Tidy) {peers : List String} (hpeers : peers.Nodup) :
    Drops pool (pool.stop peers).1 (pool.stop peers).2 where
  sublist _ := List.nil_sublist _
  mapped := by simp [stop, empty]
  forgets _ := .inr rfl
  was_idle fd hfd := by
    obtain ⟨peerId, -, hidle⟩ := List.mem_flatMap.mp hfd
    exact ⟨peerId, hidle⟩
  gone := by simp [stop, empty]
  closed_nodup := by
    rw [stop, List.nodup_flatMap]
    refine ⟨fun peerId _ => htidy.nodup peerId, hpeers.imp ?_⟩
    intro p q hne fd hp hq
    apply hne
    exact Option.some.inj ((htidy.mapped p fd hp).symm.trans (htidy.mapped q fd hq))

/-- `getConnection` hands out the first idle connection, or it drops at most one idle
connection and opens a new one. -/
theorem getConnection_cases (htidy : pool.Tidy) (valid : Nat → Bool) (peerId : String)
    (created : Option Nat) :
    (∃ fd rest, pool.connectionPools peerId = fd :: rest ∧
        pool.getConnection valid peerId created =
          ⟨{ pool with connectionPools := update pool.connectionPools peerId rest }, some fd,
            false, []⟩) ∨
      ∃ pool' closed, Drops pool pool' closed ∧
        pool.getConnection valid peerId created = openConnection pool' peerId created closed := by
  unfold getConnection
  cases hqueue : pool.connectionPools peerId with
  | nil => exact .inr ⟨pool, [], .refl pool, rfl⟩
  | cons fd rest =>
      dsimp only
      split_ifs with hvalid
      · exact .inl ⟨fd, rest, rfl, rfl⟩
      · refine .inr ⟨pool.dropFrom peerId rest [fd], [fd], ?_, ?_⟩
        · apply drops_dropFrom htidy
          · rw [hqueue]
            exact List.sublist_cons_self fd rest
          · rw [hqueue]
            exact List.perm_append_singleton fd rest
        · congr 2
          ext1 other
          by_cases hother : other = fd
          · simp [eraseAll, hother]
          · simp [eraseAll, hother]

end RaftConnectionPool

namespace PoolState

open RaftConnectionPool

/-- The table after the given descriptors were closed. -/
def closedIn (table : Nat → Option Holder) (fds : List Nat) : Nat → Option Holder :=
  fun fd => if fd ∈ fds then none else table fd

/-- Closing distinct descriptors that may be closed is no fault. -/
theorem closeAll_eq {s : PoolState} {fds : List Nat} (hnodup : fds.Nodup)
    (hmay : ∀ fd ∈ fds, s.MayClose fd) :
    s.closeAll fds = { s with table := closedIn s.table fds } := by
  induction fds generalizing s with
  | nil =>
      have htable : closedIn s.table [] = s.table := by
        ext1 fd
        simp [closedIn]
      rw [htable]
      rfl
  | cons fd rest ih =>
      obtain ⟨hnew, hrest⟩ := List.nodup_cons.mp hnodup
      have hclose : s.close fd = { s with table := update s.table fd none } := by
        rw [close, if_pos (hmay fd List.mem_cons_self)]
      have hstill : ∀ other ∈ rest,
          PoolState.MayClose { s with table := update s.table fd none } other := by
        intro other hother
        have hne : other ≠ fd := fun heq => hnew (heq ▸ hother)
        obtain ⟨hopen, hidle, hlent⟩ := hmay other (List.mem_cons_of_mem _ hother)
        exact ⟨by simpa [hne] using hopen, hidle, hlent⟩
      rw [closeAll, List.foldl_cons, hclose, ← closeAll, ih hrest hstill]
      congr 1
      ext1 other
      by_cases hother : other = fd
      · simp [closedIn, hother]
      · simp [closedIn, hother]

/-! ## The invariant -/

structure Inv (s : PoolState) : Prop where
  tidy : s.pool.Tidy
  idle_open : ∀ peerId, ∀ fd ∈ s.pool.connectionPools peerId, s.table fd = some .pool
  queue_length : ∀ peerId, (s.pool.connectionPools peerId).length ≤ maxConnectionsPerPeer
  queue_key : ∀ peerId, s.pool.connectionPools peerId ≠ [] → peerId ∈ s.keys
  keys_nodup : s.keys.Nodup
  lent_nodup : (s.lent.map Prod.snd).Nodup
  lent_open : ∀ c ∈ s.lent, s.table c.2 = some .pool
  lent_mapped : ∀ c ∈ s.lent, s.pool.fdToPeerMap c.2 = some c.1 ∨ s.pool.fdToPeerMap c.2 = none
  idle_not_lent : ∀ peerId, ∀ fd ∈ s.pool.connectionPools peerId, ¬ s.Lent fd
  no_faults : s.faults = []

theorem inv_init (others : List Nat) : Inv (init others) where
  tidy := ⟨fun _ => List.nodup_nil, by simp [init, empty]⟩
  idle_open := by simp [init, empty]
  queue_length := by simp [init, empty]
  queue_key := by simp [init, empty]
  keys_nodup := List.nodup_nil
  lent_nodup := List.nodup_nil
  lent_open := by simp [init]
  lent_mapped := by simp [init]
  idle_not_lent := by simp [init, empty]
  no_faults := rfl

variable {s s' : PoolState} {pool : RaftConnectionPool} {closed : List Nat}

/-- Idle connections that are dropped may be closed. -/
theorem closeAll_of_drops (h : Inv s) (hdrops : Drops s.pool pool closed)
    (pool₁ : RaftConnectionPool) (hqueues : pool₁.connectionPools = pool.connectionPools)
    (keys : List String) (running : Bool) :
    PoolState.closeAll { s with pool := pool₁, keys := keys, running := running } closed =
      { s with pool := pool₁, keys := keys, running := running,
               table := closedIn s.table closed } := by
  apply closeAll_eq hdrops.closed_nodup
  intro fd hfd
  obtain ⟨peerId, hidle⟩ := hdrops.was_idle fd hfd
  refine ⟨h.idle_open peerId fd hidle, ?_, h.idle_not_lent peerId fd hidle⟩
  rintro ⟨q, -, hq⟩
  exact hdrops.gone fd hfd q (hqueues ▸ hq)

/-- Dropping idle connections and closing them keeps the invariant. -/
theorem inv_drops (h : Inv s) (hdrops : Drops s.pool pool closed) {keys : List String}
    (hkeys : keys.Nodup) (hcover : ∀ peerId, pool.connectionPools peerId ≠ [] → peerId ∈ keys)
    (running : Bool) :
    Inv { s with pool := pool, keys := keys, running := running,
                 table := closedIn s.table closed } where
  tidy := hdrops.tidy h.tidy
  idle_open peerId fd hfd := by
    have hopen : fd ∉ closed := fun hclosed => hdrops.gone fd hclosed peerId hfd
    simp only [closedIn, hopen, if_false]
    exact h.idle_open peerId fd ((hdrops.sublist peerId).subset hfd)
  queue_length peerId := (hdrops.sublist peerId).length_le.trans (h.queue_length peerId)
  queue_key := hcover
  keys_nodup := hkeys
  lent_nodup := h.lent_nodup
  lent_open c hc := by
    have hopen : c.2 ∉ closed := by
      intro hclosed
      obtain ⟨peerId, hidle⟩ := hdrops.was_idle c.2 hclosed
      exact h.idle_not_lent peerId c.2 hidle (List.mem_map_of_mem hc)
    simp only [closedIn, hopen, if_false]
    exact h.lent_open c hc
  lent_mapped c hc := by
    show pool.fdToPeerMap c.2 = _ ∨ pool.fdToPeerMap c.2 = none
    rcases hdrops.forgets c.2 with heq | hnone
    · rw [heq]
      exact h.lent_mapped c hc
    · exact .inr hnone
  idle_not_lent peerId fd hfd := h.idle_not_lent peerId fd ((hdrops.sublist peerId).subset hfd)
  no_faults := h.no_faults

/-- The keys still cover the queues after a drop. -/
theorem cover_of_drops (h : Inv s) (hdrops : Drops s.pool pool closed) (peerId : String)
    (hne : pool.connectionPools peerId ≠ []) : peerId ∈ s.keys := by
  apply h.queue_key
  intro hnil
  apply hne
  have hsublist := hdrops.sublist peerId
  rw [hnil] at hsublist
  exact List.sublist_nil.mp hsublist

/-! ## Lending -/

/-- An open descriptor of the pool that is on its way: it waits in no queue, and no caller
has it. -/
structure Between (s : PoolState) (fd : Nat) : Prop where
  is_open : s.table fd = some .pool
  not_idle : ∀ peerId, fd ∉ s.pool.connectionPools peerId
  not_lent : ¬ s.Lent fd

/-- The first idle connection of a peer leaves its queue. -/
theorem inv_dequeue (h : Inv s) {peerId : String} {fd : Nat} {rest : List Nat}
    (hqueue : s.pool.connectionPools peerId = fd :: rest) :
    let taken := { s with
      pool := { s.pool with connectionPools := update s.pool.connectionPools peerId rest } }
    Inv taken ∧ Between taken fd := by
  intro taken
  have hfd : fd ∈ s.pool.connectionPools peerId := hqueue ▸ List.mem_cons_self
  have hsublist : ∀ q, (update s.pool.connectionPools peerId rest q).Sublist
      (s.pool.connectionPools q) := by
    intro q
    by_cases hq : q = peerId
    · rw [hq, update_self, hqueue]
      exact List.sublist_cons_self fd rest
    · rw [update_of_ne hq]
  refine ⟨?_, h.idle_open peerId fd hfd, ?_, h.idle_not_lent peerId fd hfd⟩
  · exact
      { h with
        tidy := ⟨fun q => (h.tidy.nodup q).sublist (hsublist q), fun q other hother =>
          h.tidy.mapped q other ((hsublist q).subset hother)⟩
        idle_open := fun q other hother => h.idle_open q other ((hsublist q).subset hother)
        queue_length := fun q => (hsublist q).length_le.trans (h.queue_length q)
        queue_key := fun q hne => h.queue_key q fun hnil =>
          hne (List.sublist_nil.mp (hnil ▸ hsublist q))
        idle_not_lent := fun q other hother =>
          h.idle_not_lent q other ((hsublist q).subset hother) }
  · -- The descriptor waits nowhere else.
    intro q hmem
    have hpeer := (h.tidy.mapped q fd ((hsublist q).subset hmem)).symm.trans
      (h.tidy.mapped peerId fd hfd)
    dsimp only [taken] at hmem
    rw [Option.some.inj hpeer, update_self] at hmem
    have hnodup := h.tidy.nodup peerId
    rw [hqueue, List.nodup_cons] at hnodup
    exact hnodup.1 hmem

/-- A new connection is opened under a free descriptor. -/
theorem inv_open (h : Inv s) {fd : Nat} (hfree : s.table fd = none) (peerId : String) :
    let opened := { s with
      pool := { s.pool with fdToPeerMap := update s.pool.fdToPeerMap fd (some peerId) }
      table := update s.table fd (some .pool) }
    Inv opened ∧ Between opened fd := by
  intro opened
  have hnew : ∀ {other}, s.table other = some .pool → other ≠ fd := by
    rintro other hopen rfl
    rw [hfree] at hopen
    cases hopen
  have hidle : ∀ q, ∀ other ∈ s.pool.connectionPools q, other ≠ fd := fun q other hother =>
    hnew (h.idle_open q other hother)
  have hlent : ∀ c ∈ s.lent, c.2 ≠ fd := fun c hc => hnew (h.lent_open c hc)
  refine ⟨?_, update_self .., fun q hfd => hidle q fd hfd rfl, ?_⟩
  · refine
      { h with
        tidy := ⟨h.tidy.nodup, fun q other hother => ?_⟩
        idle_open := fun q other hother => ?_
        lent_open := fun c hc => ?_
        lent_mapped := fun c hc => ?_ }
    · show update s.pool.fdToPeerMap fd (some peerId) other = some q
      rw [update_of_ne (hidle q other hother)]
      exact h.tidy.mapped q other hother
    · show update s.table fd (some .pool) other = some .pool
      rw [update_of_ne (hidle q other hother)]
      exact h.idle_open q other hother
    · show update s.table fd (some .pool) c.2 = some .pool
      rw [update_of_ne (hlent c hc)]
      exact h.lent_open c hc
    · show update s.pool.fdToPeerMap fd (some peerId) c.2 = _ ∨
        update s.pool.fdToPeerMap fd (some peerId) c.2 = none
      rw [update_of_ne (hlent c hc)]
      exact h.lent_mapped c hc
  · intro hmem
    obtain ⟨c, hc, heq⟩ := List.mem_map.mp hmem
    exact hlent c hc heq

/-- A caller gets the connection. -/
theorem inv_lent (h : Inv s) {peerId : String} {fd : Nat} (hfd : Between s fd)
    (hmap : s.pool.fdToPeerMap fd = some peerId) :
    Inv { s with lent := s.lent ++ [(peerId, fd)] } := by
  refine
    { h with
      lent_nodup := ?_
      lent_open := ?_
      lent_mapped := ?_
      idle_not_lent := ?_ }
  · rw [List.map_append, List.map_singleton]
    exact h.lent_nodup.append (List.nodup_singleton fd) (by simpa [Lent] using hfd.not_lent)
  · intro c hc
    rcases List.mem_append.mp hc with hc | hc
    · exact h.lent_open c hc
    · rw [List.mem_singleton.mp hc]
      exact hfd.is_open
  · intro c hc
    rcases List.mem_append.mp hc with hc | hc
    · exact h.lent_mapped c hc
    · rw [List.mem_singleton.mp hc]
      exact .inl hmap
  · intro q other hother hlent
    rw [Lent, List.map_append, List.map_singleton, List.mem_append, List.mem_singleton] at hlent
    rcases hlent with hlent | rfl
    · exact h.idle_not_lent q other hother hlent
    · exact hfd.not_idle q hother

theorem inv_lend (h : Inv s) {peerId : String} {valid : Nat → Bool} {created : Option Nat}
    (hstep : s.lend peerId (s.pool.getConnection valid peerId created) = some s') : Inv s' := by
  rcases getConnection_cases h.tidy valid peerId created with
    ⟨fd, rest, hqueue, hgot⟩ | ⟨pool, closed, hdrops, hgot⟩
  · rw [hgot] at hstep
    cases hstep
    obtain ⟨hinv, hbetween⟩ := inv_dequeue h hqueue
    exact inv_lent hinv hbetween (h.tidy.mapped peerId fd (hqueue ▸ List.mem_cons_self))
  · have hdropped := inv_drops h hdrops h.keys_nodup (cover_of_drops h hdrops) s.running
    rw [hgot] at hstep
    cases created with
    | none =>
        have hclose := closeAll_of_drops h hdrops pool rfl s.keys s.running
        simp only [lend, openConnection, hclose] at hstep
        cases hstep
        exact hdropped
    | some fd =>
        have hclose := closeAll_of_drops h hdrops
          { pool with fdToPeerMap := update pool.fdToPeerMap fd (some peerId) } rfl s.keys s.running
        simp only [lend, openConnection, hclose, if_true] at hstep
        split_ifs at hstep with hfree
        cases hstep
        obtain ⟨hinv, hbetween⟩ := inv_open hdropped hfree peerId
        exact inv_lent hinv hbetween (update_self ..)

/-! ## Releasing -/

/-- A caller gives a connection back. -/
theorem inv_returned (h : Inv s) {peerId : String} {fd : Nat} (hlent : (peerId, fd) ∈ s.lent) :
    Inv { s with lent := s.lent.erase (peerId, fd) } ∧
      Between { s with lent := s.lent.erase (peerId, fd) } fd := by
  refine ⟨?_, h.lent_open _ hlent, ?_, ?_⟩
  · exact
      { h with
        lent_nodup := h.lent_nodup.sublist (List.erase_sublist.map _)
        lent_open := fun c hc => h.lent_open c (List.mem_of_mem_erase hc)
        lent_mapped := fun c hc => h.lent_mapped c (List.mem_of_mem_erase hc)
        idle_not_lent := fun q other hother hmem =>
          h.idle_not_lent q other hother ((List.erase_sublist.map _).subset hmem) }
  · intro q hidle
    exact h.idle_not_lent q fd hidle (List.mem_map_of_mem hlent)
  · have hperm := (List.perm_cons_erase hlent).map Prod.snd
    have hnodup := hperm.nodup_iff.mp h.lent_nodup
    rw [List.map_cons, List.nodup_cons] at hnodup
    exact hnodup.1

/-- The connection is closed. -/
theorem inv_discard (h : Inv s) {fd : Nat} (hfd : Between s fd) {map : Nat → Option String}
    (hmap : ∀ other, other ≠ fd → map other = s.pool.fdToPeerMap other)
    {keys : List String} (hkeys : keys.Nodup) (hcover : ∀ q ∈ s.keys, q ∈ keys) :
    Inv (PoolState.closeAll
      { s with pool := { s.pool with fdToPeerMap := map }, keys := keys } [fd]) := by
  have hidle : ∀ q, ∀ other ∈ s.pool.connectionPools q, other ≠ fd := by
    rintro q other hother rfl
    exact hfd.not_idle q hother
  have hlent : ∀ c ∈ s.lent, c.2 ≠ fd := by
    rintro c hc rfl
    exact hfd.not_lent (List.mem_map_of_mem hc)
  rw [closeAll_eq (List.nodup_singleton fd)]
  · exact
      { h with
        tidy := ⟨h.tidy.nodup, fun q other hother => by
          show map other = some q
          rw [hmap other (hidle q other hother)]
          exact h.tidy.mapped q other hother⟩
        idle_open := fun q other hother => by
          simpa [closedIn, hidle q other hother] using h.idle_open q other hother
        queue_key := fun q hne => hcover q (h.queue_key q hne)
        keys_nodup := hkeys
        lent_open := fun c hc => by
          simpa [closedIn, hlent c hc] using h.lent_open c hc
        lent_mapped := fun c hc => by
          show map c.2 = _ ∨ map c.2 = none
          rw [hmap c.2 (hlent c hc)]
          exact h.lent_mapped c hc }
  · intro other hother
    rw [List.mem_singleton.mp hother]
    refine ⟨hfd.is_open, ?_, hfd.not_lent⟩
    rintro ⟨q, -, hq⟩
    exact hfd.not_idle q hq

/-- The connection waits in the queue of its peer. -/
theorem inv_enqueue (h : Inv s) {peerId : String} {fd : Nat} (hfd : Between s fd)
    (hmap : s.pool.fdToPeerMap fd = some peerId)
    (hroom : (s.pool.connectionPools peerId).length < maxConnectionsPerPeer)
    {keys : List String} (hkeys : keys.Nodup) (hcover : ∀ q ∈ s.keys, q ∈ keys)
    (hpeer : peerId ∈ keys) :
    Inv { s with
      pool := { s.pool with
        connectionPools :=
          update s.pool.connectionPools peerId (s.pool.connectionPools peerId ++ [fd]) }
      keys := keys } := by
  -- A descriptor of the new queues is an old one, or the one that was given back.
  have hmem : ∀ {q other}, other ∈ update s.pool.connectionPools peerId
      (s.pool.connectionPools peerId ++ [fd]) q →
        other ∈ s.pool.connectionPools q ∨ (q = peerId ∧ other = fd) := by
    intro q other hother
    by_cases hq : q = peerId
    · subst hq
      simpa using hother
    · rw [update_of_ne hq] at hother
      exact .inl hother
  refine
    { h with
      tidy := ⟨?_, ?_⟩
      idle_open := ?_
      queue_length := ?_
      queue_key := ?_
      keys_nodup := hkeys
      idle_not_lent := ?_ }
  · intro q
    by_cases hq : q = peerId
    · subst hq
      simp only [update_self]
      exact (h.tidy.nodup q).append (List.nodup_singleton fd) (by simpa using hfd.not_idle q)
    · simp only [update_of_ne hq]
      exact h.tidy.nodup q
  · intro q other hother
    rcases hmem hother with hold | ⟨rfl, rfl⟩
    · exact h.tidy.mapped q other hold
    · exact hmap
  · intro q other hother
    rcases hmem hother with hold | ⟨rfl, rfl⟩
    · exact h.idle_open q other hold
    · exact hfd.is_open
  · intro q
    by_cases hq : q = peerId
    · subst hq
      simp only [update_self, List.length_append, List.length_singleton]
      omega
    · simp only [update_of_ne hq]
      exact h.queue_length q
  · intro q hne
    by_cases hq : q = peerId
    · exact hq ▸ hpeer
    · simp only [update_of_ne hq] at hne
      exact hcover q (h.queue_key q hne)
  · intro q other hother
    rcases hmem hother with hold | ⟨rfl, rfl⟩
    · exact h.idle_not_lent q other hold
    · exact hfd.not_lent

theorem inv_release (h : Inv s) {peerId : String} {fd : Nat} {valid : Nat → Bool}
    (hstep : s.release peerId fd valid = some s') : Inv s' := by
  unfold release at hstep
  split_ifs at hstep with hlent hkey
  · obtain ⟨hinv, hbetween⟩ := inv_returned h hlent
    -- The queue of the peer is created.
    obtain ⟨hmap, hvalid, hnew⟩ := hkey
    cases hstep
    have hkeys : (peerId :: s.keys).Nodup := List.nodup_cons.mpr ⟨hnew, h.keys_nodup⟩
    simp only [releaseConnection, hmap, hvalid, ne_eq, not_true_eq_false, if_false,
      Bool.true_eq_false]
    split_ifs with hroom
    · exact inv_enqueue hinv hbetween hmap hroom hkeys (fun _ => List.mem_cons_of_mem _)
        List.mem_cons_self
    · exact inv_discard hinv hbetween (fun _ hother => update_of_ne hother _ _) hkeys
        (fun _ => List.mem_cons_of_mem _)
  · obtain ⟨hinv, hbetween⟩ := inv_returned h hlent
    cases hstep
    unfold releaseConnection
    split_ifs with hmap hvalid hroom
    · exact inv_discard hinv hbetween (fun _ _ => rfl) h.keys_nodup fun _ => id
    · exact inv_discard hinv hbetween (fun _ hother => update_of_ne hother _ _) h.keys_nodup fun _ => id
    · rw [not_not] at hmap
      rw [Bool.not_eq_false] at hvalid
      exact inv_enqueue hinv hbetween hmap hroom h.keys_nodup (fun _ => id)
        (by simpa [hmap, hvalid] using hkey)
    · exact inv_discard hinv hbetween (fun _ hother => update_of_ne hother _ _) h.keys_nodup fun _ => id

/-! ## Every step -/

/-- A change of the table that touches no descriptor of the pool. -/
theorem inv_elsewhere (h : Inv s) {fd : Nat} (hfd : s.table fd ≠ some .pool)
    (holder : Option Holder) : Inv { s with table := update s.table fd holder } := by
  have hkeep : ∀ {other}, s.table other = some .pool →
      update s.table fd holder other = some .pool := by
    intro other hopen
    rwa [update_of_ne (by rintro rfl; exact hfd hopen)]
  exact
    { h with
      idle_open := fun q other hother => hkeep (h.idle_open q other hother)
      lent_open := fun c hc => hkeep (h.lent_open c hc) }

theorem inv_step {e : Event} (h : Inv s) (hstep : s.step e = some s') : Inv s' := by
  cases e with
  | start =>
      cases hstep
      exact { h with }
  | stop order =>
      simp only [step] at hstep
      split_ifs at hstep with hrunning horder
      · cases hstep
        exact h
      · have hdrops := drops_stop h.tidy (horder.nodup_iff.mpr h.keys_nodup)
        rw [closeAll_of_drops h hdrops _ rfl] at hstep
        cases hstep
        exact inv_drops h hdrops List.nodup_nil (fun _ hne => absurd rfl hne) false
  | getConnection peerId valid created => exact inv_lend h hstep
  | releaseConnection peerId fd valid => exact inv_release h hstep
  | closePeerConnections peerId =>
      simp only [step] at hstep
      split_ifs at hstep with hkey
      · have hdrops := drops_closePeerConnections h.tidy peerId
        rw [closeAll_of_drops h hdrops _ rfl] at hstep
        cases hstep
        refine inv_drops h hdrops (h.keys_nodup.erase peerId) ?_ s.running
        intro q hne
        -- The queue of the peer itself is empty now.
        have hq : q ≠ peerId := by
          rintro rfl
          exact hne (by simp [closePeerConnections, dropFrom])
        exact (List.mem_erase_of_ne hq).mpr (cover_of_drops h hdrops q hne)
      · cases hstep
        exact h
  | cleanup order expired valid =>
      simp only [step] at hstep
      split_ifs at hstep with horder
      have hdrops := drops_cleanup h.tidy expired valid order
      rw [closeAll_of_drops h hdrops _ rfl] at hstep
      cases hstep
      exact inv_drops h hdrops h.keys_nodup (cover_of_drops h hdrops) s.running
  | openElsewhere fd =>
      simp only [step] at hstep
      split_ifs at hstep with hfree
      cases hstep
      exact inv_elsewhere h (by simp [hfree]) _
  | closeElsewhere fd =>
      simp only [step] at hstep
      split_ifs at hstep with hother
      cases hstep
      exact inv_elsewhere h (by simp [hother]) _

/-- The descriptors of the pool are in order: each idle one waits in one place, in the
queue of the peer it is mapped to; no queue is too long; nobody else has an idle
descriptor, and no two callers have the same; and no `close` was a fault. -/
structure Ownership (s : PoolState) : Prop where
  idle_distinct : ∀ peerId, (s.pool.connectionPools peerId).Nodup
  queues_disjoint : ∀ p q, p ≠ q →
    (s.pool.connectionPools p).Disjoint (s.pool.connectionPools q)
  idle_not_lent : ∀ peerId, ∀ fd ∈ s.pool.connectionPools peerId, ¬ s.Lent fd
  idle_mapped : ∀ peerId, ∀ fd ∈ s.pool.connectionPools peerId,
    s.pool.fdToPeerMap fd = some peerId
  queue_length : ∀ peerId, (s.pool.connectionPools peerId).length ≤ maxConnectionsPerPeer
  lent_once : (s.lent.map Prod.snd).Nodup
  no_faults : s.faults = []

/-- **Ownership of the pooled connections**, in every state of every run. -/
theorem pool_ownership (others : List Nat) (es : List Event) (s : PoolState)
    (hrun : run step (init others) es = some s) : Ownership s := by
  have h : Inv s := run_preserves Inv (fun _ _ _ => inv_step) (inv_init others) hrun
  refine ⟨h.tidy.nodup, ?_, h.idle_not_lent, h.tidy.mapped, h.queue_length, h.lent_nodup,
    h.no_faults⟩
  intro p q hne fd hp hq
  apply hne
  exact Option.some.inj ((h.tidy.mapped p fd hp).symm.trans (h.tidy.mapped q fd hq))

/-- A connection expires in the pool and its descriptor is used elsewhere, and another
one is given back after the pool was stopped. -/
def sampleRun : List Event :=
  [.start, .getConnection "b" (fun _ => true) (some 7), .getConnection "c" (fun _ => true) (some 8),
    .releaseConnection "b" 7 (fun _ => true), .cleanup ["b"] (fun _ => true) (fun _ => true),
    .openElsewhere 7, .stop ["b"], .releaseConnection "c" 8 (fun _ => true)]

theorem ownership_after_stop :
    ∃ s, run step (init [0, 1, 2]) sampleRun = some s ∧
      (s.table 7 = some .elsewhere ∧ s.table 8 = none) ∧ Ownership s := by
  obtain ⟨s, hrun, hs⟩ := exists_run_of_check step (init [0, 1, 2]) sampleRun
    (fun s => s.table 7 = some .elsewhere ∧ s.table 8 = none) (by decide)
  exact ⟨s, hrun, hs, pool_ownership [0, 1, 2] sampleRun s hrun⟩

end PoolState
end Raft
end YoloServer
