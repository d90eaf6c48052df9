import YoloServer.Lib.Simulation
import YoloServer.Server.ParsedMessages
import YoloServer.Server.RoutingAgreement

/-!
# The servers together are one storage

Each server of a deployment has a storage of its own and keeps the images that its router
assigns to itself; other requests go on to the server that the router names, and the reply comes
back the same way.  Forwards are taken to succeed here.

* `serveAt` is the handling of one message by the servers, and `serveRequest` that of a message with
  the server to which it is sent.
* `sharded_refines_single`: if each server has found at start-up somebody above it for every
  key, clients cannot tell the servers from a single one that keeps all keys.

What `put` returns while a message is handled, and what `handleGet` finds in memory that nobody
has written, come with the message (`Arrival`).
-/

namespace YoloServer
namespace Server

open Cluster Function Json Lib Relation

section Routing

variable {D : Type} [Double D]

/-- The key by which a message is routed, if it has one. -/
def routingKey (F : Type) [Single F D] (base : Env D) (msg : List UInt8) : Option (List UInt8) :=
  match command msg with
  | .STORE => (readStore base.network F msg).join.map fun frame => utf8 frame.imageId
  | .GET => if getSecondToken msg = [] then none else some (getSecondToken msg)
  | _ => none

/-- The hash of a key with the id of a node. -/
def keyHash (base : Env D) (key : List UInt8) (suffix : String) : Nat :=
  base.hash (key ++ utf8 suffix)

/-- The node to which a server forwards a message, if it does. -/
def nextHop (F : Type) [Single F D] (base : Env D) (s : Server) (msg : List UInt8) :
    Option NodeInfo :=
  match (routingKey F base msg).bind (pickNodeFor s.router base.hash) with
  | some node => if node.id ≠ s.self.id then some node else none
  | none => none

/-- The environment of a server with the given storage, when the peer answers a forward with the
given replies. -/
def Env.relaying (base : Env D) (store : Store) (replies : List (List UInt8)) : Env D :=
  { base with get := store, forward := fun _ => (.exchange, replies) }

variable (F : Type) [Single F D] (base : Env D)

/-- A server handles a message with its own storage.  The Raft node is left out: the handlers of
client messages do not use it. -/
def serveHere (s : Server) (store : Store) (msg : List UInt8) : List (List UInt8) × Store :=
  ((handle (base.on store) F s none msg).replies,
    store.write base.put (handle (base.on store) F s none msg).puts)

/-- The servers handle a message that comes in at server `i`: the replies that the client gets,
and the storages afterwards.  The number bounds the forwards. -/
def serveAt (d : Deployment) (msg : List UInt8) :
    Nat → String → (String → Store) → List (List UInt8) × (String → Store)
  | forwards, i, stores =>
      match nextHop F base (d.server i) msg with
      | none =>
          ((serveHere F base (d.server i) (stores i) msg).1,
            update stores i (serveHere F base (d.server i) (stores i) msg).2)
      | some node =>
          match forwards with
          | 0 => ([], stores)
          | forwards + 1 =>
              let (replies, stores') := serveAt d msg forwards node.id stores
              ((handle (base.relaying (stores i) replies) F (d.server i) none msg).replies, stores')

/-- A message, with what `put` returns and what the unwritten memory holds while it is handled. -/
structure Arrival where
  msg : List UInt8
  put : String → List UInt8 → Bool
  uninitialised : Int × Int

omit [Double D] in
/-- The environment in which a message is handled. -/
def Env.during (base : Env D) (a : Arrival) : Env D :=
  { base with put := a.put, uninitialised := a.uninitialised }

/-- A server on its own handles a message. -/
def serveAlone (s : Server) (store : Store) (a : Arrival) : List (List UInt8) × Store :=
  serveHere F (base.during a) s store a.msg

/-- The servers handle a request: a message, and the server to which it is sent. -/
def serveRequest (d : Deployment) (stores : String → Store) (request : String × Arrival) :
    List (List UInt8) × (String → Store) :=
  serveAt F (base.during request.2) d request.2.msg d.ids.length request.1 stores

end Routing

/-! ## One server -/

section Here

variable {D F : Type} [Double D] [Single F D] {base : Env D} {s s' : Server} {store store' : Store}
  {msg key : List UInt8}

/-- A server keeps a key if its router picks the server. -/
def Keeps (base : Env D) (s : Server) (key : List UInt8) : Prop :=
  ∃ node, pickNodeFor s.router base.hash key = some node ∧ node.id = s.self.id

theorem nextHop_eq_none (hkey : routingKey F base msg = some key) (hkeeps : Keeps base s key) :
    nextHop F base s msg = none := by
  obtain ⟨node, hpick, hself⟩ := hkeeps
  rw [nextHop, hkey, Option.bind_some, hpick]
  exact if_neg (not_not.mpr hself)

theorem nextHop_of_keyless (hkey : routingKey F base msg = none) : nextHop F base s msg = none := by
  rw [nextHop, hkey]
  rfl

theorem nextHop_eq_some {node : NodeInfo} (hkey : routingKey F base msg = some key)
    (hpick : pickNodeFor s.router base.hash key = some node) (hother : node.id ≠ s.self.id) :
    nextHop F base s msg = some node := by
  rw [nextHop, hkey, Option.bind_some, hpick]
  exact if_pos hother

/-- The key of a `STORE` message is the id of its frame. -/
theorem routingKey_store (hcmd : command msg = .STORE) :
    routingKey F base msg =
      (readStore base.network F msg).join.map fun frame : YoloFrame F => utf8 frame.imageId := by
  rw [routingKey, hcmd]

theorem routingKey_get (hcmd : command msg = .GET) :
    routingKey F base msg =
      if getSecondToken msg = [] then none else some (getSecondToken msg) := by
  rw [routingKey, hcmd]

/-- A message of a client, and not of another node. -/
def FromClient (msg : List UInt8) : Prop :=
  command msg ≠ .RAFT_REQUEST_VOTE ∧ command msg ≠ .RAFT_APPEND_ENTRIES

/-- A message without a key is answered in the same way everywhere, and nothing is stored. -/
theorem serveHere_keyless (hclient : FromClient msg) (hkey : routingKey F base msg = none)
    (s s' : Server) (store store' : Store) :
    (serveHere F base s store msg).1 = (serveHere F base s' store' msg).1 ∧
      (serveHere F base s store msg).2 = store := by
  cases hcmd : command msg with
  | PING =>
      simp only [serveHere, handle, hcmd]
      exact ⟨trivial, rfl⟩
  | UNKNOWN =>
      simp only [serveHere, handle, hcmd]
      exact ⟨trivial, rfl⟩
  | RAFT_REQUEST_VOTE => exact absurd hcmd hclient.1
  | RAFT_APPEND_ENTRIES => exact absurd hcmd hclient.2
  | STORE =>
      rw [routingKey_store hcmd, Option.map_eq_none_iff] at hkey
      simp only [serveHere, handle, hcmd]
      cases hread : readStore base.network F msg with
      | none =>
          have hsilent : ∀ (st : Store) (server : Server), handleStore (base.on st).network F server
              (base.on st).forwarded msg = .silent := by
            intro st server
            rw [handleStore, show readStore (base.on st).network F msg = none from hread]
          rw [hsilent, hsilent]
          exact ⟨rfl, rfl⟩
      | some result =>
          cases result with
          | none =>
              have hinvalid : ∀ (st : Store) (server : Server),
                  handleStore (base.on st).network F server (base.on st).forwarded msg =
                    .reply "ERROR invalid STORE payload" := by
                intro st server
                rw [handleStore, show readStore (base.on st).network F msg = some none from hread]
              rw [hinvalid, hinvalid]
              exact ⟨rfl, rfl⟩
          | some frame =>
              rw [hread] at hkey
              cases hkey
  | GET =>
      rw [routingKey_get hcmd] at hkey
      split_ifs at hkey with hempty
      have herror : ∀ (st : Store) (server : Server), handleGet (base.on st) F server none msg =
          .reply none (utf8 "ERROR missing image_id") := by
        intro st server
        rw [handleGet, if_pos hempty]
      simp only [serveHere, handle, hcmd, herror]
      exact ⟨trivial, rfl⟩

/-- A message with a key is a `STORE` with a frame or a `GET` with a key. -/
theorem routingKey_cases (hkey : routingKey F base msg = some key) :
    (command msg = .STORE ∧ ∃ frame : YoloFrame F,
        readStore base.network F msg = some (some frame) ∧ key = utf8 frame.imageId) ∨
      (command msg = .GET ∧ getSecondToken msg ≠ [] ∧ key = getSecondToken msg) := by
  cases hcmd : command msg with
  | STORE =>
      rw [routingKey_store hcmd, Option.map_eq_some_iff] at hkey
      obtain ⟨frame, hframe, rfl⟩ := hkey
      exact .inl ⟨rfl, frame, Option.join_eq_some_iff.mp hframe, rfl⟩
  | GET =>
      rw [routingKey_get hcmd] at hkey
      split_ifs at hkey with hempty
      cases hkey
      exact .inr ⟨rfl, hempty, rfl⟩
  | _ =>
      rw [routingKey, hcmd] at hkey
      cases hkey

/-- The server that keeps a frame stores it. -/
theorem serveHere_store {frame : YoloFrame F} (hcmd : command msg = .STORE)
    (hread : readStore base.network F msg = some (some frame))
    (hkeeps : Keeps base s (utf8 frame.imageId)) :
    serveHere F base s store msg =
      ([utf8 "STORE OK"], store.write base.put [(frame.imageId, encode D frame)]) := by
  obtain ⟨node, hpick, hself⟩ := hkeeps
  rw [pickNodeFor_utf8] at hpick
  have hstored : handleStore (base.on store).network F s (base.on store).forwarded msg =
      stored (base.on store).network s frame :=
    handleStore_own hread hpick hself
  rw [serveHere, handle, hcmd]
  simp only [hstored]
  rfl

/-- The server that keeps a key answers from its storage. -/
theorem serveHere_get (hcmd : command msg = .GET) (hempty : getSecondToken msg ≠ [])
    (hkeeps : Keeps base s (getSecondToken msg)) :
    serveHere F base s store msg =
      (match store (getSecondToken msg) with
        | none => [getText D (blankFrame F base.uninitialised)]
        | some value => ((decode (F := F) base.parse value).map (getText D)).toList, store) := by
  obtain ⟨node, hnode, hself⟩ := hkeeps
  have hpick : pickNodeFor s.router (base.on store).hash (getSecondToken msg) = some node := hnode
  have hget : (base.on store).get (getSecondToken msg) = store (getSecondToken msg) := rfl
  rw [serveHere, handle, hcmd]
  dsimp only
  cases hvalue : store (getSecondToken msg) with
  | none =>
      rw [handleGet_absent hempty hpick hself (hget.trans hvalue)]
      rfl
  | some value =>
      have hparse : decode (F := F) (base.on store).parse value = decode base.parse value := rfl
      cases hdecode : decode (F := F) base.parse value with
      | none =>
          rw [handleGet_unreadable hempty hpick hself (hget.trans hvalue) (hparse.trans hdecode)]
          simp only [hdecode]
          rfl
      | some frame =>
          rw [handleGet_present hempty hpick hself (hget.trans hvalue) (hparse.trans hdecode)]
          simp only [hdecode]
          rfl

/-- What is in the storage for its key is all that the handling of a message depends on and
changes. -/
theorem serveHere_own (hkey : routingKey F base msg = some key) (hs : Keeps base s key)
    (hs' : Keeps base s' key) (hstore : store key = store' key) :
    (serveHere F base s store msg).1 = (serveHere F base s' store' msg).1 ∧
      (serveHere F base s store msg).2 key = (serveHere F base s' store' msg).2 key ∧
      ∀ k, k ≠ key → (serveHere F base s store msg).2 k = store k := by
  obtain ⟨hcmd, frame, hread, rfl⟩ | ⟨hcmd, hempty, rfl⟩ := routingKey_cases hkey
  · rw [serveHere_store hcmd hread hs, serveHere_store hcmd hread hs']
    refine ⟨rfl, ?_, ?_⟩
    · simp only [Store.write, List.foldl_cons, List.foldl_nil]
      split_ifs
      · rw [update_self, update_self]
      · exact hstore
    · intro k hk
      exact Store.write_of_ne store (by simpa using hk.symm)
  · rw [serveHere_get hcmd hempty hs, serveHere_get hcmd hempty hs', hstore]
    exact ⟨rfl, hstore, fun _ _ => rfl⟩

theorem length_serveHere_le : (serveHere F base s store msg).1.length ≤ 1 := by
  have hanswers := answersIf_outcome (F := F) ⟨base.on store, s, none, msg⟩
  rcases hanswers with ⟨-, honce, -⟩ | ⟨-, hnone⟩
  · exact Nat.le_of_eq honce
  · show (handle (base.on store) F s none msg).replies.length ≤ 1
    rw [show (handle (base.on store) F s none msg).replies = [] from hnone]
    exact Nat.zero_le 1

/-! ## Forwards -/

omit [Double D] in
theorem relayed_relaying {replies : List (List UInt8)} (hlength : replies.length ≤ 1)
    (node : NodeInfo) (error : String) :
    (relayed (base.relaying store replies) node error).replies = replies := by
  match replies, hlength with
  | [], _ => rfl
  | [text], _ => rfl

/-- A server that forwards a message returns the reply of the peer. -/
theorem replies_relaying {node : NodeInfo} {replies : List (List UInt8)}
    (hlength : replies.length ≤ 1) (hkey : routingKey F base msg = some key)
    (hpick : pickNodeFor s.router base.hash key = some node) (hother : node.id ≠ s.self.id) :
    (handle (base.relaying store replies) F s none msg).replies = replies := by
  obtain ⟨hcmd, frame, hread, rfl⟩ | ⟨hcmd, hempty, rfl⟩ := routingKey_cases hkey
  · have hread' : readStore (base.relaying store replies).network F msg = some (some frame) := hread
    have hpick' : s.router.pickNode (base.relaying store replies).network.hash frame.imageId =
        some node := by
      rw [pickNodeFor_utf8] at hpick
      exact hpick
    have heq : handleStore (base.relaying store replies).network F s
        (base.relaying store replies).forwarded msg =
          relayed (base.relaying store replies) node "ERROR failed to forward STORE request" := by
      simp [handleStore, hread', hpick', hother, relayed]
    rw [handle, hcmd]
    simp only [heq]
    exact relayed_relaying hlength node _
  · have hpick' : pickNodeFor s.router (base.relaying store replies).hash (getSecondToken msg) =
        some node := hpick
    rw [handle, hcmd]
    simp only [handleGet_relayed hempty hpick' hother]
    exact relayed_relaying hlength node _

end Here

/-! ## The servers of a deployment -/

section Servers

variable {D F : Type} [Double D] [Single F D] {base : Env D} {d : Deployment} {msg key : List UInt8}
  {i j : String} {stores : String → Store}

omit [Double D] in
theorem keeps_iff_owns (hi : i ∈ d.ids) :
    Keeps base (d.server i) key ↔ d.fleet.Owns (keyHash base key) "" i := by
  rw [Keeps, Deployment.self_id hi]
  rfl

omit [Double D] in
/-- At most one server keeps a key. -/
theorem keeps_unique (hknows : d.KnowsAbove (keyHash base key) "") (hi : i ∈ d.ids)
    (hj : j ∈ d.ids) (hkeeps : Keeps base (d.server i) key) (hkeeps' : Keeps base (d.server j) key) :
    i = j := by
  have hhighest : ∀ k ∈ d.ids, Keeps base (d.server k) key →
      ∀ l ∈ d.ids, ¬ Below (keyHash base key) "" d.ids k l := by
    intro k hk howns l hl hbelow
    obtain ⟨n, hn, hfound, habove⟩ := hknows k hk ⟨l, hl, hbelow⟩
    exact (Deployment.owns_iff hk).mp ((keeps_iff_owns hk).mp howns) n hn hfound habove
  by_contra hne
  rcases below_or_below hi hne with hlt | hlt
  · exact hhighest i hi hkeeps j hj hlt
  · exact hhighest j hj hkeeps' i hi hlt

theorem serveAt_of_nextHop_none {forwards : Nat}
    (h : nextHop F base (d.server i) msg = none) :
    serveAt F base d msg forwards i stores =
      ((serveHere F base (d.server i) (stores i) msg).1,
        update stores i (serveHere F base (d.server i) (stores i) msg).2) := by
  rw [serveAt, h]

/-- A message with a key is handled at the end of its forwards. -/
theorem serveAt_of_isChain {path : List String} {forwards : Nat} (hi : i ∈ d.ids)
    (hkey : routingKey F base msg = some key)
    (hchain : (i :: path).IsChain (d.fleet.Forwards (keyHash base key) ""))
    (hlast : (i :: path).getLast (List.cons_ne_nil i path) = j)
    (hkeeps : Keeps base (d.server j) key) (hforwards : path.length ≤ forwards) :
    serveAt F base d msg forwards i stores =
      ((serveHere F base (d.server j) (stores j) msg).1,
        update stores j (serveHere F base (d.server j) (stores j) msg).2) := by
  induction path generalizing i forwards with
  | nil =>
      cases hlast
      exact serveAt_of_nextHop_none (nextHop_eq_none hkey hkeeps)
  | cons next path ih =>
      rw [List.isChain_cons_cons] at hchain
      obtain ⟨hforward, hrest⟩ := hchain
      have hnext := Deployment.climbs.mem hi hforward
      obtain ⟨node, hpick, rfl, hother⟩ := hforward
      rw [List.getLast_cons (List.cons_ne_nil node.id path)] at hlast
      have hother' : node.id ≠ (d.server i).self.id := by
        rwa [Deployment.self_id hi]
      cases forwards with
      | zero => simp at hforwards
      | succ forwards =>
          rw [List.length_cons, Nat.succ_le_succ_iff] at hforwards
          rw [serveAt, nextHop_eq_some hkey hpick hother']
          simp only [ih hnext hrest hlast hforwards]
          rw [replies_relaying length_serveHere_le hkey hpick hother']

omit [Double D] in
/-- The forwards of a key end at a server that keeps it, and there are fewer of them than
servers. -/
theorem exists_keeper (base : Env D) (hi : i ∈ d.ids) (key : List UInt8) :
    ∃ path, (i :: path).IsChain (d.fleet.Forwards (keyHash base key) "") ∧
      path.length ≤ d.ids.length ∧
      ∃ j ∈ d.ids, (i :: path).getLast (List.cons_ne_nil i path) = j ∧
        Keeps base (d.server j) key := by
  have hclimbs : Climbs (Below (keyHash base key) "" d.ids)
      (d.fleet.Forwards (keyHash base key) "") d.ids := Deployment.climbs
  obtain ⟨j, hj, hreach, howns⟩ := Fleet.exists_endsAt hclimbs hi
  obtain ⟨path, hchain, hlast⟩ := List.exists_isChain_cons_of_relationReflTransGen hreach
  refine ⟨path, hchain, ?_, j, hj, hlast, (keeps_iff_owns hj).mpr howns⟩
  have hsubset : (i :: path) ⊆ d.ids :=
    hchain.induction (· ∈ d.ids) _ (fun _ _ hstep hmem => hclimbs.mem hmem hstep) fun _ => hi
  have hnodup := hclimbs.nodup hi hchain
  exact Nat.le_of_succ_le (hnodup.subperm hsubset).length_le

/-- The storage of each server is the part of a storage with the keys that the server keeps. -/
def Shards (base : Env D) (d : Deployment) (stores : String → Store) (store : Store) : Prop :=
  ∀ i ∈ d.ids, ∀ key,
    (Keeps base (d.server i) key → stores i key = store key) ∧
      (¬ Keeps base (d.server i) key → stores i key = none)

/-- A message gets the reply that the single server gives, and its effects are the same. -/
theorem serveAt_shards {one : Server} {store : Store}
    (hknows : ∀ key, d.KnowsAbove (keyHash base key) "") (hone : ∀ key, Keeps base one key)
    (hshards : Shards base d stores store) (hi : i ∈ d.ids) (hclient : FromClient msg) :
    (serveAt F base d msg d.ids.length i stores).1 = (serveHere F base one store msg).1 ∧
      Shards base d (serveAt F base d msg d.ids.length i stores).2
        (serveHere F base one store msg).2 := by
  cases hkey : routingKey F base msg with
  | none =>
      rw [serveAt_of_nextHop_none (nextHop_of_keyless hkey)]
      obtain ⟨hreplies, hstore⟩ := serveHere_keyless hclient hkey (d.server i) one (stores i) store
      obtain ⟨-, hsame⟩ := serveHere_keyless hclient hkey one one store store
      refine ⟨hreplies, ?_⟩
      dsimp only
      rw [hstore, hsame, update_eq_self]
      exact hshards
  | some key =>
      obtain ⟨path, hchain, hlength, j, hj, hlast, hkeeps⟩ := exists_keeper base hi key
      rw [serveAt_of_isChain hi hkey hchain hlast hkeeps hlength]
      have hstore := (hshards j hj key).1 hkeeps
      obtain ⟨hreplies, hstored, hothers⟩ := serveHere_own hkey hkeeps (hone key) hstore
      obtain ⟨-, -, hothers'⟩ := serveHere_own hkey (hone key) hkeeps hstore.symm
      refine ⟨hreplies, ?_⟩
      intro k hk key'
      dsimp only
      by_cases hsame : key' = key
      · subst hsame
        by_cases hjk : k = j
        · subst hjk
          rw [update_self]
          exact ⟨fun _ => hstored, fun hnot => absurd hkeeps hnot⟩
        · rw [update_of_ne hjk]
          refine ⟨fun hkeeps' => absurd (keeps_unique (hknows key') hk hj hkeeps' hkeeps) hjk, ?_⟩
          exact (hshards k hk key').2
      · rw [hothers' key' hsame]
        by_cases hjk : k = j
        · subst hjk
          rw [update_self, hothers key' hsame]
          exact hshards k hk key'
        · rw [update_of_ne hjk]
          exact hshards k hk key'

/-- The reply does not depend on the server, nor do the effects. -/
theorem serveRequest_shards {one : Server} {store : Store} {request : String × Arrival}
    (hknows : ∀ key, d.KnowsAbove (keyHash base key) "") (hone : ∀ key, Keeps base one key)
    (hshards : Shards base d stores store)
    (hrequest : request.1 ∈ d.ids ∧ FromClient request.2.msg) :
    (serveRequest F base d stores request).1 = (serveAlone F base one store request.2).1 ∧
      Shards base d (serveRequest F base d stores request).2
        (serveAlone F base one store request.2).2 := by
  -- What comes with the message has no part in the routing.
  have hknows' : ∀ key, d.KnowsAbove (keyHash (base.during request.2) key) "" := hknows
  exact serveAt_shards hknows' hone hshards hrequest.1 hrequest.2

end Servers

/-- **The servers are one storage.**  If every server that has others above it for a key has found
one of them at start-up, then the servers answer any history of messages, each of them sent
to any of the servers, as a single server that keeps all keys does; and each server holds
the images that it keeps. -/
theorem sharded_refines_single {D F : Type} [Double D] [Single F D] (base : Env D) (d : Deployment)
    (hknows : ∀ key, d.KnowsAbove (keyHash base key) "") (one : Server)
    (hone : ∀ key, Keeps base one key) (history : List (String × Arrival))
    (hhistory : ∀ request ∈ history, request.1 ∈ d.ids ∧ FromClient request.2.msg) :
    let sharded := process (serveRequest F base d) (fun _ => Store.empty) history
    let single := process (fun store request => serveAlone F base one store request.2) Store.empty
      history
    sharded.1 = single.1 ∧ Shards base d sharded.2 single.2 := by
  refine process_related (R := Shards base d) ?_ ?_ hhistory
  · exact fun _ _ _ hshards hrequest => serveRequest_shards hknows hone hshards hrequest
  · exact fun _ _ _ => ⟨fun _ => rfl, fun _ => rfl⟩

/-- The two servers of the configuration files, when both have answered. -/
def probedPair : Deployment :=
  { Deployment.unprobedPair with checkNodeHealth := fun _ _ => true }

theorem knowsAbove_probedPair (hash : String → Nat) (key : String) :
    probedPair.KnowsAbove hash key := by
  rintro i - ⟨j, hj, hbelow⟩
  obtain ⟨n, hn, rfl⟩ := List.mem_map.mp hj
  exact ⟨n, hn, rfl, hbelow⟩

/-- A message while every call of `put` succeeds. -/
def arrival (msg : List UInt8) (uninitialised : Int × Int) : Arrival :=
  ⟨msg, fun _ _ => true, uninitialised⟩

/-- An image that is stored through one of the two servers is found through the other one. -/
theorem pair_store_then_get :
    (process (serveRequest Halves parsingEnv probedPair) (fun _ => Store.empty)
        [("node1", arrival looseMessage (0, 0)), ("node2", arrival (getMessage "img1") (7, 8))]).1 =
      [[utf8 "STORE OK"], [encode Tenths looseFrame]] := by
  have hhistory : ∀ request ∈
      [("node1", arrival looseMessage (0, 0)), ("node2", arrival (getMessage "img1") (7, 8))],
      request.1 ∈ probedPair.ids ∧ FromClient request.2.msg := by
    rw [List.forall_mem_cons, List.forall_mem_singleton]
    unfold FromClient
    decide +kernel
  rw [(sharded_refines_single parsingEnv probedPair (fun _ => knowsAbove_probedPair _ _)
    loneServer keepsAll_parsingEnv.picks _ hhistory).1]
  decide +kernel

end Server
end YoloServer
