import YoloServer.Raft.Applied
import YoloServer.Server.ReadYourWrites
import YoloServer.Server.WireRoundTrip

/-!
# Can every stored value be read?

Two writers share the storage of a server: `handleStore` puts the text of a frame, and the
node puts the values of the entries it applies.  `handleGet` decodes whatever it finds and
does not catch the exception of a value that is no frame.

* `Sound` is the invariant: all values in the storage and all values in the log can be
  decoded.
* `stored_values_decode`: it holds in every run in which the stored frames have finite
  coordinates and the entries that the node takes up carry values that can be decoded.

Whether an entry that is taken up will be committed, and its `put` succeed, is decided by later
events, so the condition asks for all of them.
-/

namespace YoloServer
namespace Server

open Cluster Raft Json Lib RaftNode

/-- A storage, and the node that writes to it. -/
structure Keeper where
  store : Store
  raft : Option RaftNode

/-- What can happen to a storage and its node. -/
inductive StorageEvent (D : Type) where
  /-- a connection handles a message -/
  | message (env : Env D) (server : Server) (msg : List UInt8)
  | startElection (replies : List (Option RequestVoteReply))
  /-- `ok` tells which calls of `put` succeed -/
  | heartbeat (ok : String → List UInt8 → Bool) (replies : List (Option AppendEntriesReply))
  /-- the server is started on the same storage -/
  | restart (nodeId : String) (peers : List String)

section Runs

variable {D : Type} [Double D] (F : Type) [Single F D] (parse : List UInt8 → Option (Json D))

/-- The environment over a storage, with the one parser. -/
def Env.over (env : Env D) (store : Store) : Env D :=
  { env with parse := parse, get := store }

namespace Keeper

def init : Keeper :=
  ⟨.empty, none⟩

/-- One event.  A handler that crashes takes the process with it, and the node is gone until the
server is started again.  An exception ends the connection only. -/
def step (k : Keeper) : StorageEvent D → Option Keeper
  | .message env s msg =>
      let o := handle (env.over parse k.store) F s k.raft msg
      some ⟨k.store.write env.put o.puts, if o.ending = .crashes then none else o.raft⟩
  | .startElection replies => some { k with raft := k.raft.map fun n => n.startElection replies }
  | .heartbeat ok replies =>
      match k.raft with
      | none => some k
      | some n =>
          match n.heartbeatRound replies with
          | .ok m => some ⟨k.store.write ok (appliedSince n m), some m⟩
          | .error _ => none
  | .restart nodeId peers => some { k with raft := some (RaftNode.new nodeId peers) }

/-- `storage::decode` accepts the value. -/
def Readable (value : List UInt8) : Prop :=
  (decode (F := F) parse value).isSome = true

/-- A frame that the server is going to store, by a call of `put` that succeeds, has finite
coordinates, and the entries that the node is going to take up carry values that can be decoded. -/
def Careful [IsFinite D] (k : Keeper) : StorageEvent D → Prop
  | .message env s msg =>
      (∀ frame : YoloFrame F, ∀ node, command msg = .STORE →
        (payloadJson parse msg).bind readFrame = some frame →
        s.router.pickNode (fun text => env.hash (utf8 text)) frame.imageId = some node →
        node.id = s.self.id → env.put frame.imageId (encode D frame) = true → frame.Finite D) ∧
      (∀ j args n, command msg = .RAFT_APPEND_ENTRIES → payloadJson parse msg = some j →
        AppendArgsIn j args → k.raft = some n → n.currentTerm ≤ args.term →
        n.prevMatches args → ∀ entry ∈ args.entries, Readable F parse (utf8 entry.value))
  | _ => True

/-- All values in the storage and in the log can be decoded. -/
structure Sound (k : Keeper) : Prop where
  store : ∀ key value, k.store key = some value → Readable F parse value
  logs : ∀ n ∈ k.raft, LogHolds (fun entry => Readable F parse (utf8 entry.value)) n.logs

/-- The integers of the frame in a message are values of `int`, and the parser reads back
what `encode` makes of it. -/
def Rewritable [IsFinite D] : StorageEvent D → Prop
  | .message _ _ msg =>
      ∀ frame : YoloFrame F, (payloadJson parse msg).bind readFrame = some frame →
        frame.Fits ∧ Rereads parse (frameJson D frame)
  | _ => True

variable {F parse} {k k' : Keeper}

/-! ## The two writers -/

theorem readable_write {ok : String → List UInt8 → Bool} {store : Store}
    {puts : List (String × List UInt8)}
    (hstore : ∀ key value, store key = some value → Readable F parse value)
    (hputs : ∀ p ∈ puts, ok p.1 p.2 = true → Readable F parse p.2) :
    ∀ key value, store.write ok puts key = some value → Readable F parse value := by
  intro key value h
  rcases Store.write_spec h with hold | ⟨p, hp, hok, -, rfl⟩
  · exact hstore key value hold
  · exact hputs p hp hok

/-- The values that a node has applied come from its log. -/
theorem readable_appliedSince {n m : RaftNode} (hputs : PutsFromLog n m)
    (hlogs : LogHolds (fun entry => Readable F parse (utf8 entry.value)) m.logs) :
    ∀ p ∈ appliedSince n m, Readable F parse p.2 := by
  obtain ⟨applied, heq, hentries⟩ := hputs
  intro p hp
  rw [appliedSince, heq, List.drop_left] at hp
  obtain ⟨q, hq, rfl⟩ := List.mem_map.mp hp
  obtain ⟨hpos, hentry⟩ := hentries q hq
  exact hlogs q.1 q.2 hpos hentry

/-- A frame with finite coordinates is written as a value that can be decoded. -/
theorem readable_encode [IsFinite D] (hfloat : WidenNarrow F D) {frame : YoloFrame F}
    (hfits : frame.Fits) (hparse : Rereads parse (frameJson D frame)) (hfinite : frame.Finite D) :
    Readable F parse (encode D frame) := by
  rw [Readable, decode_encode hfloat hfits hparse, if_pos hfinite]
  rfl

theorem readStore_eq_some_iff {net : Network D} {msg : List UInt8} {frame : YoloFrame F} :
    readStore net F msg = some (some frame) ↔
      (payloadJson net.parse msg).bind readFrame = some frame := by
  rw [readStore, payloadJson]
  cases afterSpace msg with
  | none => simp
  | some payload => simp

/-- An AppendEntries leaves the log and the storage readable, even if the node runs beyond
its log. -/
theorem sound_callAppendEntries {n : RaftNode} {args : AppendEntriesArgs}
    (hlogs : LogHolds (fun entry => Readable F parse (utf8 entry.value)) n.logs)
    (hentries : n.currentTerm ≤ args.term → n.prevMatches args →
      ∀ entry ∈ args.entries, Readable F parse (utf8 entry.value)) :
    (∀ p ∈ (callAppendEntries (D := D) (some n) args).puts, Readable F parse p.2) ∧
      ((callAppendEntries (D := D) (some n) args).ending ≠ .crashes →
        ∀ m ∈ (callAppendEntries (D := D) (some n) args).raft,
          LogHolds (fun entry => Readable F parse (utf8 entry.value)) m.logs) := by
  cases hhandle : n.handleAppendEntries args with
  | ok r =>
      obtain ⟨m, reply⟩ := r
      have hnew := logHolds_handleAppendEntries hlogs hentries hhandle
      simp only [callAppendEntries, hhandle]
      refine ⟨readable_appliedSince (putsInOrder_handleAppendEntries hhandle).fromLog hnew,
        fun _ m' hm' => ?_⟩
      cases hm'
      exact hnew
  | error e =>
      simp only [callAppendEntries, hhandle]
      refine ⟨fun p hp => ?_, fun hsurvives => absurd rfl hsurvives⟩
      -- The message was taken up, or there would have been no access out of range.
      have hfail : ¬ n.AppliesInRange args := by
        rw [← handleAppendEntries_ok_iff, hhandle]
        simp
      simp only [AppliesInRange, not_forall] at hfail
      obtain ⟨hle, hprev, -⟩ := hfail
      obtain ⟨entry, hentry, rfl⟩ := List.mem_map.mp hp
      obtain ⟨i, hi⟩ := List.mem_iff_getElem?.mp hentry
      rw [List.getElem?_drop] at hi
      exact logHolds_merge hlogs hprev (hentries hle hprev) _ entry (by omega) hi

theorem sound_handle [IsFinite D] (hfloat : WidenNarrow F D) (h : k.Sound F parse) {env : Env D}
    {s : Server} {msg : List UInt8} (hcareful : k.Careful F parse (.message env s msg))
    (hframe : Rewritable F parse (.message env s msg)) :
    (∀ p ∈ (handle (env.over parse k.store) F s k.raft msg).puts, env.put p.1 p.2 = true →
      Readable F parse p.2) ∧
      ((handle (env.over parse k.store) F s k.raft msg).ending ≠ .crashes →
        ∀ n ∈ (handle (env.over parse k.store) F s k.raft msg).raft,
          LogHolds (fun entry => Readable F parse (utf8 entry.value)) n.logs) := by
  rcases handle_effect (F := F) (env.over parse k.store) s k.raft msg with
    ⟨hputs, hraft⟩ | ⟨frame, node, hcmd, hread, hpick, hself, heq⟩ |
      ⟨n, args, hnode, hputs, hraft⟩ | ⟨j, args, n, hcmd, hjson, hargs, hnode, heq⟩
  · rw [hputs, hraft]
    exact ⟨by simp, fun _ => h.logs⟩
  · have hin := readStore_eq_some_iff.mp hread
    obtain ⟨hfits, hparse⟩ := hframe frame hin
    rw [heq]
    refine ⟨fun p hp hok => ?_, fun _ => h.logs⟩
    rw [List.mem_singleton.mp hp] at hok ⊢
    exact readable_encode hfloat hfits hparse (hcareful.1 frame node hcmd hin hpick hself hok)
  · rw [hputs, hraft]
    refine ⟨by simp, fun _ m hm => ?_⟩
    cases hm
    rw [(appliesInOrder_handleRequestVote n args).logs]
    exact h.logs n hnode
  · rw [heq, hnode]
    obtain ⟨hputs, hlogs⟩ :=
      sound_callAppendEntries (D := D) (h.logs n hnode) (hcareful.2 j args n hcmd hjson hargs hnode)
    exact ⟨fun p hp _ => hputs p hp, hlogs⟩

/-- One event. -/
theorem sound_step [IsFinite D] (hfloat : WidenNarrow F D) (h : k.Sound F parse)
    {e : StorageEvent D} (hcareful : k.Careful F parse e) (hframe : Rewritable F parse e)
    (hstep : k.step F parse e = some k') : k'.Sound F parse := by
  cases e with
  | message env s msg =>
      obtain ⟨hputs, hlogs⟩ := sound_handle hfloat h hcareful hframe
      cases hstep
      refine ⟨readable_write h.store hputs, fun n hn => ?_⟩
      dsimp only at hn
      split_ifs at hn with hcrashes
      · cases hn
      · exact hlogs hcrashes n hn
  | startElection replies =>
      cases hstep
      refine ⟨h.store, fun m hm => ?_⟩
      obtain ⟨n, hn, rfl⟩ := Option.map_eq_some_iff.mp hm
      rw [(appliesInOrder_startElection n replies).logs]
      exact h.logs n hn
  | heartbeat ok replies =>
      rw [step] at hstep
      split at hstep
      · cases hstep
        exact h
      · rename_i n hn
        split at hstep
        · rename_i m hround
          cases hstep
          have happlies := (appliesInOrder_heartbeatRound hround).applies
          have hlogs : LogHolds (fun entry => Readable F parse (utf8 entry.value)) m.logs := by
            rw [happlies.logs]
            exact h.logs n hn
          refine ⟨readable_write h.store fun p hp _ =>
            readable_appliedSince happlies.puts hlogs p hp, ?_⟩
          intro m' hm'
          cases hm'
          exact hlogs
        · cases hstep
  | restart nodeId peers =>
      cases hstep
      refine ⟨h.store, fun n hn => ?_⟩
      cases hn
      exact logHolds_dummy _

theorem sound_init : Sound F parse init where
  store _ _ h := by cases h
  logs _ h := by cases h

end Keeper

end Runs

/-- **Every stored value can be read back**, in every state of every run of messages,
elections, heartbeats and restarts in which the stored frames have finite coordinates and
the entries that the node takes up carry values that can be decoded; and no `GET` ends with
an exception. -/
theorem stored_values_decode {D F : Type} [Double D] [IsFinite D] [Single F D]
    (hfloat : WidenNarrow F D) (parse : List UInt8 → Option (Json D))
    (events : List (StorageEvent D)) {k : Keeper}
    (hparse : ∀ e ∈ events, Keeper.Rewritable F parse e)
    (hcareful : Meets (Keeper.step F parse) (Keeper.Careful F parse) Keeper.init events)
    (hrun : run (Keeper.step F parse) Keeper.init events = some k) :
    (∀ key value, k.store key = some value → (decode (F := F) parse value).isSome = true) ∧
      ∀ (env : Env D) s msg,
        (handle (env.over parse k.store) F s k.raft msg).ending ≠ .throws := by
  have hframes : Meets (Keeper.step F parse) (fun _ e => Keeper.Rewritable F parse e) Keeper.init
      events := by
    refine meets_of_split hrun fun es₁ e es₂ t t' hevents _ _ => hparse e ?_
    rw [hevents]
    simp
  have hsound : k.Sound F parse := by
    refine run_invariant (Keeper.Sound F parse) ?_ Keeper.sound_init (hcareful.and hframes) hrun
    intro k₁ e k₂ h hcond hstep
    exact Keeper.sound_step hfloat h hcond.1 hcond.2 hstep
  refine ⟨hsound.store, fun env s msg hthrows => ?_⟩
  obtain ⟨value, hget, hdecode⟩ := handle_throws hthrows
  have hreadable : (decode (F := F) parse value).isSome = true :=
    hsound.store (getSecondToken msg) value hget
  have hnone : decode (F := F) parse value = none := hdecode
  rw [hnone] at hreadable
  cases hreadable

/-- A message with one entry, whose value is the text of a frame, and which is committed. -/
def sampleArgs : AppendEntriesArgs where
  term := 1
  leaderId := "n2"
  prevLogIndex := 0
  prevLogTerm := 0
  entries := [⟨1, 1, "img_0002",
    "\x7b\"boxes\":[\x7b\"class_id\":0,\"confidence\":0.5,\"h\":1.0,\"w\":1.5," ++
      "\"x\":0.5,\"y\":0.5\x7d],\"height\":1080,\"image_hash\":\"a1b2c3d4\"," ++
      "\"image_id\":\"img_0001\",\"width\":1920\x7d"⟩]
  leaderCommit := 1

/-- A parser that reads the text of the frame and the payload of the message. -/
def sampleParser : List UInt8 → Option (Json Halves) :=
  parseTable [(encode Halves sampleFrame, reread (frameJson Halves sampleFrame)),
    (dump (requestJson Halves (.append sampleArgs)),
      reread (requestJson Halves (.append sampleArgs)))]

/-- A start, one `STORE` and one AppendEntries. -/
def sampleEvents : List (StorageEvent Halves) :=
  [.restart "n1" ["n2"],
    .message (loneEnv sampleParser) loneServer (storeMessage Halves sampleFrame),
    .message (loneEnv sampleParser) loneServer (requestText Halves (.append sampleArgs))]

/-- Both writers have written. -/
theorem sample_frame_stays_readable :
    ∃ k, run (Keeper.step Halves sampleParser) Keeper.init sampleEvents = some k ∧
      k.store (utf8 "img_0001") = some (encode Halves sampleFrame) ∧
      k.store (utf8 "img_0002") = some (encode Halves sampleFrame) ∧
      ∀ key value, k.store key = some value →
        (decode (F := Halves) sampleParser value).isSome = true := by
  have hfloat : WidenNarrow Halves Halves := fun _ => rfl
  have hreads : Rereads sampleParser (frameJson Halves sampleFrame) := by
    rw [Rereads, sampleParser, parseTable, ← encode_eq_dump, List.lookup_cons_self]
  have hstored : storedFrame Halves (loneEnv sampleParser) (storeMessage Halves sampleFrame) =
      some sampleFrame :=
    storedFrame_storeMessage hfloat (by decide) (by decide) hreads
  obtain ⟨hcmd, hread⟩ := storedFrame_eq_some_iff.mp hstored
  have hin : (payloadJson sampleParser (storeMessage Halves sampleFrame)).bind readFrame =
      some sampleFrame :=
    Keeper.readStore_eq_some_iff.mp hread
  have hrereads : Rereads sampleParser (requestJson Halves (.append sampleArgs)) := by
    have hne : (dump (requestJson Halves (.append sampleArgs)) == encode Halves sampleFrame) =
        false := by
      decide +kernel
    rw [Rereads, sampleParser, parseTable, List.lookup_cons, hne, List.lookup_cons_self]
  have hpayload := payloadJson_requestText hrereads
  refine ⟨_, rfl, by decide +kernel, by decide +kernel,
    (stored_values_decode hfloat sampleParser sampleEvents ?_ ?_ rfl).1⟩
  · rw [sampleEvents, List.forall_mem_cons, List.forall_mem_cons, List.forall_mem_singleton]
    refine ⟨trivial, fun frame hframe => ?_, fun frame hframe => ?_⟩
    · rw [hin, Option.some.injEq] at hframe
      rw [← hframe]
      exact ⟨by decide, hreads⟩
    · rw [hpayload] at hframe
      cases hframe
  · refine ⟨trivial, ⟨?_, ?_⟩, ⟨?_, ?_⟩, trivial⟩
    · intro frame node _ hframe _ _ _
      rw [hin, Option.some.injEq] at hframe
      rw [← hframe]
      decide
    · intro j args n happend
      cases hcmd.symm.trans happend
    · intro frame node _ hframe
      rw [hpayload] at hframe
      cases hframe
    · intro j args n _ hj hargs _ _ _
      cases hpayload.symm.trans hj
      have hsample : AppendArgsIn (reread (requestJson Halves (.append sampleArgs))) sampleArgs :=
        appendArgsIn_reread ⟨by decide, by decide, by decide, by decide,
          List.forall_mem_singleton.mpr ⟨by decide, by decide⟩⟩
      have heq := (readAppendArgs_ok_iff.mpr hsample).symm.trans (readAppendArgs_ok_iff.mpr hargs)
      rw [← Except.ok.inj heq, sampleArgs, List.forall_mem_singleton]
      unfold Keeper.Readable
      decide +kernel

/-! ## A coordinate that is no `float` -/

/-- Halves up to the largest number that a `float` holds, and what lies beyond. -/
inductive Capped where
  | num (twice : Int)
  | inf
  deriving DecidableEq

namespace Capped

def ofTwice (twice : Int) : Capped :=
  if twice.natAbs ≤ 2 * (2 ^ 128 - 2 ^ 104) then .num twice else .inf

instance : Double Capped where
  toUInt64
    | .num twice => Double.toUInt64 (⟨twice⟩ : Halves)
    | .inf => 0
  toInt
    | .num twice => Double.toInt (⟨twice⟩ : Halves)
    | .inf => 0
  dump
    | .num twice => Double.dump (⟨twice⟩ : Halves)
    | .inf => utf8 "null"

instance : IsFinite Capped where
  isFinite
    | .num _ => true
    | .inf => false

instance : Single Capped Capped where
  narrow
    | .num twice => ofTwice twice
    | .inf => .inf
  widen := id
  ofInt n := ofTwice (2 * n)

end Capped

/-- A frame with a coordinate that a `double` holds and a `float` does not. -/
def hugeText : String :=
  "\x7b\"image_id\":\"img_0001\",\"width\":1920,\"height\":1080,\"image_hash\":\"a1b2c3d4\"," ++
    "\"boxes\":[\x7b\"class_id\":0,\"x\":1e39,\"y\":0.5,\"w\":1.5,\"h\":1,\"confidence\":0.5\x7d]\x7d"

def hugeJson : Json Capped :=
  .ofMembers [("image_id", .string "img_0001"), ("width", .unsigned 1920),
    ("height", .unsigned 1080), ("image_hash", .string "a1b2c3d4"),
    ("boxes", .array [.ofMembers [("class_id", .unsigned 0), ("x", .float (.num (2 * 10 ^ 39))),
      ("y", .float (.num 1)), ("w", .float (.num 3)), ("h", .unsigned 1),
      ("confidence", .float (.num 1))]])]

/-- The frame that is read from the text. -/
def hugeFrame : YoloFrame Capped where
  imageId := "img_0001"
  imageHash := "a1b2c3d4"
  boxes := [⟨0, .inf, .num 1, .num 3, .num 2, .num 1⟩]
  width := 1920
  height := 1080

def hugeParser : List UInt8 → Option (Json Capped) :=
  parseTable [(utf8 hugeText, hugeJson),
    (encode Capped hugeFrame, reread (frameJson Capped hugeFrame))]

/-- The frame is stored with a null, and the next `GET` for it ends with an exception. -/
theorem huge_coordinate_unreadable :
    ∃ k, run (Keeper.step Capped hugeParser) Keeper.init
        [.message (loneEnv hugeParser) loneServer (utf8 ("STORE " ++ hugeText))] = some k ∧
      k.store (utf8 "img_0001") = some (encode Capped hugeFrame) ∧
      decode (F := Capped) hugeParser (encode Capped hugeFrame) = none ∧
      (handle ((loneEnv hugeParser).over hugeParser k.store) Capped loneServer k.raft
        (getMessage "img_0001")).ending = .throws := by
  refine ⟨_, rfl, ?_, ?_, ?_⟩
  · decide +kernel
  · decide +kernel
  · decide +kernel

end Server
end YoloServer
