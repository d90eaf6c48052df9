import YoloServer.Server.Connection

/-!
# What `STORE OK` says

`handleStore` answers `STORE OK` whatever `put` returns.  The reply travels back
unchanged through all servers that forwarded the message, so that it says something
about the storage only if `put` succeeds at the last of them.

* `serve_eq` describes the effect of a message that reaches its destination and
  whose replies all come back.
* `storeOk_iff_destination`: no other message is answered `STORE OK`.
* `store_ok_means_stored_iff` says exactly when the reply can be relied on.
-/

namespace YoloServer
namespace Server

open Cluster

section Routing

variable {D : Type} (net : Network D)

/-- A server owns a key if its router picks the server itself. -/
def Owns (s : Server) (key : String) : Prop :=
  ∃ node, s.router.pickNode net.hash key = some node ∧ node.id = s.self.id

/-- The server at which the forwards of a key end, if all of them are exchanges. -/
def destination (key : String) : List Hop → Server → Option Server
  | hops, s =>
      match s.router.pickNode net.hash key with
      | none => none
      | some node =>
          if node.id = s.self.id then
            some s
          else
            match hops with
            | .exchange :: rest => (net.listening node.host node.port).bind (destination key rest)
            | _ => none

/-- Either the key ends here, or the first forward is an exchange with a node from
which it reaches its destination. -/
theorem destination_eq_some_iff {key : String} {hops : List Hop} {s owner : Server} :
    destination net key hops s = some owner ↔
      ∃ node, s.router.pickNode net.hash key = some node ∧
        ((node.id = s.self.id ∧ s = owner) ∨
          (node.id ≠ s.self.id ∧ ∃ rest peer, hops = .exchange :: rest ∧
            net.listening node.host node.port = some peer ∧
            destination net key rest peer = some owner)) := by
  rw [destination]
  cases hpick : s.router.pickNode net.hash key with
  | none => simp
  | some node =>
      by_cases hself : node.id = s.self.id
      · simp [hself]
      · simp only [hself, if_false, Option.some.injEq, exists_eq_left', false_and, false_or,
          ne_eq, not_false_eq_true, true_and]
        constructor
        · intro h
          split at h
          · rename_i rest
            obtain ⟨peer, hpeer, hrest⟩ := Option.bind_eq_some_iff.mp h
            exact ⟨rest, peer, rfl, hpeer, hrest⟩
          · cases h
        · rintro ⟨rest, peer, rfl, hpeer, hrest⟩
          simp only [hpeer, Option.bind_some]
          exact hrest

theorem owns_destination {key : String} {hops : List Hop} {s owner : Server}
    (h : destination net key hops s = some owner) : Owns net owner key := by
  induction hops generalizing s with
  | nil =>
      obtain ⟨node, hpick, ⟨hself, rfl⟩ | ⟨-, rest, peer, hhops, -⟩⟩ :=
        (destination_eq_some_iff net).mp h
      · exact ⟨node, hpick, hself⟩
      · cases hhops
  | cons hop rest ih =>
      obtain ⟨node, hpick, ⟨hself, rfl⟩ | ⟨-, rest', peer, hhops, -, hrest⟩⟩ :=
        (destination_eq_some_iff net).mp h
      · exact ⟨node, hpick, hself⟩
      · cases hhops
        exact ih hrest

end Routing

section Replies

variable {D F : Type} [Double D] [Single F D] (net : Network D)

/-- The effect of `handleStore` at the server that stores the frame. -/
def stored (s : Server) (frame : YoloFrame F) : Effect where
  replies := [utf8 "STORE OK"]
  puts := [⟨s, frame.imageId, encode D frame, net.put s frame.imageId (encode D frame)⟩]
  crashed := false

variable {net} {s : Server} {forward : NodeInfo → ErrorCode × Effect} {msg : List UInt8}

/-- A forward relays a `STORE OK`, and never writes one. -/
theorem storeOk_of_forwardToNode {peer : Effect} {hop : Hop}
    (h : utf8 "STORE OK" ∈ (forwardToNode peer hop).2.replies) :
    hop = .exchange ∧ utf8 "STORE OK" ∈ peer.replies := by
  cases hop with
  | noSocket => simp [forwardToNode, Effect.silent] at h
  | noConnection => simp [forwardToNode, Effect.silent] at h
  | noReply reached => simp [forwardToNode, Effect.silent] at h
  | exchange =>
      rw [forwardToNode] at h
      split at h
      · simp [Effect.silent] at h
      · rename_i text rest hreplies
        rw [List.mem_singleton.mp h, hreplies]
        exact ⟨rfl, List.mem_cons_self⟩

/-- Where a `STORE OK` of `handleStore` comes from. -/
theorem storeOk_of_handleStore (h : utf8 "STORE OK" ∈ (handleStore net F s forward msg).replies) :
    ∃ frame : YoloFrame F, ∃ node, readStore net F msg = some (some frame) ∧
      s.router.pickNode net.hash frame.imageId = some node ∧
      (node.id ≠ s.self.id → utf8 "STORE OK" ∈ (forward node).2.replies) := by
  unfold handleStore at h
  split at h
  · simp [Effect.silent] at h
  · simp only [Effect.reply, List.mem_singleton] at h
    exact absurd h (by decide)
  · rename_i frame hframe
    split at h
    · simp [Effect.silent] at h
    · rename_i node hpick
      refine ⟨frame, node, hframe, hpick, fun hother => ?_⟩
      rw [if_pos hother] at h
      dsimp only at h
      split_ifs at h
      · rcases List.mem_append.mp h with h | h
        · exact h
        · exact absurd (List.mem_singleton.mp h) (by decide)
      · exact h

theorem handleStore_own {frame : YoloFrame F} {node : NodeInfo}
    (hread : readStore net F msg = some (some frame))
    (hpick : s.router.pickNode net.hash frame.imageId = some node) (hself : node.id = s.self.id) :
    handleStore net F s forward msg = stored net s frame := by
  simp [handleStore, hread, hpick, hself, stored, Effect.reply]

theorem handleStore_other {frame : YoloFrame F} {node : NodeInfo} {effect : Effect}
    (hread : readStore net F msg = some (some frame))
    (hpick : s.router.pickNode net.hash frame.imageId = some node) (hother : node.id ≠ s.self.id)
    (hforward : forward node = (.OK, effect)) :
    handleStore net F s forward msg = effect := by
  simp [handleStore, hread, hpick, hother, hforward]

/-- A message that reaches its destination has the effect it has there. -/
theorem serve_eq {frame : YoloFrame F} {hops : List Hop} {owner : Server}
    (hread : readStore net F msg = some (some frame))
    (hdest : destination net frame.imageId hops s = some owner) :
    serve net F msg hops s = stored net owner frame := by
  induction hops generalizing s with
  | nil =>
      obtain ⟨node, hpick, ⟨hself, rfl⟩ | ⟨-, rest, peer, hhops, -⟩⟩ :=
        (destination_eq_some_iff net).mp hdest
      · exact handleStore_own hread hpick hself
      · cases hhops
  | cons hop rest ih =>
      obtain ⟨node, hpick, ⟨hself, rfl⟩ | ⟨hother, rest', peer, hhops, hpeer, hrest⟩⟩ :=
        (destination_eq_some_iff net).mp hdest
      · exact handleStore_own hread hpick hself
      · cases hhops
        apply handleStore_other hread hpick hother
        simp only [hpeer]
        rw [ih hrest]
        rfl

/-- A message is answered `STORE OK` exactly if it holds a frame and reaches the
destination of its image. -/
theorem storeOk_iff_destination {hops : List Hop} :
    utf8 "STORE OK" ∈ (serve net F msg hops s).replies ↔
      ∃ frame : YoloFrame F, ∃ owner, readStore net F msg = some (some frame) ∧
        destination net frame.imageId hops s = some owner := by
  constructor
  · intro h
    induction hops generalizing s with
    | nil =>
        obtain ⟨frame, node, hread, hpick, hforward⟩ := storeOk_of_handleStore h
        -- No forward has returned, so the server has stored the frame itself.
        have hself : node.id = s.self.id := by
          by_contra hother
          simpa using (storeOk_of_forwardToNode (hforward hother)).1
        exact ⟨frame, s, hread,
          (destination_eq_some_iff net).mpr ⟨node, hpick, .inl ⟨hself, rfl⟩⟩⟩
    | cons hop rest ih =>
        obtain ⟨frame, node, hread, hpick, hforward⟩ := storeOk_of_handleStore h
        by_cases hself : node.id = s.self.id
        · exact ⟨frame, s, hread,
            (destination_eq_some_iff net).mpr ⟨node, hpick, .inl ⟨hself, rfl⟩⟩⟩
        · have hreply := hforward hself
          cases hpeer : net.listening node.host node.port with
          | none =>
              simp only [hpeer] at hreply
              simpa [Effect.silent] using (storeOk_of_forwardToNode hreply).2
          | some peer =>
              simp only [hpeer] at hreply
              obtain ⟨rfl, hserved⟩ := storeOk_of_forwardToNode hreply
              obtain ⟨frame', owner, hread', hdest⟩ := ih hserved
              -- The peer has read the same message.
              obtain rfl : frame = frame' := by simpa [hread] using hread'
              exact ⟨frame, owner, hread, (destination_eq_some_iff net).mpr
                ⟨node, hpick, .inr ⟨hself, rest, peer, rfl, hpeer, hdest⟩⟩⟩
  · rintro ⟨frame, owner, hread, hdest⟩
    rw [serve_eq hread hdest]
    exact List.mem_singleton_self _

end Replies

/-- **`STORE OK` means stored**, for a message that comes in at `s`, exactly if the
`put` at the destination succeeds whenever the message holds a frame and gets
there. -/
theorem store_ok_means_stored_iff {D F : Type} [Double D] [Single F D] (net : Network D)
    (hops : List Hop) (s : Server) (msg : List UInt8) :
    (utf8 "STORE OK" ∈ (serve net F msg hops s).replies →
        ∃ frame : YoloFrame F, ∃ owner, readStore net F msg = some (some frame) ∧
          Owns net owner frame.imageId ∧
          ⟨owner, frame.imageId, encode D frame, true⟩ ∈ (serve net F msg hops s).puts) ↔
      ∀ (frame : YoloFrame F) (owner : Server), readStore net F msg = some (some frame) →
        destination net frame.imageId hops s = some owner →
        net.put owner frame.imageId (encode D frame) = true := by
  constructor
  · intro hmeans frame owner hread hdest
    obtain ⟨frame', owner', hread', -, hput⟩ :=
      hmeans (storeOk_iff_destination.mpr ⟨frame, owner, hread, hdest⟩)
    rw [serve_eq hread hdest, stored, List.mem_singleton] at hput
    exact (congrArg Put.result hput).symm
  · intro hputs hreply
    obtain ⟨frame, owner, hread, hdest⟩ := storeOk_iff_destination.mp hreply
    refine ⟨frame, owner, hread, owns_destination net hdest, ?_⟩
    rw [serve_eq hread hdest, stored, List.mem_singleton, hputs frame owner hread hdest]

/-! ## A write that is acknowledged and lost -/

/-- Multiples of one half, which both `float` and `double` hold exactly. -/
structure Halves where
  twice : Int
  deriving DecidableEq

instance : Double Halves where
  toUInt64 d := (d.twice.tdiv 2 % 2 ^ 64).toNat
  toInt d := d.twice.tdiv 2
  dump d :=
    utf8 ((if d.twice < 0 then "-" else "") ++ Nat.repr (d.twice.natAbs / 2) ++
      if d.twice % 2 = 0 then ".0" else ".5")

instance : IsFinite Halves where
  isFinite _ := true

instance : Single Halves Halves where
  narrow := id
  widen := id
  ofInt n := ⟨2 * n⟩

/-- A frame with one box. -/
def sampleFrame : YoloFrame Halves where
  imageId := "img_0001"
  imageHash := "a1b2c3d4"
  boxes := [⟨0, ⟨1⟩, ⟨1⟩, ⟨3⟩, ⟨2⟩, ⟨1⟩⟩]
  width := 1920
  height := 1080

def sampleText : String :=
  "\x7b\"image_id\":\"img_0001\",\"width\":1920,\"height\":1080,\"image_hash\":\"a1b2c3d4\"," ++
    "\"boxes\":[\x7b\"class_id\":0,\"x\":0.5,\"y\":0.5,\"w\":1.5,\"h\":1,\"confidence\":0.5\x7d]\x7d"

/-- The value of `sampleText`, in which one number is an integer. -/
def sampleJson : Json Halves :=
  .ofMembers [("image_id", .string "img_0001"), ("width", .unsigned 1920),
    ("height", .unsigned 1080), ("image_hash", .string "a1b2c3d4"),
    ("boxes", .array [.ofMembers [("class_id", .unsigned 0), ("x", .float ⟨1⟩),
      ("y", .float ⟨1⟩), ("w", .float ⟨3⟩), ("h", .unsigned 1), ("confidence", .float ⟨1⟩)]])]

def node1 : NodeInfo :=
  ⟨"n1", "127.0.0.1", 8080, true⟩

def node2 : NodeInfo :=
  ⟨"n2", "127.0.0.1", 8081, true⟩

/-- A server that knows both nodes. -/
def serverOn (self : NodeInfo) : Server :=
  ⟨self, ⟨[node1, node2]⟩⟩

/-- The two servers, none of which can write. -/
def readOnlyPair : Network Halves where
  hash text := (text.toList.map Char.toNat).sum
  parse text := if text = utf8 sampleText then some sampleJson else none
  listening _ port :=
    if port = 8080 then some (serverOn node1)
    else if port = 8081 then some (serverOn node2)
    else none
  put _ _ _ := false

/-- The first server forwards the frame to the second, which fails to store it; the
client receives `STORE OK`. -/
theorem store_ok_after_failed_put :
    utf8 "STORE OK" ∈
        (serve readOnlyPair Halves (utf8 "STORE " ++ utf8 sampleText) [.exchange]
          (serverOn node1)).replies ∧
      ¬ ∃ frame : YoloFrame Halves, ∃ owner,
        readStore readOnlyPair Halves (utf8 "STORE " ++ utf8 sampleText) = some (some frame) ∧
        Owns readOnlyPair owner frame.imageId ∧
        ⟨owner, frame.imageId, encode Halves frame, true⟩ ∈
          (serve readOnlyPair Halves (utf8 "STORE " ++ utf8 sampleText) [.exchange]
            (serverOn node1)).puts := by
  have hread : readStore readOnlyPair Halves (utf8 "STORE " ++ utf8 sampleText) =
      some (some sampleFrame) := by
    have hpayload : ∀ text, afterSpace (utf8 "STORE " ++ text) = some text := fun _ => rfl
    have hparse : readOnlyPair.parse (utf8 sampleText) = some sampleJson := by
      simp only [readOnlyPair, if_true]
    have hframe : readFrame sampleJson = some sampleFrame := by decide
    rw [readStore, hpayload, Option.map_some, hparse, Option.bind_some, hframe]
  have hdest : destination readOnlyPair "img_0001" [.exchange] (serverOn node1) =
      some (serverOn node2) := rfl
  rw [serve_eq hread hdest, stored]
  refine ⟨List.mem_singleton_self _, ?_⟩
  rintro ⟨frame, owner, -, -, hput⟩
  exact Bool.noConfusion (congrArg Put.result (List.mem_singleton.mp hput))

end Server
end YoloServer
