import YoloServer.Server.Connection
import YoloServer.Server.RaftHandlers

/-!
# The messages of a connection (`server/Connection.cpp`)

`handle` reads one message after the other and calls the handler of its command.  What
a handler finds outside of the connection is an `Env`, which can differ from call to
call: other connections use the same storage and the same node.

`handleGet` reads the key of an image as a word of the message.  The bytes of a word
need not be a UTF-8 text, so they are kept as they are.

`relayed_cases` and `handleGet_cases` list what a forward and a `GET` can come to; the
later modules use them and do not unfold the handlers.
-/

namespace YoloServer
namespace Server

open Cluster Raft Json

/-- What a handler finds. -/
structure Env (D : Type) where
  /-- `std::hash<std::string>` -/
  hash : List UInt8 → Nat
  parse : List UInt8 → Option (Json D)
  put : String → List UInt8 → Bool
  get : List UInt8 → Option (List UInt8)
  /-- how a forward to a node goes, and the replies that the node sends -/
  forward : NodeInfo → Hop × List (List UInt8)
  /-- the width and the height of a frame that nobody has set -/
  uninitialised : Int × Int

/-- `ShardRouter::pickNode` for the bytes of a key. -/
def pickNodeFor (r : ShardRouter) (hash : List UInt8 → Nat) (key : List UInt8) :
    Option NodeInfo :=
  r.pickNode (fun suffix => hash (key ++ utf8 suffix)) ""

/-- The outcome of a handler that never reaches the node. -/
def Effect.outcome (e : Effect) (raft : Option RaftNode) : Outcome where
  replies := e.replies
  puts := e.puts.map fun p => (p.key, p.value)
  raft := raft
  ending := if e.crashed then .crashes else .returns

section Texts

variable {F : Type} (D : Type) [Single F D]

/-- One iteration of the loop over the boxes in `handleGet`. -/
def getBoxJson (box : YoloBox F) : Json D :=
  ofMembers [("class_id", .integer box.classId), ("x", .float (Single.widen box.x)),
    ("y", .float (Single.widen box.y)), ("w", .float (Single.widen box.w)),
    ("h", .float (Single.widen box.h)), ("confidence", .float (Single.widen box.confidence))]

/-- The value that `handleGet` builds from a frame. -/
def getJson (frame : YoloFrame F) : Json D :=
  ofMembers [("image_id", .string frame.imageId), ("width", .integer frame.width),
    ("height", .integer frame.height), ("image_hash", .string frame.imageHash),
    ("boxes", .array (frame.boxes.map (getBoxJson D)))]

/-- The text with which `handleGet` answers. -/
def getText [Double D] (frame : YoloFrame F) : List UInt8 :=
  dump (getJson D frame)

end Texts

/-- A frame as its constructor leaves it. -/
def blankFrame (F : Type) (uninitialised : Int × Int) : YoloFrame F where
  imageId := ""
  imageHash := ""
  boxes := []
  width := uninitialised.1
  height := uninitialised.2

section Handlers

namespace Env

variable {D : Type}

/-- The part of an environment that `handleStore` uses. -/
def network (env : Env D) : Network D where
  hash text := env.hash (utf8 text)
  parse := env.parse
  listening _ _ := none
  put _ := env.put

/-- The call of `forwardToNode`.  What the node writes does not show here. -/
def forwarded (env : Env D) (node : NodeInfo) : ErrorCode × Effect :=
  forwardToNode ⟨(env.forward node).2, [], false⟩ (env.forward node).1

end Env

variable {D : Type} [Double D] (env : Env D) (F : Type) [Single F D] (s : Server) (raft : Option RaftNode)

/-- `Connection::handleGet`. -/
def handleGet (msg : List UInt8) : Outcome :=
  let imageId := getSecondToken msg
  if imageId = [] then
    .reply raft (utf8 "ERROR missing image_id")
  else
    match pickNodeFor s.router env.hash imageId with
    | none => .crash raft
    | some node =>
        if node.id ≠ s.self.id then
          let (code, effect) := env.forwarded node
          if code = .CONNECT_FAILED then
            Effect.outcome { effect with
              replies := effect.replies ++ [utf8 "ERROR failed to forward GET request"] } raft
          else
            effect.outcome raft
        else
          match env.get imageId with
          | none => .reply raft (getText D (blankFrame F env.uninitialised))
          | some value =>
              match decode (F := F) env.parse value with
              | none => { replies := [], puts := [], raft := raft, ending := .throws }
              | some frame => .reply raft (getText D frame)

/-- One iteration of the loop of `Connection::handle`, after `recvMessage` has returned
a message. -/
def handle (msg : List UInt8) : Outcome :=
  match command msg with
  | .PING => .reply raft (utf8 "PONG")
  | .STORE => (handleStore env.network F s env.forwarded msg).outcome raft
  | .GET => handleGet env F s raft msg
  | .RAFT_REQUEST_VOTE => handleRaftRequestVote env.parse raft msg
  | .RAFT_APPEND_ENTRIES => handleRaftAppendEntries env.parse raft msg
  | .UNKNOWN => .reply raft (utf8 "ERROR unknown command")

end Handlers

/-! ## Keys -/

theorem utf8_append (a b : String) : utf8 (a ++ b) = utf8 a ++ utf8 b := by
  simp [utf8]

theorem utf8_inj {a b : String} (h : utf8 a = utf8 b) : a = b := by
  apply String.toByteArray_inj.mp
  apply ByteArray.ext
  exact Array.toList_inj.mp h

/-- For a text, both ways to pick a node are the same. -/
theorem pickNodeFor_utf8 (r : ShardRouter) (hash : List UInt8 → Nat) (key : String) :
    pickNodeFor r hash (utf8 key) = r.pickNode (fun text => hash (utf8 text)) key := by
  have hscore : ∀ node, ShardRouter.score (fun suffix => hash (utf8 key ++ utf8 suffix)) "" node =
      ShardRouter.score (fun text => hash (utf8 text)) key node := by
    intro node
    simp [ShardRouter.score, utf8_append]
  have hloop : ∀ nodes best,
      ShardRouter.pickLoop (fun suffix => hash (utf8 key ++ utf8 suffix)) "" best nodes =
        ShardRouter.pickLoop (fun text => hash (utf8 text)) key best nodes := by
    intro nodes
    induction nodes with
    | nil => exact fun _ => rfl
    | cons node rest ih =>
        intro best
        simp only [ShardRouter.pickLoop, hscore, ih]
  exact hloop r.nodes none

/-! ## Forwards -/

section Forwards

variable {D : Type} (env : Env D)

/-- A forward that brings back a reply, or that ends with a connection that failed. -/
def Env.Relays (node : NodeInfo) : Prop :=
  (env.forward node).1 = .noConnection ∨
    ((env.forward node).1 = .exchange ∧ (env.forward node).2 ≠ [])

/-- What a handler makes of a forward. -/
def relayed (node : NodeInfo) (error : String) : Effect :=
  let (code, effect) := env.forwarded node
  if code = .CONNECT_FAILED then { effect with replies := effect.replies ++ [utf8 error] }
  else effect

/-- What becomes of a forward: nothing, an error, or a reply of the node. -/
theorem relayed_cases (env : Env D) (node : NodeInfo) (error : String) :
    (¬ env.Relays node ∧ relayed env node error = .silent) ∨
      (env.Relays node ∧ (relayed env node error = .reply error ∨
        ∃ text ∈ (env.forward node).2, relayed env node error = ⟨[text], [], false⟩)) := by
  rw [relayed, Env.forwarded, Env.Relays]
  cases env.forward node with
  | mk hop replies =>
      cases hop with
      | noSocket => exact .inl ⟨by simp, rfl⟩
      | noConnection => exact .inr ⟨by simp, .inl rfl⟩
      | noReply reached =>
          refine .inl ⟨by simp, ?_⟩
          cases reached with
          | false => rfl
          | true => rfl
      | exchange =>
          cases replies with
          | nil => exact .inl ⟨by simp, rfl⟩
          | cons text rest => exact .inr ⟨by simp, .inr ⟨text, List.mem_cons_self, rfl⟩⟩

end Forwards

/-! ## The outcome of a `GET` -/

section Get

variable {D F : Type} [Double D] [Single F D] {env : Env D} {s : Server} {raft : Option RaftNode}
  {msg : List UInt8} {node : NodeInfo}

theorem handleGet_relayed (hkey : getSecondToken msg ≠ [])
    (hpick : pickNodeFor s.router env.hash (getSecondToken msg) = some node)
    (hother : node.id ≠ s.self.id) :
    handleGet env F s raft msg =
      (relayed env node "ERROR failed to forward GET request").outcome raft := by
  simp only [handleGet, hkey, hpick, hother, relayed, if_false, ne_eq, not_false_eq_true, if_true]
  split_ifs
  · rfl
  · rfl

theorem handleGet_absent (hkey : getSecondToken msg ≠ [])
    (hpick : pickNodeFor s.router env.hash (getSecondToken msg) = some node)
    (hself : node.id = s.self.id) (hget : env.get (getSecondToken msg) = none) :
    handleGet env F s raft msg = .reply raft (getText D (blankFrame F env.uninitialised)) := by
  simp [handleGet, hkey, hpick, hself, hget]

theorem handleGet_present {value : List UInt8} {frame : YoloFrame F}
    (hkey : getSecondToken msg ≠ [])
    (hpick : pickNodeFor s.router env.hash (getSecondToken msg) = some node)
    (hself : node.id = s.self.id) (hget : env.get (getSecondToken msg) = some value)
    (hdecode : decode env.parse value = some frame) :
    handleGet env F s raft msg = .reply raft (getText D frame) := by
  simp [handleGet, hkey, hpick, hself, hget, hdecode]

theorem handleGet_unreadable {value : List UInt8} (hkey : getSecondToken msg ≠ [])
    (hpick : pickNodeFor s.router env.hash (getSecondToken msg) = some node)
    (hself : node.id = s.self.id) (hget : env.get (getSecondToken msg) = some value)
    (hdecode : decode (F := F) env.parse value = none) :
    handleGet env F s raft msg = ⟨[], [], raft, .throws⟩ := by
  simp [handleGet, hkey, hpick, hself, hget, hdecode]

/-- What a `GET` comes to, and what the handler has found by then. -/
inductive GetCase (env : Env D) (F : Type) [Single F D] (s : Server) (raft : Option RaftNode)
    (msg : List UInt8) : Prop
  | noKey (hkey : getSecondToken msg = [])
      (heq : handleGet env F s raft msg = .reply raft (utf8 "ERROR missing image_id"))
  | noNode (hkey : getSecondToken msg ≠ [])
      (hpick : pickNodeFor s.router env.hash (getSecondToken msg) = none)
      (heq : handleGet env F s raft msg = .crash raft)
  | elsewhere (node : NodeInfo) (hkey : getSecondToken msg ≠ [])
      (hpick : pickNodeFor s.router env.hash (getSecondToken msg) = some node)
      (hother : node.id ≠ s.self.id)
      (heq : handleGet env F s raft msg =
        (relayed env node "ERROR failed to forward GET request").outcome raft)
  | absent (node : NodeInfo) (hkey : getSecondToken msg ≠ [])
      (hpick : pickNodeFor s.router env.hash (getSecondToken msg) = some node)
      (hself : node.id = s.self.id) (hget : env.get (getSecondToken msg) = none)
      (heq : handleGet env F s raft msg =
        .reply raft (getText D (blankFrame F env.uninitialised)))
  | unreadable (node : NodeInfo) (value : List UInt8) (hkey : getSecondToken msg ≠ [])
      (hpick : pickNodeFor s.router env.hash (getSecondToken msg) = some node)
      (hself : node.id = s.self.id) (hget : env.get (getSecondToken msg) = some value)
      (hdecode : decode (F := F) env.parse value = none)
      (heq : handleGet env F s raft msg = ⟨[], [], raft, .throws⟩)
  | present (node : NodeInfo) (value : List UInt8) (frame : YoloFrame F)
      (hkey : getSecondToken msg ≠ [])
      (hpick : pickNodeFor s.router env.hash (getSecondToken msg) = some node)
      (hself : node.id = s.self.id) (hget : env.get (getSecondToken msg) = some value)
      (hdecode : decode env.parse value = some frame)
      (heq : handleGet env F s raft msg = .reply raft (getText D frame))

theorem handleGet_cases (env : Env D) (F : Type) [Single F D] (s : Server)
    (raft : Option RaftNode) (msg : List UInt8) : GetCase env F s raft msg := by
  by_cases hkey : getSecondToken msg = []
  · exact .noKey hkey (by simp [handleGet, hkey])
  · cases hpick : pickNodeFor s.router env.hash (getSecondToken msg) with
    | none => exact .noNode hkey hpick (by simp [handleGet, hkey, hpick])
    | some node =>
        by_cases hself : node.id = s.self.id
        · cases hget : env.get (getSecondToken msg) with
          | none =>
              exact .absent node hkey hpick hself hget (handleGet_absent hkey hpick hself hget)
          | some value =>
              cases hdecode : decode (F := F) env.parse value with
              | none =>
                  exact .unreadable node value hkey hpick hself hget hdecode
                    (handleGet_unreadable hkey hpick hself hget hdecode)
              | some frame =>
                  exact .present node value frame hkey hpick hself hget hdecode
                    (handleGet_present hkey hpick hself hget hdecode)
        · exact .elsewhere node hkey hpick hself (handleGet_relayed hkey hpick hself)

end Get

end Server
end YoloServer
