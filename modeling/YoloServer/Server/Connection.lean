import YoloServer.Common.YoloCodec
import YoloServer.Server.Server

/-!
# The handling of a `STORE` message (`server/Connection.cpp`)

A server stores a frame itself if its router picks it for the image, and forwards
the message otherwise.  The node it is forwarded to handles it in the same way, so
that a request can go through any number of servers.

* `handleStore` and `forwardToNode` are what one connection does.
* `serve` lets the servers of a network handle one message, with a given outcome
  for every forward.
-/

namespace YoloServer
namespace Server

open Cluster

/-- The codes that `forwardToNode` returns. -/
inductive ErrorCode where
  | OK
  | CONNECT_FAILED
  | RECV_FAILED
  | FD_FIALED
  deriving DecidableEq

/-- How a forward to another node goes. -/
inductive Hop where
  /-- there is no socket, or the host is no IPv4 address -/
  | noSocket
  /-- `connectWithRetry` gives up -/
  | noConnection
  /-- `recvMessage` returns false; the message may have reached the node -/
  | noReply (reached : Bool)
  /-- the node has the message, and its first reply comes back -/
  | exchange
  deriving DecidableEq

/-- A call of `RocksDBStorage::put`, and what it returned. -/
structure Put where
  server : Server
  key : String
  value : List UInt8
  result : Bool

/-- What the handling of a message brings about: the replies on the connection, the
calls of `put` at all servers, and whether this server went through a null pointer. -/
structure Effect where
  replies : List (List UInt8)
  puts : List Put
  crashed : Bool

namespace Effect

/-- Nothing but the given reply. -/
def reply (text : String) : Effect where
  replies := [utf8 text]
  puts := []
  crashed := false

/-- No reply. -/
def silent : Effect where
  replies := []
  puts := []
  crashed := false

end Effect

/-- What the servers of a network run on: the hash of the router, the parser, the
server at an address, and the storage of each server. -/
structure Network (D : Type) where
  hash : String → Nat
  parse : List UInt8 → Option (Json D)
  listening : String → Int → Option Server
  put : Server → String → List UInt8 → Bool

/-- `Connection::forwardToNode`; `peer` is what the node does with the message if
it gets it. -/
def forwardToNode (peer : Effect) : Hop → ErrorCode × Effect
  | .noSocket => (.FD_FIALED, .silent)
  | .noConnection => (.CONNECT_FAILED, .silent)
  | .noReply reached =>
      (.RECV_FAILED, { Effect.silent with puts := if reached then peer.puts else [] })
  | .exchange =>
      match peer.replies with
      | [] => (.RECV_FAILED, { Effect.silent with puts := peer.puts })
      | text :: _ => (.OK, { replies := [text], puts := peer.puts, crashed := false })

section Handlers

variable {D F : Type} [Double D] [Single F D] (net : Network D)

/-- The frame of a `STORE` message: `none` without payload, and `some none` if the
payload cannot be read. -/
def readStore (F : Type) [Single F D] (msg : List UInt8) : Option (Option (YoloFrame F)) :=
  (afterSpace msg).map fun payload => (net.parse payload).bind readFrame

/-- `Connection::handleStore`; `forward` is the call of `forwardToNode`. -/
def handleStore (F : Type) [Single F D] (s : Server) (forward : NodeInfo → ErrorCode × Effect)
    (msg : List UInt8) : Effect :=
  match readStore net F msg with
  | none => .silent
  | some none => .reply "ERROR invalid STORE payload"
  | some (some frame) =>
      match s.router.pickNode net.hash frame.imageId with
      | none => { Effect.silent with crashed := true }
      | some node =>
          if node.id ≠ s.self.id then
            let (code, effect) := forward node
            if code = .CONNECT_FAILED then
              { effect with
                replies := effect.replies ++ [utf8 "ERROR failed to forward STORE request"] }
            else
              effect
          else
            let value := encode D frame
            -- The result of `put` is ignored here.
            { Effect.reply "STORE OK" with
              puts := [⟨s, frame.imageId, value, net.put s frame.imageId value⟩] }

/-- The servers of the network handle a message that comes in at `s`; the list has
the outcome of each forward in turn.  A node at whose address no server listens
refuses the connection, and past the end of the list no reply comes back. -/
def serve (F : Type) [Single F D] (msg : List UInt8) : List Hop → Server → Effect
  | [], s => handleStore net F s (fun _ => forwardToNode .silent (.noReply false)) msg
  | hop :: hops, s =>
      handleStore net F s
        (fun node =>
          match net.listening node.host node.port with
          | none => forwardToNode .silent (if hop = .noSocket then .noSocket else .noConnection)
          | some peer => forwardToNode (serve F msg hops peer) hop)
        msg

end Handlers

end Server
end YoloServer
