import YoloServer.Lib.Run
import YoloServer.Raft.Messages
import YoloServer.Raft.RaftConnectionPool
import YoloServer.Server.Protocol

/-!
# Which request a reply belongs to

Calls of `sendRequestVote` and `sendAppendEntries` over pooled connections, down to
the bytes.  The calls of a node follow each other, since the node holds its mutex;
a call is cut in two, before and after the wait for the reply.  The peer reads
complete frames and answers each of them once, in order, on the same connection.

A request is identified by its connection and the position of its first byte in
the stream of bytes written to that connection.

* `Paired` says that whenever a call has returned true, the peer has answered the
  request written by this very call, and the reply decoded is that answer.
* `replies_paired`: this holds in every run in which `getConnection` only hands out
  connections on which nothing is left over from an earlier call.
* `old_reply_taken_for_new`: a call that gives up waiting puts its connection back,
  and a later call takes the late reply for its own.
-/

namespace YoloServer
namespace Raft

open Function Lib Server Server.Protocol

/-- An open connection: what has been written and not yet read in each direction,
and the number of bytes the peer has read so far.  Descriptors are used again after
`close`, so a connection has a number of its own. -/
structure Socket where
  connection : Nat
  received : Nat
  toPeer : List UInt8
  fromPeer : List UInt8
  peerOpen : Bool

/-- A request that the peer has read, with the position of its first byte, and the
reply the peer has sent. -/
structure Exchange where
  connection : Nat
  offset : Nat
  request : List UInt8
  reply : List UInt8
  deriving DecidableEq

/-- A call that has sent its request and waits for the reply. -/
structure Call where
  peerId : String
  fd : Nat
  connection : Nat
  offset : Nat
  request : Request
  deriving DecidableEq

/-- A call that has returned true. -/
structure Returned where
  call : Call
  response : Response
  deriving DecidableEq

/-- The connections of a node.  The last two components record history. -/
structure Net where
  pool : RaftConnectionPool
  sockets : Nat → Option Socket
  connections : Nat
  call : Option Call
  exchanges : List Exchange
  returned : List Returned

namespace Net

def init : Net where
  pool := .empty
  sockets _ := none
  connections := 0
  call := none
  exchanges := []
  returned := []

/-- What can happen next. -/
inductive Event where
  /-- `sendRequestVote` or `sendAppendEntries` is called and sends its request.
  `created` is the outcome of `createConnection`, if it is needed, and the last two
  numbers are the room that the two calls of `send` find. -/
  | start (peerId : String) (request : Request) (created : Option Nat)
      (headerRoom bodyRoom : Nat)
  /-- The call receives; the list says how much has arrived at each `recv`. -/
  | finish (arrivals : List Nat)
  /-- The peer reads a Raft request and answers it. -/
  | answer (fd : Nat) (reply : Reply)
  /-- The peer reads something else and answers it. -/
  | answerOther (fd : Nat) (text : List UInt8)
  /-- The peer closes the connection. -/
  | hangUp (fd : Nat)

/-- `isConnectionValid`: `recv` with `MSG_PEEK` sees unread bytes or would block. -/
def valid (s : Net) (fd : Nat) : Bool :=
  match s.sockets fd with
  | some k => !k.fromPeer.isEmpty || k.peerOpen
  | none => false

def close (s : Net) (fds : List Nat) : Net :=
  { s with sockets := fun fd => if fd ∈ fds then none else s.sockets fd }

/-- `releaseConnection`. -/
def release (s : Net) (peerId : String) (fd : Nat) : Net :=
  { s with pool := (s.pool.releaseConnection s.valid peerId fd).1 }.close
    (s.pool.releaseConnection s.valid peerId fd).2

/-- `getConnection` opens a connection to the peer under a descriptor that is not in
use. -/
def connect (s : Net) (fd : Nat) : Option Net :=
  match s.sockets fd with
  | some _ => none
  | none =>
      some
        { s with
          sockets := update s.sockets fd
            (some
              { connection := s.connections
                received := 0
                toPeer := []
                fromPeer := []
                peerOpen := true })
          connections := s.connections + 1 }

variable (D : Type) [Double D]

/-- The call has a connection and sends its request. -/
def sendRequest (s : Net) (peerId : String) (request : Request) (fd headerRoom bodyRoom : Nat) :
    Option Net :=
  match s.sockets fd with
  | some k =>
      let (written, ok) := sendMessage (requestText D request) headerRoom bodyRoom
      let s' : Net :=
        { s with sockets := update s.sockets fd (some { k with toPeer := k.toPeer ++ written }) }
      if ok then
        some
          { s' with
            call := some
              { peerId := peerId
                fd := fd
                connection := k.connection
                offset := k.received + k.toPeer.length
                request := request } }
      else
        some (s'.release peerId fd)
  | none => none

/-- The first half of a call. -/
def startCall (s : Net) (peerId : String) (request : Request) (created : Option Nat)
    (headerRoom bodyRoom : Nat) : Option Net :=
  let got := s.pool.getConnection s.valid peerId created
  let s' : Net := { s with pool := got.pool }.close got.closed
  match got.fd with
  | none => some s'
  | some fd =>
      if got.fresh then
        (s'.connect fd).bind fun s'' => s''.sendRequest D peerId request fd headerRoom bodyRoom
      else
        s'.sendRequest D peerId request fd headerRoom bodyRoom

variable {D}
variable (parse : List UInt8 → Option (Json D))

/-- The second half of a call. -/
def finishCall (s : Net) (c : Call) (arrivals : List Nat) : Option Net :=
  match s.sockets c.fd with
  | some k =>
      let (ok, response, rest) := recvMessage ⟨k.fromPeer, arrivals⟩ []
      let s' : Net :=
        { s with
          call := none
          sockets := update s.sockets c.fd (some { k with fromPeer := rest.bytes }) }
      match if ok then decodeReply parse c.request response else none with
      | some r =>
          some { s'.release c.peerId c.fd with returned := s.returned ++ [⟨c, r⟩] }
      -- Without a reply the connection goes back to the pool as well.
      | none => some (s'.release c.peerId c.fd)
  | none => none

/-- The first message in a stream of bytes, if it has arrived completely, and what
follows it. -/
def takeFrame (bytes : List UInt8) : Option (List UInt8 × List UInt8) :=
  let len := announced (bytes.take 4)
  if 1 ≤ len ∧ len ≤ maxMessageSize ∧ 4 + len ≤ bytes.length then
    some ((bytes.drop 4).take len, bytes.drop (4 + len))
  else
    none

/-- Messages that go to one of the two Raft handlers, whatever follows the blank. -/
def isRaft (msg : List UInt8) : Bool :=
  (utf8 "RAFT_REQUEST_VOTE ").isPrefixOf msg || (utf8 "RAFT_APPEND_ENTRIES ").isPrefixOf msg

/-- The peer reads the next message and answers with `text`. -/
def answerWith (s : Net) (fd : Nat) (raft : Bool) (text : List UInt8) : Option Net :=
  match s.sockets fd with
  | some k =>
      match takeFrame k.toPeer with
      | some (msg, rest) =>
          if k.peerOpen ∧ isRaft msg = raft then
            some
              { s with
                sockets := update s.sockets fd
                  (some
                    { k with
                      received := k.received + (k.toPeer.length - rest.length)
                      toPeer := rest
                      fromPeer := k.fromPeer ++ frame text })
                exchanges := s.exchanges ++ [⟨k.connection, k.received, msg, text⟩] }
          else
            none
      | none => none
  | none => none

/-- One step. -/
def step (s : Net) : Event → Option Net
  | .start peerId request created headerRoom bodyRoom =>
      match s.call with
      | none => s.startCall D peerId request created headerRoom bodyRoom
      | some _ => none
  | .finish arrivals =>
      match s.call with
      | some c => s.finishCall parse c arrivals
      | none => none
  | .answer fd reply =>
      if reply.fits then s.answerWith fd true (replyText D reply) else none
  | .answerOther fd text => s.answerWith fd false text
  | .hangUp fd =>
      match s.sockets fd with
      | some k => some { s with sockets := update s.sockets fd (some { k with peerOpen := false }) }
      | none => none

/-- Every call that has returned true decoded the answer to its own request. -/
def Paired (s : Net) : Prop :=
  ∀ r ∈ s.returned, ∃ x ∈ s.exchanges,
    (x.connection = r.call.connection ∧ x.offset = r.call.offset) ∧
      x.request = requestText D r.call.request ∧
      decodeReply parse r.call.request x.reply = some r.response

/-- The connection that a call takes from the pool has nothing left over from an
earlier call: all requests are answered and all replies read, to the last byte. -/
def QuietHandout (s : Net) : Event → Prop
  | .start peerId _ _ _ _ =>
      ∀ fd ∈ (s.pool.connectionPools peerId).head?, s.valid fd = true →
        ∀ k ∈ s.sockets fd, k.toPeer = [] ∧ k.fromPeer = []
  | _ => True

instance (s : Net) : (e : Event) → Decidable (s.QuietHandout e)
  | .start .. => inferInstanceAs (Decidable (∀ _ ∈ _, _ → ∀ _ ∈ _, _))
  | .finish _ | .answer .. | .answerOther .. | .hangUp _ => inferInstanceAs (Decidable True)

/-! ## The invariant -/

/-- The connection of a waiting call: either the request is the only thing written
and nothing has come back, or the request has been read and its answer is the only
thing that has come back. -/
def Awaiting (D : Type) [Double D] (s : Net) (c : Call) : Prop :=
  ∃ k, s.sockets c.fd = some k ∧ k.connection = c.connection ∧
    ((k.received = c.offset ∧ k.toPeer = frame (requestText D c.request) ∧ k.fromPeer = [] ∧
        (requestText D c.request).length ≤ maxTransfer) ∨
      (k.toPeer = [] ∧ ∃ text, Short text ∧ k.fromPeer = frame text ∧
        ⟨c.connection, c.offset, requestText D c.request, text⟩ ∈ s.exchanges))

structure PairInv (s : Net) : Prop where
  paired : s.Paired parse
  awaiting : ∀ c ∈ s.call, s.Awaiting D c

theorem pairInv_init : PairInv parse init where
  paired := by simp [Paired, init]
  awaiting := by simp [init]

variable {parse} {s s' : Net}

theorem Paired.mono (h : s.Paired parse) (hreturned : s'.returned = s.returned)
    (hexchanges : ∀ x ∈ s.exchanges, x ∈ s'.exchanges) : s'.Paired parse := by
  intro r hr
  rw [hreturned] at hr
  obtain ⟨x, hx, hrest⟩ := h r hr
  exact ⟨x, hexchanges x hx, hrest⟩

/-! ## Sending -/

theorem sendRequest_spec {peerId : String} {request : Request} {fd headerRoom bodyRoom : Nat}
    (h : s.sendRequest D peerId request fd headerRoom bodyRoom = some s') :
    ∃ k, s.sockets fd = some k ∧ s'.exchanges = s.exchanges ∧ s'.returned = s.returned ∧
      (s'.call = s.call ∨
        (s'.call = some ⟨peerId, fd, k.connection, k.received + k.toPeer.length, request⟩ ∧
          s'.sockets fd =
            some { k with toPeer := k.toPeer ++ frame (requestText D request) } ∧
          (requestText D request).length ≤ maxTransfer)) := by
  unfold sendRequest at h
  cases hsocket : s.sockets fd with
  | none => simp [hsocket] at h
  | some k =>
      refine ⟨k, rfl, ?_⟩
      cases hsend : sendMessage (requestText D request) headerRoom bodyRoom with
      | mk written ok =>
          simp only [hsocket, hsend] at h
          cases ok with
          | false =>
              cases h
              exact ⟨rfl, rfl, .inl rfl⟩
          | true =>
              obtain ⟨rfl, hlength⟩ := sendMessage_true hsend
              cases h
              exact ⟨rfl, rfl, .inr ⟨rfl, update_self .., hlength⟩⟩

/-- A call that has sent its request over a connection with nothing left over. -/
theorem awaiting_of_sent {c : Call} {k : Socket} (hto : k.toPeer = []) (hfrom : k.fromPeer = [])
    (hcall : c.connection = k.connection ∧ c.offset = k.received + k.toPeer.length)
    (hsocket : s.sockets c.fd =
      some { k with toPeer := k.toPeer ++ frame (requestText D c.request) })
    (hlength : (requestText D c.request).length ≤ maxTransfer) : s.Awaiting D c := by
  refine ⟨_, hsocket, hcall.1.symm, .inl ⟨?_, ?_, hfrom, hlength⟩⟩
  · simp [hcall.2, hto]
  · simp [hto]

/-- A request that is sent over an empty connection. -/
theorem sendRequest_awaiting {peerId : String} {request : Request}
    {fd headerRoom bodyRoom : Nat} {k : Socket}
    (h : s.sendRequest D peerId request fd headerRoom bodyRoom = some s')
    (hidle : s.call = none) (hk : s.sockets fd = some k) (hto : k.toPeer = [])
    (hfrom : k.fromPeer = []) :
    s'.exchanges = s.exchanges ∧ s'.returned = s.returned ∧ ∀ c ∈ s'.call, s'.Awaiting D c := by
  obtain ⟨k', hk', hexchanges, hreturned, hcase⟩ := sendRequest_spec h
  obtain rfl : k = k' := Option.some.inj (hk.symm.trans hk')
  refine ⟨hexchanges, hreturned, ?_⟩
  intro c hc
  rcases hcase with hsame | ⟨hnew, hsocket, hlength⟩
  · rw [hsame, hidle] at hc
    cases hc
  · rw [hnew] at hc
    cases hc
    exact awaiting_of_sent hto hfrom ⟨rfl, rfl⟩ hsocket hlength

/-- The first half of a call. -/
theorem startCall_spec {peerId : String} {request : Request} {created : Option Nat}
    {headerRoom bodyRoom : Nat} (hidle : s.call = none)
    (hquiet : s.QuietHandout (.start peerId request created headerRoom bodyRoom))
    (h : s.startCall D peerId request created headerRoom bodyRoom = some s') :
    s'.exchanges = s.exchanges ∧ s'.returned = s.returned ∧ ∀ c ∈ s'.call, s'.Awaiting D c := by
  unfold startCall at h
  simp only at h
  cases hfd : (s.pool.getConnection s.valid peerId created).fd with
  | none =>
      simp only [hfd] at h
      cases h
      exact ⟨rfl, rfl, by simp [close, hidle]⟩
  | some fd =>
      simp only [hfd] at h
      rcases RaftConnectionPool.getConnection_spec hfd with
        ⟨hfresh, -⟩ | ⟨hfresh, hclosed, hvalid, hhead⟩
      · -- A new connection is empty.
        rw [hfresh, if_pos rfl] at h
        obtain ⟨t, hconnect, hsend⟩ := Option.bind_eq_some_iff.mp h
        unfold connect at hconnect
        split at hconnect
        · cases hconnect
        · cases hconnect
          have hsent := sendRequest_awaiting hsend hidle (update_self ..) rfl rfl
          exact hsent
      · -- A pooled connection is empty by assumption.
        rw [hfresh, if_neg (by simp)] at h
        obtain ⟨k, hk, -⟩ := sendRequest_spec h
        have hopen : s.sockets fd = some k := by simpa [close, hclosed] using hk
        obtain ⟨hto, hfrom⟩ := hquiet fd hhead hvalid k hopen
        have hsent := sendRequest_awaiting h hidle hk hto hfrom
        exact hsent

/-! ## The peer -/

/-- A request that has been sent is read as it was sent. -/
theorem takeFrame_frame {msg read rest : List UInt8} (hmax : msg.length ≤ maxTransfer)
    (h : takeFrame (frame msg) = some (read, rest)) : read = msg ∧ rest = [] := by
  have htake : (frame msg).take 4 = htonl msg.length := rfl
  have hlength : announced (htonl msg.length) = msg.length := by
    apply announced_htonl
    simp only [maxTransfer] at hmax
    omega
  simp only [takeFrame, htake, hlength] at h
  split_ifs at h
  simp only [Option.some.injEq, Prod.mk.injEq] at h
  obtain ⟨rfl, rfl⟩ := h
  refine ⟨?_, ?_⟩
  · show msg.take msg.length = msg
    exact List.take_length
  · apply List.drop_eq_nil_of_le
    simp [frame, length_htonl]

theorem isRaft_requestText (request : Request) : isRaft (requestText D request) = true := by
  cases request with
  | vote args => simp [isRaft, requestText]
  | append args => simp [isRaft, requestText]

theorem answerWith_spec {fd : Nat} {raft : Bool} {text : List UInt8}
    (h : s.answerWith fd raft text = some s') :
    ∃ k msg rest, s.sockets fd = some k ∧ takeFrame k.toPeer = some (msg, rest) ∧
      isRaft msg = raft ∧
      s' =
        { s with
          sockets := update s.sockets fd
            (some
              { k with
                received := k.received + (k.toPeer.length - rest.length)
                toPeer := rest
                fromPeer := k.fromPeer ++ frame text })
          exchanges := s.exchanges ++ [⟨k.connection, k.received, msg, text⟩] } := by
  unfold answerWith at h
  split at h
  · rename_i k hk
    split at h
    · rename_i msg rest htake
      split_ifs at h with hcond
      cases h
      exact ⟨k, msg, rest, hk, htake, hcond.2, rfl⟩
    · cases h
  · cases h

/-- An answer on the connection of a waiting call is the answer to its request; one
on another connection does not matter. -/
theorem awaiting_answer {fd : Nat} {raft : Bool} {text : List UInt8} {c : Call}
    (hwait : s.Awaiting D c) (hshort : raft = true → Short text)
    (h : s.answerWith fd raft text = some s') : s'.Awaiting D c := by
  obtain ⟨k, msg, rest, hk, htake, hraft, rfl⟩ := answerWith_spec h
  obtain ⟨k', hk', hconn, hcase⟩ := hwait
  by_cases hfd : c.fd = fd
  · subst hfd
    obtain rfl : k = k' := Option.some.inj (hk.symm.trans hk')
    rcases hcase with ⟨hreceived, hto, hfrom, hlength⟩ | ⟨hto, -⟩
    · rw [hto] at htake
      obtain ⟨rfl, rfl⟩ := takeFrame_frame hlength htake
      refine ⟨_, update_self .., hconn, .inr ⟨rfl, text, ?_, by simp [hfrom], ?_⟩⟩
      · exact hshort (hraft.symm.trans (isRaft_requestText c.request))
      · simp [hconn, hreceived]
    · -- There is nothing to read.
      simp [hto, takeFrame, announced, ntohl] at htake
  · refine ⟨k', (update_of_ne hfd ..).trans hk', hconn, ?_⟩
    rcases hcase with hfirst | ⟨hto, text', hshort', hfrom, hmem⟩
    · exact .inl hfirst
    · exact .inr ⟨hto, text', hshort', hfrom, List.mem_append_left _ hmem⟩

/-! ## Receiving -/

/-- What a call can decode from its connection if the answer to its request is the
only thing there: a cut-off header announces the length 0, and a cut-off body is no
JSON object. -/
theorem decodeReply_of_frame (hparse : ClosesObjects parse) {text response : List UInt8}
    (hshort : Short text) {arrivals : List Nat} {rest : Stream} {request : Request}
    {r : Response} (h : recvMessage ⟨frame text, arrivals⟩ [] = (true, response, rest))
    (hdecode : decodeReply parse request response = some r) :
    decodeReply parse request text = some r := by
  obtain ⟨header, s₁, body, hheader, -, hsize, hbody, -, hmsg, -⟩ := recvMessage_true h
  by_cases hfull : Arrived 4 arrivals
  · rw [frame, recv_of_arrived hfull (length_htonl _), Prod.mk.injEq] at hheader
    obtain ⟨rfl, rfl⟩ := hheader
    have hlength : announced (htonl text.length) = text.length :=
      announced_htonl (Nat.lt_trans hshort.length (by decide))
    rw [hlength] at hbody hmsg
    obtain ⟨⟨tail, htail⟩, hle⟩ := recv_spec hbody
    simp only at htail
    have htake : body = text.take body.length := by
      rw [← htail, List.take_left]
    by_cases hall : body.length = text.length
    · rw [hall, List.take_length] at htake
      have hdrop : (resize [] text.length).drop body.length = [] :=
        List.drop_eq_nil_of_le (by rw [length_resize]; omega)
      rw [hmsg, hdrop, List.append_nil, htake] at hdecode
      exact hdecode
    · have hzeros : (resize [] text.length).drop body.length =
          List.replicate (text.length - body.length) 0 := by
        simp [resize]
      rw [hmsg, hzeros, htake, decodeReply_cut hparse request hshort (by omega)] at hdecode
      cases hdecode
  · exfalso
    obtain ⟨arrived, hlt, hrecv⟩ := recv_of_not_arrived hfull (frame text)
    rw [hrecv, Prod.mk.injEq] at hheader
    obtain ⟨rfl, -⟩ := hheader
    have hcut : announced ((frame text).take arrived) = 0 := by
      rw [frame, List.take_append_of_le_length (by rw [length_htonl]; omega)]
      exact announced_cut hshort.length hlt
    omega

theorem finishCall_spec {c : Call} {arrivals : List Nat}
    (h : s.finishCall parse c arrivals = some s') :
    s'.call = none ∧ s'.exchanges = s.exchanges ∧
      (s'.returned = s.returned ∨
        ∃ k response rest r, s.sockets c.fd = some k ∧
          recvMessage ⟨k.fromPeer, arrivals⟩ [] = (true, response, rest) ∧
          decodeReply parse c.request response = some r ∧
          s'.returned = s.returned ++ [⟨c, r⟩]) := by
  unfold finishCall at h
  cases hsocket : s.sockets c.fd with
  | none => simp [hsocket] at h
  | some k =>
      cases hrecv : recvMessage ⟨k.fromPeer, arrivals⟩ [] with
      | mk ok more =>
          obtain ⟨response, rest⟩ := more
          simp only [hsocket, hrecv] at h
          cases ok with
          | false =>
              simp only [Bool.false_eq_true, if_false] at h
              cases h
              exact ⟨rfl, rfl, .inl rfl⟩
          | true =>
              simp only [if_true] at h
              cases hdecode : decodeReply parse c.request response with
              | none =>
                  simp only [hdecode] at h
                  cases h
                  exact ⟨rfl, rfl, .inl rfl⟩
              | some r =>
                  simp only [hdecode] at h
                  cases h
                  exact ⟨rfl, rfl, .inr ⟨k, response, rest, r, rfl, hrecv, hdecode, rfl⟩⟩

/-! ## Every step keeps replies paired -/

/-- A call that ends has decoded the answer to its request, or returns false. -/
theorem pairInv_finishCall (hparse : ClosesObjects parse) (hinv : PairInv parse s) {c : Call}
    (hcall : s.call = some c) {arrivals : List Nat}
    (h : s.finishCall parse c arrivals = some s') : PairInv parse s' := by
  obtain ⟨hnone, hexchanges, hcase⟩ := finishCall_spec h
  refine ⟨?_, by simp [hnone]⟩
  rcases hcase with hsame | ⟨k, response, rest, r, hk, hrecv, hdecode, hnew⟩
  · exact hinv.paired.mono hsame (fun x hx => hexchanges ▸ hx)
  · intro done hdone
    rw [hnew] at hdone
    rcases List.mem_append.mp hdone with hold | hlast
    · obtain ⟨x, hx, hrest⟩ := hinv.paired done hold
      exact ⟨x, hexchanges ▸ hx, hrest⟩
    · cases List.mem_singleton.mp hlast
      obtain ⟨k', hk', -, hwait⟩ := hinv.awaiting c hcall
      obtain rfl : k = k' := Option.some.inj (hk.symm.trans hk')
      rcases hwait with ⟨-, -, hfrom, -⟩ | ⟨-, text, hshort, hfrom, hmem⟩
      · -- Nothing has come back, so nothing can have been received.
        rw [hfrom] at hrecv
        obtain ⟨header, s₁, -, hheader, hne, -⟩ := recvMessage_true hrecv
        have hempty := List.prefix_nil.mp (recv_spec hheader).1
        exact absurd hempty hne
      · rw [hfrom] at hrecv
        exact ⟨_, hexchanges ▸ hmem, ⟨rfl, rfl⟩, rfl,
          decodeReply_of_frame hparse hshort hrecv hdecode⟩

/-- An answer of the peer, which is short if it goes to a Raft request. -/
theorem pairInv_answerWith (hinv : PairInv parse s) {fd : Nat} {raft : Bool} {text : List UInt8}
    (hshort : raft = true → Short text) (h : s.answerWith fd raft text = some s') :
    PairInv parse s' := by
  obtain ⟨k, msg, rest, -, -, -, hs'⟩ := answerWith_spec h
  have hcall : s'.call = s.call := by rw [hs']
  have hreturned : s'.returned = s.returned := by rw [hs']
  have hexchanges : ∀ x ∈ s.exchanges, x ∈ s'.exchanges := by
    intro x hx
    rw [hs']
    exact List.mem_append_left _ hx
  refine ⟨hinv.paired.mono hreturned hexchanges, ?_⟩
  intro c hc
  exact awaiting_answer (hinv.awaiting c (hcall ▸ hc)) hshort h

/-- A peer that hangs up takes nothing back. -/
theorem awaiting_hangUp {fd : Nat} {k : Socket} {c : Call} (hk : s.sockets fd = some k)
    (h : s.Awaiting D c) :
    Awaiting D
      { s with sockets := update s.sockets fd (some { k with peerOpen := false }) } c := by
  obtain ⟨k', hk', hconn, hcase⟩ := h
  by_cases hfd : c.fd = fd
  · subst hfd
    obtain rfl : k = k' := Option.some.inj (hk.symm.trans hk')
    exact ⟨_, update_self .., hconn, hcase⟩
  · exact ⟨k', (update_of_ne hfd ..).trans hk', hconn, hcase⟩

/-- The step lemma. -/
theorem pairInv_step (hparse : ClosesObjects parse) {e : Event} (hinv : PairInv parse s)
    (hquiet : s.QuietHandout e) (h : s.step parse e = some s') : PairInv parse s' := by
  cases e with
  | start peerId request created headerRoom bodyRoom =>
      cases hcall : s.call with
      | some c => simp [step, hcall] at h
      | none =>
          simp only [step, hcall] at h
          obtain ⟨hexchanges, hreturned, hwait⟩ := startCall_spec hcall hquiet h
          exact ⟨hinv.paired.mono hreturned (fun x hx => hexchanges ▸ hx), hwait⟩
  | finish arrivals =>
      cases hcall : s.call with
      | none => simp [step, hcall] at h
      | some c =>
          simp only [step, hcall] at h
          exact pairInv_finishCall hparse hinv hcall h
  | answer fd reply =>
      simp only [step] at h
      split_ifs at h with hfits
      exact pairInv_answerWith hinv (fun _ => short_replyText reply hfits) h
  | answerOther fd text => exact pairInv_answerWith hinv (by simp) h
  | hangUp fd =>
      simp only [step] at h
      split at h
      · rename_i k hk
        cases h
        exact ⟨hinv.paired.mono rfl (fun _ hx => hx),
          fun c hc => awaiting_hangUp hk (hinv.awaiting c hc)⟩
      · cases h

/-- **Replies are paired with their requests** in every run in which `getConnection`
only hands out connections on which nothing is left over. -/
theorem replies_paired (parse : List UInt8 → Option (Json D)) (hparse : ClosesObjects parse)
    (es : List Event) (s : Net) (hquiet : Meets (step parse) QuietHandout init es)
    (hrun : run (step parse) init es = some s) : s.Paired parse :=
  (run_invariant (PairInv parse) (fun _ _ _ => pairInv_step hparse) (pairInv_init parse) hquiet
    hrun).paired

/-! ## Two calls to one peer -/

instance : Double Empty where
  toUInt64 := Empty.elim
  toInt := Empty.elim
  dump := Empty.elim

/-- The reply to a request for a vote in term 1, and the same as JSON. -/
def granted : Reply :=
  .node (.vote ⟨1, true⟩)

def grantedJson : Json Empty :=
  .ofMembers [("term", .unsigned 1), ("voteGranted", .boolean true)]

/-- A parser that reads this one text. -/
def parseGranted (text : List UInt8) : Option (Json Empty) :=
  if text = grantedJson.dump then some grantedJson else none

theorem closesObjects_parseGranted : ClosesObjects parseGranted := by
  intro text members h
  unfold parseGranted at h
  split_ifs at h with htext
  rw [htext]
  decide

/-- A request for a vote in the given term. -/
def voteIn (term : Nat) : Request :=
  .vote ⟨term, "n1", 0, 0⟩

/-- The vote of term 1 is received in time; the connection is used again. -/
def inTime : List Event :=
  [.start "n2" (voteIn 1) (some 3) 4 1000, .answer 3 granted, .finish [],
    .start "n2" (voteIn 2) none 4 1000]

theorem paired_in_time :
    ∃ s, run (step parseGranted) init inTime = some s ∧
      (s.returned.map fun r => r.response) = [.vote ⟨1, true⟩] ∧ s.Paired parseGranted := by
  obtain ⟨s, hrun, hreturned⟩ := exists_run_of_check (step parseGranted) init inTime
    (fun t => (t.returned.map fun r => r.response) = [.vote ⟨1, true⟩])
    (by decide)
  exact ⟨s, hrun, hreturned,
    replies_paired parseGranted closesObjects_parseGranted inTime s (by decide) hrun⟩

/-- The call for term 1 would block and gives up; the answer comes when the
connection is back in the pool, and the call for term 2 takes it. -/
def tooLate : List Event :=
  [.start "n2" (voteIn 1) (some 3) 4 1000, .finish [0], .answer 3 granted,
    .start "n2" (voteIn 2) none 4 1000, .finish []]

theorem old_reply_taken_for_new :
    ∃ s, run (step parseGranted) init tooLate = some s ∧
      (s.returned.map fun r => (r.call.request, r.response)) =
        [(voteIn 2, .vote ⟨1, true⟩)] ∧
      ¬ s.Paired parseGranted := by
  obtain ⟨s, hrun, hreturned, hexchanges⟩ := exists_run_of_check (step parseGranted) init
    tooLate
    (fun t => (t.returned.map fun r => (r.call.request, r.response)) =
        [(voteIn 2, .vote ⟨1, true⟩)] ∧
      t.exchanges.all fun x => x.request ≠ requestText Empty (voteIn 2)) (by decide)
  refine ⟨s, hrun, hreturned, ?_⟩
  intro hpaired
  cases hlist : s.returned with
  | nil => simp [hlist] at hreturned
  | cons r rest =>
      obtain ⟨x, hx, -, hrequest, -⟩ := hpaired r (by rw [hlist]; exact List.mem_cons_self)
      rw [hlist, List.map_cons, List.cons.injEq, Prod.mk.injEq] at hreturned
      rw [hreturned.1.1] at hrequest
      have hall := List.all_eq_true.mp hexchanges x hx
      exact absurd hrequest (by simpa using hall)

end Net
end Raft
end YoloServer
