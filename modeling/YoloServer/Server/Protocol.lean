import Mathlib.Data.List.Basic
import Mathlib.Tactic.Ring

/-!
# Message framing (`server/Protocol.cpp`)

A message is sent as a four-byte length in network order followed by its bytes.
The receiver reads both parts with one `recv` each.  The sockets are
non-blocking, so `MSG_WAITALL` has no effect: a `recv` may return fewer bytes than
it was asked for, or none.

* `recvMessage` accepts every `recv` that returns at least one byte.  The missing
  bytes of a header are the zeros `len` was initialised with, and the missing
  bytes of a body are what `resize` left in the buffer.
* `framing_round_trip_iff`: for given message lengths and a given delivery, all
  messages of these lengths arrive unchanged and in order exactly if every `recv`
  up to the last message returns all the bytes it was asked for.
-/

namespace YoloServer
namespace Server
namespace Protocol

/-- `Protocol::MAX_MESSAGE_SIZE`. -/
def maxMessageSize : Nat :=
  1024 * 1024

/-- The bytes of a `uint32_t` in network order. -/
def htonl (n : Nat) : List UInt8 :=
  [UInt8.ofNat (n / 2 ^ 24), UInt8.ofNat (n / 2 ^ 16), UInt8.ofNat (n / 2 ^ 8), UInt8.ofNat n]

/-- The number that four bytes stand for in network order. -/
def ntohl (bytes : List UInt8) : Nat :=
  bytes.foldl (fun acc b => 256 * acc + b.toNat) 0

/-! ## Sending -/

/-- The largest number of bytes a single `send` transfers. -/
def maxTransfer : Nat :=
  0x7ffff000

/-- The bytes that `send(fd, data, …)` writes if there is room for `room` bytes; 0 is
would-block. -/
def send (data : List UInt8) (room : Nat) : List UInt8 :=
  data.take (min room maxTransfer)

/-- `Protocol::sendMessage`, given the room that each of the two calls of `send`
finds: what has been written, and the value returned. -/
def sendMessage (data : List UInt8) (headerRoom bodyRoom : Nat) : List UInt8 × Bool :=
  let header := send (htonl data.length) headerRoom
  if header.length ≠ 4 then
    (header, false)
  else
    let body := send data bodyRoom
    (header ++ body, body.length = data.length)

/-- A message as it stands on the wire. -/
def frame (data : List UInt8) : List UInt8 :=
  htonl data.length ++ data

theorem length_htonl (n : Nat) : (htonl n).length = 4 := rfl

theorem send_full {data : List UInt8} {room : Nat} (h : (send data room).length = data.length) :
    send data room = data ∧ data.length ≤ maxTransfer := by
  rw [send, List.length_take] at h
  exact ⟨List.take_of_length_le (by omega), by omega⟩

/-- A message that `sendMessage` reports as sent has been written completely. -/
theorem sendMessage_true {data written : List UInt8} {headerRoom bodyRoom : Nat}
    (h : sendMessage data headerRoom bodyRoom = (written, true)) :
    written = frame data ∧ data.length ≤ maxTransfer := by
  unfold sendMessage at h
  simp only at h
  split_ifs at h with hheader
  · simp at h
  · simp only [Prod.mk.injEq, decide_eq_true_eq] at h
    obtain ⟨rfl, hbody⟩ := h
    have hlength : (send (htonl data.length) headerRoom).length = (htonl data.length).length :=
      not_not.mp hheader
    obtain ⟨hsent, hmax⟩ := send_full hbody
    exact ⟨by rw [(send_full hlength).1, hsent, frame], hmax⟩

/-! ## Receiving -/

/-- The receiving end of a connection: the bytes that were written and not yet
read, and how many of them have arrived at each of the following calls of `recv`.
A 0 is would-block; after the last item everything has arrived. -/
structure Stream where
  bytes : List UInt8
  arrivals : List Nat
  deriving DecidableEq

/-- `recv(fd, _, len, MSG_WAITALL)` on a non-blocking socket: the bytes read.  None
stands for a result of 0 (end of stream) or -1 (would-block), which the callers do
not tell apart. -/
def Stream.recv (s : Stream) (len : Nat) : List UInt8 × Stream :=
  match s.arrivals with
  | [] => (s.bytes.take len, ⟨s.bytes.drop len, []⟩)
  | arrived :: rest => (s.bytes.take (min arrived len), ⟨s.bytes.drop (min arrived len), rest⟩)

/-- `out.resize(len)`: keep what there is, and fill up with zeros. -/
def resize (out : List UInt8) (len : Nat) : List UInt8 :=
  out.take len ++ List.replicate (len - out.length) 0

/-- The length announced by the header bytes that were read. -/
def announced (header : List UInt8) : Nat :=
  ntohl (header ++ List.replicate (4 - header.length) 0)

/-- `Protocol::recvMessage`: the value returned, the buffer and the stream after
the call. -/
def recvMessage (s : Stream) (out : List UInt8) : Bool × List UInt8 × Stream :=
  let (header, s₁) := s.recv 4
  if header = [] then
    (false, out, s₁)
  else if announced header = 0 ∨ maxMessageSize < announced header then
    (false, out, s₁)
  else
    -- A header of fewer than four bytes has come as far as this.
    let buffer := resize out (announced header)
    let (body, s₂) := s₁.recv (announced header)
    if body = [] then
      (false, buffer, s₂)
    else
      -- A short body leaves the rest of the buffer as `resize` made it.
      (true, body ++ buffer.drop body.length, s₂)

/-- The results of `count` calls of `recvMessage` with one buffer, as in
`Connection::handle`; `none` is a call that returned false. -/
def receive : Nat → Stream → List UInt8 → List (Option (List UInt8))
  | 0, _, _ => []
  | count + 1, s, out =>
      match recvMessage s out with
      | (true, out', s') => some out' :: receive count s' out'
      | (false, out', s') => none :: receive count s' out'

/-- A `recv` returns an initial part of what was written. -/
theorem recv_spec {s s' : Stream} {asked : Nat} {part : List UInt8}
    (h : s.recv asked = (part, s')) : part <+: s.bytes ∧ part.length ≤ asked := by
  unfold Stream.recv at h
  split at h
  · simp only [Prod.mk.injEq] at h
    obtain ⟨rfl, -⟩ := h
    exact ⟨List.take_prefix _ _, List.length_take_le _ _⟩
  · simp only [Prod.mk.injEq] at h
    obtain ⟨rfl, -⟩ := h
    refine ⟨List.take_prefix _ _, ?_⟩
    rw [List.length_take]
    omega

theorem length_resize (out : List UInt8) (len : Nat) : (resize out len).length = len := by
  simp only [resize, List.length_append, List.length_take, List.length_replicate]
  omega

/-- When `recvMessage` returns true. -/
theorem recvMessage_true {s s' : Stream} {out msg : List UInt8}
    (h : recvMessage s out = (true, msg, s')) :
    ∃ header s₁ body, s.recv 4 = (header, s₁) ∧ header ≠ [] ∧
      (1 ≤ announced header ∧ announced header ≤ maxMessageSize) ∧
      s₁.recv (announced header) = (body, s') ∧ body ≠ [] ∧
      msg = body ++ (resize out (announced header)).drop body.length ∧
      msg.length = announced header := by
  unfold recvMessage at h
  cases hheader : s.recv 4 with
  | mk header s₁ =>
      simp only [hheader] at h
      split_ifs at h with hempty hsize hnone
      · simp at h
      · simp at h
      · simp at h
      · simp only [Prod.mk.injEq, true_and] at h
        obtain ⟨rfl, rfl⟩ := h
        refine ⟨header, s₁, _, rfl, hempty, by omega, rfl, hnone, rfl, ?_⟩
        have hle : (s₁.recv (announced header)).1.length ≤ announced header :=
          (recv_spec rfl).2
        simp only [List.length_append, List.length_drop, length_resize]
        omega

/-! ## Headers -/

theorem announced_htonl {n : Nat} (h : n < 2 ^ 32) : announced (htonl n) = n := by
  simp only [announced, htonl, ntohl, List.length_cons, List.length_nil, Nat.reduceAdd,
    Nat.sub_self, List.replicate_zero, List.append_nil, List.foldl_cons, List.foldl_nil,
    UInt8.toNat_ofNat']
  omega

/-- A header that was cut off and still announces the right length has lost zeros
only. -/
theorem cut_header_zero {n c : Nat} (hpos : 0 < c) (hc : c < 4)
    (hsame : announced ((htonl n).take c) = n) : (htonl n)[c]? = some 0 := by
  have hzero : ∀ m, m % 256 = 0 → UInt8.ofNat m = 0 := by
    intro m hm
    rw [← UInt8.toNat_inj, UInt8.toNat_ofNat', hm]
    rfl
  -- The number read has zeros for what is missing, so these bytes of `n` are 0.
  have hcases : c = 1 ∨ c = 2 ∨ c = 3 := by omega
  simp only [announced, htonl, ntohl] at hsame
  rcases hcases with rfl | rfl | rfl <;>
    simp only [List.take_succ_cons, List.take_zero, List.length_cons, List.length_nil,
      List.replicate, List.cons_append, List.nil_append, List.foldl_cons, List.foldl_nil,
      UInt8.toNat_ofNat', UInt8.toNat_zero, Nat.reduceAdd, Nat.reduceSub] at hsame
  · simp only [htonl, List.getElem?_cons_succ, List.getElem?_cons_zero, Option.some.injEq]
    exact hzero _ (by omega)
  · simp only [htonl, List.getElem?_cons_succ, List.getElem?_cons_zero, Option.some.injEq]
    exact hzero _ (by omega)
  · simp only [htonl, List.getElem?_cons_succ, List.getElem?_cons_zero, Option.some.injEq]
    exact hzero _ (by omega)

/-- A header of a small length that was cut off announces nothing. -/
theorem announced_cut {n c : Nat} (hn : n < 256) (hc : c < 4) :
    announced ((htonl n).take c) = 0 := by
  have hcases : c = 0 ∨ c = 1 ∨ c = 2 ∨ c = 3 := by omega
  have hzero : ∀ k, 256 ≤ k → UInt8.ofNat (n / k) = 0 := by
    intro k hk
    rw [Nat.div_eq_of_lt (by omega)]
    rfl
  simp only [htonl, hzero (2 ^ 24) (by decide), hzero (2 ^ 16) (by decide),
    hzero (2 ^ 8) (by decide)]
  rcases hcases with rfl | rfl | rfl | rfl <;> rfl

/-! ## Complete reads -/

/-- All `asked` bytes have arrived when the next `recv` is called. -/
def Arrived (asked : Nat) (arrivals : List Nat) : Prop :=
  ∀ arrived ∈ arrivals.head?, asked ≤ arrived

instance (asked : Nat) (arrivals : List Nat) : Decidable (Arrived asked arrivals) :=
  inferInstanceAs (Decidable (∀ _ ∈ _, _))

theorem recv_of_arrived {asked : Nat} {arrivals : List Nat} (h : Arrived asked arrivals)
    {part rest : List UInt8} (hlen : part.length = asked) :
    (⟨part ++ rest, arrivals⟩ : Stream).recv asked = (part, ⟨rest, arrivals.tail⟩) := by
  cases arrivals with
  | nil => simp [Stream.recv, ← hlen]
  | cons arrived later =>
      have hmin : min arrived asked = asked := Nat.min_eq_right (h arrived rfl)
      simp only [Stream.recv, hmin, List.tail_cons]
      simp [← hlen]

/-- A `recv` that comes too early. -/
theorem recv_of_not_arrived {asked : Nat} {arrivals : List Nat} (h : ¬ Arrived asked arrivals)
    (bytes : List UInt8) :
    ∃ arrived, arrived < asked ∧
      (⟨bytes, arrivals⟩ : Stream).recv asked =
        (bytes.take arrived, ⟨bytes.drop arrived, arrivals.tail⟩) := by
  cases arrivals with
  | nil => exact absurd (by simp [Arrived]) h
  | cons arrived later =>
      have hlt : arrived < asked := by simpa [Arrived] using h
      refine ⟨arrived, hlt, ?_⟩
      simp only [Stream.recv, Nat.min_eq_left (Nat.le_of_lt hlt), List.tail_cons]

/-- A frame of which header and body have arrived in time is received as it was
sent. -/
theorem recvMessage_of_arrived {msg rest out : List UInt8} {arrivals : List Nat}
    (hpos : 1 ≤ msg.length) (hmax : msg.length ≤ maxMessageSize)
    (hheader : Arrived 4 arrivals) (hbody : Arrived msg.length arrivals.tail) :
    recvMessage ⟨frame msg ++ rest, arrivals⟩ out =
      (true, msg, ⟨rest, arrivals.tail.tail⟩) := by
  have hsize : announced (htonl msg.length) = msg.length := by
    apply announced_htonl
    simp only [maxMessageSize] at hmax
    omega
  have hne : msg ≠ [] := List.ne_nil_of_length_pos hpos
  have hdrop : (resize out msg.length).drop msg.length = [] := by
    exact List.drop_eq_nil_of_le (Nat.le_of_eq (length_resize out msg.length))
  simp only [recvMessage, frame, List.append_assoc]
  rw [recv_of_arrived hheader (length_htonl _)]
  simp only [hsize]
  rw [recv_of_arrived hbody rfl]
  simp only [hdrop, List.append_nil]
  rw [if_neg (by simp [htonl]), if_neg (by omega), if_neg hne]

/-! ## The round trip -/

/-- What a sender writes for a list of messages. -/
def written (msgs : List (List UInt8)) : List UInt8 :=
  (msgs.map frame).flatten

/-- The calls of `recvMessage` return the messages in order and byte for byte, and
false from then on. -/
def RoundTrip (msgs : List (List UInt8)) (arrivals : List Nat) : Prop :=
  ∀ extra, receive (msgs.length + extra) ⟨written msgs, arrivals⟩ [] =
    msgs.map some ++ List.replicate extra none

/-- Every `recv` for messages of the given lengths finds all the bytes it asks for:
four for each header, and the length of the message for each body. -/
def FullReads : List Nat → List Nat → Prop
  | [], _ => True
  | len :: lens, arrivals =>
      Arrived 4 arrivals ∧ Arrived len arrivals.tail ∧ FullReads lens arrivals.tail.tail

instance FullReads.decidable : ∀ lens arrivals, Decidable (FullReads lens arrivals)
  | [], _ => inferInstanceAs (Decidable True)
  | _ :: lens, arrivals =>
      have := FullReads.decidable lens arrivals.tail.tail
      inferInstanceAs (Decidable (_ ∧ _ ∧ _))

/-- After the last byte every call returns false. -/
theorem receive_of_end (count : Nat) (arrivals : List Nat) (out : List UInt8) :
    receive count ⟨[], arrivals⟩ out = List.replicate count none := by
  induction count generalizing arrivals with
  | zero => rfl
  | succ count ih =>
      have hcall : recvMessage ⟨[], arrivals⟩ out = (false, out, ⟨[], arrivals.tail⟩) := by
        cases arrivals <;> simp [recvMessage, Stream.recv]
      simp only [receive, hcall, ih, List.replicate_succ]

theorem receive_of_fullReads {msgs : List (List UInt8)} {arrivals : List Nat}
    (hlens : ∀ msg ∈ msgs, 1 ≤ msg.length ∧ msg.length ≤ maxMessageSize)
    (hfull : FullReads (msgs.map List.length) arrivals) (extra : Nat) (out : List UInt8) :
    receive (msgs.length + extra) ⟨written msgs, arrivals⟩ out =
      msgs.map some ++ List.replicate extra none := by
  induction msgs generalizing arrivals out with
  | nil =>
      rw [List.length_nil, Nat.zero_add]
      exact receive_of_end extra arrivals out
  | cons msg msgs ih =>
      obtain ⟨hheader, hbody, hrest⟩ := hfull
      obtain ⟨hpos, hmax⟩ := hlens msg List.mem_cons_self
      have hwritten : written (msg :: msgs) = frame msg ++ written msgs := rfl
      rw [hwritten, List.length_cons, Nat.add_right_comm, receive,
        recvMessage_of_arrived hpos hmax hheader hbody]
      simp only [List.map_cons, List.cons_append, List.cons.injEq, true_and]
      exact ih (fun m hm => hlens m (List.mem_cons_of_mem _ hm)) hrest msg

/-! ## Incomplete reads are noticed by some messages -/

/-- Messages of the given lengths, filled with 1 and 2 in turn. -/
def fillers : List Nat → UInt8 → List (List UInt8)
  | [], _ => []
  | len :: lens, b => List.replicate len b :: fillers lens (3 - b)

theorem length_fillers (lens : List Nat) (b : UInt8) :
    (fillers lens b).map List.length = lens := by
  induction lens generalizing b with
  | nil => rfl
  | cons len lens ih => simp [fillers, ih]

/-- A header that was not read completely is noticed by a message of non-zero
bytes: either the length is wrong or the body starts with a zero of the header. -/
theorem header_arrived {len : Nat} {b : UInt8} {rest out : List UInt8}
    {arrivals : List Nat} {s' : Stream} (hpos : 1 ≤ len) (hb : b ≠ 0)
    (h : recvMessage ⟨frame (List.replicate len b) ++ rest, arrivals⟩ out =
      (true, List.replicate len b, s')) : Arrived 4 arrivals := by
  obtain ⟨header, s₁, body, hheader, hheaderNe, -, hbody, hbodyNe, hmsg, hlength⟩ :=
    recvMessage_true h
  simp only [frame, List.length_replicate, List.append_assoc] at hheader hlength
  by_contra hlate
  obtain ⟨arrived, hlt, hrecv⟩ := recv_of_not_arrived hlate
    (htonl len ++ (List.replicate len b ++ rest))
  rw [hrecv, Prod.mk.injEq] at hheader
  obtain ⟨rfl, rfl⟩ := hheader
  rw [List.take_append_of_le_length (by rw [length_htonl]; omega)] at hheaderNe hlength
  have hpositive : 0 < arrived := by
    by_contra hnone
    obtain rfl : arrived = 0 := by omega
    exact hheaderNe rfl
  have hzero := cut_header_zero hpositive hlt hlength.symm
  -- The first byte of the body.
  obtain ⟨tail, htail⟩ := (recv_spec hbody).1
  have hfirst : body[0]? = some 0 := by
    have hget := congrArg (fun l => l[0]?) htail
    simp only [List.getElem?_drop, Nat.add_zero] at hget
    rw [List.getElem?_append_left (List.length_pos_of_ne_nil hbodyNe),
      List.getElem?_append_left (by rw [length_htonl]; omega), hzero] at hget
    exact hget
  have hget : (List.replicate len b)[0]? = _ := congrArg (fun l => l[0]?) hmsg
  rw [List.getElem?_append_left (List.length_pos_of_ne_nil hbodyNe), hfirst,
    List.getElem?_replicate, if_pos (by omega), Option.some.injEq] at hget
  exact hb hget

/-- A body that was not read completely is noticed by a message of bytes that the
buffer does not hold. -/
theorem body_arrived {len : Nat} {b : UInt8} {rest out : List UInt8}
    {arrivals : List Nat} {s' : Stream} (hb : b ≠ 0) (hout : b ∉ out) (hheader : Arrived 4 arrivals)
    (h : recvMessage ⟨frame (List.replicate len b) ++ rest, arrivals⟩ out =
      (true, List.replicate len b, s')) : Arrived len arrivals.tail := by
  obtain ⟨header, s₁, body, hrecv, -, -, hbody, -, hmsg, hlength⟩ := recvMessage_true h
  simp only [frame, List.length_replicate, List.append_assoc] at hrecv hlength
  rw [recv_of_arrived hheader (length_htonl _), Prod.mk.injEq] at hrecv
  obtain ⟨rfl, rfl⟩ := hrecv
  rw [← hlength] at hbody hmsg
  by_contra hlate
  obtain ⟨arrived, hlt, hrecv⟩ := recv_of_not_arrived hlate (List.replicate len b ++ rest)
  rw [hrecv, Prod.mk.injEq] at hbody
  obtain ⟨rfl, -⟩ := hbody
  have htake : ((List.replicate len b ++ rest).take arrived).length = arrived := by
    simp only [List.length_take, List.length_append, List.length_replicate]
    omega
  -- The byte at position `arrived` is one that the buffer held before.
  have hget := congrArg (fun l => l[arrived]?) hmsg
  simp only [htake] at hget
  rw [List.getElem?_append_right (by omega), htake, Nat.sub_self, List.getElem?_drop,
    List.getElem?_replicate, if_pos hlt, Nat.add_zero] at hget
  rcases List.mem_append.mp (List.mem_of_getElem? hget.symm) with hold | hzero
  · exact hout (List.mem_of_mem_take hold)
  · exact hb (List.eq_of_mem_replicate hzero)

theorem fullReads_of_receive {lens : List Nat} {b : UInt8} {arrivals : List Nat}
    {out : List UInt8} (hlens : ∀ len ∈ lens, 1 ≤ len ∧ len ≤ maxMessageSize)
    (hb : b = 1 ∨ b = 2) (hout : b ∉ out)
    (h : receive lens.length ⟨written (fillers lens b), arrivals⟩ out =
      (fillers lens b).map some) : FullReads lens arrivals := by
  induction lens generalizing b arrivals out with
  | nil => trivial
  | cons len lens ih =>
      obtain ⟨hpos, hmax⟩ := hlens len List.mem_cons_self
      have hwritten : written (fillers (len :: lens) b) =
          frame (List.replicate len b) ++ written (fillers lens (3 - b)) := rfl
      have hne : b ≠ 0 := by
        rcases hb with rfl | rfl <;> decide
      rw [hwritten, List.length_cons, receive] at h
      cases hcall : recvMessage
          ⟨frame (List.replicate len b) ++ written (fillers lens (3 - b)), arrivals⟩ out with
      | mk ok rest =>
          obtain ⟨msg, s'⟩ := rest
          cases ok with
          | false => simp [hcall, fillers] at h
          | true =>
              simp only [hcall, fillers, List.map_cons, List.cons.injEq, Option.some.injEq] at h
              obtain ⟨rfl, hrest⟩ := h
              have hheader := header_arrived hpos hne hcall
              have hbody := body_arrived hne hout hheader hcall
              have hfull : recvMessage
                  ⟨frame (List.replicate len b) ++ written (fillers lens (3 - b)), arrivals⟩ out =
                    _ :=
                recvMessage_of_arrived (by simpa using hpos) (by simpa using hmax) hheader
                  (by simpa using hbody)
              rw [hcall, Prod.mk.injEq, Prod.mk.injEq] at hfull
              obtain ⟨-, -, rfl⟩ := hfull
              -- The next message is filled with the byte that the buffer does not hold.
              refine ⟨hheader, hbody, ih (fun l hl => hlens l (List.mem_cons_of_mem _ hl)) ?_ ?_
                hrest⟩
              · rcases hb with rfl | rfl <;> decide
              · intro hmem
                have heq := List.eq_of_mem_replicate hmem
                rcases hb with rfl | rfl <;> exact absurd heq (by decide)

/-- **Framing.**  All messages of the given lengths make the round trip with the
given delivery exactly if every read is complete. -/
theorem framing_round_trip_iff (lens arrivals : List Nat)
    (hlens : ∀ len ∈ lens, 1 ≤ len ∧ len ≤ maxMessageSize) :
    (∀ msgs : List (List UInt8), msgs.map List.length = lens → RoundTrip msgs arrivals) ↔
      FullReads lens arrivals := by
  constructor
  · intro hall
    have htrip := hall (fillers lens 1) (length_fillers lens 1) 0
    have hcount : (fillers lens 1).length = lens.length := by
      rw [← List.length_map (f := List.length), length_fillers]
    rw [hcount, Nat.add_zero, List.replicate_zero, List.append_nil] at htrip
    exact fullReads_of_receive hlens (.inl rfl) (by simp) htrip
  · rintro hfull msgs rfl extra
    exact receive_of_fullReads (fun msg hmsg => hlens _ (List.mem_map_of_mem hmsg)) hfull extra []

/-- Two messages whose parts arrive just in time. -/
theorem round_trip_in_time : RoundTrip [[1, 2, 3], [4, 5]] [4, 3, 9, 2] :=
  (framing_round_trip_iff [3, 2] [4, 3, 9, 2] (by decide)).mpr (by decide) _ rfl

/-- Two of the three bytes of a body have arrived when it is read: the message is
returned with a zero in the place of the third. -/
theorem partial_body_accepted :
    receive 1 ⟨written [[1, 2, 3]], [4, 2]⟩ [] = [some [1, 2, 0]] ∧
      ¬ RoundTrip [[1, 2, 3]] [4, 2] := by
  refine ⟨by decide, ?_⟩
  intro htrip
  exact absurd (htrip 0) (by decide)

end Protocol
end Server
end YoloServer
