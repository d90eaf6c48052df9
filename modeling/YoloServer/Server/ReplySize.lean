import YoloServer.Server.Protocol
import YoloServer.Server.StoredIntegers

/-!
# The size of a frame on its way in and out

`recvMessage` refuses messages of more than `maxMessageSize` bytes and `sendMessage` does
not.  A `GET` writes the frame anew: a coordinate that came in as `0` goes out as `0.0`, so
the answer can be longer than the message that stored the frame.

* `length_encode`: the length of the text of a frame, from its fields.
* `reply_fits_iff`: what came in as a message of admissible size is given back as one exactly
  if this length is admissible.
* `growing_frame`: the boxes of a message that fits, which is answered by one that does not.
-/

namespace YoloServer
namespace Server

open Cluster Raft Json Protocol

/-! ## The length of a text -/

section Sizes

variable {F : Type} (D : Type) [Double D] [Single F D]

/-- The number of characters of an integer. -/
def intSize (n : Int) : Nat :=
  (utf8 (toString n)).length

/-- The number of bytes that a box takes: its names and brackets, and its six numbers. -/
def boxSize (b : YoloBox F) : Nat :=
  47 + intSize b.classId +
    (b.coordinates.map fun x => (Double.dump (Single.widen x : D)).length).sum

/-- The number of bytes that a frame takes, with a comma after each box but the last. -/
def frameSize (f : YoloFrame F) : Nat :=
  57 + (quote f.imageId).length + (quote f.imageHash).length + intSize f.width + intSize f.height +
    ((f.boxes.map fun b => boxSize D b + 1).sum - 1)

variable {D}

omit [Single F D] in
theorem length_dumpItems (items : List (Json D)) :
    (dumpItems items).length = (items.map fun item => (dump item).length + 1).sum - 1 := by
  induction items with
  | nil => rfl
  | cons item rest ih =>
      cases rest with
      | nil => simp [dumpItems]
      | cons next rest =>
          have hcomma : (utf8 ",").length = 1 := by decide
          rw [dumpItems, List.length_append, List.length_append, ih, hcomma]
          simp only [List.map_cons, List.sum_cons]
          omega

theorem length_dump_boxJson (b : YoloBox F) : (dump (boxJson D b)).length = boxSize D b := by
  have hnames : (utf8 "\x7b").length = 1 ∧ (utf8 "\x7d").length = 1 ∧ (utf8 ",").length = 1 ∧
      (utf8 ":").length = 1 ∧ (quote "class_id").length = 10 ∧ (quote "confidence").length = 12 ∧
      (quote "h").length = 3 ∧ (quote "w").length = 3 ∧ (quote "x").length = 3 ∧
      (quote "y").length = 3 := by
    decide
  obtain ⟨hopen, hclose, hcomma, hcolon, hclass, hconfidence, hh, hw, hx, hy⟩ := hnames
  simp only [boxJson_eq, dump, dumpMembers, List.length_append, hopen, hclose, hcomma, hcolon,
    hclass, hconfidence, hh, hw, hx, hy, boxSize, intSize, YoloBox.coordinates, List.map_cons,
    List.map_nil, List.sum_cons, List.sum_nil]
  omega

/-- The length of the text of a frame. -/
theorem length_encode (f : YoloFrame F) : (encode D f).length = frameSize D f := by
  have hnames : (utf8 "\x7b").length = 1 ∧ (utf8 "\x7d").length = 1 ∧ (utf8 ",").length = 1 ∧
      (utf8 ":").length = 1 ∧ (utf8 "[").length = 1 ∧ (utf8 "]").length = 1 ∧
      (quote "boxes").length = 7 ∧ (quote "height").length = 8 ∧
      (quote "image_hash").length = 12 ∧ (quote "image_id").length = 10 ∧
      (quote "width").length = 7 := by
    decide
  obtain ⟨hopen, hclose, hcomma, hcolon, hleft, hright, hboxes, hheight, hhash, hid, hwidth⟩ := hnames
  have hitems : ((f.boxes.map (boxJson D)).map fun item => (dump item).length + 1) =
      f.boxes.map fun b => boxSize D b + 1 := by
    rw [List.map_map]
    exact List.map_congr_left fun b _ => congrArg (· + 1) (length_dump_boxJson b)
  simp only [encode_eq_dump, frameJson_eq, dump, dumpMembers, List.length_append, length_dumpItems,
    hitems, hopen, hclose, hcomma, hcolon, hleft, hright, hboxes, hheight, hhash, hid, hwidth,
    frameSize, intSize]
  omega

end Sizes

/-! ## The answer to a `GET` -/

section Answers

variable {D F : Type} [Double D] [Single F D]

/-- One reply, of a size that `recvMessage` accepts. -/
def FitsOut (o : Outcome) : Prop :=
  ∃ text, o.replies = [text] ∧ 1 ≤ text.length ∧ text.length ≤ maxMessageSize

theorem length_encode_pos (f : YoloFrame F) : 1 ≤ (encode D f).length := by
  rw [length_encode, frameSize]
  omega

/-- A stored frame is answered with its text. -/
theorem handleGet_stored [IsFinite D] (hfloat : WidenNarrow F D) (env : Env D) (s : Server)
    (raft : Option RaftNode) (store : Store) {ask : List UInt8} {f : YoloFrame F} {node : NodeInfo}
    (hpick : s.router.pickNode env.network.hash f.imageId = some node) (hself : node.id = s.self.id)
    (hfinite : f.Finite D) (hfits : f.Fits) (hparse : Rereads env.parse (frameJson D f))
    (hkey : utf8 f.imageId ≠ []) (hask : getSecondToken ask = utf8 f.imageId)
    (hvalue : store (utf8 f.imageId) = some (encode D f)) :
    handleGet (env.on store) F s raft ask = .reply raft (encode D f) := by
  have hget : (env.on store).get (getSecondToken ask) = some (encode D f) := by
    rw [hask]
    exact hvalue
  have hpick' : pickNodeFor s.router (env.on store).hash (getSecondToken ask) = some node := by
    rw [hask, pickNodeFor_utf8]
    exact hpick
  have hdecode : decode (env.on store).parse (encode D f) = some f := by
    show decode env.parse (encode D f) = some f
    rw [decode_encode hfloat hfits hparse, if_pos hfinite]
  rw [handleGet_present (hask ▸ hkey) hpick' hself hget hdecode, getText_eq_encode]

/-- **What fits in also fits out**: a frame that the server has stored and is asked for
later is sent in a message of admissible size exactly if the text of the frame is not too
long, and such a message is received. -/
theorem reply_fits_iff [IsFinite D] (hfloat : WidenNarrow F D) (env : Env D) (s : Server)
    (raft : Option RaftNode) (store : Store) {msg ask : List UInt8} {f : YoloFrame F}
    {node : NodeInfo} (hread : readStore env.network F msg = some (some f))
    (hpick : s.router.pickNode env.network.hash f.imageId = some node) (hself : node.id = s.self.id)
    (hfinite : f.Finite D) (hfits : f.Fits) (hparse : Rereads env.parse (frameJson D f))
    (hkey : utf8 f.imageId ≠ []) (hask : getSecondToken ask = utf8 f.imageId)
    (hstore : ∀ put ∈ (handleStore env.network F s env.forwarded msg).puts,
      store (utf8 put.key) = some put.value) :
    (handleStore env.network F s env.forwarded msg).replies = [utf8 "STORE OK"] ∧
      (FitsOut (handleGet (env.on store) F s raft ask) ↔ frameSize D f ≤ maxMessageSize) ∧
      (FitsOut (handleGet (env.on store) F s raft ask) →
        ∀ text ∈ (handleGet (env.on store) F s raft ask).replies, ∀ rest out arrivals,
          Arrived 4 arrivals → Arrived text.length arrivals.tail →
          recvMessage ⟨frame text ++ rest, arrivals⟩ out =
            (true, text, ⟨rest, arrivals.tail.tail⟩)) := by
  have hstored : handleStore env.network F s env.forwarded msg = stored env.network s f :=
    handleStore_own hread hpick hself
  have hvalue : store (utf8 f.imageId) = some (encode D f) := by
    rw [hstored] at hstore
    exact hstore ⟨s, f.imageId, encode D f, env.network.put s f.imageId (encode D f)⟩
      (List.mem_singleton_self _)
  have hreply := handleGet_stored hfloat env s raft store hpick hself hfinite hfits hparse hkey hask
    hvalue
  refine ⟨by rw [hstored]; rfl, ?_, ?_⟩
  · rw [hreply, ← length_encode]
    constructor
    · rintro ⟨text, htext, -, hmax⟩
      rwa [List.singleton_inj.mp htext]
    · intro hmax
      exact ⟨_, rfl, length_encode_pos f, hmax⟩
  · rintro ⟨text, hreplies, hpos, hmax⟩ other hother rest out arrivals hheader hbody
    rw [hreplies, List.mem_singleton] at hother
    subst hother
    exact recvMessage_of_arrived hpos hmax hheader hbody

end Answers

/-- The sample frame comes back in a message that fits. -/
theorem sample_reply_fits :
    FitsOut (handleGet ((keeperEnv sampleFrame).on fun _ => some (encode Halves sampleFrame)) Halves
      loneServer none (utf8 "GET img_0001")) := by
  have hparse : Rereads (keeperEnv sampleFrame).parse (frameJson Halves sampleFrame) := by
    simp [Rereads, keeperEnv, loneEnv, parseTable, encode_eq_dump]
  have hmsg : storedFrame Halves (keeperEnv sampleFrame) (storeMessage Halves sampleFrame) =
      some sampleFrame :=
    storedFrame_storeMessage (fun _ => rfl) (by decide) (by decide) hparse
  have hread := (storedFrame_eq_some_iff.mp hmsg).2
  have hpick : loneServer.router.pickNode (keeperEnv sampleFrame).network.hash sampleFrame.imageId =
      some node1 := rfl
  have hstored : handleStore (keeperEnv sampleFrame).network Halves loneServer
      (keeperEnv sampleFrame).forwarded (storeMessage Halves sampleFrame) =
        stored (keeperEnv sampleFrame).network loneServer sampleFrame :=
    handleStore_own hread hpick rfl
  have hask : getSecondToken (utf8 "GET img_0001") = utf8 sampleFrame.imageId := by decide
  obtain ⟨-, hfits, -⟩ := reply_fits_iff (fun _ => rfl) (keeperEnv sampleFrame) loneServer none
    (fun _ => some (encode Halves sampleFrame)) hread hpick rfl (by decide) (by decide) hparse
    (by decide) hask (by
      rw [hstored]
      intro put hput
      rw [List.mem_singleton.mp hput])
  exact hfits.mpr (by decide)

/-! ## A frame that grows -/

/-- A box with integers for its coordinates. -/
def zeroBoxJson : Json Halves :=
  .object [("class_id", .unsigned 0), ("confidence", .unsigned 0), ("h", .unsigned 0),
    ("w", .unsigned 0), ("x", .unsigned 0), ("y", .unsigned 0)]

/-- A payload with a number of such boxes. -/
def zeroBoxesJson (count : Nat) : Json Halves :=
  .object [("boxes", .array (List.replicate count zeroBoxJson)), ("height", .unsigned 1080),
    ("image_hash", .string ""), ("image_id", .string "img_0001"), ("width", .unsigned 1920)]

/-- The frame in it. -/
def zeroBoxesFrame (count : Nat) : YoloFrame Halves where
  imageId := "img_0001"
  imageHash := ""
  boxes := List.replicate count ⟨0, ⟨0⟩, ⟨0⟩, ⟨0⟩, ⟨0⟩, ⟨0⟩⟩
  width := 1920
  height := 1080

def zeroBoxesMessage (count : Nat) : List UInt8 :=
  utf8 "STORE " ++ dump (zeroBoxesJson count)

/-- A server that reads the payload and the text of the frame. -/
def zeroBoxesEnv (count : Nat) : Env Halves :=
  loneEnv (parseTable [(dump (zeroBoxesJson count), zeroBoxesJson count),
    (encode Halves (zeroBoxesFrame count), reread (frameJson Halves (zeroBoxesFrame count)))])

/-- A box takes 54 bytes in the message. -/
theorem length_zeroBoxesMessage (count : Nat) :
    (zeroBoxesMessage count).length = 83 + (54 * count - 1) := by
  have hbox : (dump zeroBoxJson).length = 53 := by decide
  have hrest : (utf8 "STORE ").length = 6 ∧ (utf8 "\x7b").length = 1 ∧ (utf8 "\x7d").length = 1 ∧
      (utf8 ",").length = 1 ∧ (utf8 ":").length = 1 ∧ (utf8 "[").length = 1 ∧
      (utf8 "]").length = 1 ∧ (quote "boxes").length = 7 ∧ (quote "height").length = 8 ∧
      (quote "image_hash").length = 12 ∧ (quote "image_id").length = 10 ∧
      (quote "width").length = 7 ∧ (quote "img_0001").length = 10 ∧ (quote "").length = 2 ∧
      (utf8 (Nat.repr 1080)).length = 4 ∧ (utf8 (Nat.repr 1920)).length = 4 := by
    decide
  simp only [zeroBoxesMessage, zeroBoxesJson, dump, dumpMembers, List.length_append,
    length_dumpItems, List.map_replicate, List.sum_replicate_nat, hbox, hrest]
  omega

/-- It takes 64 bytes in the answer. -/
theorem frameSize_zeroBoxes (count : Nat) :
    frameSize Halves (zeroBoxesFrame count) = 77 + (64 * count - 1) := by
  have hbox : boxSize Halves (⟨0, ⟨0⟩, ⟨0⟩, ⟨0⟩, ⟨0⟩, ⟨0⟩⟩ : YoloBox Halves) = 63 := by decide
  have hrest : (quote "img_0001").length = 10 ∧ (quote "").length = 2 ∧ intSize 1920 = 4 ∧
      intSize 1080 = 4 := by
    decide
  simp only [frameSize, zeroBoxesFrame, List.map_replicate, List.sum_replicate_nat, hbox, hrest]
  omega

theorem readFrame_zeroBoxes (count : Nat) :
    readFrame (zeroBoxesJson count) = some (zeroBoxesFrame count) := by
  have hbox : BoxIn zeroBoxJson (⟨0, ⟨0⟩, ⟨0⟩, ⟨0⟩, ⟨0⟩, ⟨0⟩⟩ : YoloBox Halves) :=
    readBox_eq_some_iff.mp (by decide)
  have hboxes :
      List.Forall₂ BoxIn (List.replicate count zeroBoxJson) (zeroBoxesFrame count).boxes := by
    rw [zeroBoxesFrame]
    induction count with
    | zero => exact .nil
    | succ count ih => exact .cons hbox ih
  exact readFrame_eq_some_iff.mpr
    ⟨⟨_, rfl, rfl⟩, ⟨_, rfl, rfl⟩, ⟨_, rfl, rfl⟩, ⟨_, rfl, rfl⟩, rfl, hboxes⟩

theorem fits_zeroBoxes (count : Nat) : (zeroBoxesFrame count).Fits := by
  refine ⟨(by decide : IntRange 1920 ∧ IntRange 1080), ?_⟩
  intro box hbox
  rw [List.eq_of_mem_replicate hbox]
  exact (by decide : IntRange 0)

theorem finite_zeroBoxes (count : Nat) : (zeroBoxesFrame count).Finite Halves :=
  fun _ _ _ _ => rfl

theorem readStore_zeroBoxes (count : Nat) :
    readStore (zeroBoxesEnv count).network Halves (zeroBoxesMessage count) =
      some (some (zeroBoxesFrame count)) := by
  have hpayload : ∀ text, afterSpace (utf8 "STORE " ++ text) = some text := fun _ => rfl
  have hparse : (zeroBoxesEnv count).network.parse (dump (zeroBoxesJson count)) =
      some (zeroBoxesJson count) := by
    simp [Env.network, zeroBoxesEnv, loneEnv, parseTable]
  rw [readStore, zeroBoxesMessage, hpayload, Option.map_some, hparse, Option.bind_some,
    readFrame_zeroBoxes]

theorem rereads_zeroBoxes {count : Nat} (h : 0 < count) :
    Rereads (zeroBoxesEnv count).parse (frameJson Halves (zeroBoxesFrame count)) := by
  have hne : (encode Halves (zeroBoxesFrame count) == dump (zeroBoxesJson count)) = false := by
    apply beq_false_of_ne
    intro heq
    have hlen := congrArg List.length heq
    have hmsg := length_zeroBoxesMessage count
    have hword : (utf8 "STORE ").length = 6 := by decide
    rw [length_encode, frameSize_zeroBoxes] at hlen
    rw [zeroBoxesMessage, List.length_append, hword] at hmsg
    omega
  simp [Rereads, zeroBoxesEnv, loneEnv, parseTable, ← encode_eq_dump, List.lookup_cons, hne]

/-- A message with 19000 boxes fits and is stored; the answer does not fit. -/
theorem growing_frame :
    (zeroBoxesMessage 19000).length ≤ maxMessageSize ∧
      (handleStore (zeroBoxesEnv 19000).network Halves loneServer (zeroBoxesEnv 19000).forwarded
        (zeroBoxesMessage 19000)).replies = [utf8 "STORE OK"] ∧
      (zeroBoxesFrame 19000).Finite Halves ∧
      ¬ FitsOut (handleGet
        ((zeroBoxesEnv 19000).on fun _ => some (encode Halves (zeroBoxesFrame 19000))) Halves
        loneServer none (utf8 "GET img_0001")) := by
  have hpick : ∀ count, loneServer.router.pickNode (zeroBoxesEnv count).network.hash
      (zeroBoxesFrame count).imageId = some node1 := fun _ => rfl
  have hask : ∀ count, getSecondToken (utf8 "GET img_0001") = utf8 (zeroBoxesFrame count).imageId :=
    fun _ => (by decide : getSecondToken (utf8 "GET img_0001") = utf8 "img_0001")
  refine ⟨?_, ?_, finite_zeroBoxes 19000, ?_⟩
  · rw [length_zeroBoxesMessage, maxMessageSize]
    omega
  · rw [handleStore_own (readStore_zeroBoxes 19000) (hpick 19000) rfl]
    rfl
  · rw [handleGet_stored (fun _ => rfl) _ _ _ _ (hpick 19000) rfl (finite_zeroBoxes 19000)
      (fits_zeroBoxes 19000) (rereads_zeroBoxes (by decide)) (hask 19000 ▸ by decide) (hask 19000)
      rfl]
    rintro ⟨text, htext, -, hmax⟩
    rw [← List.singleton_inj.mp htext, length_encode, frameSize_zeroBoxes, maxMessageSize] at hmax
    omega

end Server
end YoloServer
