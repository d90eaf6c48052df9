import YoloServer.Server.GetReply

/-!
# The integers of a stored frame

`get<int>()` converts without a check, so a number of the payload that is no `int` is
stored modulo `2^32`.

* `readFrame_eq_some_iff`: which payloads `handleStore` reads, and as which frame.
* `integers_survive_iff`: the integers of a payload are stored as they are, or the payload
  is refused, exactly if the payload is refused for another reason or all its integers are
  of type `int` and its coordinates finite.
-/

namespace YoloServer
namespace Server

open Cluster Raft Json

/-! ## What a payload holds -/

section Contents

variable {D : Type} [Double D]

/-- The boxes of a payload; `[]` if there is no such member. -/
def boxValues (j : Json D) : List (Json D) :=
  ((j.at? "boxes").map elements).getD []

/-- The value holds a box. -/
structure BoxIn {F : Type} [Single F D] (j : Json D) (box : YoloBox F) : Prop where
  classId : Has getInt j "class_id" box.classId
  x : Has (getFloat F) j "x" box.x
  y : Has (getFloat F) j "y" box.y
  w : Has (getFloat F) j "w" box.w
  h : Has (getFloat F) j "h" box.h
  confidence : Has (getFloat F) j "confidence" box.confidence

/-- The payload holds a frame. -/
structure FrameIn {F : Type} [Single F D] (j : Json D) (frame : YoloFrame F) : Prop where
  imageId : Has getString j "image_id" frame.imageId
  width : Has getInt j "width" frame.width
  height : Has getInt j "height" frame.height
  imageHash : Has getString j "image_hash" frame.imageHash
  hasBoxes : (j.at? "boxes").isSome
  boxes : List.Forall₂ BoxIn (boxValues j) frame.boxes

variable {F : Type} [Single F D] {j : Json D}

theorem readBox_eq_some_iff {box : YoloBox F} : readBox j = some box ↔ BoxIn j box := by
  have hbind : readBox j =
      ((j.at? "class_id").bind getInt).bind fun classId =>
        ((j.at? "x").bind (getFloat F)).bind fun x =>
          ((j.at? "y").bind (getFloat F)).bind fun y =>
            ((j.at? "w").bind (getFloat F)).bind fun w =>
              ((j.at? "h").bind (getFloat F)).bind fun h =>
                ((j.at? "confidence").bind (getFloat F)).bind fun confidence =>
                  some { classId, x, y, w, h, confidence } := by
    simp only [readBox, Option.bind_eq_bind, Option.bind_assoc]
    rfl
  rw [hbind]
  simp only [Option.bind_eq_some_iff]
  constructor
  · rintro ⟨classId, hclass, x, hx, y, hy, w, hw, h, hh, confidence, hconfidence, hbox⟩
    cases hbox
    exact ⟨hclass, hx, hy, hw, hh, hconfidence⟩
  · rintro ⟨hclass, hx, hy, hw, hh, hconfidence⟩
    exact ⟨_, hclass, _, hx, _, hy, _, hw, _, hh, _, hconfidence, rfl⟩

theorem mapM_readBox_eq_some_iff {values : List (Json D)} {boxes : List (YoloBox F)} :
    values.mapM readBox = some boxes ↔ List.Forall₂ BoxIn values boxes := by
  induction values generalizing boxes with
  | nil => simp [eq_comm]
  | cons value rest ih =>
      rw [List.mapM_cons]
      simp only [Option.bind_eq_bind, Option.bind_eq_some_iff, readBox_eq_some_iff, ih]
      constructor
      · rintro ⟨box, hbox, more, hmore, hboxes⟩
        cases hboxes
        exact .cons hbox hmore
      · rintro (_ | ⟨hbox, hmore⟩)
        exact ⟨_, hbox, _, hmore, rfl⟩

/-- Which payloads can be read, and as what. -/
theorem readFrame_eq_some_iff {frame : YoloFrame F} :
    readFrame j = some frame ↔ FrameIn j frame := by
  have hbind : readFrame j =
      ((j.at? "image_id").bind getString).bind fun imageId =>
        ((j.at? "width").bind getInt).bind fun width =>
          ((j.at? "height").bind getInt).bind fun height =>
            ((j.at? "image_hash").bind getString).bind fun imageHash =>
              ((j.at? "boxes").bind fun value =>
                  value.elements.mapM (readBox (F := F))).bind fun boxes =>
                some { imageId, imageHash, boxes, width, height } := by
    simp only [readFrame, Option.bind_eq_bind, Option.bind_assoc]
    rfl
  rw [hbind]
  simp only [Option.bind_eq_some_iff, mapM_readBox_eq_some_iff]
  constructor
  · rintro ⟨imageId, hid, width, hwidth, height, hheight, imageHash, hhash, boxes,
      ⟨value, hvalue, hboxes⟩, hframe⟩
    cases hframe
    refine ⟨hid, hwidth, hheight, hhash, by rw [hvalue]; rfl, ?_⟩
    rw [boxValues, hvalue]
    exact hboxes
  · rintro ⟨hid, hwidth, hheight, hhash, hsome, hboxes⟩
    obtain ⟨value, hvalue⟩ := Option.isSome_iff_exists.mp hsome
    rw [boxValues, hvalue] at hboxes
    exact ⟨_, hid, _, hwidth, _, hheight, _, hhash, _, ⟨value, hvalue, hboxes⟩, rfl⟩

/-- The members other than the integers are there and have the right types. -/
structure Readable (F : Type) [Single F D] (j : Json D) : Prop where
  imageId : ∃ text, Has getString j "image_id" text
  imageHash : ∃ text, Has getString j "image_hash" text
  hasBoxes : (j.at? "boxes").isSome
  coordinates : ∀ value ∈ boxValues j, ∀ key ∈ ["x", "y", "w", "h", "confidence"],
    ∃ x, Has (getFloat F) value key x

/-- The coordinates are finite as `float`. -/
def FiniteCoordinates (F : Type) [Single F D] [IsFinite D] (j : Json D) : Prop :=
  ∀ value ∈ boxValues j, ∀ key ∈ ["x", "y", "w", "h", "confidence"],
    ∀ x, Has (getFloat F) value key x → IsFinite.isFinite (Single.widen x : D) = true

/-- The JSON integer `n`, as the parser keeps it: a number that does not fit in 64 bits
becomes a `double`. -/
inductive IsInteger : Json D → Int → Prop
  | unsigned (n : Nat) (h : n < 2 ^ 64) : IsInteger (.unsigned n) n
  | signed (n : Int) (h : -2 ^ 63 ≤ n ∧ n ≤ 0) : IsInteger (.integer n) n
  | beyond (d : D) (n : Int) (h : n < -2 ^ 63 ∨ 2 ^ 64 ≤ n) : IsInteger (.float d) n

/-- The value is an object with this integer. -/
def HasInteger (j : Json D) (key : String) (n : Int) : Prop :=
  ∃ value, j.at? key = some value ∧ IsInteger value n

/-- The integers of a payload. -/
structure IntegersIn (j : Json D) (width height : Int) (classIds : List Int) : Prop where
  width : HasInteger j "width" width
  height : HasInteger j "height" height
  classIds : List.Forall₂ (HasInteger · "class_id") (boxValues j) classIds

omit [Double D] in
theorem Has.unique {α : Type} {get : Json D → Option α} {key : String} {a b : α}
    (ha : Has get j key a) (hb : Has get j key b) : a = b := by
  obtain ⟨value, hvalue, ha⟩ := ha
  obtain ⟨other, hother, hb⟩ := hb
  cases hvalue.symm.trans hother
  exact Option.some.inj (ha.symm.trans hb)

/-- Every integer is converted to something. -/
theorem exists_getInt {value : Json D} {n : Int} (h : IsInteger value n) :
    ∃ m, getInt value = some m := by
  cases h with
  | unsigned => exact ⟨_, rfl⟩
  | signed => exact ⟨_, rfl⟩
  | beyond => exact ⟨_, rfl⟩

/-- An `int` is converted to itself. -/
theorem getInt_of_isInteger {value : Json D} {n : Int} (h : IsInteger value n) (hn : IntRange n) :
    getInt value = some n := by
  cases h with
  | unsigned n _ => rw [getInt, bmod_of_range hn]
  | signed n _ => rw [getInt, bmod_of_range hn]
  | beyond d n hbeyond =>
      unfold IntRange at hn
      omega

theorem has_of_hasInteger {key : String} {n : Int} (h : HasInteger j key n) (hn : IntRange n) :
    Has getInt j key n := by
  obtain ⟨value, hvalue, hint⟩ := h
  exact ⟨value, hvalue, getInt_of_isInteger hint hn⟩

theorem exists_has_of_hasInteger {key : String} {n : Int} (h : HasInteger j key n) :
    ∃ m, Has getInt j key m := by
  obtain ⟨value, hvalue, hint⟩ := h
  obtain ⟨m, hm⟩ := exists_getInt hint
  exact ⟨m, value, hvalue, hm⟩

omit [Double D] in
theorem exists_forall₂ {α β : Type} {R : α → β → Prop} {as : List α} (h : ∀ a ∈ as, ∃ b, R a b) :
    ∃ bs, List.Forall₂ R as bs := by
  induction as with
  | nil => exact ⟨[], .nil⟩
  | cons a as ih =>
      obtain ⟨b, hb⟩ := h a List.mem_cons_self
      obtain ⟨bs, hbs⟩ := ih fun other hother => h other (List.mem_cons_of_mem _ hother)
      exact ⟨b :: bs, .cons hb hbs⟩

theorem exists_of_forall₂ {α β : Type} {R : α → β → Prop} {as : List α} {bs : List β}
    (h : List.Forall₂ R as bs) {a : α} (ha : a ∈ as) : ∃ b ∈ bs, R a b := by
  induction h with
  | nil => cases ha
  | cons hab _ ih =>
      rcases List.mem_cons.mp ha with rfl | ha
      · exact ⟨_, List.mem_cons_self, hab⟩
      · obtain ⟨b, hb, hR⟩ := ih ha
        exact ⟨b, List.mem_cons_of_mem _ hb, hR⟩

/-- The members that the coordinates are read from. -/
theorem BoxIn.coordinates {box : YoloBox F} (h : BoxIn j box) :
    List.Forall₂ (Has (getFloat F) j) ["x", "y", "w", "h", "confidence"] box.coordinates :=
  .cons h.x (.cons h.y (.cons h.w (.cons h.h (.cons h.confidence .nil))))

/-- A payload with its integers holds a frame exactly if it is readable otherwise. -/
theorem exists_frameIn_iff {width height : Int} {classIds : List Int}
    (hints : IntegersIn j width height classIds) :
    (∃ frame : YoloFrame F, FrameIn j frame) ↔ Readable F j := by
  constructor
  · rintro ⟨frame, hframe⟩
    refine ⟨⟨_, hframe.imageId⟩, ⟨_, hframe.imageHash⟩, hframe.hasBoxes, ?_⟩
    intro value hvalue key hkey
    obtain ⟨box, -, hbox⟩ := exists_of_forall₂ hframe.boxes hvalue
    obtain ⟨x, -, hx⟩ := exists_of_forall₂ hbox.coordinates hkey
    exact ⟨x, hx⟩
  · intro hreadable
    obtain ⟨imageId, hid⟩ := hreadable.imageId
    obtain ⟨imageHash, hhash⟩ := hreadable.imageHash
    obtain ⟨w, hw⟩ := exists_has_of_hasInteger hints.width
    obtain ⟨h, hh⟩ := exists_has_of_hasInteger hints.height
    have hbox : ∀ value ∈ boxValues j, ∃ box : YoloBox F, BoxIn value box := by
      intro value hvalue
      have hcoordinate := hreadable.coordinates value hvalue
      obtain ⟨n, -, hn⟩ := exists_of_forall₂ hints.classIds hvalue
      obtain ⟨classId, hclass⟩ := exists_has_of_hasInteger hn
      obtain ⟨x, hx⟩ := hcoordinate "x" (by simp)
      obtain ⟨y, hy⟩ := hcoordinate "y" (by simp)
      obtain ⟨w, hw⟩ := hcoordinate "w" (by simp)
      obtain ⟨h, hh⟩ := hcoordinate "h" (by simp)
      obtain ⟨confidence, hconfidence⟩ := hcoordinate "confidence" (by simp)
      exact ⟨⟨classId, x, y, w, h, confidence⟩, hclass, hx, hy, hw, hh, hconfidence⟩
    obtain ⟨boxes, hboxes⟩ := exists_forall₂ hbox
    exact ⟨⟨imageId, imageHash, boxes, w, h⟩, hid, hw, hh, hhash, hreadable.hasBoxes, hboxes⟩

/-- The coordinates of the frame are those of the payload. -/
theorem finite_iff_of_frameIn [IsFinite D] {frame : YoloFrame F} (h : FrameIn j frame) :
    frame.Finite D ↔ FiniteCoordinates F j := by
  have hbox : ∀ {value : Json D} {box : YoloBox F}, BoxIn value box →
      ((∀ x ∈ box.coordinates, IsFinite.isFinite (Single.widen x : D) = true) ↔
        ∀ key ∈ ["x", "y", "w", "h", "confidence"], ∀ x, Has (getFloat F) value key x →
          IsFinite.isFinite (Single.widen x : D) = true) := by
    intro value box hbox
    constructor
    · intro hall key hkey x hx
      obtain ⟨y, hy, hhas⟩ := exists_of_forall₂ hbox.coordinates hkey
      rw [hx.unique hhas]
      exact hall y hy
    · intro hall x hx
      obtain ⟨key, hkey, hhas⟩ := exists_of_forall₂ hbox.coordinates.flip hx
      exact hall key hkey x hhas
  constructor
  · intro hfinite value hvalue
    obtain ⟨box, hmem, hin⟩ := exists_of_forall₂ h.boxes hvalue
    exact (hbox hin).mp (hfinite box hmem)
  · intro hfinite box hmem
    obtain ⟨value, hvalue, hin⟩ := exists_of_forall₂ h.boxes.flip hmem
    exact (hbox hin).mpr (hfinite value hvalue)

theorem classIds_of_boxesIn {values : List (Json D)} {boxes : List (YoloBox F)}
    {classIds : List Int}
    (hboxes : List.Forall₂ BoxIn values boxes)
    (hclass : List.Forall₂ (HasInteger · "class_id") values classIds)
    (hrange : ∀ n ∈ classIds, IntRange n) : boxes.map YoloBox.classId = classIds := by
  induction hboxes generalizing classIds with
  | nil =>
      cases hclass
      rfl
  | cons hbox _ ih =>
      cases hclass with
      | cons hn hrest =>
          obtain ⟨hhead, htail⟩ := List.forall_mem_cons.mp hrange
          rw [List.map_cons, hbox.classId.unique (has_of_hasInteger hn hhead), ih hrest htail]

/-- If the integers are of type `int`, the frame has them. -/
theorem integers_of_frameIn {width height : Int} {classIds : List Int}
    (hints : IntegersIn j width height classIds) {frame : YoloFrame F} (h : FrameIn j frame)
    (hrange : ∀ n ∈ width :: height :: classIds, IntRange n) :
    frame.width = width ∧ frame.height = height ∧ frame.boxes.map YoloBox.classId = classIds := by
  obtain ⟨hwidth, hrange⟩ := List.forall_mem_cons.mp hrange
  obtain ⟨hheight, hrange⟩ := List.forall_mem_cons.mp hrange
  exact ⟨h.width.unique (has_of_hasInteger hints.width hwidth),
    h.height.unique (has_of_hasInteger hints.height hheight),
    classIds_of_boxesIn h.boxes hints.classIds hrange⟩

/-- Then they are values of `int` in the frame. -/
theorem fits_of_frameIn {width height : Int} {classIds : List Int}
    (hints : IntegersIn j width height classIds) {frame : YoloFrame F} (h : FrameIn j frame)
    (hrange : ∀ n ∈ width :: height :: classIds, IntRange n) : frame.Fits := by
  obtain ⟨hwidth, hheight, hclass⟩ := integers_of_frameIn hints h hrange
  refine ⟨⟨?_, ?_⟩, ?_⟩
  · exact hwidth ▸ hrange width (by simp)
  · exact hheight ▸ hrange height (by simp)
  · intro box hbox
    refine hrange _ (List.mem_cons_of_mem _ (List.mem_cons_of_mem _ ?_))
    exact hclass ▸ List.mem_map_of_mem hbox

end Contents

/-! ## What is stored -/

section Stored

variable {D : Type} [Double D] (net : Network D) (F : Type) [Single F D] (s : Server)
  (forward : NodeInfo → ErrorCode × Effect) (msg : List UInt8) (width height : Int)
  (classIds : List Int)

/-- A payload that is acknowledged is stored with its integers; one with an integer that is
no `int` is refused. -/
def IntegersSurvive : Prop :=
  ((handleStore net F s forward msg).replies = [utf8 "STORE OK"] →
      ∃ put, (handleStore net F s forward msg).puts = [put] ∧
        ∃ frame : YoloFrame F, decode net.parse put.value = some frame ∧
          frame.width = width ∧ frame.height = height ∧
          frame.boxes.map YoloBox.classId = classIds) ∧
    (¬ (∀ n ∈ width :: height :: classIds, IntRange n) →
      (∃ text, (handleStore net F s forward msg).replies = [utf8 ("ERROR " ++ text)]) ∧
        (handleStore net F s forward msg).puts = [])

variable {net F s forward msg width height classIds} {payload : List UInt8} {j : Json D}

theorem storeOk_ne_error (text : String) : utf8 "STORE OK" ≠ utf8 ("ERROR " ++ text) := by
  have hstore : (utf8 "STORE OK").head? = some 83 := by decide
  have herror : (utf8 "ERROR ").head? = some 69 := by decide
  intro h
  have hhead := congrArg List.head? h
  rw [utf8_append, List.head?_append, hstore, herror, Option.some_or] at hhead
  exact absurd hhead (by decide)

/-- A payload that cannot be read is refused. -/
theorem integersSurvive_of_none (hread : readStore net F msg = some none) :
    IntegersSurvive net F s forward msg width height classIds := by
  have heq : handleStore net F s forward msg = .reply "ERROR invalid STORE payload" := by
    rw [handleStore, hread]
  refine ⟨?_, fun _ => ⟨⟨"invalid STORE payload", by rw [heq]; rfl⟩, by rw [heq]; rfl⟩⟩
  rw [heq]
  intro hreply
  exact absurd (List.singleton_inj.mp hreply).symm (storeOk_ne_error "invalid STORE payload")

/-- The integers of a frame that is stored. -/
theorem integersSurvive_stored_iff [IsFinite D] (hfloat : WidenNarrow F D) {frame : YoloFrame F}
    (hstored : handleStore net F s forward msg = stored net s frame)
    (hints : IntegersIn j width height classIds) (hin : FrameIn j frame)
    (hreread : Rereads net.parse (frameJson D frame)) :
    IntegersSurvive net F s forward msg width height classIds ↔
      (∀ n ∈ width :: height :: classIds, IntRange n) ∧ FiniteCoordinates F j := by
  rw [IntegersSurvive, hstored]
  by_cases hrange : ∀ n ∈ width :: height :: classIds, IntRange n
  · obtain ⟨hwidth, hheight, hclass⟩ := integers_of_frameIn hints hin hrange
    have hdecode := decode_encode hfloat (fits_of_frameIn hints hin hrange) hreread
    rw [← finite_iff_of_frameIn hin]
    constructor
    · intro hsurvive
      refine ⟨hrange, ?_⟩
      obtain ⟨put, hput, other, hother, -⟩ := hsurvive.1 rfl
      cases hput
      by_contra hinfinite
      rw [show decode net.parse (encode D frame) = some other from hother, if_neg hinfinite]
        at hdecode
      cases hdecode
    · rintro ⟨-, hfinite⟩
      refine ⟨fun _ => ⟨_, rfl, frame, ?_, hwidth, hheight, hclass⟩, fun h => absurd hrange h⟩
      show decode net.parse (encode D frame) = some frame
      rw [hdecode, if_pos hfinite]
  · -- The server acknowledges what it should refuse.
    refine iff_of_false ?_ fun hcond => hrange hcond.1
    intro hsurvive
    obtain ⟨⟨text, htext⟩, -⟩ := hsurvive.2 hrange
    exact storeOk_ne_error text (List.singleton_inj.mp htext)

/-- **Integers survive a `STORE`** at the server that keeps the key exactly if, unless the
payload is refused for other reasons, all of them are of type `int` and the coordinates are
finite. -/
theorem integers_survive_iff [IsFinite D] (hfloat : WidenNarrow F D)
    (hpayload : afterSpace msg = some payload) (hparse : net.parse payload = some j)
    (hints : IntegersIn j width height classIds)
    (hown : ∀ id, Has getString j "image_id" id →
      ∃ node, s.router.pickNode net.hash id = some node ∧ node.id = s.self.id)
    (hreread : ∀ frame : YoloFrame F, FrameIn j frame → Rereads net.parse (frameJson D frame)) :
    IntegersSurvive net F s forward msg width height classIds ↔
      (Readable F j →
        (∀ n ∈ width :: height :: classIds, IntRange n) ∧ FiniteCoordinates F j) := by
  have hread : readStore net F msg = some (readFrame j) := by
    rw [readStore, hpayload, Option.map_some, hparse, Option.bind_some]
  cases hframe : readFrame (F := F) j with
  | none =>
      have hunreadable : ¬ Readable F j := by
        intro hreadable
        obtain ⟨frame, hin⟩ := (exists_frameIn_iff hints).mpr hreadable
        rw [readFrame_eq_some_iff.mpr hin] at hframe
        cases hframe
      exact iff_of_true (integersSurvive_of_none (hframe ▸ hread)) fun h => absurd h hunreadable
  | some frame =>
      have hin : FrameIn j frame := readFrame_eq_some_iff.mp hframe
      have hreadable : Readable F j := (exists_frameIn_iff hints).mp ⟨frame, hin⟩
      obtain ⟨node, hpick, hself⟩ := hown frame.imageId hin.imageId
      have hstored : handleStore net F s forward msg = stored net s frame :=
        handleStore_own (hframe ▸ hread) hpick hself
      rw [integersSurvive_stored_iff hfloat hstored hints hin (hreread frame hin),
        forall_prop_of_true hreadable]

end Stored

/-! ## An integer that is changed -/

/-- A payload with one box. -/
def widthText (width : Nat) : List UInt8 :=
  utf8 ("\x7b\"image_id\":\"img_0001\",\"width\":" ++ Nat.repr width ++
    ",\"height\":1080,\"image_hash\":\"a1b2c3d4\",\"boxes\":[\x7b\"class_id\":7,\"x\":0.5," ++
    "\"y\":0.5,\"w\":1.5,\"h\":1,\"confidence\":0.5\x7d]\x7d")

def boxSeven : Json Halves :=
  .ofMembers [("class_id", .unsigned 7), ("x", .float ⟨1⟩), ("y", .float ⟨1⟩), ("w", .float ⟨3⟩),
    ("h", .unsigned 1), ("confidence", .float ⟨1⟩)]

def widthJson (width : Nat) : Json Halves :=
  .ofMembers [("image_id", .string "img_0001"), ("width", .unsigned width),
    ("height", .unsigned 1080), ("image_hash", .string "a1b2c3d4"), ("boxes", .array [boxSeven])]

/-- The frame of the payload, with the width as it is stored. -/
def widthFrame (width : Int) : YoloFrame Halves :=
  { sampleFrame with width := width, boxes := [⟨7, ⟨1⟩, ⟨1⟩, ⟨3⟩, ⟨2⟩, ⟨1⟩⟩] }

/-- A server that reads the payload and the text of the frame. -/
def widthEnv (width : Nat) (stored : Int) : Env Halves :=
  loneEnv (parseTable [(widthText width, widthJson width),
    (encode Halves (widthFrame stored), reread (frameJson Halves (widthFrame stored)))])

theorem integersIn_widthJson {width : Nat} (h : width < 2 ^ 64) :
    IntegersIn (widthJson width) width 1080 [7] where
  width := ⟨.unsigned width, at?_ofMembers (by simp) "width", .unsigned width h⟩
  height := ⟨.unsigned 1080, at?_ofMembers (by simp) "height", .unsigned 1080 (by decide)⟩
  classIds := by
    have hboxes : (widthJson width).at? "boxes" = some (.array [boxSeven]) :=
      at?_ofMembers (by simp) "boxes"
    have hclass : boxSeven.at? "class_id" = some (.unsigned 7) :=
      at?_ofMembers (by simp) "class_id"
    rw [boxValues, hboxes]
    exact .cons ⟨.unsigned 7, hclass, .unsigned 7 (by decide)⟩ .nil

theorem sample_width_survives :
    IntegersSurvive (widthEnv 1920 1920).network Halves loneServer (widthEnv 1920 1920).forwarded
      (utf8 "STORE " ++ widthText 1920) 1920 1080 [7] := by
  have hpayload : afterSpace (utf8 "STORE " ++ widthText 1920) = some (widthText 1920) := rfl
  have hparse : (widthEnv 1920 1920).network.parse (widthText 1920) = some (widthJson 1920) := by
    simp [Env.network, widthEnv, loneEnv, parseTable]
  have hreread : ∀ frame : YoloFrame Halves, FrameIn (widthJson 1920) frame →
      Rereads (widthEnv 1920 1920).network.parse (frameJson Halves frame) := by
    intro frame hin
    have hframe : readFrame (widthJson 1920) = some (widthFrame 1920) := by decide
    rw [readFrame_eq_some_iff.mpr hin, Option.some.injEq] at hframe
    have hne : (encode Halves (widthFrame 1920) == widthText 1920) = false := by decide +kernel
    rw [hframe]
    simp [Rereads, Env.network, widthEnv, loneEnv, parseTable, ← encode_eq_dump, List.lookup_cons,
      hne]
  refine (integers_survive_iff (fun _ => rfl) hpayload hparse (integersIn_widthJson (by decide))
    (fun _ _ => ⟨node1, rfl, rfl⟩) hreread).mpr fun _ => ⟨by decide, ?_⟩
  exact fun _ _ _ _ _ _ => rfl

/-- A width of `2^32` is acknowledged, and stored as 0. -/
theorem width_stored_modulo :
    IntegersIn (widthJson (2 ^ 32)) (2 ^ 32 : Nat) 1080 [7] ∧
      (handleStore (widthEnv (2 ^ 32) 0).network Halves loneServer (widthEnv (2 ^ 32) 0).forwarded
        (utf8 "STORE " ++ widthText (2 ^ 32))).puts.map Put.value = [encode Halves (widthFrame 0)] ∧
      ¬ IntegersSurvive (widthEnv (2 ^ 32) 0).network Halves loneServer
        (widthEnv (2 ^ 32) 0).forwarded (utf8 "STORE " ++ widthText (2 ^ 32)) (2 ^ 32 : Nat) 1080
        [7] := by
  have hreplies : (handleStore (widthEnv (2 ^ 32) 0).network Halves loneServer
      (widthEnv (2 ^ 32) 0).forwarded (utf8 "STORE " ++ widthText (2 ^ 32))).replies =
        [utf8 "STORE OK"] := by
    decide +kernel
  refine ⟨integersIn_widthJson (by decide), by decide +kernel, ?_⟩
  intro hsurvive
  obtain ⟨⟨text, htext⟩, -⟩ := hsurvive.2 (by decide)
  rw [hreplies] at htext
  exact storeOk_ne_error text (List.singleton_inj.mp htext)

end Server
end YoloServer
