import YoloServer.Common.JsonRoundTrip

/-!
# Frames and their JSON (`common/codec/YoloCodec.cpp`, `storage/YoloTypes.h`)

A frame is read from JSON by `handleStore` and written back by `storage::encode`.
The coordinates have the type `F`, the numbers of a JSON text the type `D`; what
the source does with them are the conversions of `Single`.
-/

namespace YoloServer

/-- The conversions between `float`, `double` and the integers. -/
class Single (F D : Type) where
  /-- `static_cast<float>` of a `double` -/
  narrow : D → F
  /-- `static_cast<double>` of a `float` -/
  widen : F → D
  /-- `static_cast<float>` of an integer -/
  ofInt : Int → F

namespace Json

variable {D : Type}

/-- `get<float>()`. -/
def getFloat (F : Type) [Single F D] : Json D → Option F
  | .unsigned n => some (Single.ofInt D n)
  | .integer n => some (Single.ofInt D n)
  | .float d => some (Single.narrow d)
  | .boolean b => some (Single.ofInt D (if b then 1 else 0))
  | _ => none

/-- The values that a loop `for (auto& x : j)` goes through. -/
def elements : Json D → List (Json D)
  | .null => []
  | .array items => items
  | .object members => members.map Prod.snd
  | j => [j]

end Json

/-- `storage::YoloBox`. -/
structure YoloBox (F : Type) where
  classId : Int
  x : F
  y : F
  w : F
  h : F
  confidence : F
  deriving DecidableEq

/-- `storage::YoloFrame`. -/
structure YoloFrame (F : Type) where
  imageId : String
  imageHash : String
  boxes : List (YoloBox F)
  width : Int
  height : Int
  deriving DecidableEq

section Codec

variable {F D : Type} [Double D] [Single F D]

open Json

/-! ## Reading -/

/-- One iteration of the loop over the boxes. -/
def readBox (jb : Json D) : Option (YoloBox F) := do
  let classId ← (← jb.at? "class_id").getInt
  let x ← (← jb.at? "x").getFloat F
  let y ← (← jb.at? "y").getFloat F
  let w ← (← jb.at? "w").getFloat F
  let h ← (← jb.at? "h").getFloat F
  let confidence ← (← jb.at? "confidence").getFloat F
  pure { classId, x, y, w, h, confidence }

/-- The frame in a JSON value; `none` where the library throws. -/
def readFrame (j : Json D) : Option (YoloFrame F) := do
  let imageId ← (← j.at? "image_id").getString
  let width ← (← j.at? "width").getInt
  let height ← (← j.at? "height").getInt
  let imageHash ← (← j.at? "image_hash").getString
  let boxes ← (← j.at? "boxes").elements.mapM readBox
  pure { imageId, imageHash, boxes, width, height }

/-! ## Writing -/

variable (D) in
def boxJson (b : YoloBox F) : Json D :=
  ofMembers [("class_id", .integer b.classId), ("x", .float (Single.widen b.x)),
    ("y", .float (Single.widen b.y)), ("w", .float (Single.widen b.w)),
    ("h", .float (Single.widen b.h)), ("confidence", .float (Single.widen b.confidence))]

variable (D) in
/-- `storage::encode`. -/
def encode (f : YoloFrame F) : List UInt8 :=
  dump (D := D) (ofMembers [("image_id", .string f.imageId), ("width", .integer f.width),
    ("height", .integer f.height), ("image_hash", .string f.imageHash),
    ("boxes", .array (f.boxes.map (boxJson D)))])

variable (D) in
/-- The value that `storage::encode` writes. -/
def frameJson (f : YoloFrame F) : Json D :=
  ofMembers [("image_id", .string f.imageId), ("width", .integer f.width),
    ("height", .integer f.height), ("image_hash", .string f.imageHash),
    ("boxes", .array (f.boxes.map (boxJson D)))]

variable (D) in
theorem encode_eq_dump (f : YoloFrame F) : encode D f = dump (frameJson D f) := rfl

/-- `storage::decode`, which reads the same members as `handleStore`; `none` is an
exception of the library. -/
def decode (parse : List UInt8 → Option (Json D)) (v : List UInt8) : Option (YoloFrame F) :=
  (parse v).bind readFrame

/-! ## Reading back what was written -/

/-- The number fits in an `int`. -/
def IntRange (n : Int) : Prop :=
  -2 ^ 31 ≤ n ∧ n < 2 ^ 31

instance (n : Int) : Decidable (IntRange n) :=
  inferInstanceAs (Decidable (_ ∧ _))

/-- The integers of a frame are values of `int`. -/
def YoloFrame.Fits (f : YoloFrame F) : Prop :=
  (IntRange f.width ∧ IntRange f.height) ∧ ∀ b ∈ f.boxes, IntRange b.classId

instance (f : YoloFrame F) : Decidable f.Fits :=
  inferInstanceAs (Decidable (_ ∧ ∀ _ ∈ _, _))

def YoloBox.coordinates (b : YoloBox F) : List F :=
  [b.x, b.y, b.w, b.h, b.confidence]

variable (D) in
/-- All coordinates of a frame are finite. -/
def YoloFrame.Finite [IsFinite D] (f : YoloFrame F) : Prop :=
  ∀ b ∈ f.boxes, ∀ x ∈ b.coordinates, IsFinite.isFinite (Single.widen x : D) = true

instance [IsFinite D] (f : YoloFrame F) : Decidable (f.Finite D) :=
  inferInstanceAs (Decidable (∀ _ ∈ _, ∀ _ ∈ _, _))

variable (F D) in
/-- A `float` survives the conversion to `double` and back. -/
def WidenNarrow : Prop :=
  ∀ x : F, Single.narrow (Single.widen x : D) = x

variable [IsFinite D]

omit [Double D] in
/-- A number that is not finite was written as null, which is no number. -/
theorem getFloat_reread (hfloat : WidenNarrow F D) (x : F) :
    (reread (.float (Single.widen x) : Json D)).getFloat F =
      if IsFinite.isFinite (Single.widen x : D) then some x else none := by
  rw [reread]
  split_ifs
  · rw [getFloat, hfloat x]
  · rfl

omit [Double D] [IsFinite D] in
theorem at?_boxJson (b : YoloBox F) (key : String) :
    (boxJson D b).at? key =
      [("class_id", Json.integer b.classId), ("x", .float (Single.widen b.x)),
        ("y", .float (Single.widen b.y)), ("w", .float (Single.widen b.w)),
        ("h", .float (Single.widen b.h)), ("confidence", .float (Single.widen b.confidence))].lookup
          key :=
  at?_ofMembers (by simp) key

omit [Double D] [IsFinite D] in
theorem at?_frameJson (f : YoloFrame F) (key : String) :
    (frameJson D f).at? key =
      [("image_id", .string f.imageId), ("width", .integer f.width),
        ("height", .integer f.height), ("image_hash", .string f.imageHash),
        ("boxes", .array (f.boxes.map (boxJson D)))].lookup key :=
  at?_ofMembers (by simp) key

omit [Double D] [IsFinite D] in
/-- The members of a box, in the order in which they are written. -/
theorem boxJson_eq (b : YoloBox F) :
    boxJson D b =
      .object [("class_id", .integer b.classId), ("confidence", .float (Single.widen b.confidence)),
        ("h", .float (Single.widen b.h)), ("w", .float (Single.widen b.w)),
        ("x", .float (Single.widen b.x)), ("y", .float (Single.widen b.y))] := by
  simp [boxJson, ofMembers, List.insertionSort, List.orderedInsert]

omit [Double D] [IsFinite D] in
/-- The members of a frame, in the order in which they are written. -/
theorem frameJson_eq (f : YoloFrame F) :
    frameJson D f =
      .object [("boxes", .array (f.boxes.map (boxJson D))), ("height", .integer f.height),
        ("image_hash", .string f.imageHash), ("image_id", .string f.imageId),
        ("width", .integer f.width)] := by
  simp [frameJson, ofMembers, List.insertionSort, List.orderedInsert]

/-- A box is read back as it was if its coordinates are finite, and not at all
otherwise. -/
theorem readBox_reread (hfloat : WidenNarrow F D) {b : YoloBox F} (hclass : IntRange b.classId) :
    readBox (reread (boxJson D b)) =
      if ∀ x ∈ b.coordinates, IsFinite.isFinite (Single.widen x : D) = true then some b
      else none := by
  have hint : (reread (.integer b.classId : Json D)).getInt = some b.classId :=
    getInt_reread_integer hclass
  simp only [readBox, at?_reread, at?_boxJson, List.lookup_cons, String.reduceBEq,
    Option.map_some, Option.bind_eq_bind, Option.bind_some, getFloat_reread hfloat, hint]
  have hall : (∀ x ∈ b.coordinates, IsFinite.isFinite (Single.widen x : D) = true) ↔
      IsFinite.isFinite (Single.widen b.x : D) = true ∧
        IsFinite.isFinite (Single.widen b.y : D) = true ∧
        IsFinite.isFinite (Single.widen b.w : D) = true ∧
        IsFinite.isFinite (Single.widen b.h : D) = true ∧
        IsFinite.isFinite (Single.widen b.confidence : D) = true := by
    simp [YoloBox.coordinates]
  -- The first coordinate that is not finite ends the reading.
  by_cases hx : IsFinite.isFinite (Single.widen b.x : D) = true
  · by_cases hy : IsFinite.isFinite (Single.widen b.y : D) = true
    · by_cases hw : IsFinite.isFinite (Single.widen b.w : D) = true
      · by_cases hh : IsFinite.isFinite (Single.widen b.h : D) = true
        · by_cases hc : IsFinite.isFinite (Single.widen b.confidence : D) = true
          · simp [hall, hx, hy, hw, hh, hc]
          · simp [hall, hx, hy, hw, hh, hc]
        · simp [hall, hx, hy, hw, hh]
      · simp [hall, hx, hy, hw]
    · simp [hall, hx, hy]
  · simp [hall, hx]

theorem mapM_readBox_reread (hfloat : WidenNarrow F D) {boxes : List (YoloBox F)}
    (hclass : ∀ b ∈ boxes, IntRange b.classId) :
    ((boxes.map (boxJson D)).map reread).mapM readBox =
      if ∀ b ∈ boxes, ∀ x ∈ b.coordinates, IsFinite.isFinite (Single.widen x : D) = true then
        some boxes
      else none := by
  induction boxes with
  | nil => simp
  | cons b rest ih =>
      rw [List.map_cons, List.map_cons, List.mapM_cons,
        readBox_reread hfloat (hclass b List.mem_cons_self),
        ih fun c hc => hclass c (List.mem_cons_of_mem _ hc)]
      simp only [List.forall_mem_cons]
      by_cases hb : ∀ x ∈ b.coordinates, IsFinite.isFinite (Single.widen x : D) = true
      · by_cases hrest : ∀ b ∈ rest, ∀ x ∈ b.coordinates,
            IsFinite.isFinite (Single.widen x : D) = true
        · rw [if_pos hb, if_pos hrest, if_pos ⟨hb, hrest⟩]
          rfl
        · rw [if_pos hb, if_neg hrest, if_neg fun h => hrest h.2]
          rfl
      · have hnot : ¬ ((∀ x ∈ b.coordinates, IsFinite.isFinite (Single.widen x : D) = true) ∧
            ∀ b ∈ rest, ∀ x ∈ b.coordinates, IsFinite.isFinite (Single.widen x : D) = true) :=
          fun h => hb h.1
        rw [if_neg hb, if_neg hnot]
        rfl

/-- A frame is read back as it was if its coordinates are finite, and not at all
otherwise. -/
theorem readFrame_reread (hfloat : WidenNarrow F D) {f : YoloFrame F} (hfits : f.Fits) :
    readFrame (reread (frameJson D f)) = if f.Finite D then some f else none := by
  obtain ⟨⟨hwidth, hheight⟩, hclass⟩ := hfits
  have hw : (reread (.integer f.width : Json D)).getInt = some f.width :=
    getInt_reread_integer hwidth
  have hh : (reread (.integer f.height : Json D)).getInt = some f.height :=
    getInt_reread_integer hheight
  have hboxes : (reread (.array (f.boxes.map (boxJson D)))).elements =
      (f.boxes.map (boxJson D)).map reread := by
    rw [reread, rereadItems_eq_map]
    rfl
  have hstring : ∀ text, (reread (.string text : Json D)).getString = some text := fun _ => rfl
  simp only [readFrame, at?_reread, at?_frameJson, List.lookup_cons, String.reduceBEq,
    Option.map_some, Option.bind_eq_bind, Option.bind_some, hw, hh, hboxes, hstring,
    mapM_readBox_reread hfloat hclass]
  by_cases hfinite : f.Finite D
  · rw [if_pos hfinite, if_pos (show ∀ b ∈ f.boxes, _ from hfinite)]
    rfl
  · rw [if_neg hfinite, if_neg (show ¬ ∀ b ∈ f.boxes, _ from hfinite)]
    rfl

/-- What `decode` makes of an encoded frame. -/
theorem decode_encode {parse : List UInt8 → Option (Json D)} (hfloat : WidenNarrow F D)
    {f : YoloFrame F} (hfits : f.Fits) (hparse : Rereads parse (frameJson D f)) :
    decode parse (encode D f) = if f.Finite D then some f else none := by
  rw [decode, encode_eq_dump, hparse, Option.bind_some, readFrame_reread hfloat hfits]

end Codec

end YoloServer
