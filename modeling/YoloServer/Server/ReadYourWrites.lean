import YoloServer.Server.Storage

/-!
# Reading a frame back

`storage::encode` and `handleGet` build the JSON of a frame separately, and
`storage::decode` reads it.  They agree, so that a `GET` returns the stored bytes
(`codec_round_trip`).

On a server that keeps all keys, the storage is the map of the frames that were stored
(`storeAfter_eq_contents`).  The key of a frame is a JSON string, though, and the key of a
`GET` is a word: an empty key or one with a blank cannot be asked for
(`read_your_writes_iff`).
-/

namespace YoloServer
namespace Server

open Cluster Raft Json Function

section Frames

variable {D F : Type} [Double D] [Single F D]

/-- The two builders write the same text. -/
theorem getText_eq_encode (frame : YoloFrame F) : getText D frame = encode D frame := rfl

end Frames

/-- **Codec round trip**: a frame with finite coordinates is decoded as it was encoded, and
a `GET` at the server that holds it is answered with the stored bytes. -/
theorem codec_round_trip {D F : Type} [Double D] [IsFinite D] [Single F D]
    (hfloat : WidenNarrow F D) (env : Env D) (f : YoloFrame F) (hfits : f.Fits)
    (hfinite : f.Finite D) (hparse : Rereads env.parse (frameJson D f)) :
    decode env.parse (encode D f) = some f ∧
      (∀ frame : YoloFrame F, decode env.parse (encode D f) = some frame →
        getText D frame = encode D f) ∧
      ∀ s raft msg node, getSecondToken msg ≠ [] →
        pickNodeFor s.router env.hash (getSecondToken msg) = some node →
        node.id = s.self.id → env.get (getSecondToken msg) = some (encode D f) →
        handleGet env F s raft msg = .reply raft (encode D f) := by
  have hdecode : decode env.parse (encode D f) = some f := by
    rw [decode_encode hfloat hfits hparse, if_pos hfinite]
  refine ⟨hdecode, ?_, ?_⟩
  · intro frame hframe
    rw [hdecode, Option.some.injEq] at hframe
    rw [← hframe, getText_eq_encode]
  · intro s raft msg node hkey hpick hself hget
    rw [handleGet_present hkey hpick hself hget hdecode, getText_eq_encode]

/-- A parser that reads the text of one frame. -/
def frameParser (f : YoloFrame Halves) : List UInt8 → Option (Json Halves) :=
  parseTable [(encode Halves f, reread (frameJson Halves f))]

theorem rereads_frameParser (f : YoloFrame Halves) :
    Rereads (frameParser f) (frameJson Halves f) := by
  rw [Rereads, frameParser, parseTable, ← encode_eq_dump, List.lookup_cons_self]

theorem sample_frame_round_trip :
    decode (frameParser sampleFrame) (encode Halves sampleFrame) = some sampleFrame :=
  (codec_round_trip (fun _ => rfl) (loneEnv (frameParser sampleFrame)) sampleFrame (by decide)
    (by decide) (rereads_frameParser sampleFrame)).1

/-! ## Histories -/

/-- The call of `put` for a frame. -/
def framePut (D : Type) [Double D] {F : Type} [Single F D] (f : YoloFrame F) :
    String × List UInt8 :=
  (f.imageId, encode D f)

section Histories

variable {D : Type} [Double D] (F : Type) [Single F D] (base : Env D) (s : Server)
  (raft : Option RaftNode)

/-- The frame of a `STORE` message. -/
def storedFrame (msg : List UInt8) : Option (YoloFrame F) :=
  if command msg = .STORE then (readStore base.network F msg).join else none

/-- The storage after the messages of a history. -/
def storeAfter (history : List (List UInt8)) : Store :=
  history.foldl (fun store msg => store.write base.put (handle (base.on store) F s raft msg).puts)
    .empty

/-- The server picks itself for every key, and every `put` succeeds. -/
structure KeepsAll : Prop where
  picks : ∀ key, ∃ node, pickNodeFor s.router base.hash key = some node ∧ node.id = s.self.id
  puts : ∀ key value, base.put key value = true

/-- The storage as the map of the frames that were stored. -/
def contents (history : List (List UInt8)) : Store :=
  Store.empty.write base.put ((history.filterMap (storedFrame F base)).map (framePut D))

variable {F base s raft} {store : Store} {msg : List UInt8}

theorem storedFrame_eq_some_iff {f : YoloFrame F} :
    storedFrame F base msg = some f ↔
      command msg = .STORE ∧ readStore base.network F msg = some (some f) := by
  rw [storedFrame]
  split_ifs with hcmd
  · simp [hcmd, Option.join_eq_some_iff]
  · simp [hcmd]

/-- A frame that was read is stored. -/
theorem handle_storedFrame (hkeeps : KeepsAll base s) {f : YoloFrame F}
    (h : storedFrame F base msg = some f) :
    handle (base.on store) F s raft msg = (stored base.network s f).outcome raft := by
  obtain ⟨hcmd, hread⟩ := storedFrame_eq_some_iff.mp h
  obtain ⟨node, hpick, hself⟩ := hkeeps.picks (utf8 f.imageId)
  rw [pickNodeFor_utf8] at hpick
  rw [handle, hcmd]
  show (handleStore base.network F s _ msg).outcome raft = _
  rw [handleStore_own hread hpick hself]

/-- What a message of a history puts. -/
theorem handle_puts (hkeeps : KeepsAll base s) (hcmd : command msg = .STORE ∨ command msg = .GET) :
    (handle (base.on store) F s raft msg).puts =
      ((storedFrame F base msg).toList).map (framePut D) := by
  cases hframe : storedFrame F base msg with
  | some f =>
      rw [handle_storedFrame hkeeps hframe]
      rfl
  | none =>
      rcases handle_effect (F := F) (base.on store) s raft msg with
        ⟨hnone, -⟩ | ⟨f, node, hstore, hread, -⟩ | ⟨n, args, -, hnone, -⟩ | ⟨j, args, n, happend, -⟩
      · exact hnone
      · have hsome : storedFrame F base msg = some f :=
          storedFrame_eq_some_iff.mpr ⟨hstore, hread⟩
        rw [hsome] at hframe
        cases hframe
      · exact hnone
      · rw [happend] at hcmd
        simp at hcmd

/-- The storage of a server that keeps all keys is the map of the frames. -/
theorem storeAfter_eq_contents (hkeeps : KeepsAll base s) {history : List (List UInt8)}
    (hcmds : ∀ m ∈ history, command m = .STORE ∨ command m = .GET) :
    storeAfter F base s raft history = contents F base history := by
  rw [storeAfter, contents]
  -- The induction is for any storage at the start.
  generalize Store.empty = start
  induction history generalizing start with
  | nil => rfl
  | cons m rest ih =>
      rw [List.foldl_cons, handle_puts hkeeps (hcmds m List.mem_cons_self),
        ih fun m' hm' => hcmds m' (List.mem_cons_of_mem _ hm'), ← Store.write_append,
        ← List.map_append, List.filterMap_cons]
      cases storedFrame F base m with
      | none => rfl
      | some f => rfl

end Histories

/-! ## Asking for a frame -/

/-- The message with which a client asks for an image. -/
def getMessage (imageId : String) : List UInt8 :=
  utf8 "GET " ++ utf8 imageId

theorem command_getMessage (imageId : String) : command (getMessage imageId) = .GET := by
  show command (utf8 "GET" ++ 32 :: utf8 imageId) = .GET
  rw [command_append _ (by decide) (by decide)]
  decide

/-- The key that `handleGet` finds in the message: the first word of the image's id. -/
theorem getSecondToken_getMessage (imageId : String) :
    getSecondToken (getMessage imageId) = (nextToken (utf8 imageId)).1 := by
  have hfirst : nextToken (getMessage imageId) = (utf8 "GET", 32 :: utf8 imageId) := by
    show nextToken (utf8 "GET" ++ 32 :: utf8 imageId) = _
    apply nextToken_append (by decide) (by decide)
    intro b hb
    cases hb
    rfl
  rw [getSecondToken, hfirst]
  simp only [nextToken, List.dropWhile_cons]
  rfl

theorem nextToken_eq_self_iff (text : List UInt8) : (nextToken text).1 = text ↔ Solid text := by
  constructor
  · intro h
    rw [← h]
    exact solid_nextToken text
  · intro hsolid
    by_cases hne : text = []
    · rw [hne]
      rfl
    · have h : nextToken (text ++ []) = (text, []) := nextToken_append hsolid hne (by simp)
      rw [List.append_nil] at h
      rw [h]

section Texts

variable {D F : Type} [Double D] [IsFinite D] [Single F D]
  {parse : List UInt8 → Option (Json D)} {f g : YoloFrame F}

/-- The text of a frame determines its key. -/
theorem imageId_of_encode (hf : Rereads parse (frameJson D f))
    (hg : Rereads parse (frameJson D g)) (h : encode D f = encode D g) :
    f.imageId = g.imageId := by
  have hvalue : reread (frameJson D f) = reread (frameJson D g) := by
    rw [Rereads, ← encode_eq_dump] at hf hg
    rw [h, hg] at hf
    exact (Option.some.inj hf).symm
  have hstring : ∀ frame : YoloFrame F,
      (reread (frameJson D frame)).at? "image_id" = some (.string frame.imageId) := by
    intro frame
    rw [at?_reread, at?_frameJson]
    rfl
  have hid := hstring f
  rw [hvalue, hstring g] at hid
  exact (Json.string.inj (Option.some.inj hid)).symm

omit [IsFinite D] in
/-- The text of a frame is no error. -/
theorem encode_ne_missing (f : YoloFrame F) : encode D f ≠ utf8 "ERROR missing image_id" := by
  intro h
  rw [encode_eq_dump, frameJson, ofMembers, dump] at h
  have hhead := congrArg List.head? h
  rw [List.append_assoc, (by decide : utf8 "\x7b" = [123]), List.cons_append,
    List.head?_cons] at hhead
  exact absurd hhead (by decide)

end Texts

section Answers

variable {D F : Type} [Double D] [Single F D] {base : Env D} {s : Server} {raft : Option RaftNode}

/-- The answer of a server that keeps all keys to a `GET`. -/
theorem get_replies (hkeeps : KeepsAll base s) (raft : Option RaftNode) (store : Store)
    (imageId : String) :
    let key := (nextToken (utf8 imageId)).1
    let replies := (handle (base.on store) F s raft (getMessage imageId)).replies
    (key = [] ∧ replies = [utf8 "ERROR missing image_id"]) ∨
      (key ≠ [] ∧ store key = none ∧
        replies = [encode D (blankFrame F base.uninitialised)]) ∨
      (key ≠ [] ∧ ∃ value, store key = some value ∧
        replies = ((decode (F := F) base.parse value).map (encode D)).toList) := by
  intro key replies
  have hkey : getSecondToken (getMessage imageId) = key := getSecondToken_getMessage imageId
  have hreplies : replies = (handleGet (base.on store) F s raft (getMessage imageId)).replies := by
    show (handle (base.on store) F s raft (getMessage imageId)).replies = _
    rw [handle, command_getMessage]
  by_cases hempty : key = []
  · refine .inl ⟨hempty, ?_⟩
    rw [hreplies, handleGet, hkey, if_pos hempty]
    rfl
  · have hne : getSecondToken (getMessage imageId) ≠ [] := by rwa [hkey]
    obtain ⟨node, hnode, hself⟩ := hkeeps.picks (getSecondToken (getMessage imageId))
    have hpick : pickNodeFor s.router (base.on store).hash (getSecondToken (getMessage imageId)) =
        some node := hnode
    have hstored : (base.on store).get (getSecondToken (getMessage imageId)) = store key :=
      congrArg store hkey
    cases hget : store key with
    | none =>
        refine .inr (.inl ⟨hempty, rfl, ?_⟩)
        rw [hreplies, handleGet_absent hne hpick hself (hstored.trans hget)]
        rfl
    | some value =>
        refine .inr (.inr ⟨hempty, value, rfl, ?_⟩)
        show replies = ((decode (F := F) (base.on store).parse value).map (encode D)).toList
        cases hdecode : decode (F := F) (base.on store).parse value with
        | none =>
            rw [hreplies, handleGet_unreadable hne hpick hself (hstored.trans hget) hdecode]
            rfl
        | some g =>
            rw [hreplies, handleGet_present hne hpick hself (hstored.trans hget) hdecode]
            rfl

/-- What is in the storage is a frame of the history, under its key. -/
theorem contents_spec {history : List (List UInt8)} {key value : List UInt8}
    (h : contents F base history key = some value) :
    ∃ g : YoloFrame F, (∃ m ∈ history, storedFrame F base m = some g) ∧
      key = utf8 g.imageId ∧ value = encode D g := by
  rcases Store.write_spec h with hempty | ⟨p, hp, -, hkey, hvalue⟩
  · cases hempty
  · obtain ⟨g, hg, rfl⟩ := List.mem_map.mp hp
    exact ⟨g, List.mem_filterMap.mp hg, hkey, hvalue⟩

/-- The last frame with an id is in the storage. -/
theorem contents_last (hkeeps : KeepsAll base s) (before : List (List UInt8))
    {after : List (List UInt8)} {msg : List UInt8} {f : YoloFrame F} (hmsg : storedFrame F base msg = some f)
    (hlast : ∀ m ∈ after, ∀ g, storedFrame F base m = some g → g.imageId ≠ f.imageId) :
    contents F base (before ++ msg :: after) (utf8 f.imageId) = some (encode D f) := by
  rw [contents, List.filterMap_append, List.filterMap_cons, hmsg, List.map_append, List.map_cons]
  apply Store.write_last _ _ _ (hkeeps.puts _ _)
  intro q hq hkey
  obtain ⟨g, hg, rfl⟩ := List.mem_map.mp hq
  obtain ⟨m, hm, hframe⟩ := List.mem_filterMap.mp hg
  exact hlast m hm g hframe (utf8_inj hkey)

end Answers

/-- **Read your writes**: after any history of `STORE` and `GET` messages, the `GET` for a
frame that was stored with finite coordinates, and not again under the same id, is
answered with its JSON exactly if the id is not empty and has no blanks. -/
theorem read_your_writes_iff {D F : Type} [Double D] [IsFinite D] [Single F D]
    (hfloat : WidenNarrow F D) {base : Env D} {s : Server} (hkeeps : KeepsAll base s)
    (raft : Option RaftNode) (before after : List (List UInt8)) {msg : List UInt8}
    (hcmds : ∀ m ∈ before ++ msg :: after, command m = .STORE ∨ command m = .GET)
    {f : YoloFrame F} (hmsg : storedFrame F base msg = some f)
    (hlast : ∀ m ∈ after, ∀ g, storedFrame F base m = some g → g.imageId ≠ f.imageId)
    (hfinite : f.Finite D)
    (hframes : ∀ g : YoloFrame F, (g = blankFrame F base.uninitialised ∨
      ∃ m ∈ before ++ msg :: after, storedFrame F base m = some g) →
        g.Fits ∧ Rereads base.parse (frameJson D g)) :
    (handle (base.on (storeAfter F base s raft before)) F s raft msg).replies =
        [utf8 "STORE OK"] ∧
      ((handle (base.on (storeAfter F base s raft (before ++ msg :: after))) F s raft
          (getMessage f.imageId)).replies = [encode D f] ↔
        f.imageId ≠ "" ∧ Solid (utf8 f.imageId)) := by
  constructor
  · rw [handle_storedFrame hkeeps hmsg]
    rfl
  rw [storeAfter_eq_contents hkeeps hcmds]
  obtain ⟨hfits, hparse⟩ := hframes f (.inr ⟨msg, by simp, hmsg⟩)
  constructor
  · intro hreply
    rcases get_replies (F := F) hkeeps raft (contents F base (before ++ msg :: after))
      f.imageId with ⟨-, herror⟩ | ⟨hkey, -, hblank⟩ | ⟨hkey, value, hvalue, hframe⟩
    · rw [herror, List.singleton_inj] at hreply
      exact absurd hreply.symm (encode_ne_missing f)
    · -- The id of the blank frame is empty, and there would be no key.
      rw [hblank, List.singleton_inj] at hreply
      have hid := imageId_of_encode (hframes _ (.inl rfl)).2 hparse hreply
      rw [← hid] at hkey
      exact absurd rfl hkey
    · obtain ⟨g, hg, hgkey, rfl⟩ := contents_spec hvalue
      obtain ⟨hgfits, hgparse⟩ := hframes g (.inr hg)
      rw [hframe, decode_encode hfloat hgfits hgparse] at hreply
      split_ifs at hreply
      · have hid := imageId_of_encode hgparse hparse (List.singleton_inj.mp hreply)
        rw [hid] at hgkey
        refine ⟨fun hnil => ?_, (nextToken_eq_self_iff _).mp hgkey⟩
        rw [hnil] at hkey
        exact hkey rfl
      · cases hreply
  · rintro ⟨hne, hsolid⟩
    have hword : (nextToken (utf8 f.imageId)).1 = utf8 f.imageId :=
      (nextToken_eq_self_iff _).mpr hsolid
    have hstored := contents_last hkeeps before hmsg hlast
    rcases get_replies (F := F) hkeeps raft (contents F base (before ++ msg :: after))
      f.imageId with ⟨hkey, -⟩ | ⟨-, hnone, -⟩ | ⟨-, value, hvalue, hframe⟩
    · rw [hword] at hkey
      exact absurd (utf8_inj hkey) hne
    · rw [hword, hstored] at hnone
      cases hnone
    · rw [hword, hstored, Option.some.injEq] at hvalue
      rw [hframe, ← hvalue, decode_encode hfloat hfits hparse, if_pos hfinite]
      rfl

/-! ## A frame that is found, and one that is not -/

/-- The message with which a client stores a frame. -/
def storeMessage (D : Type) [Double D] {F : Type} [Single F D] (f : YoloFrame F) : List UInt8 :=
  utf8 "STORE " ++ encode D f

theorem storedFrame_storeMessage {D F : Type} [Double D] [IsFinite D] [Single F D]
    (hfloat : WidenNarrow F D) {base : Env D} {f : YoloFrame F} (hfits : f.Fits)
    (hfinite : f.Finite D) (hparse : Rereads base.parse (frameJson D f)) :
    storedFrame F base (storeMessage D f) = some f := by
  have hmsg : storeMessage D f = utf8 "STORE" ++ 32 :: encode D f := rfl
  have hcmd : command (storeMessage D f) = .STORE := by
    rw [hmsg, command_append _ (by decide) (by decide)]
    decide
  have hspace : afterSpace (storeMessage D f) = some (encode D f) := by
    rw [hmsg]
    exact afterSpace_append _ (by decide)
  apply storedFrame_eq_some_iff.mpr
  refine ⟨hcmd, ?_⟩
  rw [readStore, hspace, Option.map_some, Option.some.injEq]
  show decode base.parse (encode D f) = some f
  rw [decode_encode hfloat hfits hparse, if_pos hfinite]

/-- A server that reads the text of one frame, and that of the blank one. -/
def keeperEnv (f : YoloFrame Halves) : Env Halves :=
  loneEnv (parseTable [(encode Halves f, reread (frameJson Halves f)),
    (encode Halves (blankFrame Halves (0, 0)), reread (frameJson Halves (blankFrame Halves (0, 0))))])

theorem keepsAll_keeperEnv (f : YoloFrame Halves) : KeepsAll (keeperEnv f) loneServer where
  picks _ := ⟨node1, rfl, rfl⟩
  puts _ _ := rfl

theorem sample_frame_read_back :
    (handle ((keeperEnv sampleFrame).on (storeAfter Halves (keeperEnv sampleFrame) loneServer none
        [storeMessage Halves sampleFrame])) Halves loneServer none
      (getMessage sampleFrame.imageId)).replies = [encode Halves sampleFrame] := by
  have hfloat : WidenNarrow Halves Halves := fun _ => rfl
  have hsample : Rereads (keeperEnv sampleFrame).parse (frameJson Halves sampleFrame) := by
    simp [Rereads, keeperEnv, loneEnv, parseTable, encode_eq_dump]
  have hblank : Rereads (keeperEnv sampleFrame).parse
      (frameJson Halves (blankFrame Halves (0, 0))) := by
    have hne : (encode Halves (blankFrame Halves (0, 0)) == encode Halves sampleFrame) = false := by
      decide +kernel
    simp [Rereads, keeperEnv, loneEnv, parseTable, ← encode_eq_dump, List.lookup_cons, hne]
  have hmsg : storedFrame Halves (keeperEnv sampleFrame) (storeMessage Halves sampleFrame) =
      some sampleFrame :=
    storedFrame_storeMessage hfloat (by decide) (by decide) hsample
  refine ((read_your_writes_iff hfloat (keepsAll_keeperEnv sampleFrame) none [] [] ?_ hmsg
    (by simp) (by decide) ?_).2).mpr ⟨by decide, by decide⟩
  · intro m hm
    rw [List.nil_append, List.mem_singleton] at hm
    exact .inl (hm ▸ (storedFrame_eq_some_iff.mp hmsg).1)
  · rintro g (rfl | ⟨m, hm, hframe⟩)
    · exact ⟨by decide, hblank⟩
    · rw [List.nil_append, List.mem_singleton] at hm
      rw [hm, hmsg, Option.some.injEq] at hframe
      rw [← hframe]
      exact ⟨by decide, hsample⟩

/-- The sample frame, with a blank in its id. -/
def spacedFrame : YoloFrame Halves :=
  { sampleFrame with imageId := "img 0001" }

/-- The frame is stored, and the `GET` for it looks for the key `img`. -/
theorem spaced_id_not_found :
    (handle (keeperEnv spacedFrame) Halves loneServer none
        (storeMessage Halves spacedFrame)).replies = [utf8 "STORE OK"] ∧
      (handle ((keeperEnv spacedFrame).on (storeAfter Halves (keeperEnv spacedFrame) loneServer none
          [storeMessage Halves spacedFrame])) Halves loneServer none
        (getMessage spacedFrame.imageId)).replies ≠ [encode Halves spacedFrame] := by
  decide +kernel

end Server
end YoloServer
