import YoloServer.Server.ReadYourWrites

/-!
# What a `GET` gives away

`handleGet` declares a frame, fills it if the storage has the key, and answers with the
frame in either case.  The width and the height have no initialiser, so the answer for a
key that is not there shows what was in memory, and looks like that for a frame.

* `SameReply`: two servers that differ in their memory only give the same answer.
* `AbsenceShows`: the answer for a missing key is not that for any frame.
* `get_reply_iff`: each of them holds for the keys that are stored, and for no other.
-/

namespace YoloServer
namespace Server

open Cluster Raft Json

section Replies

variable {D : Type} [Double D] (env : Env D) (F : Type) [Single F D] (s : Server)
  (raft : Option RaftNode) (msg : List UInt8)

/-- What two members of type `int` can hold before anybody sets them. -/
def Memory (content : Int × Int) : Prop :=
  IntRange content.1 ∧ IntRange content.2

instance (content : Int × Int) : Decidable (Memory content) :=
  inferInstanceAs (Decidable (_ ∧ _))

/-- A run that finds the given content in memory. -/
def getIn (content : Int × Int) : Outcome :=
  handleGet { env with uninitialised := content } F s raft msg

variable (D) in
/-- A frame that a `STORE` can store. -/
def Storable (f : YoloFrame F) : Prop :=
  ∃ j : Json D, readFrame j = some f

/-- The reply depends on the request and on the storage only. -/
def SameReply : Prop :=
  ∀ a b, Memory a → Memory b → getIn env F s raft msg a = getIn env F s raft msg b

/-- The reply for a key that is not stored is not the reply for a frame. -/
def AbsenceShows : Prop :=
  env.get (getSecondToken msg) = none →
    ∀ content, Memory content → ∀ f : YoloFrame F, Storable D F f →
      (getIn env F s raft msg content).replies ≠ [getText D f]

variable {env F s raft msg} {node : NodeInfo}

/-- A `STORE` can store a frame without anything in it. -/
theorem storable_blankFrame {content : Int × Int} (h : Memory content) :
    Storable D F (blankFrame F content) := by
  refine ⟨frameJson D (blankFrame F content), ?_⟩
  simp only [readFrame, at?_frameJson, List.lookup_cons, String.reduceBEq, Option.bind_eq_bind,
    Option.bind_some, blankFrame, getInt, bmod_of_range h.1, bmod_of_range h.2]
  rfl

variable (D F) in
/-- The text of a blank frame shows its width. -/
theorem getText_blankFrame_ne :
    getText D (blankFrame F (0, 0)) ≠ getText D (blankFrame F (1, 0)) := by
  intro htext
  have hdump :
      dump (frameJson D (blankFrame F (0, 0))) = dump (frameJson D (blankFrame F (1, 0))) :=
    htext
  simp only [frameJson_eq, blankFrame, dump, dumpMembers, List.append_cancel_right_eq,
    List.append_cancel_left_eq] at hdump
  exact absurd hdump (by decide)

theorem getIn_absent {content : Int × Int} (hkey : getSecondToken msg ≠ [])
    (hpick : pickNodeFor s.router env.hash (getSecondToken msg) = some node)
    (hself : node.id = s.self.id) (hget : env.get (getSecondToken msg) = none) :
    getIn env F s raft msg content = .reply raft (getText D (blankFrame F content)) :=
  handleGet_absent hkey hpick hself hget

/-- A stored value leaves nothing to the memory. -/
theorem getIn_stored {value : List UInt8} (hkey : getSecondToken msg ≠ [])
    (hpick : pickNodeFor s.router env.hash (getSecondToken msg) = some node)
    (hself : node.id = s.self.id) (hget : env.get (getSecondToken msg) = some value)
    (a b : Int × Int) : getIn env F s raft msg a = getIn env F s raft msg b := by
  cases hdecode : decode (F := F) env.parse value with
  | none =>
      have hthrows : ∀ content, getIn env F s raft msg content = ⟨[], [], raft, .throws⟩ :=
        fun _ => handleGet_unreadable hkey hpick hself hget hdecode
      rw [hthrows a, hthrows b]
  | some frame =>
      have hreply : ∀ content, getIn env F s raft msg content = .reply raft (getText D frame) :=
        fun _ => handleGet_present hkey hpick hself hget hdecode
      rw [hreply a, hreply b]

/-- The two halves of what a client may expect of a `GET` for a key that the server keeps:
the reply does not depend on the memory, and a missing key is told from a stored one. -/
theorem get_reply_iff (env : Env D) (F : Type) [Single F D] (s : Server) (raft : Option RaftNode)
    (msg : List UInt8) (hkey : getSecondToken msg ≠ [])
    (hpick : pickNodeFor s.router env.hash (getSecondToken msg) = some node)
    (hself : node.id = s.self.id) :
    (SameReply env F s raft msg ↔ (env.get (getSecondToken msg)).isSome) ∧
      (AbsenceShows env F s raft msg ↔ (env.get (getSecondToken msg)).isSome) := by
  cases hget : env.get (getSecondToken msg) with
  | none =>
      have habsent : ∀ content,
          getIn env F s raft msg content = .reply raft (getText D (blankFrame F content)) :=
        fun content => getIn_absent hkey hpick hself hget
      refine ⟨iff_of_false ?_ (by simp), iff_of_false ?_ (by simp)⟩
      · intro hsame
        have heq := hsame (0, 0) (1, 0) (by decide) (by decide)
        rw [habsent, habsent, Outcome.reply, Outcome.reply, Outcome.mk.injEq] at heq
        exact getText_blankFrame_ne D F (List.singleton_inj.mp heq.1)
      · intro hshows
        have hblank : Storable D F (blankFrame F (0, 0)) := storable_blankFrame (by decide)
        refine hshows hget (0, 0) (by decide) _ hblank ?_
        rw [habsent]
        rfl
  | some value =>
      refine ⟨iff_of_true ?_ rfl, iff_of_true ?_ rfl⟩
      · intro a b _ _
        exact getIn_stored hkey hpick hself hget a b
      · intro hnone
        rw [hget] at hnone
        cases hnone

end Replies

/-- The sample frame under every key. -/
def filledEnv : Env Halves :=
  { loneEnv (frameParser sampleFrame) with get := fun _ => some (encode Halves sampleFrame) }

theorem sample_get_reply :
    SameReply filledEnv Halves loneServer none (utf8 "GET img_0001") ∧
      AbsenceShows filledEnv Halves loneServer none (utf8 "GET img_0001") := by
  have hpick : pickNodeFor loneServer.router filledEnv.hash (getSecondToken (utf8 "GET img_0001")) =
      some node1 := rfl
  obtain ⟨hsame, hshows⟩ := get_reply_iff filledEnv Halves loneServer none
    (utf8 "GET img_0001") (by decide) hpick rfl
  exact ⟨hsame.mpr rfl, hshows.mpr rfl⟩

/-- With an empty storage, two runs that find different widths in memory answer differently,
and the answer of the second is the one for a frame that can be stored. -/
theorem missing_key_shows_memory :
    ¬ SameReply (loneEnv noParser) Halves loneServer none (utf8 "GET img_0001") ∧
      ¬ AbsenceShows (loneEnv noParser) Halves loneServer none (utf8 "GET img_0001") := by
  have hpick : pickNodeFor loneServer.router (loneEnv noParser).hash
      (getSecondToken (utf8 "GET img_0001")) = some node1 := rfl
  have habsent : ∀ content, getIn (loneEnv noParser) Halves loneServer none
      (utf8 "GET img_0001") content = .reply none (getText Halves (blankFrame Halves content)) :=
    fun _ => getIn_absent (by decide) hpick rfl rfl
  constructor
  · intro hsame
    have heq := congrArg Outcome.replies (hsame (0, 0) (1, 0) (by decide) (by decide))
    rw [habsent, habsent] at heq
    exact getText_blankFrame_ne Halves Halves (List.singleton_inj.mp heq)
  · intro hshows
    have hblank : Storable Halves Halves (blankFrame Halves (1, 0)) :=
      storable_blankFrame (by decide)
    refine hshows rfl (1, 0) (by decide) _ hblank ?_
    rw [habsent]
    rfl

end Server
end YoloServer
