import YoloServer.Lib.Text
import YoloServer.Server.Handle

/-!
# Where the command ends and the payload begins

`getFirstToken` takes the first word of a message, whatever blanks surround it.  The
handlers with a payload look for the first space character instead, and parse what
follows.

* `handle_eq_of_jsonText`: these handlers use the parser for that text only.
* `split_consistent_iff`: the text is the rest of the message after its first word, up to
  blanks, exactly if no space comes before the word and nothing but blanks between the
  word and the first space.
-/

namespace YoloServer
namespace Server

open Cluster Raft Json Lib

/-- The commands with a payload. -/
def CommandType.TakesPayload : CommandType → Prop
  | .STORE | .RAFT_REQUEST_VOTE | .RAFT_APPEND_ENTRIES => True
  | .PING | .GET | .UNKNOWN => False

instance : DecidablePred CommandType.TakesPayload
  | .STORE | .RAFT_REQUEST_VOTE | .RAFT_APPEND_ENTRIES => .isTrue trivial
  | .PING | .GET | .UNKNOWN => .isFalse not_false

/-- The text that the handler of a message gives to `json::parse`, if it gets there. -/
def jsonText (msg : List UInt8) : Option (List UInt8) :=
  match command msg with
  | .STORE | .RAFT_REQUEST_VOTE | .RAFT_APPEND_ENTRIES => afterSpace msg
  | .PING | .GET | .UNKNOWN => none

/-- What is parsed is what follows the first word, up to blanks at its start.  A handler
that parses nothing has to find nothing there. -/
def SplitConsistent (msg : List UInt8) : Prop :=
  ((jsonText msg).getD []).dropWhile isSpace = (nextToken msg).2.dropWhile isSpace

/-- No space before the first word, and only blanks between it and the first space after
it. -/
def SpaceAfterCommand (msg : List UInt8) : Prop :=
  32 ∉ msg.takeWhile isSpace ∧ ∀ b ∈ (nextToken msg).2.takeWhile (· ≠ 32), isSpace b = true

instance (msg : List UInt8) : Decidable (SpaceAfterCommand msg) :=
  haveI := List.decidableBAll (isSpace · = true) ((nextToken msg).2.takeWhile (· ≠ 32))
  instDecidableAnd

variable {msg : List UInt8}

theorem jsonText_eq (hcmd : (command msg).TakesPayload) : jsonText msg = afterSpace msg := by
  rw [jsonText]
  cases hc : command msg with
  | STORE => rfl
  | RAFT_REQUEST_VOTE => rfl
  | RAFT_APPEND_ENTRIES => rfl
  | PING => rw [hc] at hcmd; cases hcmd
  | GET => rw [hc] at hcmd; cases hcmd
  | UNKNOWN => rw [hc] at hcmd; cases hcmd

/-- Two parsers that agree on this text make no difference. -/
theorem handle_eq_of_jsonText {D F : Type} [Double D] [Single F D] (env : Env D) (s : Server)
    (raft : Option RaftNode) (hcmd : (command msg).TakesPayload)
    {parse : List UInt8 → Option (Json D)}
    (hparse : ∀ text, jsonText msg = some text → parse text = env.parse text) :
    handle { env with parse := parse } F s raft msg = handle env F s raft msg := by
  rw [jsonText_eq hcmd] at hparse
  have hpayload : ∀ {Args : Type} (read : Json D → Except Fault Args) (call : Args → Outcome),
      handlePayload parse raft read call msg = handlePayload env.parse raft read call msg := by
    intro Args read call
    unfold handlePayload
    cases htext : afterSpace msg with
    | none => rfl
    | some text =>
        dsimp only
        rw [hparse text htext]
  have hread : readStore ({ env with parse := parse } : Env D).network F msg =
      readStore env.network F msg := by
    unfold readStore
    cases htext : afterSpace msg with
    | none => rfl
    | some text =>
        rw [Option.map_some, Option.map_some]
        show some ((parse text).bind readFrame) = some ((env.parse text).bind readFrame)
        rw [hparse text htext]
  rw [handle, handle]
  cases hc : command msg with
  | STORE =>
      dsimp only
      unfold handleStore
      rw [hread]
      rfl
  | RAFT_REQUEST_VOTE => exact hpayload readVoteArgs (callRequestVote (D := D) raft)
  | RAFT_APPEND_ENTRIES => exact hpayload readAppendArgs (callAppendEntries (D := D) raft)
  | PING => rfl
  | UNKNOWN => rfl
  | GET =>
      rw [hc] at hcmd
      cases hcmd

/-! ## The two cuts -/

theorem afterSpace_skip {left : List UInt8} (rest : List UInt8) (h : 32 ∉ left) :
    afterSpace (left ++ rest) = afterSpace rest := by
  induction left with
  | nil => rfl
  | cons b left ih =>
      rw [List.mem_cons, not_or] at h
      rw [List.cons_append, afterSpace, if_neg (Ne.symm h.1)]
      exact ih h.2

theorem afterSpace_cut {left : List UInt8} (right : List UInt8) (h : 32 ∉ left) :
    afterSpace (left ++ 32 :: right) = some right := by
  rw [afterSpace_skip _ h]
  simp [afterSpace]

theorem afterSpace_of_not_mem {text : List UInt8} (h : 32 ∉ text) : afterSpace text = none := by
  have hskip := afterSpace_skip [] h
  rwa [List.append_nil] at hskip

theorem nextToken_split (text : List UInt8) :
    text = text.takeWhile isSpace ++ ((nextToken text).1 ++ (nextToken text).2) := by
  rw [nextToken]
  dsimp only
  rw [List.takeWhile_append_dropWhile, List.takeWhile_append_dropWhile]

theorem not_mem_of_solid {word : List UInt8} (h : Solid word) : 32 ∉ word := by
  intro hmem
  exact absurd (h 32 hmem) (by decide)

/-- Blanks before a text that starts with a word are skipped. -/
theorem dropWhile_blanks_word {blanks word : List UInt8} (rest : List UInt8)
    (hblanks : ∀ b ∈ blanks, isSpace b = true) (hword : Solid word) (hne : word ≠ []) :
    (blanks ++ (word ++ rest)).dropWhile isSpace = word ++ rest := by
  rw [List.dropWhile_append_of_pos hblanks]
  refine dropWhile_eq_self ?_
  rw [List.head?_append_of_ne_nil _ hne]
  intro b hb
  exact hword b (List.mem_of_mem_head? hb)

/-- After the word, both cuts agree if there are only blanks up to the space. -/
theorem dropWhile_afterSpace_iff (rest : List UInt8) :
    ((afterSpace rest).getD []).dropWhile isSpace = rest.dropWhile isSpace ↔
      ∀ b ∈ rest.takeWhile (· ≠ 32), isSpace b = true := by
  by_cases hspace : 32 ∈ rest
  · obtain ⟨left, right, rfl, hleft⟩ := List.eq_append_cons_of_mem hspace
    rw [afterSpace_cut right hleft, Option.getD_some, takeWhile_cut right hleft]
    constructor
    · intro heq
      by_contra hnot
      -- Something of the part before the space is left, so the space is left as well.
      have hne : (left.dropWhile isSpace).isEmpty ≠ true := by
        rw [Ne, List.isEmpty_iff, List.dropWhile_eq_nil_iff]
        exact hnot
      have hlen := congrArg List.length heq
      rw [List.dropWhile_append, if_neg hne, List.length_append, List.length_cons] at hlen
      have hle := (List.dropWhile_sublist isSpace (l := right)).length_le
      omega
    · intro hall
      rw [List.dropWhile_append_of_pos hall]
      rfl
  · have htake : rest.takeWhile (· ≠ 32) = rest :=
      List.takeWhile_eq_self_iff.mpr (ne_of_not_mem hspace)
    rw [afterSpace_of_not_mem hspace, htake, Option.getD_none, List.dropWhile_nil, eq_comm,
      List.dropWhile_eq_nil_iff]

/-- **Command and payload are split in the same place** exactly if the first space of the
message follows the command, with nothing but blanks in between. -/
theorem split_consistent_iff (hcmd : (command msg).TakesPayload) :
    SplitConsistent msg ↔ SpaceAfterCommand msg := by
  have hword : Solid (nextToken msg).1 := solid_nextToken msg
  have hne : (nextToken msg).1 ≠ [] := by
    intro hnil
    rw [command, getFirstToken, hnil] at hcmd
    exact absurd hcmd (by decide)
  have hblanks : ∀ b ∈ msg.takeWhile isSpace, isSpace b = true :=
    fun b hb => List.mem_takeWhile_imp hb
  have hsplit := nextToken_split msg
  rw [SplitConsistent, jsonText_eq hcmd, SpaceAfterCommand]
  generalize msg.takeWhile isSpace = blanks at hsplit hblanks ⊢
  generalize (nextToken msg).1 = word at hsplit hword hne
  generalize (nextToken msg).2 = rest at hsplit ⊢
  by_cases hspace : 32 ∈ blanks
  · -- The handler parses the command along with what follows.
    obtain ⟨left, right, hcut, hleft⟩ := List.eq_append_cons_of_mem hspace
    refine iff_of_false ?_ fun h => h.1 hspace
    have hafter : afterSpace msg = some (right ++ (word ++ rest)) := by
      rw [hsplit, hcut, List.append_assoc, List.cons_append, afterSpace_cut _ hleft]
    rw [hafter, Option.getD_some, dropWhile_blanks_word rest ?_ hword hne]
    · intro heq
      have hlen := congrArg List.length heq
      have hle := (List.dropWhile_sublist isSpace (l := rest)).length_le
      have hpos := List.length_pos_of_ne_nil hne
      rw [List.length_append] at hlen
      omega
    · intro b hb
      exact hblanks b (hcut ▸ List.mem_append_right _ (List.mem_cons_of_mem _ hb))
  · have hafter : afterSpace msg = afterSpace rest := by
      rw [hsplit, afterSpace_skip _ hspace, afterSpace_skip _ (not_mem_of_solid hword)]
    rw [hafter, dropWhile_afterSpace_iff]
    exact ⟨fun h => ⟨hspace, h⟩, fun h => h.2⟩

theorem split_consistent_sample :
    SplitConsistent (utf8 "\tSTORE\n  \x7b\"image_id\": \"a b\"\x7d") :=
  (split_consistent_iff (by decide)).mpr (by decide)

/-- A space before the command, and a tab after it. -/
theorem split_inconsistent :
    command (utf8 " STORE \x7b\x7d") = .STORE ∧ ¬ SplitConsistent (utf8 " STORE \x7b\x7d") ∧
      command (utf8 "STORE\t\x7b\"image_id\": 1\x7d") = .STORE ∧
      ¬ SplitConsistent (utf8 "STORE\t\x7b\"image_id\": 1\x7d") := by
  unfold SplitConsistent
  decide

end Server
end YoloServer
