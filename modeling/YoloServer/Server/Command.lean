import Mathlib.Data.List.TakeWhile
import YoloServer.Common.Json

/-!
# Commands (`server/Command.cpp`)

The first word of a message says which handler gets it.  Words are separated as by
`operator>>` of a stream in the classic locale.
-/

namespace YoloServer
namespace Server

/-- `std::isspace`. -/
def isSpace (b : UInt8) : Bool :=
  b = 32 || (9 ≤ b && b ≤ 13)

/-- `iss >> token`: the next word, which is empty at the end of the text, and what
follows it. -/
def nextToken (text : List UInt8) : List UInt8 × List UInt8 :=
  let rest := text.dropWhile isSpace
  (rest.takeWhile fun b => !isSpace b, rest.dropWhile fun b => !isSpace b)

/-- `getFirstToken`. -/
def getFirstToken (msg : List UInt8) : List UInt8 :=
  (nextToken msg).1

/-- The second word, as `handleGet` reads it. -/
def getSecondToken (msg : List UInt8) : List UInt8 :=
  (nextToken (nextToken msg).2).1

/-- `CommandType`. -/
inductive CommandType where
  | PING
  | STORE
  | GET
  | RAFT_REQUEST_VOTE
  | RAFT_APPEND_ENTRIES
  | UNKNOWN
  deriving DecidableEq, Repr

/-- `parseCommand`. -/
def parseCommand (cmd : List UInt8) : CommandType :=
  if cmd = utf8 "PING" then .PING
  else if cmd = utf8 "STORE" then .STORE
  else if cmd = utf8 "GET" then .GET
  else if cmd = utf8 "RAFT_REQUEST_VOTE" then .RAFT_REQUEST_VOTE
  else if cmd = utf8 "RAFT_APPEND_ENTRIES" then .RAFT_APPEND_ENTRIES
  else .UNKNOWN

/-- The command of a message. -/
def command (msg : List UInt8) : CommandType :=
  parseCommand (getFirstToken msg)

/-! ## Words -/

/-- A text without blanks. -/
def Solid (text : List UInt8) : Prop :=
  ∀ b ∈ text, isSpace b = false

instance (text : List UInt8) : Decidable (Solid text) :=
  List.decidableBAll (fun b => isSpace b = false) text

theorem nextToken_append {word rest : List UInt8} (hword : Solid word) (hne : word ≠ [])
    (hrest : ∀ b ∈ rest.head?, isSpace b = true) : nextToken (word ++ rest) = (word, rest) := by
  have hskip : (word ++ rest).dropWhile isSpace = word ++ rest := by
    obtain ⟨first, tail, rfl⟩ := List.exists_cons_of_ne_nil hne
    simp [hword first List.mem_cons_self]
  have hall : ∀ b ∈ word, (!isSpace b) = true := by
    intro b hb
    simp [hword b hb]
  simp only [nextToken, hskip]
  rw [List.takeWhile_append_of_pos hall, List.dropWhile_append_of_pos hall]
  cases rest with
  | nil => simp
  | cons b tail => simp [hrest b rfl]

/-- A word that was read has no blanks. -/
theorem solid_nextToken (text : List UInt8) : Solid (nextToken text).1 := by
  intro b hb
  simpa using List.mem_takeWhile_imp hb

/-- A text of a word, a blank and more. -/
theorem command_append {word : String} (rest : List UInt8) (hword : Solid (utf8 word))
    (hne : utf8 word ≠ []) :
    command (utf8 word ++ 32 :: rest) = parseCommand (utf8 word) := by
  rw [command, getFirstToken, nextToken_append hword hne]
  intro b hb
  cases hb
  rfl

theorem afterSpace_append {word : List UInt8} (rest : List UInt8) (hword : Solid word) :
    afterSpace (word ++ 32 :: rest) = some rest := by
  induction word with
  | nil => simp [afterSpace]
  | cons b word ih =>
      have hb : b ≠ 32 := by
        rintro rfl
        exact absurd (hword 32 List.mem_cons_self) (by decide)
      rw [List.cons_append, afterSpace, if_neg hb]
      exact ih fun c hc => hword c (List.mem_cons_of_mem _ hc)

end Server
end YoloServer
