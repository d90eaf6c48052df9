import Mathlib.Data.List.Forall2
import YoloServer.Common.YoloCodec
import YoloServer.Raft.Messages

/-!
# The payload of a Raft message (`server/Connection.cpp`)

The members of a payload are read with the `operator[]` for values that may change: a
missing one is null, and its conversion throws.  The members of an entry are read with
the constant `operator[]`, and a missing one fails an assertion of the library.

* `VoteArgsIn` and `AppendArgsIn` say what a payload has to hold, and
  `readVoteArgs_ok_iff` and `readAppendArgs_ok_iff` that nothing else is accepted.
* `readAppendArgs_assertion_iff`: the assertion fails exactly if the payload is
  complete up to an entry that is an object and lacks a member.
-/

namespace YoloServer
namespace Server

open Json Raft Lib

section Decoding

variable {D : Type} [Double D] {α : Type}

/-- `args.x = j[key]`, with the conversion `get`. -/
def member (get : Json D → Option α) (j : Json D) (key : String) : Except Fault α := do
  orThrow (get (← orThrow (j.index key)))

/-- `entry.x = j_entry[key]`, with the conversion `get`. -/
def constMember (get : Json D → Option α) (j : Json D) (key : String) : Except Fault α := do
  orThrow (get (← constIndex j key))

/-- The arguments of `handleRaftRequestVote`. -/
def readVoteArgs (j : Json D) : Except Fault RequestVoteArgs := do
  let term ← member getUInt64 j "term"
  let candidateId ← member getString j "candidateId"
  let lastLogIndex ← member getUInt64 j "lastLogIndex"
  let lastLogTerm ← member getUInt64 j "lastLogTerm"
  pure { term, candidateId, lastLogIndex, lastLogTerm }

/-- One iteration of the loop over the entries. -/
def readEntry (j : Json D) : Except Fault LogEntry := do
  let term ← constMember getUInt64 j "term"
  let index ← constMember getUInt64 j "index"
  let key ← constMember getString j "key"
  let value ← constMember getString j "value"
  pure { term, index, key, value }

/-- The loop over the entries. -/
def readEntries : List (Json D) → Except Fault (List LogEntry)
  | [] => pure []
  | value :: rest => do
      let entry ← readEntry value
      let entries ← readEntries rest
      pure (entry :: entries)

/-- The values that the loop over the entries runs through; without the member
`entries` there are none. -/
def entryValues (j : Json D) : List (Json D) :=
  match j.at? "entries" with
  | some values => values.elements
  | none => []

/-- The arguments of `handleRaftAppendEntries`. -/
def readAppendArgs (j : Json D) : Except Fault AppendEntriesArgs := do
  let term ← member getUInt64 j "term"
  let leaderId ← member getString j "leaderId"
  let prevLogIndex ← member getUInt64 j "prevLogIndex"
  let prevLogTerm ← member getUInt64 j "prevLogTerm"
  let leaderCommit ← member getUInt64 j "leaderCommit"
  let entries ← readEntries (entryValues j)
  pure { term, leaderId, prevLogIndex, prevLogTerm, entries, leaderCommit }

end Decoding

/-! ## What a payload has to hold -/

section Contents

variable {D : Type} [Double D] {α : Type}

/-- The value is an object with a member that is converted to `a`. -/
def Has (get : Json D → Option α) (j : Json D) (key : String) (a : α) : Prop :=
  ∃ value, j.at? key = some value ∧ get value = some a

/-- The payload holds the arguments of a RequestVote. -/
structure VoteArgsIn (j : Json D) (args : RequestVoteArgs) : Prop where
  term : Has getUInt64 j "term" args.term
  candidateId : Has getString j "candidateId" args.candidateId
  lastLogIndex : Has getUInt64 j "lastLogIndex" args.lastLogIndex
  lastLogTerm : Has getUInt64 j "lastLogTerm" args.lastLogTerm

/-- The value holds an entry. -/
structure EntryIn (j : Json D) (entry : LogEntry) : Prop where
  term : Has getUInt64 j "term" entry.term
  index : Has getUInt64 j "index" entry.index
  key : Has getString j "key" entry.key
  value : Has getString j "value" entry.value

/-- The members of an AppendEntries other than the entries. -/
structure HeaderIn (j : Json D) (args : AppendEntriesArgs) : Prop where
  term : Has getUInt64 j "term" args.term
  leaderId : Has getString j "leaderId" args.leaderId
  prevLogIndex : Has getUInt64 j "prevLogIndex" args.prevLogIndex
  prevLogTerm : Has getUInt64 j "prevLogTerm" args.prevLogTerm
  leaderCommit : Has getUInt64 j "leaderCommit" args.leaderCommit

/-- The payload holds the arguments of an AppendEntries. -/
structure AppendArgsIn (j : Json D) (args : AppendEntriesArgs) : Prop where
  header : HeaderIn j args
  entries : List.Forall₂ EntryIn (entryValues j) args.entries

/-- An object without this member. -/
def Lacks (j : Json D) (key : String) : Prop :=
  (∃ members, j = .object members) ∧ j.at? key = none

/-- An object that lacks a member of an entry, and has those that are read before it. -/
def LacksMember (j : Json D) : Prop :=
  Lacks j "term" ∨
    (∃ n, Has getUInt64 j "term" n) ∧
      (Lacks j "index" ∨
        (∃ n, Has getUInt64 j "index" n) ∧
          (Lacks j "key" ∨ (∃ text, Has getString j "key" text) ∧ Lacks j "value"))

/-- The first of the values that holds no entry is an object that lacks a member. -/
def LacksFirst (values : List (Json D)) : Prop :=
  ∃ before value after, values = before ++ value :: after ∧
    (∀ v ∈ before, ∃ entry, EntryIn v entry) ∧ LacksMember value

variable {get : Json D → Option α} {j : Json D} {key : String} {a : α}

omit [Double D] in
theorem orThrow_eq_ok {o : Option α} : orThrow o = .ok a ↔ o = some a := by
  cases o with
  | none => simp [orThrow]
  | some b => simp [orThrow]

omit [Double D] in
theorem orThrow_ne_assertion {o : Option α} : orThrow o ≠ .error .assertion := by
  cases o with
  | none => simp [orThrow]
  | some b => simp [orThrow]

omit [Double D] in
/-- Null is converted to nothing, so a missing member is as good as a wrong one. -/
theorem member_ok_iff (hnull : get .null = none) : member get j key = .ok a ↔ Has get j key a := by
  rw [member, bind_eq_ok]
  simp only [orThrow_eq_ok, Has]
  cases j with
  | object members =>
      simp only [index, at?, Option.some.injEq, exists_eq_left']
      cases hlookup : members.lookup key with
      | none => simp [hnull]
      | some value => simp
  | null => simp [index, at?, hnull]
  | _ => simp [index, at?]

omit [Double D] in
theorem member_ne_assertion : member get j key ≠ .error .assertion := by
  intro h
  rcases bind_eq_error.mp h with h | ⟨value, -, h⟩
  · exact orThrow_ne_assertion h
  · exact orThrow_ne_assertion h

omit [Double D] in
theorem constIndex_eq_ok {value : Json D} :
    constIndex j key = .ok value ↔ j.at? key = some value := by
  cases j with
  | object members =>
      simp only [constIndex, at?]
      cases members.lookup key with
      | none => simp
      | some v => simp
  | _ => simp [constIndex, at?]

omit [Double D] in
theorem constIndex_assertion_iff : constIndex j key = .error .assertion ↔ Lacks j key := by
  cases j with
  | object members =>
      simp only [constIndex, at?, Lacks]
      cases members.lookup key with
      | none => simp
      | some v => simp
  | _ => simp [constIndex, Lacks]

omit [Double D] in
theorem constMember_ok_iff : constMember get j key = .ok a ↔ Has get j key a := by
  rw [constMember, bind_eq_ok]
  simp only [orThrow_eq_ok, constIndex_eq_ok, Has]

omit [Double D] in
theorem constMember_assertion_iff : constMember get j key = .error .assertion ↔ Lacks j key := by
  rw [constMember, bind_eq_error, constIndex_assertion_iff]
  constructor
  · rintro (h | ⟨value, -, h⟩)
    · exact h
    · exact absurd h orThrow_ne_assertion
  · exact .inl

theorem getUInt64_null : getUInt64 (.null : Json D) = none := rfl

omit [Double D] in
theorem getString_null : getString (.null : Json D) = none := rfl

theorem readVoteArgs_ok_iff {args : RequestVoteArgs} :
    readVoteArgs j = .ok args ↔ VoteArgsIn j args := by
  simp only [readVoteArgs, bind_eq_ok, member_ok_iff getUInt64_null, member_ok_iff getString_null]
  constructor
  · rintro ⟨term, hterm, candidateId, hid, lastLogIndex, hindex, lastLogTerm, hlast, hargs⟩
    cases hargs
    exact ⟨hterm, hid, hindex, hlast⟩
  · rintro ⟨hterm, hid, hindex, hlast⟩
    exact ⟨_, hterm, _, hid, _, hindex, _, hlast, rfl⟩

theorem readVoteArgs_ne_assertion : readVoteArgs j ≠ .error .assertion := by
  simp [readVoteArgs, bind_eq_error, member_ne_assertion, pure, Except.pure]

theorem readEntry_ok_iff {entry : LogEntry} : readEntry j = .ok entry ↔ EntryIn j entry := by
  simp only [readEntry, bind_eq_ok, constMember_ok_iff]
  constructor
  · rintro ⟨term, hterm, index, hindex, key, hkey, value, hvalue, hentry⟩
    cases hentry
    exact ⟨hterm, hindex, hkey, hvalue⟩
  · rintro ⟨hterm, hindex, hkey, hvalue⟩
    exact ⟨_, hterm, _, hindex, _, hkey, _, hvalue, rfl⟩

theorem readEntry_assertion_iff : readEntry j = .error .assertion ↔ LacksMember j := by
  simp only [readEntry, bind_eq_error, constMember_ok_iff, constMember_assertion_iff, LacksMember,
    pure, Except.pure, reduceCtorEq, and_false, exists_false, or_false, exists_and_right]

theorem readEntries_ok_iff {values : List (Json D)} {entries : List LogEntry} :
    readEntries values = .ok entries ↔ List.Forall₂ EntryIn values entries := by
  induction values generalizing entries with
  | nil =>
      rw [List.forall₂_nil_left_iff, readEntries]
      constructor
      · intro h
        cases h
        rfl
      · rintro rfl
        rfl
  | cons value rest ih =>
      simp only [readEntries, bind_eq_ok, readEntry_ok_iff, ih]
      constructor
      · rintro ⟨entry, hentry, others, hothers, hentries⟩
        cases hentries
        exact .cons hentry hothers
      · intro h
        cases h with
        | cons hentry hothers => exact ⟨_, hentry, _, hothers, rfl⟩

theorem readEntries_assertion_iff {values : List (Json D)} :
    readEntries values = .error .assertion ↔ LacksFirst values := by
  induction values with
  | nil => simp [readEntries, LacksFirst, pure, Except.pure]
  | cons value rest ih =>
      simp only [readEntries, bind_eq_error, readEntry_ok_iff, readEntry_assertion_iff, ih,
        pure, Except.pure, reduceCtorEq, and_false, exists_false, or_false]
      constructor
      · rintro (hlacks | ⟨entry, hentry, before, jEntry, after, rfl, hbefore, hlacks⟩)
        · exact ⟨[], value, rest, rfl, by simp, hlacks⟩
        · refine ⟨value :: before, jEntry, after, rfl, ?_, hlacks⟩
          exact List.forall_mem_cons.mpr ⟨⟨entry, hentry⟩, hbefore⟩
      · rintro ⟨before, jEntry, after, heq, hbefore, hlacks⟩
        cases before with
        | nil =>
            cases heq
            exact .inl hlacks
        | cons first before =>
            cases heq
            obtain ⟨⟨entry, hentry⟩, hrest⟩ := List.forall_mem_cons.mp hbefore
            exact .inr ⟨entry, hentry, before, jEntry, after, rfl, hrest, hlacks⟩

theorem readAppendArgs_ok_iff {args : AppendEntriesArgs} :
    readAppendArgs j = .ok args ↔ AppendArgsIn j args := by
  simp only [readAppendArgs, bind_eq_ok, member_ok_iff getUInt64_null,
    member_ok_iff getString_null, readEntries_ok_iff]
  constructor
  · rintro ⟨term, hterm, leaderId, hid, prevLogIndex, hindex, prevLogTerm, hprev, leaderCommit,
      hcommit, entries, hentries, hargs⟩
    cases hargs
    exact ⟨⟨hterm, hid, hindex, hprev, hcommit⟩, hentries⟩
  · rintro ⟨⟨hterm, hid, hindex, hprev, hcommit⟩, hentries⟩
    exact ⟨_, hterm, _, hid, _, hindex, _, hprev, _, hcommit, _, hentries, rfl⟩

theorem readAppendArgs_assertion_iff :
    readAppendArgs j = .error .assertion ↔
      (∃ args, HeaderIn j args) ∧ LacksFirst (entryValues j) := by
  simp only [readAppendArgs, bind_eq_error, member_ok_iff getUInt64_null,
    member_ok_iff getString_null, member_ne_assertion, readEntries_assertion_iff,
    false_or, pure, Except.pure, reduceCtorEq, and_false, exists_false, or_false]
  constructor
  · rintro ⟨term, hterm, leaderId, hid, prevLogIndex, hindex, prevLogTerm, hprev, leaderCommit,
      hcommit, hlacks⟩
    exact ⟨⟨⟨term, leaderId, prevLogIndex, prevLogTerm, [], leaderCommit⟩, hterm, hid, hindex,
      hprev, hcommit⟩, hlacks⟩
  · rintro ⟨⟨args, hterm, hid, hindex, hprev, hcommit⟩, hlacks⟩
    exact ⟨_, hterm, _, hid, _, hindex, _, hprev, _, hcommit, hlacks⟩

end Contents

end Server
end YoloServer
