import YoloServer.Json.Written

/-!
# The values that `json::parse` returns

`Accepted j` describes these values: an unsigned number is below `2^64`, an integer with a sign is not
positive and at least `-2^63`, a `double` is finite, and the members of an object are
in the order of their keys.  So what was read can be written and read again, and its text does
not change any more after the first time (`parse_dump_normal`).

`lookup_setMembers` says which member `at` finds if a key was written more than once, and
`brace_of_parse` that the text of an object has a closing brace.
-/

namespace YoloServer
namespace Json

variable {D : Type}

/-! ## Members -/

theorem mem_setMember {key : String} {value : Json D} {members : List (String × Json D)}
    {member : String × Json D} (h : member ∈ setMember key value members) :
    member = (key, value) ∨ member ∈ members := by
  induction members with
  | nil => exact .inl (List.mem_singleton.mp h)
  | cons first rest ih =>
      obtain ⟨k, v⟩ := first
      rw [setMember] at h
      split_ifs at h with hlt heq
      · exact List.mem_cons.mp h
      · obtain h | h := List.mem_cons.mp h
        · exact .inl h
        · exact .inr (List.mem_cons_of_mem _ h)
      · obtain h | h := List.mem_cons.mp h
        · exact .inr (h ▸ List.mem_cons_self)
        · exact (ih h).imp_right (List.mem_cons_of_mem _)

/-- The keys stay in order. -/
theorem sorted_setMember (key : String) (value : Json D) {members : List (String × Json D)}
    (h : members.Pairwise fun a b => a.1 < b.1) :
    (setMember key value members).Pairwise fun a b => a.1 < b.1 := by
  induction members with
  | nil => exact List.pairwise_singleton _ _
  | cons first rest ih =>
      obtain ⟨k, v⟩ := first
      obtain ⟨hfirst, hrest⟩ := List.pairwise_cons.mp h
      rw [setMember]
      split_ifs with hlt heq
      · refine List.pairwise_cons.mpr ⟨?_, h⟩
        intro member hmember
        obtain rfl | hmember := List.mem_cons.mp hmember
        · exact hlt
        · exact lt_trans hlt (hfirst member hmember)
      · subst heq
        exact List.pairwise_cons.mpr ⟨hfirst, hrest⟩
      · refine List.pairwise_cons.mpr ⟨?_, ih hrest⟩
        intro member hmember
        obtain rfl | hmember := mem_setMember hmember
        · exact lt_of_le_of_ne (not_lt.mp hlt) (Ne.symm heq)
        · exact hfirst member hmember

theorem sorted_setMembers {members : List (String × Json D)}
    (h : members.Pairwise fun a b => a.1 < b.1) (written : List (String × Json D)) :
    (setMembers members written).Pairwise fun a b => a.1 < b.1 := by
  induction written generalizing members with
  | nil => exact h
  | cons member written ih => exact ih (sorted_setMember _ _ h)

theorem mem_setMembers {members written : List (String × Json D)} {member : String × Json D}
    (h : member ∈ setMembers members written) : member ∈ members ∨ member ∈ written := by
  induction written generalizing members with
  | nil => exact .inl h
  | cons first written ih =>
      obtain h | h := ih h
      · obtain rfl | h := mem_setMember h
        · exact .inr List.mem_cons_self
        · exact .inl h
      · exact .inr (List.mem_cons_of_mem _ h)

theorem lookup_cons_ite (k key : String) (value : Json D) (members : List (String × Json D)) :
    ((key, value) :: members).lookup k = if k = key then some value else members.lookup k := by
  rw [List.lookup_cons]
  by_cases h : k = key
  · rw [if_pos h, beq_iff_eq.mpr h]
  · rw [if_neg h, beq_eq_false_iff_ne.mpr h]

theorem lookup_setMember (key : String) (value : Json D) (members : List (String × Json D))
    (k : String) :
    (setMember key value members).lookup k = if k = key then some value else members.lookup k := by
  induction members with
  | nil => exact lookup_cons_ite k key value []
  | cons first rest ih =>
      obtain ⟨k', v⟩ := first
      rw [setMember]
      by_cases hlt : key < k'
      · rw [if_pos hlt, lookup_cons_ite]
      · rw [if_neg hlt]
        by_cases heq : key = k'
        · rw [if_pos heq, lookup_cons_ite, lookup_cons_ite, ← heq]
          split_ifs
          · rfl
          · rfl
        · rw [if_neg heq, lookup_cons_ite, lookup_cons_ite, ih]
          by_cases hkey : k = key
          · rw [if_pos hkey, if_pos hkey, if_neg (hkey ▸ heq)]
          · rw [if_neg hkey, if_neg hkey]

/-- `at` finds the member that was written last. -/
theorem lookup_setMembers (members written : List (String × Json D)) (k : String) :
    (setMembers members written).lookup k =
      (written.reverse.lookup k).or (members.lookup k) := by
  induction written generalizing members with
  | nil => rfl
  | cons first written ih =>
      obtain ⟨key, value⟩ := first
      show (setMembers (setMember key value members) written).lookup k = _
      rw [ih, lookup_setMember, List.reverse_cons, List.lookup_append, lookup_cons_ite]
      cases written.reverse.lookup k with
      | some value => rfl
      | none =>
          split_ifs
          · rfl
          · rfl

/-! ## What is accepted -/

variable [IsFinite D]

mutual

/-- The values of the parser. -/
def Accepted : Json D → Prop
  | .unsigned n => n < 2 ^ 64
  | .integer n => -2 ^ 63 ≤ n ∧ n ≤ 0
  | .float d => IsFinite.isFinite d = true
  | .array items => AcceptedItems items
  | .object members => (members.Pairwise fun a b => a.1 < b.1) ∧ AcceptedMembers members
  | .null | .boolean _ | .string _ => True

def AcceptedItems : List (Json D) → Prop
  | [] => True
  | item :: rest => Accepted item ∧ AcceptedItems rest

def AcceptedMembers : List (String × Json D) → Prop
  | [] => True
  | (_, value) :: rest => Accepted value ∧ AcceptedMembers rest

end

theorem acceptedMembers_iff {members : List (String × Json D)} :
    AcceptedMembers members ↔ ∀ member ∈ members, Accepted member.2 := by
  induction members with
  | nil => simp [AcceptedMembers]
  | cons member rest ih =>
      obtain ⟨key, value⟩ := member
      rw [AcceptedMembers, ih, List.forall_mem_cons]

mutual

theorem Accepted.writable : ∀ {j : Json D}, Accepted j → Writable j
  | .null, _ | .boolean _, _ | .string _, _ | .float _, _ => trivial
  | .unsigned _, h => h
  | .integer _, h => ⟨h.1, by have := h.2; omega⟩
  | .array items, h => (show AcceptedItems items from h).writable
  | .object members, h =>
      ⟨List.pairwise_map.mpr h.1, (show AcceptedMembers members from h.2).writable⟩

theorem AcceptedItems.writable : ∀ {items : List (Json D)}, AcceptedItems items →
    WritableItems items
  | [], _ => trivial
  | _ :: _, h => ⟨h.1.writable, AcceptedItems.writable h.2⟩

theorem AcceptedMembers.writable : ∀ {members : List (String × Json D)},
    AcceptedMembers members → WritableMembers members
  | [], _ => trivial
  | (_, _) :: _, h => ⟨h.1.writable, AcceptedMembers.writable h.2⟩

end

variable [Strtod D]

theorem accepted_scalar {text rest : List UInt8} {token : Token D} {value : Json D}
    (htoken : Reads text token rest) (hvalue : scalar token = some value) : Accepted value := by
  obtain ⟨space, lexeme, -, -, hlexeme⟩ := htoken
  cases hlexeme with
  | structural h =>
      rw [structural] at h
      split_ifs at h <;> cases h <;> cases hvalue
  | literal h =>
      rw [literal] at h
      split_ifs at h <;> cases h <;> cases hvalue <;> trivial
  | string h =>
      cases hvalue
      trivial
  | @number bytes _ type _ _ _ =>
      obtain ⟨n, hn, hconvert⟩ | ⟨n, hn, hconvert⟩ | ⟨d, hconvert⟩ :=
        convert_cases (D := D) type bytes
      · rw [hconvert] at hvalue
        cases hvalue
        exact hn
      · rw [hconvert] at hvalue
        cases hvalue
        exact hn
      · rw [hconvert, scalar] at hvalue
        split_ifs at hvalue with hfinite
        cases hvalue
        exact hfinite
  | endOfText | nul => cases hvalue

mutual

theorem Value.accepted {text rest : List UInt8} {value : Json D} :
    Value text value rest → Accepted value
  | .scalar htoken hvalue => accepted_scalar htoken hvalue
  | .emptyArray _ _ => trivial
  | .array _ hitems => hitems.accepted
  | .emptyObject _ _ => ⟨.nil, trivial⟩
  | .object _ hmembers => by
      refine ⟨sorted_setMembers .nil _, acceptedMembers_iff.mpr ?_⟩
      intro member hmember
      obtain h | h := mem_setMembers hmember
      · cases h
      · exact acceptedMembers_iff.mp hmembers.accepted member h

theorem Items.accepted {text rest : List UInt8} {values : List (Json D)} :
    Items text values rest → AcceptedItems values
  | .last hvalue _ => ⟨hvalue.accepted, trivial⟩
  | .more hvalue _ hitems => ⟨hvalue.accepted, hitems.accepted⟩

theorem Members.accepted {text rest : List UInt8} {members : List (String × Json D)} :
    Members text members rest → AcceptedMembers members
  | .last _ _ hvalue _ => ⟨hvalue.accepted, trivial⟩
  | .more _ _ hvalue _ hmembers => ⟨hvalue.accepted, hmembers.accepted⟩

end

/-- Whatever the text, the parser returns a value of this kind. -/
theorem accepted_of_parse {text : List UInt8} {value : Json D} (h : parse text = some value) :
    Accepted value := by
  obtain ⟨body, after, rest, -, hvalue, -⟩ := (parse_iff_document _ _).mp h
  exact hvalue.accepted

/-! ## The text that is written for a text -/

/-- **Writing what was read is a normal form**: whatever text the parser accepts, its value is one
that can be held, and it is written as a text that is accepted again and written as it is. -/
theorem parse_dump_normal [Double D] (hdump : LawfulDump D) {text : List UInt8} {value : Json D}
    (h : parse text = some value) :
    Accepted value ∧ ∃ again : Json D, parse (dump value) = some again ∧ dump again = dump value := by
  have haccepted := accepted_of_parse h
  exact ⟨haccepted, reread value, rereads_of_writable hdump haccepted.writable,
    dump_reread hdump value⟩

/-- The value of a text in which a key is given twice. -/
def repeatedKey : Json Tenths :=
  .object [("a", .float ⟨15⟩), ("b", .array [])]

theorem repeated_key_normal :
    ∃ again : Json Tenths,
      parse (dump repeatedKey) = some again ∧ dump again = dump repeatedKey := by
  have hparse : parse (utf8 " \x7b\"b\": -0, \"a\":1.50, \"b\":[ ] \x7d") = some repeatedKey := rfl
  exact (parse_dump_normal Tenths.lawfulDump hparse).2

/-! ## The text of an object -/

omit [IsFinite D] in
theorem Reads.suffix {text rest : List UInt8} {token : Token D} (h : Reads text token rest) :
    rest <:+ text := by
  obtain ⟨space, lexeme, rfl, -, hlexeme⟩ := h
  refine List.IsSuffix.trans ?_ (List.suffix_append space lexeme)
  cases hlexeme with
  | structural _ | nul => exact List.suffix_cons _ _
  | @literal c word _ _ _ => exact List.suffix_append (c :: word) rest
  | @string s body _ _ => exact ⟨34 :: (body ++ [34]), by simp⟩
  | number _ _ => exact List.suffix_append _ _
  | endOfText => exact List.suffix_rfl

omit [IsFinite D] in
theorem Reads.brace {text rest : List UInt8} (h : Reads text (.endObject : Token D) rest) :
    125 ∈ text := by
  obtain ⟨space, lexeme, rfl, -, hlexeme⟩ := h
  apply List.mem_append_right
  generalize htoken : (.endObject : Token D) = token at hlexeme
  cases hlexeme with
  | @structural c _ _ h =>
      subst htoken
      rw [structural] at h
      split_ifs at h with h₁ h₂ h₃ h₄ h₅ h₆ <;> cases h
      rw [h₄]
      exact List.mem_cons_self
  | literal h =>
      subst htoken
      rw [literal] at h
      split_ifs at h <;> cases h
  | @number bytes _ type _ _ _ =>
      obtain ⟨n, -, hn⟩ | ⟨n, -, hn⟩ | ⟨d, hn⟩ := convert_cases (D := D) type bytes
      all_goals
        rw [hn] at htoken
        cases htoken
  | string _ | endOfText | nul => cases htoken

mutual

theorem Value.suffix {text rest : List UInt8} {value : Json D} :
    Value text value rest → rest <:+ text
  | .scalar htoken _ => htoken.suffix
  | .emptyArray hbegin hend | .emptyObject hbegin hend => hend.suffix.trans hbegin.suffix
  | .array hbegin hitems => hitems.suffix.trans hbegin.suffix
  | .object hbegin hmembers => hmembers.suffix.trans hbegin.suffix

theorem Items.suffix {text rest : List UInt8} {values : List (Json D)} :
    Items text values rest → rest <:+ text
  | .last hvalue hend => hend.suffix.trans hvalue.suffix
  | .more hvalue hcomma hitems => hitems.suffix.trans (hcomma.suffix.trans hvalue.suffix)

theorem Members.suffix {text rest : List UInt8} {members : List (String × Json D)} :
    Members text members rest → rest <:+ text
  | .last hkey hcolon hvalue hend =>
      hend.suffix.trans (hvalue.suffix.trans (hcolon.suffix.trans hkey.suffix))
  | .more hkey hcolon hvalue hcomma hmembers =>
      hmembers.suffix.trans (hcomma.suffix.trans
        (hvalue.suffix.trans (hcolon.suffix.trans hkey.suffix)))

end

theorem Members.brace {text rest : List UInt8} {members : List (String × Json D)} :
    Members text members rest → 125 ∈ text
  | .last hkey hcolon hvalue hend =>
      (hvalue.suffix.trans (hcolon.suffix.trans hkey.suffix)).mem hend.brace
  | .more hkey hcolon hvalue hcomma hmembers =>
      (hcomma.suffix.trans (hvalue.suffix.trans (hcolon.suffix.trans hkey.suffix))).mem
        hmembers.brace

/-- No object is read from a text without a closing brace. -/
theorem brace_of_parse {text : List UInt8} {members : List (String × Json D)}
    (h : parse text = some (.object members)) : 125 ∈ text := by
  obtain ⟨body, after, rest, htext, hvalue, -⟩ := (parse_iff_document _ _).mp h
  have hbody : 125 ∈ body := by
    generalize hobject : Json.object members = value at hvalue
    cases hvalue with
    | @scalar _ _ token value _ hvalue =>
        subst hobject
        cases token with
        | valueFloat d =>
            rw [scalar] at hvalue
            split_ifs at hvalue
            cases hvalue
        | _ => cases hvalue
    | emptyArray _ _ | array _ _ => cases hobject
    | emptyObject hbegin hend => exact hbegin.suffix.mem hend.brace
    | object hbegin hmembers => exact hbegin.suffix.mem hmembers.brace
  obtain rfl | rfl := htext
  · exact hbody
  · simp [hbody]

end Json
end YoloServer
