import YoloServer.Json.Grammar
import Mathlib.Data.String.Basic

/-!
# `json::parse` reads what `dump` has written

`Writable j` says that `j` is a value which the C++ type can hold: the integers are in the range of
their types and the members of an object are in the order of their keys.  `value_dump` derives the
text of such a value in the grammar, and `rereads_of_writable` is the round trip.

`dump_eq_iff_reread_eq` says which values have the same text.

The text of a `double` and its conversion are parameters.  `LawfulDump` states what the
library promises of them, and `Tenths` is an instance.
-/

namespace YoloServer
namespace Json

variable {D : Type}

/-! ## Values that can be written -/

mutual

/-- The integers fit into their types, and the keys of an object increase. -/
def Writable : Json D → Prop
  | .unsigned n => n < 2 ^ 64
  | .integer n => -2 ^ 63 ≤ n ∧ n < 2 ^ 63
  | .array items => WritableItems items
  | .object members => (members.map Prod.fst).Pairwise (· < ·) ∧ WritableMembers members
  | .null | .boolean _ | .float _ | .string _ => True

def WritableItems : List (Json D) → Prop
  | [] => True
  | item :: rest => Writable item ∧ WritableItems rest

def WritableMembers : List (String × Json D) → Prop
  | [] => True
  | (_, value) :: rest => Writable value ∧ WritableMembers rest

end

/-- A `double` is written as a number with a point or an exponent that `strtod` reads as the same
`double`, and as `null` if it is not finite. -/
structure LawfulDump (D : Type) [Double D] [Strtod D] [IsFinite D] : Prop where
  null : ∀ d : D, IsFinite.isFinite d = false → Double.dump d = utf8 "null"
  number : ∀ d : D, IsFinite.isFinite d = true →
    (∃ final, Number (Double.dump d) .float final) ∧ Strtod.strtod (Double.dump d) = d

/-! ## Numbers with one digit after the point -/

/-- A number of tenths, to try the results on. -/
structure Tenths where
  tenths : Int
  deriving DecidableEq

namespace Tenths

/-- The tenths in a text without a sign. -/
def magnitude (text : List UInt8) : Nat :=
  10 * digitsValue (text.takeWhile isDigit) +
    match text.dropWhile isDigit with
    | 46 :: d :: _ => d.toNat - 48
    | _ => 0

instance : Strtod Tenths where
  strtod text :=
    if text.head? = some 45 then ⟨-(magnitude text.tail)⟩ else ⟨magnitude text⟩

instance : IsFinite Tenths where
  isFinite _ := true

/-- The text of a magnitude. -/
def digits (n : Nat) : List UInt8 :=
  utf8 (Nat.repr (n / 10)) ++ [46, UInt8.ofNat (48 + n % 10)]

instance : Double Tenths where
  toUInt64 d := (d.tenths.tdiv 10 % 2 ^ 64).toNat
  toInt d := Int.bmod (d.tenths.tdiv 10) (2 ^ 32)
  dump d := if d.tenths < 0 then 45 :: digits d.tenths.natAbs else digits d.tenths.natAbs

theorem isDigit_of_intPart {bytes : List UInt8} {state : NumberState} (h : IntPart bytes state) :
    ∀ b ∈ bytes, isDigit b = true := by
  cases h with
  | zero => simp [isDigit]
  | digits hd _ hds =>
      intro b hb
      obtain rfl | hb := List.mem_cons.mp hb
      · exact hd
      · exact hds b hb

theorem isDigit_repr (n : Nat) : ∀ b ∈ utf8 (Nat.repr n), isDigit b = true := by
  obtain ⟨state, hint⟩ := exists_intPart_repr n
  exact isDigit_of_intPart hint

theorem magnitude_digits (n : Nat) : magnitude (digits n) = n := by
  have hmod := Nat.mod_lt n (show 0 < 10 by decide)
  have hpoint : isDigit 46 = false := by decide
  have htake : (digits n).takeWhile isDigit = utf8 (Nat.repr (n / 10)) := by
    rw [digits, List.takeWhile_append_of_pos (isDigit_repr _), List.takeWhile_cons, hpoint]
    simp
  have hdrop : (digits n).dropWhile isDigit = [46, UInt8.ofNat (48 + n % 10)] := by
    rw [digits, List.dropWhile_append_of_pos (isDigit_repr _), List.dropWhile_cons, hpoint]
    simp
  rw [magnitude, htake, hdrop, digitsValue_repr]
  show 10 * (n / 10) + ((UInt8.ofNat (48 + n % 10)).toNat - 48) = n
  rw [toNat_digit hmod]
  omega

theorem suffix_digits (n : Nat) (state : NumberState) (type : NumberType) :
    Suffix state type [46, UInt8.ofNat (48 + n % 10)] .float .decimal2 :=
  .frac (.mk ⟨by simp, by simpa using isDigit_ofNat (Nat.mod_lt n (by decide))⟩)

/-- The first byte is a digit or the point, so there is no sign. -/
theorem strtod_digits (n : Nat) : (Strtod.strtod (digits n) : Tenths) = ⟨n⟩ := by
  have hhead : (digits n).head? ≠ some 45 := by
    intro h
    rw [digits, List.head?_append] at h
    cases hdigits : (utf8 (Nat.repr (n / 10))).head? with
    | none =>
        rw [hdigits] at h
        cases h
    | some b =>
        rw [hdigits] at h
        cases h
        have hdigit := isDigit_repr _ 45 (List.mem_of_mem_head? hdigits)
        cases hdigit
  show (if _ then _ else _) = _
  rw [if_neg hhead, magnitude_digits]

theorem lawfulDump : LawfulDump Tenths where
  null _ h := by cases h
  number d _ := by
    obtain ⟨state, hint⟩ := exists_intPart_repr (d.tenths.natAbs / 10)
    show (∃ final, Number (if d.tenths < 0 then _ else _) .float final) ∧
      Strtod.strtod (if d.tenths < 0 then _ else _) = d
    split_ifs with hsign
    · refine ⟨⟨_, .minus hint (suffix_digits _ _ _)⟩, ?_⟩
      show (⟨-(magnitude (digits d.tenths.natAbs))⟩ : Tenths) = d
      rw [magnitude_digits, show -(d.tenths.natAbs : Int) = d.tenths by omega]
    · refine ⟨⟨_, .plain hint (suffix_digits _ _ _)⟩, ?_⟩
      rw [strtod_digits, show (d.tenths.natAbs : Int) = d.tenths by omega]

end Tenths

/-! ## Strings -/

theorem hexValue_hexDigit {n : Nat} (h : n < 16) : hexValue (hexDigit n) = some n := by
  have hall : ∀ n : Fin 16, hexValue (hexDigit n.val) = some n.val := by decide
  exact hall ⟨n, h⟩

/-- The escapes that `dump` writes. -/
theorem spells_escape (c : Char) : Spells c (escape c) := by
  rw [escape]
  split
  next h => exact .short (b := 98) (x := 8) rfl h
  next h => exact .short (b := 116) (x := 9) rfl h
  next h => exact .short (b := 110) (x := 10) rfl h
  next h => exact .short (b := 102) (x := 12) rfl h
  next h => exact .short (b := 114) (x := 13) rfl h
  next h => exact .short (b := 34) (x := 34) rfl h
  next h => exact .short (b := 92) (x := 92) rfl h
  next =>
    split_ifs with hcontrol
    · have hhex := Hex4.mk (a := 48) (b := 48) (w := 0) (x := 0) rfl rfl
        (hexValue_hexDigit (n := c.toNat / 16) (by omega))
        (hexValue_hexDigit (n := c.toNat % 16) (by omega))
      have hvalue : 0 * 0x1000 + 0 * 0x100 + c.toNat / 16 * 0x10 + c.toNat % 16 = c.toNat := by
        omega
      rw [hvalue] at hhex
      exact .unicode (.single hhex)
    · exact .plain (by omega) (by omega) (by omega)

theorem spelling_escape (cs : List Char) : Spelling cs (cs.flatMap escape) := by
  induction cs with
  | nil => exact .nil
  | cons c cs ih =>
      rw [List.flatMap_cons]
      exact .cons (spells_escape c) ih

/-! ## Texts of tokens -/

section Tokens

variable [Strtod D]

/-- A token at the front of the text. -/
theorem Lexeme.reads {text rest : List UInt8} {token : Token D} (h : Lexeme text token rest) :
    Reads text token rest :=
  ⟨[], text, rfl, by simp, h⟩

theorem reads_quote (s : String) (rest : List UInt8) :
    Reads (quote s ++ rest) (.valueString s : Token D) rest := by
  have htext : quote s ++ rest = 34 :: (s.toList.flatMap escape ++ 34 :: rest) := by
    rw [quote, List.append_assoc, List.append_assoc]
    rfl
  rw [htext]
  exact (Lexeme.string (spelling_escape s.toList)).reads

/-- What follows a value in a text that `dump` has written. -/
def Ends (rest : List UInt8) : Prop :=
  ∀ b ∈ rest.head?, b = 44 ∨ b = 93 ∨ b = 125

theorem Ends.stops {rest : List UInt8} (h : Ends rest) {final : NumberState}
    (hdone : final.isDone = true) : final.Stops rest := by
  intro b hb
  obtain rfl | rfl | rfl := h b hb
  all_goals
    cases final with
    | zero | any1 | decimal2 | any2 => rfl
    | _ => cases hdone

theorem Number.isDone {bytes : List UInt8} {type : NumberType} {final : NumberState}
    (h : Number bytes type final) : final.isDone = true := by
  obtain ⟨-, -, -, -, -, hdone⟩ := run_of_number h
  exact hdone

theorem reads_number {bytes rest : List UInt8} {type : NumberType} {final : NumberState}
    (h : Number bytes type final) (hrest : Ends rest) :
    Reads (bytes ++ rest) (convert type bytes : Token D) rest :=
  (Lexeme.number h (hrest.stops h.isDone)).reads

theorem number_repr (n : Nat) : ∃ final, Number (utf8 (Nat.repr n)) .unsigned final := by
  obtain ⟨state, hint⟩ := exists_intPart_repr n
  refine ⟨state, ?_⟩
  have hnumber := Number.plain hint .none
  rwa [List.append_nil] at hnumber

theorem number_repr_minus (n : Nat) : ∃ final, Number (45 :: utf8 (Nat.repr n)) .integer final := by
  obtain ⟨state, hint⟩ := exists_intPart_repr n
  refine ⟨state, ?_⟩
  have hnumber := Number.minus hint .none
  rwa [List.append_nil] at hnumber

theorem reads_unsigned {n : Nat} (h : n < 2 ^ 64) {rest : List UInt8} (hrest : Ends rest) :
    Reads (utf8 (Nat.repr n) ++ rest) (.valueUnsigned n : Token D) rest := by
  obtain ⟨final, hnumber⟩ := number_repr n
  have hreads := reads_number (D := D) hnumber hrest
  rwa [convert, digitsValue_repr, if_pos h] at hreads

theorem reads_negative {n : Nat} (h : n ≤ 2 ^ 63) {rest : List UInt8} (hrest : Ends rest) :
    Reads (45 :: utf8 (Nat.repr n) ++ rest) (.valueInteger (-(n : Int)) : Token D) rest := by
  obtain ⟨final, hnumber⟩ := number_repr_minus n
  have hreads := reads_number (D := D) hnumber hrest
  rwa [convert, List.tail_cons, digitsValue_repr, if_pos h] at hreads

/-- The text of an integer, by its sign. -/
theorem utf8_toString_int (n : Int) :
    utf8 (toString n) = if 0 ≤ n then utf8 (Nat.repr n.toNat) else 45 :: utf8 (Nat.repr n.natAbs) := by
  cases n with
  | ofNat n => rfl
  | negSucc n => rfl

end Tokens

/-! ## Members in order -/

/-- A key after all the others is appended. -/
theorem setMember_append {key : String} (value : Json D) {members : List (String × Json D)}
    (h : ∀ member ∈ members, member.1 < key) :
    setMember key value members = members ++ [(key, value)] := by
  induction members with
  | nil => rfl
  | cons member rest ih =>
      obtain ⟨k, v⟩ := member
      have hlt : k < key := h (k, v) (by simp)
      rw [setMember, if_neg (lt_asymm hlt), if_neg (ne_of_gt hlt),
        ih fun member hmember => h member (by simp [hmember]), List.cons_append]

/-- Members that come in the order of their keys are kept as they come. -/
theorem setMembers_of_sorted {members written : List (String × Json D)}
    (h : ((members ++ written).map Prod.fst).Pairwise (· < ·)) :
    setMembers members written = members ++ written := by
  induction written generalizing members with
  | nil => simp [setMembers]
  | cons member written ih =>
      obtain ⟨key, value⟩ := member
      have hbefore : ∀ member ∈ members, member.1 < key := by
        intro member hmember
        rw [List.map_append, List.pairwise_append] at h
        exact h.2.2 _ (List.mem_map_of_mem hmember) _ (by simp)
      show setMembers (setMember key value members) written = _
      rw [setMember_append value hbefore, ih]
      · simp
      · simpa using h

theorem map_fst_rereadMembers [IsFinite D] (members : List (String × Json D)) :
    (rereadMembers members).map Prod.fst = members.map Prod.fst := by
  induction members with
  | nil => rfl
  | cons member rest ih =>
      obtain ⟨key, value⟩ := member
      rw [rereadMembers, List.map_cons, List.map_cons, ih]

/-! ## The text of a value -/

variable [Double D] [Strtod D] [IsFinite D]

theorem ends_nil : Ends [] := by
  simp [Ends]

theorem ends_cons {b : UInt8} (h : b = 44 ∨ b = 93 ∨ b = 125) (rest : List UInt8) :
    Ends (b :: rest) := by
  intro c hc
  cases hc
  exact h

theorem value_float (hdump : LawfulDump D) (d : D) {rest : List UInt8} (hrest : Ends rest) :
    Value (Double.dump d ++ rest) (reread (.float d)) rest := by
  rw [reread]
  split_ifs with hfinite
  · obtain ⟨⟨final, hnumber⟩, hstrtod⟩ := hdump.number d hfinite
    have hreads := reads_number (D := D) hnumber hrest
    rw [convert, hstrtod] at hreads
    exact .scalar hreads (by rw [scalar, if_pos hfinite])
  · rw [hdump.null d (by simpa using hfinite)]
    exact .scalar (Lexeme.literal (c := 110) rfl).reads rfl

omit [Double D] in
theorem value_integer {n : Int} (h : -2 ^ 63 ≤ n ∧ n < 2 ^ 63) {rest : List UInt8}
    (hrest : Ends rest) :
    Value (utf8 (toString n) ++ rest) (reread (.integer n : Json D)) rest := by
  rw [utf8_toString_int, reread]
  split_ifs with hsign
  · exact .scalar (reads_unsigned (by omega) hrest) rfl
  · have hreads := reads_negative (D := D) (n := n.natAbs) (by omega) hrest
    rw [show -(n.natAbs : Int) = n by omega] at hreads
    exact .scalar hreads rfl

mutual

/-- The text of a value is a text of the grammar for the value that is read back. -/
theorem value_dump (hdump : LawfulDump D) : ∀ (j : Json D), Writable j →
    ∀ {rest : List UInt8}, Ends rest → Value (dump j ++ rest) (reread j) rest
  | .null, _, _, _ => .scalar (Lexeme.literal (c := 110) rfl).reads rfl
  | .boolean true, _, _, _ => .scalar (Lexeme.literal (c := 116) rfl).reads rfl
  | .boolean false, _, _, _ => .scalar (Lexeme.literal (c := 102) rfl).reads rfl
  | .unsigned n, h, _, hrest => .scalar (reads_unsigned h hrest) rfl
  | .integer n, h, _, hrest => value_integer h hrest
  | .float d, _, _, hrest => value_float hdump d hrest
  | .string s, _, _, _ => .scalar (reads_quote s _) rfl
  | .array [], _, _, _ =>
      .emptyArray (Lexeme.structural (c := 91) rfl).reads (Lexeme.structural (c := 93) rfl).reads
  | .array (item :: items), h, rest, _ => by
      have hitems := items_dump hdump (item :: items) h (by simp) rest
      have htext : dump (.array (item :: items)) ++ rest =
          91 :: (dumpItems (item :: items) ++ 93 :: rest) := by
        rw [dump, List.append_assoc, List.append_assoc]
        rfl
      rw [htext, reread]
      exact .array (Lexeme.structural (c := 91) rfl).reads hitems
  | .object [], _, _, _ =>
      .emptyObject (Lexeme.structural (c := 123) rfl).reads
        (Lexeme.structural (c := 125) rfl).reads
  | .object (member :: members), h, rest, _ => by
      have hmembers := members_dump hdump (member :: members) h.2 (by simp) rest
      have htext : dump (.object (member :: members)) ++ rest =
          123 :: (dumpMembers (member :: members) ++ 125 :: rest) := by
        rw [dump, List.append_assoc, List.append_assoc]
        rfl
      have hsorted : setMembers [] (rereadMembers (member :: members)) =
          rereadMembers (member :: members) := by
        apply setMembers_of_sorted
        rw [List.nil_append, map_fst_rereadMembers]
        exact h.1
      rw [htext, reread, ← hsorted]
      exact .object (Lexeme.structural (c := 123) rfl).reads hmembers

theorem items_dump (hdump : LawfulDump D) : ∀ (items : List (Json D)), WritableItems items →
    items ≠ [] → ∀ rest, Items (dumpItems items ++ 93 :: rest) (rereadItems items) rest
  | [], _, hne, _ => absurd rfl hne
  | [item], h, _, rest => by
      rw [dumpItems]
      exact .last (value_dump hdump item h.1 (ends_cons (.inr (.inl rfl)) rest))
        (Lexeme.structural rfl).reads
  | item :: next :: items, h, _, rest => by
      have htext : dumpItems (item :: next :: items) ++ 93 :: rest =
          dump item ++ 44 :: (dumpItems (next :: items) ++ 93 :: rest) := by
        rw [dumpItems, List.append_assoc, List.append_assoc]
        rfl
      rw [htext]
      exact .more (value_dump hdump item h.1 (ends_cons (.inl rfl) _)) (Lexeme.structural rfl).reads
        (items_dump hdump (next :: items) h.2 (by simp) rest)

theorem members_dump (hdump : LawfulDump D) : ∀ (members : List (String × Json D)),
    WritableMembers members → members ≠ [] →
    ∀ rest, Members (dumpMembers members ++ 125 :: rest) (rereadMembers members) rest
  | [], _, hne, _ => absurd rfl hne
  | [(key, value)], h, _, rest => by
      have htext : dumpMembers [(key, value)] ++ 125 :: rest =
          quote key ++ 58 :: (dump value ++ 125 :: rest) := by
        rw [dumpMembers, List.append_assoc, List.append_assoc]
        rfl
      rw [htext]
      exact .last (reads_quote key _) (Lexeme.structural rfl).reads
        (value_dump hdump value h.1 (ends_cons (.inr (.inr rfl)) rest)) (Lexeme.structural rfl).reads
  | (key, value) :: next :: members, h, _, rest => by
      have htext : dumpMembers ((key, value) :: next :: members) ++ 125 :: rest =
          quote key ++ 58 :: (dump value ++ 44 :: (dumpMembers (next :: members) ++ 125 :: rest)) := by
        rw [dumpMembers]
        simp only [List.append_assoc]
        rfl
      rw [htext]
      exact .more (reads_quote key _) (Lexeme.structural rfl).reads
        (value_dump hdump value h.1 (ends_cons (.inl rfl) _)) (Lexeme.structural rfl).reads
        (members_dump hdump (next :: members) h.2 (by simp) rest)

end

/-- `json::parse` reads back every value that `dump` writes. -/
theorem rereads_of_writable (hdump : LawfulDump D) {j : Json D} (h : Writable j) :
    Rereads parse j := by
  have hvalue := value_dump hdump j h ends_nil
  rw [List.append_nil] at hvalue
  exact (parse_iff_document _ _).mpr ⟨_, [], [], .inl rfl, hvalue, Lexeme.endOfText.reads⟩

/-! ## Values with the same text -/

omit [Strtod D] [IsFinite D] in
theorem dump_unsigned_toNat {n : Int} (h : 0 ≤ n) :
    dump (.unsigned n.toNat : Json D) = dump (.integer n : Json D) := by
  rw [dump, dump, utf8_toString_int, if_pos h]

mutual

/-- The changes that reading back makes are not seen in the text. -/
theorem dump_reread (hdump : LawfulDump D) : ∀ j : Json D, dump (reread j) = dump j
  | .null | .boolean _ | .string _ | .unsigned _ => rfl
  | .integer n => by
      rw [reread]
      split_ifs with hsign
      · exact dump_unsigned_toNat hsign
      · rfl
  | .float d => by
      rw [reread]
      split_ifs with hfinite
      · rfl
      · exact (hdump.null d (by simpa using hfinite)).symm
  | .array items => by
      rw [reread, dump, dump, dumpItems_reread hdump items]
  | .object members => by
      rw [reread, dump, dump, dumpMembers_reread hdump members]

theorem dumpItems_reread (hdump : LawfulDump D) : ∀ items : List (Json D),
    dumpItems (rereadItems items) = dumpItems items
  | [] => rfl
  | [item] => dump_reread hdump item
  | item :: next :: rest => by
      have hrest := dumpItems_reread hdump (next :: rest)
      rw [rereadItems] at hrest
      rw [rereadItems, rereadItems, dumpItems, dumpItems, dump_reread hdump item, hrest]

theorem dumpMembers_reread (hdump : LawfulDump D) : ∀ members : List (String × Json D),
    dumpMembers (rereadMembers members) = dumpMembers members
  | [] => rfl
  | [(key, value)] => by
      rw [rereadMembers, rereadMembers, dumpMembers, dumpMembers, dump_reread hdump value]
  | (key, value) :: (key', value') :: rest => by
      have hrest := dumpMembers_reread hdump ((key', value') :: rest)
      rw [rereadMembers] at hrest
      rw [rereadMembers, rereadMembers, dumpMembers, dumpMembers, dump_reread hdump value, hrest]

end

/-- **Two values have the same text exactly if they are read back as the same value.** -/
theorem dump_eq_iff_reread_eq (hdump : LawfulDump D) {j k : Json D} (hj : Writable j)
    (hk : Writable k) : dump j = dump k ↔ reread j = reread k := by
  constructor
  · intro h
    have hread : parse (dump j) = some (reread j) := rereads_of_writable hdump hj
    rw [h, show parse (dump k) = some (reread k) from rereads_of_writable hdump hk] at hread
    exact (Option.some.inj hread).symm
  · intro h
    rw [← dump_reread hdump j, h, dump_reread hdump k]

/-- A signed and an unsigned number with the same digits. -/
theorem dump_signed_eq_unsigned :
    dump (.array [.integer 7, .float ⟨-3⟩] : Json Tenths) =
      dump (.array [.unsigned 7, .float ⟨-3⟩] : Json Tenths) := by
  refine (dump_eq_iff_reread_eq Tenths.lawfulDump ?_ ?_).mpr rfl
  · exact ⟨show -2 ^ 63 ≤ (7 : Int) ∧ (7 : Int) < 2 ^ 63 by decide, trivial, trivial⟩
  · exact ⟨show 7 < 2 ^ 64 by decide, trivial, trivial⟩

end Json
end YoloServer
