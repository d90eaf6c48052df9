import Mathlib.Data.List.Sort
import Mathlib.Tactic.Ring

/-!
# JSON values (`nlohmann::json`)

The values, the member access and the conversions that the source uses, and the
text written by `dump()`.  A text is a list of bytes.  Where the library throws an
exception, the functions here return `none`.  The callers catch `std::exception` around
them, except for `handleGet` around `decode`.

The arithmetic of `double` is a parameter of the development (`Double`).  So is the parser in most
modules; that of the library is `Json.parse` (`Json.Parser`), and `Server.ParsedMessages` puts it
in.
-/

namespace YoloServer

/-! ## Texts -/

/-- The bytes of a `std::string`. -/
def utf8 (s : String) : List UInt8 :=
  s.toByteArray.data.toList

/-- `s.substr(s.find(' ') + 1)`, if there is a blank. -/
def afterSpace : List UInt8 → Option (List UInt8)
  | [] => none
  | b :: rest => if b = 32 then some rest else afterSpace rest

/-- What is left after the first blank is a part of the text. -/
theorem mem_of_afterSpace {text rest : List UInt8} (h : afterSpace text = some rest) {b : UInt8}
    (hb : b ∈ rest) : b ∈ text := by
  induction text with
  | nil => simp [afterSpace] at h
  | cons c text ih =>
      rw [afterSpace] at h
      split_ifs at h with hc
      · cases h
        exact List.mem_cons_of_mem _ hb
      · exact List.mem_cons_of_mem _ (ih h)

/-! ## Values -/

/-- The operations on `double` that the source and the library use. -/
class Double (D : Type) where
  /-- `static_cast<uint64_t>` -/
  toUInt64 : D → Nat
  /-- `static_cast<int>` -/
  toInt : D → Int
  /-- the shortest text that is read back as the same number -/
  dump : D → List UInt8

/-- `nlohmann::json`.  A number read from a text is `unsigned` if it is an integer
without a sign, `integer` if it has one, and `float` otherwise. -/
inductive Json (D : Type) where
  | null
  | boolean (b : Bool)
  | unsigned (n : Nat)
  | integer (n : Int)
  | float (d : D)
  | string (s : String)
  | array (items : List (Json D))
  | object (members : List (String × Json D))

namespace Json

variable {D : Type}

/-- `json{{key, value}, …}`: the members are kept in the order of their keys. -/
def ofMembers (members : List (String × Json D)) : Json D :=
  .object (members.insertionSort fun a b => a.1 ≤ b.1)

theorem ofMembers_pair {k₁ k₂ : String} (v₁ v₂ : Json D) (h : k₁ ≤ k₂) :
    ofMembers [(k₁, v₁), (k₂, v₂)] = .object [(k₁, v₁), (k₂, v₂)] := by
  simp [ofMembers, List.insertionSort, h]

theorem ofMembers_pair_swap {k₁ k₂ : String} (v₁ v₂ : Json D) (h : ¬ k₁ ≤ k₂) :
    ofMembers [(k₁, v₁), (k₂, v₂)] = .object [(k₂, v₂), (k₁, v₁)] := by
  simp [ofMembers, List.insertionSort, List.orderedInsert, h]

/-- `j.at(key)`. -/
def at? (j : Json D) (key : String) : Option (Json D) :=
  match j with
  | .object members => members.lookup key
  | _ => none

/-- With distinct keys, the first pair with a key is the only one. -/
theorem lookup_eq_some_iff_mem {members : List (String × Json D)}
    (hnodup : (members.map Prod.fst).Nodup) {key : String} {value : Json D} :
    members.lookup key = some value ↔ (key, value) ∈ members := by
  rw [List.lookup_eq_some_iff]
  constructor
  · rintro ⟨before, after, rfl, -⟩
    simp
  · intro hmem
    obtain ⟨before, after, rfl⟩ := List.append_of_mem hmem
    refine ⟨before, after, rfl, fun p hp => ?_⟩
    rw [List.map_append] at hnodup
    have hne := List.disjoint_of_nodup_append hnodup (List.mem_map_of_mem hp)
    rw [bne_iff_ne]
    rintro rfl
    exact hne (by simp)

/-- The order of the members does not matter for `at`. -/
theorem at?_ofMembers {members : List (String × Json D)}
    (hnodup : (members.map Prod.fst).Nodup) (key : String) :
    (ofMembers members).at? key = members.lookup key := by
  have hperm : (members.insertionSort fun a b => a.1 ≤ b.1).Perm members :=
    List.perm_insertionSort _ _
  have hsorted : ((members.insertionSort fun a b => a.1 ≤ b.1).map Prod.fst).Nodup :=
    (hperm.map Prod.fst).nodup_iff.mpr hnodup
  show (members.insertionSort fun a b => a.1 ≤ b.1).lookup key = members.lookup key
  ext value
  rw [lookup_eq_some_iff_mem hsorted, lookup_eq_some_iff_mem hnodup, hperm.mem_iff]

/-- `j[key]` of a value that may change: a missing member is created as null. -/
def index (j : Json D) (key : String) : Option (Json D) :=
  match j with
  | .object members => some ((members.lookup key).getD .null)
  | .null => some .null
  | _ => none

/-- How an access can fail: the library throws an exception, or an assertion of the library
fails. -/
inductive Fault where
  | exception
  | assertion
  deriving DecidableEq, Repr

/-- A conversion or an access that throws where it has no result. -/
def orThrow {α : Type} : Option α → Except Fault α
  | some a => .ok a
  | none => .error .exception

/-- `j[key]` of a constant value: an object must have the member. -/
def constIndex (j : Json D) (key : String) : Except Fault (Json D) :=
  match j with
  | .object members =>
      match members.lookup key with
      | some value => .ok value
      | none => .error .assertion
  | _ => .error .exception

/-- `get<bool>()`. -/
def getBool : Json D → Option Bool
  | .boolean b => some b
  | _ => none

/-- `get<std::string>()`. -/
def getString : Json D → Option String
  | .string s => some s
  | _ => none

/-- `get<uint64_t>()`. -/
def getUInt64 [Double D] : Json D → Option Nat
  | .unsigned n => some (n % 2 ^ 64)
  | .integer n => some (n % 2 ^ 64).toNat
  | .float d => some (Double.toUInt64 d)
  | _ => none

/-- `get<int>()`: the value modulo `2^32`, also of a boolean. -/
def getInt [Double D] : Json D → Option Int
  | .unsigned n => some (Int.bmod n (2 ^ 32))
  | .integer n => some (Int.bmod n (2 ^ 32))
  | .float d => some (Double.toInt d)
  | .boolean b => some (if b then 1 else 0)
  | _ => none

/-! ## Writing -/

/-- A hexadecimal digit. -/
def hexDigit (n : Nat) : UInt8 :=
  if n < 10 then UInt8.ofNat (48 + n) else UInt8.ofNat (87 + n)

/-- One character inside a string literal. -/
def escape (c : Char) : List UInt8 :=
  match c.toNat with
  | 8 => utf8 "\\b"
  | 9 => utf8 "\\t"
  | 10 => utf8 "\\n"
  | 12 => utf8 "\\f"
  | 13 => utf8 "\\r"
  | 34 => utf8 "\\\""
  | 92 => utf8 "\\\\"
  | n =>
      if n < 32 then
        utf8 "\\u00" ++ [hexDigit (n / 16), hexDigit (n % 16)]
      else
        String.utf8EncodeChar c

/-- A string literal. -/
def quote (s : String) : List UInt8 :=
  utf8 "\"" ++ s.toList.flatMap escape ++ utf8 "\""

mutual

/-- `j.dump()`. -/
def dump [Double D] : Json D → List UInt8
  | .null => utf8 "null"
  | .boolean b => utf8 (if b then "true" else "false")
  | .unsigned n => utf8 (Nat.repr n)
  | .integer n => utf8 (toString n)
  | .float d => Double.dump d
  | .string s => quote s
  | .array items => utf8 "[" ++ dumpItems items ++ utf8 "]"
  | .object members => utf8 "\x7b" ++ dumpMembers members ++ utf8 "\x7d"

/-- The items of an array, separated by commas. -/
def dumpItems [Double D] : List (Json D) → List UInt8
  | [] => []
  | [item] => dump item
  | item :: next :: rest => dump item ++ utf8 "," ++ dumpItems (next :: rest)

/-- The members of an object, separated by commas. -/
def dumpMembers [Double D] : List (String × Json D) → List UInt8
  | [] => []
  | [(key, value)] => quote key ++ utf8 ":" ++ dump value
  | (key, value) :: next :: rest =>
      quote key ++ utf8 ":" ++ dump value ++ utf8 "," ++ dumpMembers (next :: rest)

end

/-- A parser that knows some texts only. -/
def parseTable (table : List (List UInt8 × Json D)) (text : List UInt8) : Option (Json D) :=
  table.lookup text

theorem dump_pair [Double D] (k₁ k₂ : String) (v₁ v₂ : Json D) :
    dump (.object [(k₁, v₁), (k₂, v₂)]) =
      utf8 "\x7b" ++ quote k₁ ++ utf8 ":" ++ dump v₁ ++ utf8 "," ++ quote k₂ ++ utf8 ":" ++
        dump v₂ ++ utf8 "\x7d" := by
  simp only [dump, dumpMembers, List.append_assoc]

end Json

/-! ## Numbers in a text -/

theorem isDigit_val {c : Char} (h : c.isDigit = true) : c.val.toNat ≤ 57 := by
  simp only [Char.isDigit, Bool.and_eq_true, decide_eq_true_eq] at h
  exact h.2

/-- A digit is one byte. -/
theorem utf8_repr (n : Nat) :
    utf8 (Nat.repr n) = (Nat.toDigits 10 n).map fun c => c.val.toUInt8 := by
  have hdigits : ∀ c ∈ Nat.toDigits 10 n, String.utf8EncodeChar c = [c.val.toUInt8] := by
    intro c hc
    have hval := isDigit_val (Nat.isDigit_of_mem_toDigits (by decide) (by decide) hc)
    refine String.utf8EncodeChar_eq_singleton (Char.utf8Size_eq_one_iff.mpr ?_)
    exact Nat.le_trans hval (by decide)
  simp only [utf8, Nat.repr_eq_ofList_toDigits, String.toByteArray_ofList, List.utf8Encode,
    List.data_toByteArray]
  rw [List.flatMap_congr hdigits, ← List.map_eq_flatMap]

theorem length_utf8_repr_le {n k : Nat} (hk : 0 < k) (h : n < 10 ^ k) :
    (utf8 (Nat.repr n)).length ≤ k := by
  rw [utf8_repr, List.length_map]
  exact (Nat.length_toDigits_le_iff (by decide) hk).mpr h

theorem le_of_mem_utf8_repr {n : Nat} {b : UInt8} (h : b ∈ utf8 (Nat.repr n)) : b ≤ 57 := by
  rw [utf8_repr] at h
  obtain ⟨c, hc, rfl⟩ := List.mem_map.mp h
  have hval := isDigit_val (Nat.isDigit_of_mem_toDigits (by decide) (by decide) hc)
  rw [UInt8.le_iff_toNat_le, UInt32.toNat_toUInt8]
  exact Nat.le_trans (Nat.mod_le _ _) hval

end YoloServer
