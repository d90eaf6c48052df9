import YoloServer.Common.Json

/-!
# Writing a JSON value and reading it back

What `json::parse(j.dump())` yields.  A value comes back as it was, up to two changes:
an integer without a sign is read as an unsigned number, and a number that is not
finite was written as `null`.

`Rereads parse j` says that the parser does this with the text of `j`.  It is the only
thing the round trips of this development assume of the parser.
-/

namespace YoloServer

/-- `std::isfinite`. -/
class IsFinite (D : Type) where
  isFinite : D → Bool

namespace Json

variable {D : Type} [IsFinite D]

mutual

/-- The value that is read from the text of a value. -/
def reread : Json D → Json D
  | .null => .null
  | .boolean b => .boolean b
  | .unsigned n => .unsigned n
  | .integer n => if 0 ≤ n then .unsigned n.toNat else .integer n
  | .float d => if IsFinite.isFinite d then .float d else .null
  | .string s => .string s
  | .array items => .array (rereadItems items)
  | .object members => .object (rereadMembers members)

def rereadItems : List (Json D) → List (Json D)
  | [] => []
  | item :: rest => reread item :: rereadItems rest

def rereadMembers : List (String × Json D) → List (String × Json D)
  | [] => []
  | (key, value) :: rest => (key, reread value) :: rereadMembers rest

end

theorem rereadItems_eq_map (items : List (Json D)) : rereadItems items = items.map reread := by
  induction items with
  | nil => rfl
  | cons item rest ih => rw [rereadItems, ih, List.map_cons]

theorem lookup_rereadMembers (members : List (String × Json D)) (key : String) :
    (rereadMembers members).lookup key = (members.lookup key).map reread := by
  induction members with
  | nil => rfl
  | cons member rest ih =>
      obtain ⟨k, value⟩ := member
      rw [rereadMembers, List.lookup_cons, List.lookup_cons, ih]
      split
      · rfl
      · rfl

theorem at?_reread (j : Json D) (key : String) : (reread j).at? key = (j.at? key).map reread := by
  cases j with
  | object members => exact lookup_rereadMembers members key
  | integer n =>
      rw [reread]
      split_ifs
      · rfl
      · rfl
  | float d =>
      rw [reread]
      split_ifs
      · rfl
      · rfl
  | _ => rfl

/-- The parser reads back what `dump` has written. -/
def Rereads [Double D] (parse : List UInt8 → Option (Json D)) (j : Json D) : Prop :=
  parse (dump j) = some (reread j)

/-! ## Conversions -/

/-- A number in the range of `int` is converted to itself. -/
theorem bmod_of_range {n : Int} (h : -2 ^ 31 ≤ n ∧ n < 2 ^ 31) : Int.bmod n (2 ^ 32) = n := by
  apply Int.bmod_eq_of_le
  · omega
  · omega

/-- An `int` is read back as it was. -/
theorem getInt_reread_integer [Double D] {n : Int} (h : -2 ^ 31 ≤ n ∧ n < 2 ^ 31) :
    (reread (.integer n : Json D)).getInt = some n := by
  have hmod := bmod_of_range h
  rw [reread]
  split_ifs with hsign
  · rw [getInt, Int.toNat_of_nonneg hsign, hmod]
  · rw [getInt, hmod]

end Json
end YoloServer
