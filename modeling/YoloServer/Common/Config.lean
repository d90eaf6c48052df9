import Mathlib.Logic.Function.Basic
import Mathlib.Tactic.Ring

/-!
# The configuration (`common/config/Config.cpp`)

Keys and values as they were read from the file, and the access with a default.
-/

namespace YoloServer

open Function

/-- `config::Config`. -/
structure Config where
  data : String → Option String

namespace Config

def empty : Config where
  data _ := none

/-- `Config::set`. -/
def set (c : Config) (key value : String) : Config where
  data := update c.data key (some value)

/-- A configuration with the given keys, later ones replacing earlier ones. -/
def ofPairs (pairs : List (String × String)) : Config :=
  pairs.foldl (fun c p => c.set p.1 p.2) empty

/-- `Config::getString`. -/
def getString (c : Config) (key defaultValue : String) : String :=
  (c.data key).getD defaultValue

/-- The characters that `std::stoi` skips at the start of a text. -/
def isSpace (c : Char) : Bool :=
  c.toNat = 32 || (9 ≤ c.toNat && c.toNat ≤ 13)

/-- `std::stoi`: blanks, a sign and digits; what follows is ignored.  There is no
result without a digit, and none outside the range of `int`. -/
def stoi (text : String) : Option Int :=
  let rest := text.toList.dropWhile isSpace
  let negative := rest.head? = some '-'
  let signed := negative || rest.head? = some '+'
  let digits := (if signed then rest.tail else rest).takeWhile Char.isDigit
  let magnitude : Int := (digits.foldl (fun n d => 10 * n + (d.toNat - 48)) 0 : Nat)
  let value := if negative then -magnitude else magnitude
  if digits ≠ [] ∧ -2 ^ 31 ≤ value ∧ value < 2 ^ 31 then some value else none

/-- `Config::getInt`. -/
def getInt (c : Config) (key : String) (defaultValue : Int) : Int :=
  match c.data key with
  | some value => (stoi value).getD defaultValue
  | none => defaultValue

end Config
end YoloServer
