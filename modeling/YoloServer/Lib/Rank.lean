import Mathlib.Data.List.Sort

/-!
# The value at a position of a sorted list

Which value stands at a position of a list in descending order is a matter of
counting: a bound is kept by the value at position `i` exactly if more than `i`
items keep it.

* `le_getElem_iff_lt_countP`: the rule for a list in descending order.
* `le_getD_insertionSort_iff`: the rule for a list that is sorted first, in
  which the count is taken over the unsorted list.
-/

namespace YoloServer
namespace Lib

variable {α : Type*} [LinearOrder α]

/-- Behind an item that misses the bound nothing reaches it. -/
theorem countP_le_eq_zero {a k : α} {l : List α} (h : (a :: l).Pairwise (· ≥ ·))
    (hlt : a < k) : l.countP (k ≤ ·) = 0 := by
  rw [List.countP_eq_zero]
  intro b hb
  have hba : b ≤ a := List.rel_of_pairwise_cons h hb
  simpa using hba.trans_lt hlt

theorem le_getElem_iff_lt_countP {l : List α} (h : l.Pairwise (· ≥ ·)) {i : Nat}
    (hi : i < l.length) (k : α) : k ≤ l[i] ↔ i < l.countP (k ≤ ·) := by
  induction l generalizing i with
  | nil => cases hi
  | cons a l ih =>
      rw [List.countP_cons]
      by_cases hka : k ≤ a
      · -- The first item counts, and the others are one position further on.
        simp only [hka, decide_true, if_true]
        cases i with
        | zero => simpa using hka
        | succ i => simpa using ih h.of_cons (by simpa using hi)
      · have hzero := countP_le_eq_zero h (not_le.mp hka)
        have hmem : (a :: l)[i] ≤ a := by
          cases i with
          | zero => exact le_rfl
          | succ i => exact List.rel_of_pairwise_cons h (List.getElem_mem _)
        simp only [hzero, hka, decide_false, Bool.false_eq_true, if_false, Nat.add_zero,
          Nat.not_lt_zero, iff_false]
        exact fun hle => hka (hle.trans hmem)

/-- The value that a descending sort puts at position `i`. -/
theorem le_getD_insertionSort_iff {l : List α} {i : Nat} (hi : i < l.length) (k d : α) :
    k ≤ (l.insertionSort (· ≥ ·)).getD i d ↔ i < l.countP (k ≤ ·) := by
  have hlength : i < (l.insertionSort (· ≥ ·)).length := by
    rwa [List.length_insertionSort]
  have hcount : (l.insertionSort (· ≥ ·)).countP (k ≤ ·) = l.countP (k ≤ ·) :=
    (List.perm_insertionSort (· ≥ ·) l).countP_eq _
  have hget : (l.insertionSort (· ≥ ·)).getD i d = (l.insertionSort (· ≥ ·))[i] := by
    rw [List.getD_eq_getElem?_getD, List.getElem?_eq_getElem hlength, Option.getD_some]
  rw [hget, le_getElem_iff_lt_countP (List.pairwise_insertionSort (· ≥ ·) l) hlength, hcount]

end Lib
end YoloServer
