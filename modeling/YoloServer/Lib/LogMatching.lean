import Mathlib.Data.List.Infix

/-!
# Lists that match

Two logs match if the key of an item determines everything before it: equal keys at
a position imply equal items up to that position.  Nothing is said about positions
that only one of the lists has.

* `Matching` is the relation, and `Conflict` says that two lists have different keys
  at some position of an interval.
* `Matching.take_eq` extends a common beginning over an interval without a conflict,
  and `Conflict.lt_of_take_eq` keeps conflicts behind a common beginning.
-/

namespace YoloServer
namespace Lib

variable {α κ : Type*} {key : α → κ} {l l' : List α} {lo hi k : Nat}

/-- Equal keys at a position imply equal items up to that position. -/
def Matching (key : α → κ) (l l' : List α) : Prop :=
  ∀ i < l.length, l[i]?.map key = l'[i]?.map key → l.take (i + 1) = l'.take (i + 1)

/-- Both lists reach some position from `lo` on and before `hi`, and their keys differ
there. -/
def Conflict (key : α → κ) (l l' : List α) (lo hi : Nat) : Prop :=
  ∃ i < hi, lo ≤ i ∧ i < l.length ∧ i < l'.length ∧ l[i]?.map key ≠ l'[i]?.map key

instance [DecidableEq α] [DecidableEq κ] : Decidable (Matching key l l') :=
  inferInstanceAs (Decidable (∀ i < l.length, _))

instance [DecidableEq κ] : Decidable (Conflict key l l' lo hi) :=
  inferInstanceAs (Decidable (∃ i < hi, _))

theorem matching_take (key : α → κ) (l : List α) (k : Nat) : Matching key (l.take k) l := by
  intro i hi _
  rw [List.length_take] at hi
  rw [List.take_take, min_eq_left (by omega)]

theorem getElem?_eq_of_take_eq {i : Nat} (h : l.take k = l'.take k) (hi : i < k) :
    l[i]? = l'[i]? := by
  rw [← List.getElem?_take_of_lt hi, h, List.getElem?_take_of_lt hi]

theorem take_eq_of_le {j : Nat} (h : l.take k = l'.take k) (hj : j ≤ k) :
    l.take j = l'.take j := by
  rw [← min_eq_left hj, ← List.take_take, h, List.take_take]

/-! ## Conflicts in an interval -/

theorem not_conflict_empty (h : hi ≤ lo) : ¬ Conflict key l l' lo hi := by
  rintro ⟨i, hhi, hlo, -⟩
  omega

/-- A position with equal keys can be left out of the interval. -/
theorem conflict_succ_iff (h : l[lo]?.map key = l'[lo]?.map key) :
    Conflict key l l' (lo + 1) hi ↔ Conflict key l l' lo hi := by
  constructor
  · rintro ⟨i, hhi, hlo, hrest⟩
    exact ⟨i, hhi, by omega, hrest⟩
  · rintro ⟨i, hhi, hlo, hl, hl', hne⟩
    have hnot : i ≠ lo := by
      rintro rfl
      exact hne h
    exact ⟨i, hhi, by omega, hl, hl', hne⟩

/-- A conflict lies behind every common beginning. -/
theorem Conflict.lt_of_take_eq (h : Conflict key l l' lo hi) (htake : l.take k = l'.take k) :
    k < hi := by
  obtain ⟨i, hhi, -, -, -, hne⟩ := h
  by_contra hk
  exact hne (by rw [getElem?_eq_of_take_eq htake (by omega)])

/-- Lists that match and have the same beginning agree as far as there is no
conflict. -/
theorem Matching.take_eq (h : Matching key l l') (htake : l.take lo = l'.take lo)
    (hl : hi ≤ l.length) (hl' : hi ≤ l'.length) (hnone : ¬ Conflict key l l' lo hi) :
    l.take hi = l'.take hi := by
  by_cases hle : hi ≤ lo
  · exact take_eq_of_le htake hle
  · -- The last position of the interval decides.
    obtain ⟨i, rfl⟩ : ∃ i, hi = i + 1 := ⟨hi - 1, by omega⟩
    refine h i (by omega) ?_
    by_contra hne
    exact hnone ⟨i, by omega, by omega, by omega, by omega, hne⟩

end Lib
end YoloServer
