import Mathlib.Data.List.Perm.Basic
import Mathlib.Tactic.Ring

/-!
# A list of parties, one of which moves

The parties of a system are the elements of a list, and a step replaces one of them.

* `forall_mem_set`: a property of all parties survives if the new one has it.
* `countP_set_add` and `none_of_countP_le_one`: how many parties are in some class, such
  as that of the owner of a lock, and that nobody is left in it when its only member
  leaves.
* `sum_map_set_add` and `sum_map_eraseIdx_add`: a sum over the parties.
* `filterMap_set_perm` and `filterMap_eraseIdx`: what the parties carry with them.
-/

namespace YoloServer
namespace Lib

variable {α β : Type*} {l : List α} {i : Nat} {x y : α}

theorem forall_mem_set {P : α → Prop} (h : ∀ z ∈ l, P z) (hy : P y) : ∀ z ∈ l.set i y, P z := by
  intro z hz
  rcases List.mem_or_eq_of_mem_set hz with hz | rfl
  · exact h z hz
  · exact hy

/-- The change of a count, without subtraction. -/
theorem countP_set_add (p : α → Bool) (h : l[i]? = some x) :
    (l.set i y).countP p + (if p x then 1 else 0) = l.countP p + if p y then 1 else 0 := by
  obtain ⟨hi, rfl⟩ := List.getElem?_eq_some_iff.mp h
  have hpos : (if p l[i] then 1 else 0) ≤ l.countP p := by
    split_ifs with hp
    · exact List.countP_pos_iff.mpr ⟨l[i], List.getElem_mem hi, hp⟩
    · exact Nat.zero_le _
  rw [List.countP_set hi]
  omega

/-- When the only member of a class leaves it, the class is empty. -/
theorem none_of_countP_le_one {p : α → Bool} (hone : l.countP p ≤ 1) (h : l[i]? = some x)
    (hx : p x = true) (hy : p y = false) : ∀ z ∈ l.set i y, p z = false := by
  have hcount := countP_set_add (y := y) p h
  rw [hx, hy] at hcount
  have hzero : (l.set i y).countP p = 0 := by
    simp only [if_true, Bool.false_eq_true, if_false] at hcount
    omega
  intro z hz
  simpa using List.countP_eq_zero.mp hzero z hz

/-- The change of a sum, without subtraction. -/
theorem sum_map_set_add (f : α → Nat) (h : l[i]? = some x) :
    ((l.set i y).map f).sum + f x = (l.map f).sum + f y := by
  induction l generalizing i with
  | nil => cases h
  | cons a as ih =>
      cases i with
      | zero =>
          cases h
          simp only [List.set_cons_zero, List.map_cons, List.sum_cons]
          omega
      | succ i =>
          have hrest := ih (List.getElem?_cons_succ.symm.trans h)
          simp only [List.set_cons_succ, List.map_cons, List.sum_cons]
          omega

theorem sum_map_eraseIdx_add (f : α → Nat) (h : l[i]? = some x) :
    ((l.eraseIdx i).map f).sum + f x = (l.map f).sum := by
  induction l generalizing i with
  | nil => cases h
  | cons a as ih =>
      cases i with
      | zero =>
          cases h
          simp only [List.eraseIdx_cons_zero, List.map_cons, List.sum_cons]
          omega
      | succ i =>
          have hrest := ih (List.getElem?_cons_succ.symm.trans h)
          simp only [List.eraseIdx_cons_succ, List.map_cons, List.sum_cons]
          omega

/-- What the parties carry changes by what the one that moves drops and takes. -/
theorem filterMap_set_perm (f : α → Option β) (y : α) (h : l[i]? = some x) :
    ((f x).toList ++ (l.set i y).filterMap f).Perm ((f y).toList ++ l.filterMap f) := by
  have hcons : ∀ (a : α) (as : List α), (a :: as).filterMap f = (f a).toList ++ as.filterMap f := by
    intro a as
    cases hfa : f a with
    | none => rw [List.filterMap_cons_none hfa, Option.toList_none, List.nil_append]
    | some b => rw [List.filterMap_cons_some hfa, Option.toList_some, List.singleton_append]
  induction l generalizing i with
  | nil => cases h
  | cons a as ih =>
      cases i with
      | zero =>
          obtain rfl : a = x := by simpa using h
          rw [List.set_cons_zero, hcons, hcons]
          exact List.perm_append_comm_assoc _ _ _
      | succ i =>
          have hrest := ih (i := i) (by simpa using h)
          rw [List.set_cons_succ, hcons, hcons]
          calc ((f x).toList ++ ((f a).toList ++ (as.set i y).filterMap f)).Perm
                ((f a).toList ++ ((f x).toList ++ (as.set i y).filterMap f)) :=
                  List.perm_append_comm_assoc _ _ _
            List.Perm _ ((f a).toList ++ ((f y).toList ++ as.filterMap f)) := hrest.append_left _
            List.Perm _ ((f y).toList ++ ((f a).toList ++ as.filterMap f)) :=
                  List.perm_append_comm_assoc _ _ _

/-- A party that carries nothing leaves. -/
theorem filterMap_eraseIdx {f : α → Option β} (h : l[i]? = some x) (hx : f x = none) :
    (l.eraseIdx i).filterMap f = l.filterMap f := by
  induction l generalizing i with
  | nil => cases h
  | cons a as ih =>
      cases i with
      | zero =>
          obtain rfl : a = x := by simpa using h
          rw [List.eraseIdx_cons_zero, List.filterMap_cons_none hx]
      | succ i =>
          rw [List.eraseIdx_cons_succ, List.filterMap_cons, List.filterMap_cons,
            ih (by simpa using h)]

end Lib
end YoloServer
