import Mathlib.Data.List.DropRight

/-!
# Lines and margins of a text

A text is a list of characters of any kind.  `lines` cuts it at a separator the way a
line reader does: the separator after the last line may be missing.  `trim` removes from
both ends what a predicate accepts.

* `lines_unlines`: lines without a separator are read back, whether the last one is ended
  or not.
* `takeWhile_cut` and `dropWhile_cut`: a text is cut at its first separator.
* `trim_pad`: what is trimmed away around a text does not matter.
* `trim_split`: after trimming, a text is still cut at the same place by a character that
  is not trimmed away.
-/

namespace YoloServer
namespace Lib

variable {α : Type*}

section Lines

variable [DecidableEq α]

/-- The lines of a text.  A text that ends in the separator has no further, empty line. -/
def lines (sep : α) : List α → List (List α)
  | [] => []
  | c :: rest =>
      if c = sep then [] :: lines sep rest
      else
        match lines sep rest with
        | [] => [[c]]
        | line :: more => (c :: line) :: more

/-- Every line followed by the separator. -/
def unlines (sep : α) (ls : List (List α)) : List α :=
  ls.flatMap (· ++ [sep])

variable {sep : α}

theorem lines_append {line : List α} (rest : List α) (h : sep ∉ line) :
    lines sep (line ++ sep :: rest) = line :: lines sep rest := by
  induction line with
  | nil => simp [lines]
  | cons c line ih =>
      have hc : c ≠ sep := by
        rintro rfl
        exact h List.mem_cons_self
      rw [List.cons_append, lines, if_neg hc, ih fun hmem => h (List.mem_cons_of_mem _ hmem)]

theorem lines_of_not_mem {line : List α} (h : sep ∉ line) (hne : line ≠ []) :
    lines sep line = [line] := by
  induction line with
  | nil => exact absurd rfl hne
  | cons c line ih =>
      have hc : c ≠ sep := by
        rintro rfl
        exact h List.mem_cons_self
      rw [lines, if_neg hc]
      cases line with
      | nil => rfl
      | cons d line => rw [ih (fun hmem => h (List.mem_cons_of_mem _ hmem)) (by simp)]

/-- Ended lines are read back, and what follows them is read on its own. -/
theorem lines_unlines {ls : List (List α)} (rest : List α) (h : ∀ line ∈ ls, sep ∉ line) :
    lines sep (unlines sep ls ++ rest) = ls ++ lines sep rest := by
  induction ls with
  | nil => rfl
  | cons line ls ih =>
      have htail : ∀ other ∈ ls, sep ∉ other :=
        fun other hmem => h other (List.mem_cons_of_mem _ hmem)
      have hcut : unlines sep (line :: ls) ++ rest = line ++ sep :: (unlines sep ls ++ rest) := by
        simp [unlines]
      rw [hcut, lines_append _ (h line List.mem_cons_self), ih htail, List.cons_append]

theorem ne_of_not_mem {left : List α} (h : sep ∉ left) : ∀ c ∈ left, decide (c ≠ sep) = true := by
  intro c hc
  rw [decide_eq_true_eq]
  rintro rfl
  exact h hc

/-- The part before the first separator. -/
theorem takeWhile_cut {left : List α} (right : List α) (h : sep ∉ left) :
    (left ++ sep :: right).takeWhile (· ≠ sep) = left := by
  rw [List.takeWhile_append_of_pos (ne_of_not_mem h)]
  simp

/-- The first separator and what follows it. -/
theorem dropWhile_cut {left : List α} (right : List α) (h : sep ∉ left) :
    (left ++ sep :: right).dropWhile (· ≠ sep) = sep :: right := by
  rw [List.dropWhile_append_of_pos (ne_of_not_mem h)]
  simp

end Lines

section Trim

variable {p : α → Bool} {l a b : List α}

/-- The text without what `p` accepts at its two ends. -/
def trim (p : α → Bool) (l : List α) : List α :=
  (l.dropWhile p).rdropWhile p

/-- Neither end of the text is accepted. -/
structure Trimmed (p : α → Bool) (l : List α) : Prop where
  head : ∀ x ∈ l.head?, p x = false
  last : ∀ x ∈ l.getLast?, p x = false

theorem trimmed_iff : Trimmed p l ↔ l.head?.all (!p ·) = true ∧ l.getLast?.all (!p ·) = true := by
  simp only [Option.all_eq_true, Bool.not_eq_true']
  exact ⟨fun h => ⟨h.head, h.last⟩, fun h => ⟨h.1, h.2⟩⟩

instance (p : α → Bool) (l : List α) : Decidable (Trimmed p l) :=
  decidable_of_iff _ trimmed_iff.symm

theorem dropWhile_eq_self (h : ∀ x ∈ l.head?, p x = false) : l.dropWhile p = l := by
  cases l with
  | nil => rfl
  | cons c l => simp [h c rfl]

theorem trim_eq_self (h : Trimmed p l) : trim p l = l := by
  rw [trim, dropWhile_eq_self h.head, List.rdropWhile_eq_self_iff]
  intro hne
  simpa using h.last _ (List.getLast?_eq_getLast_of_ne_nil hne)

theorem rdropWhile_append_of_all (hb : ∀ x ∈ b, p x = true) :
    (l ++ b).rdropWhile p = l.rdropWhile p := by
  have hrev : ∀ x ∈ b.reverse, p x = true := fun x hx => hb x (List.mem_reverse.mp hx)
  rw [List.rdropWhile, List.reverse_append, List.dropWhile_append_of_pos hrev, List.rdropWhile]

theorem rdropWhile_append_cons {c : α} (hc : p c = false) (l b : List α) :
    (l ++ c :: b).rdropWhile p = l ++ c :: b.rdropWhile p := by
  induction b using List.reverseRecOn with
  | nil => exact List.rdropWhile_concat_neg p l c (by simp [hc])
  | append_singleton b x ih =>
      by_cases hx : p x = true
      · have hcut : l ++ c :: (b ++ [x]) = (l ++ c :: b) ++ [x] := by simp
        rw [hcut, List.rdropWhile_concat_pos p _ x hx, List.rdropWhile_concat_pos p b x hx, ih]
      · have hcut : l ++ c :: (b ++ [x]) = (l ++ c :: b) ++ [x] := by simp
        rw [hcut, List.rdropWhile_concat_neg p _ x hx, List.rdropWhile_concat_neg p b x hx, hcut]

/-- What is accepted around a text does not matter. -/
theorem trim_pad (l : List α) (ha : ∀ x ∈ a, p x = true) (hb : ∀ x ∈ b, p x = true) :
    trim p (a ++ l ++ b) = trim p l := by
  rw [trim, List.append_assoc, List.dropWhile_append_of_pos ha, List.dropWhile_append]
  by_cases hl : (l.dropWhile p).isEmpty = true
  · have hnil : l.dropWhile p = [] := List.isEmpty_iff.mp hl
    have hbnil : b.dropWhile p = [] := List.dropWhile_eq_nil_iff.mpr hb
    rw [if_pos hl, hbnil, trim, hnil]
  · rw [if_neg hl, rdropWhile_append_of_all hb, trim]

/-- A text is cut at the same place after it was trimmed. -/
theorem trim_split {c : α} (hc : p c = false) (l b : List α) :
    trim p (l ++ c :: b) = l.dropWhile p ++ c :: b.rdropWhile p := by
  have hdrop : (l ++ c :: b).dropWhile p = l.dropWhile p ++ c :: b := by
    rw [List.dropWhile_append]
    by_cases hl : (l.dropWhile p).isEmpty = true
    · rw [if_pos hl, List.isEmpty_iff.mp hl]
      simp [hc]
    · rw [if_neg hl]
  rw [trim, hdrop, rdropWhile_append_cons hc]

theorem trim_dropWhile (p : α → Bool) (l : List α) : trim p (l.dropWhile p) = trim p l := by
  rw [trim, List.dropWhile_idempotent, trim]

theorem trim_rdropWhile (p : α → Bool) (l : List α) : trim p (l.rdropWhile p) = trim p l := by
  have hpad := trim_pad (a := []) (l.rdropWhile p) (by simp)
    fun x (hx : x ∈ l.rtakeWhile p) => List.mem_rtakeWhile_imp hx
  rw [List.nil_append, List.rdropWhile_append_rtakeWhile] at hpad
  exact hpad.symm

theorem mem_of_mem_trim {x : α} (h : x ∈ trim p l) : x ∈ l :=
  (List.dropWhile_sublist p).subset ((List.rdropWhile_prefix p _).subset h)

end Trim

end Lib
end YoloServer
