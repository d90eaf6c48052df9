import Mathlib.Data.Finset.Card
import Mathlib.Data.List.Perm.Lattice
import Mathlib.Tactic.Ring

/-!
# Sets of voters that must, or need not, meet

* `exists_mem_of_length_lt`: two duplicate-free lists drawn from a common list
  that is shorter than both together have a common member.
* `length_of_others`: how many others a member of a duplicate-free list has.
* `exists_disjoint_subsets`: two sets of given sizes can be chosen disjointly
  from two supplies if each supply is large enough and both together are.
* `exists_disjoint_quorums_iff`: when two electorates have disjoint quorums, each
  of which contains a given member.
-/

namespace YoloServer
namespace Lib

variable {α : Type*} [DecidableEq α]

/-- Two voter lists that together outnumber the electorate share a voter. -/
theorem exists_mem_of_length_lt {electorate a b : List α} (ha : a.Nodup) (hb : b.Nodup)
    (hae : ∀ x ∈ a, x ∈ electorate) (hbe : ∀ x ∈ b, x ∈ electorate)
    (hlen : electorate.length < a.length + b.length) : ∃ x, x ∈ a ∧ x ∈ b := by
  have hsub : ∀ l : List α, (∀ x ∈ l, x ∈ electorate) → l.toFinset ⊆ electorate.toFinset := by
    intro l hl x hx
    exact List.mem_toFinset.mpr (hl x (List.mem_toFinset.mp hx))
  have hcard : electorate.toFinset.card < a.toFinset.card + b.toFinset.card := by
    rw [List.toFinset_card_of_nodup ha, List.toFinset_card_of_nodup hb]
    exact lt_of_le_of_lt (List.toFinset_card_le _) hlen
  obtain ⟨x, hx⟩ :=
    Finset.inter_nonempty_of_card_lt_card_add_card (hsub a hae) (hsub b hbe) hcard
  rw [Finset.mem_inter, List.mem_toFinset, List.mem_toFinset] at hx
  exact ⟨x, hx⟩

/-- A duplicate-free list of all the others misses one member. -/
theorem length_of_others {l others : List α} {x : α} (hl : l.Nodup) (ho : others.Nodup)
    (hx : x ∈ l) (hmem : ∀ y, y ∈ others ↔ y ∈ l ∧ y ≠ x) :
    others.length + 1 = l.length := by
  have hperm : others.Perm (l.erase x) := by
    refine (List.perm_ext_iff_of_nodup ho (hl.erase x)).mpr fun y => ?_
    rw [hmem, hl.mem_erase_iff, and_comm]
  have hpos := List.length_pos_of_mem hx
  rw [hperm.length_eq, List.length_erase_of_mem hx]
  omega

/-- Disjoint choices of `a` elements from `s` and `b` elements from `t`. -/
theorem exists_disjoint_subsets {s t : Finset α} {a b : Nat} (ha : a ≤ s.card)
    (hb : b ≤ t.card) (hab : a + b ≤ (s ∪ t).card) :
    ∃ u ⊆ s, ∃ v ⊆ t, u.card = a ∧ v.card = b ∧ Disjoint u v := by
  have hunion : (s ∪ t).card = (s \ t).card + t.card :=
    (Finset.card_sdiff_add_card s t).symm
  by_cases hown : a ≤ (s \ t).card
  · -- What `s` has for itself suffices, so `t` is free.
    obtain ⟨u, hu, hua⟩ := Finset.exists_subset_card_eq hown
    obtain ⟨v, hv, hvb⟩ := Finset.exists_subset_card_eq hb
    refine ⟨u, hu.trans Finset.sdiff_subset, v, hv, hua, hvb, ?_⟩
    exact Finset.disjoint_of_subset_left hu
      (Finset.disjoint_of_subset_right hv Finset.sdiff_disjoint)
  · -- `s` takes the missing elements from the common part.
    have hinter : (s \ t).card + (s ∩ t).card = s.card := Finset.card_sdiff_add_card_inter s t
    obtain ⟨c, hc, hcard⟩ :=
      Finset.exists_subset_card_eq (s := s ∩ t) (n := a - (s \ t).card) (by omega)
    have hct : c ⊆ t := hc.trans Finset.inter_subset_right
    have hrest : (t \ c).card = t.card - c.card := Finset.card_sdiff_of_subset hct
    obtain ⟨v, hv, hvb⟩ := Finset.exists_subset_card_eq (s := t \ c) (n := b) (by omega)
    have hdisj : Disjoint (s \ t) c := Finset.disjoint_of_subset_right hct Finset.sdiff_disjoint
    refine ⟨(s \ t) ∪ c, ?_, v, hv.trans Finset.sdiff_subset, ?_, hvb, ?_⟩
    · exact Finset.union_subset Finset.sdiff_subset (hc.trans Finset.inter_subset_left)
    · rw [Finset.card_union_of_disjoint hdisj]
      omega
    · refine Finset.disjoint_union_left.mpr ⟨?_, ?_⟩
      · exact Finset.disjoint_of_subset_right (hv.trans Finset.sdiff_subset)
          Finset.sdiff_disjoint
      · exact Finset.disjoint_of_subset_right hv Finset.disjoint_sdiff

/-- Two electorates have disjoint quorums, one with the member `x` and one with
`y`, exactly if there are enough other members for both. -/
theorem exists_disjoint_quorums_iff {s t : Finset α} {x y : α} (hx : x ∈ s) (hy : y ∈ t)
    {a b : Nat} (ha : 1 ≤ a) (hb : 1 ≤ b) :
    (∃ u v : Finset α, (u ⊆ s ∧ x ∈ u ∧ a ≤ u.card) ∧ (v ⊆ t ∧ y ∈ v ∧ b ≤ v.card) ∧
        Disjoint u v) ↔
      x ≠ y ∧ a ≤ (s \ {x, y}).card + 1 ∧ b ≤ (t \ {x, y}).card + 1 ∧
        a + b ≤ (s ∪ t).card := by
  constructor
  · rintro ⟨u, v, ⟨hus, hxu, hau⟩, ⟨hvt, hyv, hbv⟩, hdisj⟩
    have hyu : y ∉ u := fun h => Finset.disjoint_left.mp hdisj h hyv
    have hxv : x ∉ v := Finset.disjoint_left.mp hdisj hxu
    refine ⟨fun h => hyu (h ▸ hxu), ?_, ?_, ?_⟩
    · have hsub : u.erase x ⊆ s \ {x, y} := by
        intro z hz
        obtain ⟨hzx, hzu⟩ := Finset.mem_erase.mp hz
        have hzy : z ≠ y := fun h => hyu (h ▸ hzu)
        simp [hus hzu, hzx, hzy]
      have hcard := Finset.card_le_card hsub
      rw [Finset.card_erase_of_mem hxu] at hcard
      omega
    · have hsub : v.erase y ⊆ t \ {x, y} := by
        intro z hz
        obtain ⟨hzy, hzv⟩ := Finset.mem_erase.mp hz
        have hzx : z ≠ x := fun h => hxv (h ▸ hzv)
        simp [hvt hzv, hzx, hzy]
      have hcard := Finset.card_le_card hsub
      rw [Finset.card_erase_of_mem hyv] at hcard
      omega
    · have hcard := Finset.card_le_card (Finset.union_subset_union hus hvt)
      rw [Finset.card_union_of_disjoint hdisj] at hcard
      omega
  · rintro ⟨hne, has, hbt, hab⟩
    have hpair : ({x, y} : Finset α) ⊆ s ∪ t := by
      intro z hz
      rcases Finset.mem_insert.mp hz with rfl | hz
      · exact Finset.mem_union_left _ hx
      · exact Finset.mem_union_right _ (Finset.mem_singleton.mp hz ▸ hy)
    have hunion : (s \ {x, y} ∪ t \ {x, y}).card = (s ∪ t).card - 2 := by
      rw [← Finset.union_sdiff_distrib, Finset.card_sdiff_of_subset hpair,
        Finset.card_pair hne]
    obtain ⟨u, hu, v, hv, hua, hvb, hdisj⟩ := exists_disjoint_subsets
      (show a - 1 ≤ (s \ {x, y}).card by omega) (show b - 1 ≤ (t \ {x, y}).card by omega)
      (by omega)
    have hother : ∀ w : Finset α, ∀ r : Finset α, w ⊆ r \ {x, y} →
        x ∉ w ∧ y ∉ w ∧ w ⊆ r := by
      intro w r hw
      refine ⟨fun h => ?_, fun h => ?_, hw.trans Finset.sdiff_subset⟩
      · have := hw h
        simp at this
      · have := hw h
        simp at this
    obtain ⟨hxu, hyu, hus⟩ := hother u s hu
    obtain ⟨hxv, hyv, hvt⟩ := hother v t hv
    refine ⟨insert x u, insert y v, ⟨?_, by simp, ?_⟩, ⟨?_, by simp, ?_⟩, ?_⟩
    · exact Finset.insert_subset hx hus
    · rw [Finset.card_insert_of_notMem hxu]
      omega
    · exact Finset.insert_subset hy hvt
    · rw [Finset.card_insert_of_notMem hyv]
      omega
    · rw [Finset.disjoint_insert_left, Finset.disjoint_insert_right]
      exact ⟨by simp [hne, hxv], hyu, hdisj⟩

end Lib
end YoloServer
