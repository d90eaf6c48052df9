import Mathlib.Data.Fintype.Card
import Mathlib.Data.List.Chain
import Mathlib.Data.Set.Finite.Basic
import Mathlib.Tactic.Ring

/-!
# Chains that climb

A step relation on the members of a list, every step of which goes to a larger
member.  The members need not be comparable with each other, and different members
may step in quite different ways; a chain of steps still visits no member twice and
cannot go on for ever.

* `Climbs.nodup`: the items of a chain are distinct.
* `Climbs.exists_end`: every member reaches one from which no step is possible.
* `Climbs.end_unique`: that one is unique if no member has two ways to step.
* `Climbs.exists_top`: some member has nothing larger.
-/

namespace YoloServer
namespace Lib

open Relation

variable {α : Type*}

/-- Every step from a member goes to a larger member. -/
structure Climbs (lt step : α → α → Prop) (members : List α) : Prop where
  mem : ∀ {a b}, a ∈ members → step a b → b ∈ members
  lt : ∀ {a b}, a ∈ members → step a b → lt a b

namespace Climbs

variable {lt step : α → α → Prop} {members : List α}

/-- The items of a chain grow. -/
theorem isChain_lt (h : Climbs lt step members) {a : α} {path : List α} (ha : a ∈ members)
    (hchain : (a :: path).IsChain step) : (a :: path).IsChain lt := by
  induction path generalizing a with
  | nil => exact List.isChain_singleton a
  | cons b path ih =>
      rw [List.isChain_cons_cons] at hchain ⊢
      exact ⟨h.lt ha hchain.1, ih (h.mem ha hchain.1) hchain.2⟩

theorem nodup [IsTrans α lt] [Std.Irrefl lt] (h : Climbs lt step members) {a : α}
    {path : List α} (ha : a ∈ members) (hchain : (a :: path).IsChain step) :
    (a :: path).Nodup := by
  have hpairwise : (a :: path).Pairwise lt := List.isChain_iff_pairwise.mp (h.isChain_lt ha hchain)
  refine hpairwise.imp ?_
  rintro b c hlt rfl
  exact irrefl b hlt

/-- Among finitely many members, the larger ones come to an end. -/
theorem wellFounded_gt (lt : α → α → Prop) [IsTrans α lt] [Std.Irrefl lt] (members : List α) :
    WellFounded fun b a : { a // a ∈ members } => lt a.1 b.1 := by
  have hfinite : Finite { a // a ∈ members } := members.finite_toSet.to_subtype
  have htrans : IsTrans { a // a ∈ members } fun b a => lt a.1 b.1 :=
    ⟨fun _ _ _ hba hcb => trans_of lt hcb hba⟩
  have hirrefl : Std.Irrefl fun b a : { a // a ∈ members } => lt a.1 b.1 :=
    ⟨fun a => irrefl a.1⟩
  exact Finite.wellFounded_of_trans_of_irrefl _

/-- Every member reaches one at which the steps end. -/
theorem exists_end [IsTrans α lt] [Std.Irrefl lt] (h : Climbs lt step members) {a : α}
    (ha : a ∈ members) : ∃ b ∈ members, ReflTransGen step a b ∧ ∀ c, ¬ step b c := by
  suffices hall : ∀ a : { a // a ∈ members },
      ∃ b ∈ members, ReflTransGen step a.1 b ∧ ∀ c, ¬ step b c from hall ⟨a, ha⟩
  intro a
  -- The induction goes down from the largest members.
  induction a using (wellFounded_gt lt members).induction with
  | _ a ih =>
      by_cases hend : ∃ c, step a.1 c
      · obtain ⟨c, hstep⟩ := hend
        obtain ⟨b, hb, hreach, hlast⟩ := ih ⟨c, h.mem a.2 hstep⟩ (h.lt a.2 hstep)
        exact ⟨b, hb, .head hstep hreach, hlast⟩
      · push Not at hend
        exact ⟨a.1, a.2, .refl, hend⟩

/-- A nonempty list has a member with nothing larger in the list. -/
theorem exists_top (lt : α → α → Prop) [IsTrans α lt] [Std.Irrefl lt] {a : α}
    (ha : a ∈ members) : ∃ top ∈ members, ∀ b ∈ members, ¬ lt top b := by
  have hclimbs : Climbs lt (fun a b => b ∈ members ∧ lt a b) members :=
    ⟨fun _ hstep => hstep.1, fun _ hstep => hstep.2⟩
  obtain ⟨top, htop, -, hend⟩ := hclimbs.exists_end ha
  exact ⟨top, htop, fun b hb hlt => hend b ⟨hb, hlt⟩⟩

/-- If a member has one way to step at most, it reaches one end only. -/
theorem end_unique (hdet : ∀ a b c, step a b → step a c → b = c) {a b c : α}
    (hb : ReflTransGen step a b) (hbend : ∀ d, ¬ step b d) (hc : ReflTransGen step a c)
    (hcend : ∀ d, ¬ step c d) : b = c := by
  induction hb using ReflTransGen.head_induction_on with
  | refl =>
      rcases hc.cases_head with heq | ⟨d, hstep, -⟩
      · exact heq
      · exact absurd hstep (hbend d)
  | head hstep hrest ih =>
      rcases hc.cases_head with rfl | ⟨d, hstep', hrest'⟩
      · exact absurd hstep (hcend _)
      · exact ih (hdet _ _ _ hstep' hstep ▸ hrest')

end Climbs
end Lib
end YoloServer
