import Mathlib.Tactic.Ring

/-!
# Loops without a bound

`while (true)` with `return` inside: a function `step : σ → σ ⊕ Option β` gives either the
state at the start of the next iteration or the result with which the loop is left
(`none` where the program throws).

The loop is executed with fuel.  If each further iteration makes some measure of the
state smaller (`Shrinks`), a fuel above the measure is enough, and `loop_eq` is the
equation of the loop in which the fuel no longer occurs.  `loop_induction` is the
induction rule of a loop.
-/

namespace YoloServer
namespace Lib

variable {σ β : Type*}

/-- The loop, left with `none` when the fuel is used up. -/
def loopFuel (step : σ → σ ⊕ Option β) : Nat → σ → Option β
  | 0, _ => none
  | fuel + 1, s =>
      match step s with
      | .inl s' => loopFuel step fuel s'
      | .inr result => result

/-- The loop, with as much fuel as the measure of its first state asks for. -/
def loop (step : σ → σ ⊕ Option β) (size : σ → Nat) (s : σ) : Option β :=
  loopFuel step (size s + 1) s

/-- Each iteration that stays in the loop makes the state smaller. -/
def Shrinks (step : σ → σ ⊕ Option β) (size : σ → Nat) : Prop :=
  ∀ s s', step s = .inl s' → size s' < size s

variable {step : σ → σ ⊕ Option β} {size : σ → Nat}

/-- More fuel than the measure does not change the result. -/
theorem loopFuel_eq (h : Shrinks step size) {fuel fuel' : Nat} {s : σ} (hfuel : size s < fuel)
    (hfuel' : size s < fuel') : loopFuel step fuel s = loopFuel step fuel' s := by
  induction fuel generalizing fuel' s with
  | zero => omega
  | succ fuel ih =>
      obtain ⟨fuel', rfl⟩ : ∃ k, fuel' = k + 1 := ⟨fuel' - 1, by omega⟩
      rw [loopFuel, loopFuel]
      cases hs : step s with
      | inr result => rfl
      | inl s' =>
          have hlt := h s s' hs
          exact ih (by omega) (by omega)

/-- The equation of the loop. -/
theorem loop_eq (h : Shrinks step size) (s : σ) :
    loop step size s =
      match step s with
      | .inl s' => loop step size s'
      | .inr result => result := by
  rw [loop, loopFuel]
  cases hs : step s with
  | inr result => rfl
  | inl s' =>
      have hlt := h s s' hs
      exact loopFuel_eq h hlt (Nat.lt_succ_self _)

theorem loop_of_again (h : Shrinks step size) {s s' : σ} (hs : step s = .inl s') :
    loop step size s = loop step size s' := by
  rw [loop_eq h, hs]

theorem loop_of_leave (h : Shrinks step size) {s : σ} {result : Option β}
    (hs : step s = .inr result) : loop step size s = result := by
  rw [loop_eq h, hs]

/-- The rule for what a loop returns: the property holds of the last state, and of a state
if it holds of the next one. -/
theorem loop_induction (h : Shrinks step size) {P : σ → β → Prop}
    (hleave : ∀ s b, step s = .inr (some b) → P s b)
    (hagain : ∀ s s' b, step s = .inl s' → P s' b → P s b) {s : σ} {b : β}
    (hrun : loop step size s = some b) : P s b := by
  induction hn : size s using Nat.strong_induction_on generalizing s with
  | _ n ih =>
      cases hs : step s with
      | inr result =>
          rw [loop_of_leave h hs] at hrun
          exact hleave s b (hrun ▸ hs)
      | inl s' =>
          rw [loop_of_again h hs] at hrun
          exact hagain s s' b hs (ih (size s') (hn ▸ h s s' hs) hrun rfl)

end Lib
end YoloServer
